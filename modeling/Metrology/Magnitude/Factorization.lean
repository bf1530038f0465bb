/-!
# Factorization by trial division

A positive number is divided by 2 and 3 and then by the candidates `p` and `p + 2` for
`p = 5, 11, 17, …`, which are all numbers that neither 2 nor 3 divides. The search ends when `p`
exceeds the square root of what is left, or when what is left is one of three large primes known in
advance; the rest is then prime or one.
-/

namespace Metrology

/-- Primes that trial division would take long to recognize. -/
def isKnownPrime (n : Nat) : Bool :=
  n == 2147483647 || n == 334524384739 || n == 2305843009213693951

/-- Divide `n` by `p` as often as possible, at most `fuel` times. The result is the number of
divisions and what is left. -/
def divideOut (p : Nat) : Nat → Nat → Nat × Nat
  | 0, n => (0, n)
  | fuel + 1, n =>
    if n % p = 0 then
      let (count, rest) := divideOut p fuel (n / p)
      (count + 1, rest)
    else (0, n)

/-- The factors `p` of `n` followed by those of the rest. -/
def splitFactor (p n : Nat) (rest : Nat → List Nat) : List Nat :=
  let (count, m) := divideOut p n.log2 n
  List.replicate count p ++ rest m

/-- What is left when no candidate remains: nothing or one prime. -/
def lastFactor (n : Nat) : List Nat := if n ≤ 1 then [] else [n]

/-- A prime known in advance is not searched for factors. -/
def unlessKnownPrime (n : Nat) (search : Nat → List Nat) : List Nat :=
  if isKnownPrime n then [n] else search n

/-- The prime factors of a number that only candidates from `p` on divide. Each step raises `p`,
so `n` steps are always enough. -/
def wheelFactors : Nat → Nat → Nat → List Nat
  | 0, _, n => lastFactor n
  | fuel + 1, p, n =>
    if n / p < p then lastFactor n
    else if n % p = 0 ∨ n % (p + 2) = 0 then
      splitFactor p n fun n => splitFactor (p + 2) n fun n =>
        unlessKnownPrime n (wheelFactors fuel (p + 6))
    else wheelFactors fuel (p + 6) n

/-- The prime factors of a positive number in increasing order, each as often as it divides. -/
def primeFactors (n : Nat) : List Nat :=
  splitFactor 2 n fun n => splitFactor 3 n fun n => unlessKnownPrime n fun n => wheelFactors n 5 n

end Metrology
