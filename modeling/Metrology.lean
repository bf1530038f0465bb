import Metrology.Ratio
import Metrology.Ratio.Fraction
import Metrology.Symbol
import Metrology.PowerProduct.Text
import Metrology.Magnitude.Value
import Metrology.Dimension
import Metrology.ScalePrefix
import Metrology.Factor
import Metrology.Convertibility.CommonSpec
import Metrology.NamedQuantity.Declaration
import Metrology.MeasureUnit.Spec
import Metrology.PointOrigin
import Metrology.Representation.NumberType
import Metrology.Representation.Vector3
import Metrology.Representation.Wide
import Metrology.Interchange
import Metrology.Catalog
import Metrology.Reference
import Metrology.Quantity
import Metrology.Quantity.Text
import Metrology.Point
import Metrology.Clock
import Metrology.Interchange.Position
import Metrology.Interchange.Decode
import Metrology.Listing.CommandLine
import Metrology.Main
import Metrology.Worked.Motion
import Metrology.Worked.TotalEnergy
import Metrology.Worked.Extension
import Metrology.Catalog.Lookup
import Metrology.Worked.Displacement
import Metrology.Representation.BitText
import Metrology.Worked.Calculation
import Metrology.Proofs.Factor.Expression
import Metrology.Proofs.MeasureUnit.Groupoid
import Metrology.Proofs.Convertibility.Search
import Metrology.Proofs.Convertibility.CommonSpec
import Metrology.Proofs.Convertibility.Multiplication
import Metrology.Proofs.Convertibility.Named
import Metrology.Proofs.Quantity.Mixture
import Metrology.Proofs.Factor.Identity
import Metrology.Proofs.Convertibility.Step
import Metrology.Proofs.Factor.Reachable
import Metrology.Proofs.Hierarchy.Dimension
import Metrology.Proofs.Convertibility.Conservation
import Metrology.Proofs.Convertibility.Kind
import Metrology.Proofs.MeasureUnit.Kind
import Metrology.Proofs.Reference.Kind
import Metrology.Proofs.Magnitude.Factorization
import Metrology.Proofs.Magnitude.Checked
import Metrology.Proofs.Convertibility.Commutation
import Metrology.Proofs.Convertibility.Termination
import Metrology.Proofs.Convertibility.Foremost
import Metrology.Proofs.Convertibility.Inversion
import Metrology.Proofs.Convertibility.NamedCommon
import Metrology.Proofs.Convertibility.Equation
import Metrology.Proofs.Magnitude.Correspondence
import Metrology.Proofs.MeasureUnit.GreatestCommonUnit
import Metrology.Proofs.Point.Anchor
import Metrology.Proofs.PointOrigin.Offset
import Metrology.Proofs.Quantity.RoundTrip
import Metrology.Proofs.MeasureUnit.Group
import Metrology.Proofs.Factor.Text
import Metrology.Proofs.Magnitude.TrialDivision
import Metrology.Proofs.Hierarchy.CommonBase
import Metrology.Proofs.Representation.Scaling
import Metrology.Proofs.Representation.Power
import Metrology.Proofs.Ratio.Subtraction
