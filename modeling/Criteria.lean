import Criteria.Binary64
import Criteria.Condition
import Criteria.Condition.Display
import Criteria.Condition.Factory
import Criteria.Condition.Normal
import Criteria.Connective
import Criteria.Counters
import Criteria.Decimal
import Criteria.Error
import Criteria.Float64
import Criteria.Float64.Shortest
import Criteria.Json
import Criteria.Json.Numeral
import Criteria.Json.Reader
import Criteria.Json.Token
import Criteria.Operand
import Criteria.Operand.Display
import Criteria.OperandSet
import Criteria.Operator
import Criteria.Recipe
import Criteria.Recorded
import Criteria.Session
import Criteria.Wildcards
import Criteria.Wire.Condition
import Criteria.Wire.Counters
import Criteria.Wire.Name
import Criteria.Wire.Operand
import Criteria.Wire.Wildcards
import Criteria.Proofs.Evaluation
import Criteria.Proofs.Rewriting
import Criteria.Proofs.Matching
import Criteria.Proofs.Validity
import Criteria.Proofs.Atoms
import Criteria.Proofs.Canonical
import Criteria.Proofs.Decoding
import Criteria.Proofs.Obtainable
import Criteria.Proofs.ReadingBack
import Criteria.Proofs.RoundTrip
import Criteria.Proofs.Negation
import Criteria.Proofs.WellFormed
import Criteria.Proofs.Scoping
import Criteria.Proofs.Recording
import Criteria.Proofs.Accounting
import Criteria.Proofs.Nesting
import Criteria.Proofs.Reencoding
import Criteria.Proofs.TotalOrder
import Criteria.Proofs.AbsentOperands
import Criteria.Proofs.DisplayedOperands
import Criteria.Proofs.DisplayedConditions
import Criteria.Proofs.FixedPoints
import Criteria.Proofs.Duals
import Criteria.Proofs.FactoryMade
import Criteria.Proofs.Constants
import Criteria.Proofs.Answers
import Criteria.Proofs.CollectedSets
import Criteria.Proofs.ComplementaryCalls
import Criteria.Proofs.KeptAtoms
import Criteria.Proofs.Unescaping
import Criteria.Proofs.ExactNumbers
import Criteria.Proofs.Tallies
