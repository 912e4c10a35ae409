import BarScript.Expr.Document
import BarScript.Rules
import BarScript.Service.Exchange
import BarScript.Proofs.Graph.Shape
import BarScript.Proofs.Session.Transparency
import BarScript.Proofs.Session.TimeTravel
import BarScript.Proofs.Session.Containment
import BarScript.Proofs.Grammar.Inline
import BarScript.Proofs.Grammar.FirstImpossible
import BarScript.Proofs.Indicator.Tail
import BarScript.Proofs.Indicator.Convergence
import BarScript.Proofs.Session.Outcome
import BarScript.Proofs.Market.Older
import BarScript.Proofs.Evaluation.Growth
import BarScript.Proofs.Evaluation.Steady
import BarScript.Proofs.Number.Nearest
import BarScript.Proofs.Number.Decimal
import BarScript.Proofs.Number.Shortest
import BarScript.Proofs.Json.Number
import BarScript.Proofs.Json.Text
import BarScript.Proofs.Json.Parse
import BarScript.Proofs.Expr.Document
import BarScript.Proofs.Session.Pair
import BarScript.Proofs.Evaluation.Crossing
import BarScript.Proofs.Session.Loaded
import BarScript.Proofs.Session.Combined
import BarScript.Proofs.Indicator.Stochastic
import BarScript.Proofs.Indicator.Strength
import BarScript.Proofs.Expr.Misfit
import BarScript.Proofs.Grammar.Limits
import BarScript.Proofs.Indicator.Averages
import BarScript.Proofs.Indicator.Units
import BarScript.Proofs.Preset.Custom
import BarScript.Proofs.Preset.Runs
import BarScript.Proofs.Preset.Refused
import BarScript.Proofs.Strategy.Fallback
import BarScript.Proofs.Log
import BarScript.Proofs.Service.Signals
import BarScript.Proofs.Token.Partition
import BarScript.Proofs.Session.Names
import BarScript.Proofs.Session.Entries
import BarScript.Proofs.Session.Division
import BarScript.Proofs.Session.Shift
import BarScript.Proofs.Session.Bounded
import BarScript.Proofs.Grammar.Reader
