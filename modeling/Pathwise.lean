import Pathwise.Eval
import Pathwise.Main
import Pathwise.Program.Builder
import Pathwise.Proofs.Calls
import Pathwise.Proofs.Dominance
import Pathwise.Proofs.Defects
import Pathwise.Proofs.Queries
import Pathwise.Proofs.Walk
import Pathwise.Proofs.Instantiation
import Pathwise.Proofs.WellTyped
import Pathwise.Proofs.FreeNames
import Pathwise.Proofs.Sorting
import Pathwise.Proofs.Denotation
import Pathwise.Proofs.Evaluation
import Pathwise.Proofs.Expansion
import Pathwise.Proofs.Modularity
import Pathwise.Proofs.Lexicon
import Pathwise.Proofs.Definitions
import Pathwise.Proofs.Reading
import Pathwise.Proofs.ScriptText
import Pathwise.Proofs.Depth
import Pathwise.Proofs.JsonText
import Pathwise.Proofs.KeepGoing
import Pathwise.Proofs.Building
import Pathwise.Proofs.RoundTrip
import Pathwise.Proofs.SubstLaws
import Pathwise.Proofs.Replay
import Pathwise.Proofs.TypeSafety
import Pathwise.Proofs.EvalSubst
import Pathwise.Proofs.Havoc
import Pathwise.Proofs.Sessions
import Pathwise.Proofs.Arrays
import Pathwise.Proofs.Occurrences
import Pathwise.Proofs.EncodeSubst
import Pathwise.Proofs.Overflow
import Pathwise.Proofs.Scalars
import Pathwise.Proofs.Tokens
import Pathwise.Proofs.ScriptSexps
import Pathwise.Proofs.Replies
