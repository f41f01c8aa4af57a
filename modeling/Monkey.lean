import Monkey.Main
import Monkey.Proofs.Editor.Requests
import Monkey.Proofs.Eval.Arithmetic
import Monkey.Proofs.Eval.Raising
import Monkey.Proofs.Eval.Range
import Monkey.Proofs.Eval.Signal
import Monkey.Proofs.Eval.Uncaptured
import Monkey.Proofs.Parse.Effort
import Monkey.Proofs.Parse.Holes
import Monkey.Proofs.Parse.Order
import Monkey.Proofs.Session.Incomplete
import Monkey.Proofs.Session.Piecewise
import Monkey.Proofs.Session.Replay
import Monkey.Proofs.Eval.Deeper
import Monkey.Proofs.Session.Limit
import Monkey.Proofs.Session.Display
import Monkey.Proofs.Eval.Closed
import Monkey.Proofs.Eval.Purity
import Monkey.Proofs.Token.Layout
import Monkey.Proofs.Eval.Layout
import Monkey.Proofs.Heap.Shadowing
import Monkey.Proofs.Token.Sharing
import Monkey.Proofs.Editor.Ranges
import Monkey.Proofs.Parse.Braces
import Monkey.Proofs.Eval.Rooted
