import Monkey.Eval
import Monkey.Log
import Monkey.Parse.Rules

/-!
# Sessions

A session takes one text after another and evaluates them in one scope, so what a text binds is there for the next
one. All sessions of a `Host` share its heap; two of them see each other's bindings only if they have the same scope.

* `Session.run` gives the value of a text, `Session.execute` what to show for it.
* The limit of a session counts all that is in use on the stack, also by those who call the session. Evaluation that
  nests deeper ends as an error value, and the session can go on. This takes room on the stack as well: a session whose
  limit leaves none fails instead.
-/

namespace Monkey

/-- A text in which something is wrong: the words for it, and the file the text is from. -/
structure Malformed where
  messages : List String
  file : Option String

namespace Malformed

/-- The words for all that is wrong, in one line. -/
def message (m : Malformed) : String :=
  "; ".intercalate m.messages ++
    match m.file with
    | none => ""
    | some file => " in " ++ file

/-- The words for all that is wrong, a line each. -/
def listing (m : Malformed) : String :=
  "\n".intercalate (m.messages.map ("\t" ++ ·))

/-- The words speak of the end of the text. -/
def speaksOfEnd (message : String) : Bool :=
  "got EOF instead".toList.isSuffixOf message.toList || message = "no prefix parse function for EOF found"

/-- The text only ended too early. -/
def isIncomplete (m : Malformed) : Bool :=
  !m.messages.isEmpty && m.messages.all speaksOfEnd

end Malformed

/-- Why a session has no answer. -/
inductive Failure where
  | malformed (what : Malformed)
  | refused (why : Refusal)
  | limitTooLow
  | limitTooLarge
  /-- No more than the limit is in use already where it is to be set. -/
  | limitReached (limit : Int) (inUse : Nat)
  /-- Evaluation has halted; for its depth, if the limit has left no room for an answer. -/
  | halted (why : Halt)

/-- The words for a failure. -/
def Failure.message : Failure → String
  | .malformed what => what.message
  | .refused why => why.message
  | .limitTooLow => "recursion limit must be greater or equal than 1"
  | .limitTooLarge => "Python int too large to convert to C int"
  | .limitReached limit inUse =>
    "cannot set the recursion limit to " ++ toString limit ++ " at the recursion depth " ++ toString inUse ++
      ": the limit is too low"
  | .halted why => why.message

/-- What sessions work on: a heap, and a log in order. -/
structure Host where
  heap : Heap
  log : Array LogEntry

/-- A host on which nothing has happened. -/
def Host.empty : Host :=
  ⟨.empty, #[]⟩

/-- Work on a host, which is left as it got to, however the work ends. -/
abbrev Hosted := EStateM Failure Host

namespace Hosted

/-- Add an entry to the log. -/
def log (level : LogLevel) (source message : String) : Hosted Unit :=
  modify fun host => { host with log := host.log.push ⟨level, source, message⟩ }

/-- The answer, or the failure that stands in its place. -/
def attempt {α : Type} (x : Hosted α) : Hosted (Except Failure α) := fun host =>
  match x host with
  | .ok a host => .ok (.ok a) host
  | .error why host => .ok (.error why) host

end Hosted

/-- The stack that a session is called on, as far as its limit takes notice. -/
structure Stack where
  /-- The frames that are in use where the session sets its limit. -/
  below : Nat
  /-- The frames above them that an entry of the log takes. -/
  entry : Nat

/-- The stack so many calls further up. -/
def Stack.deeper (st : Stack) (calls : Nat) : Stack :=
  { st with below := st.below + calls }

/-- The greatest depth that a limit can ask for. -/
def maxDepth : Int := 0x7FFFFFFF

/-- The depth that is allowed where nothing else is said. -/
def defaultDepth : Int := 10000

/-- Set a limit, which must be above what is in use. -/
def Stack.setLimit (st : Stack) (limit : Int) : Hosted Unit :=
  if limit < -maxDepth - 1 ∨ maxDepth < limit then throw .limitTooLarge
  else if limit ≤ 0 then throw .limitTooLow
  else if limit ≤ st.below then throw (.limitReached limit st.below)
  else return ()

/-- A session: its scope, the file its texts are said to be from, if any, and how deep evaluation may nest. -/
structure Session where
  scope : ScopeId
  file : Option String
  limit : Int

namespace Session

/-- Where the log says that sessions speak. -/
def logSource : String := "monkeylang.session"

/-- The file of a session that reads from its user. -/
def stdinFile : String := "<stdin>"

/-- What the log calls the texts of a session. -/
def label (s : Session) : String :=
  s.file.getD "None"

/-- A session with a scope of its own. -/
def new (file : Option String) (limit : Int) (host : Host) : Session × Host :=
  let (scope, heap) := host.heap.openScope none
  (⟨scope, file, limit⟩, { host with heap })

/-- The tree of a text in which nothing is wrong. -/
def parse (s : Session) (text : String) : Hosted Node :=
  match Monkey.parse text with
  | .error why => throw (.refused why)
  | .ok p =>
    if p.diagnostics.isEmpty then return p.program
    else do
      Hosted.log .debug logSource
        ("parse of " ++ s.label ++ " failed with " ++ toString p.diagnostics.length ++ " error(s)")
      throw (.malformed ⟨p.messages, s.file⟩)

/-- How deep evaluation may nest: the limit less what is in use below. -/
def depth (s : Session) (st : Stack) : Nat :=
  (s.limit - st.below).toNat

/-- How a session takes the end of an evaluation. One that nests too deep ends as an error value if the limit leaves room
for the entry in the log that says so; the limit is still in force there. -/
def ended (s : Session) (st : Stack) (host : Host) :
    EStateM.Result Halt Heap Value → EStateM.Result Failure Host Value
  | .ok v heap => .ok v { host with heap }
  | .error .tooDeep heap =>
    if s.limit < st.below + st.entry then .error (.halted .tooDeep) { host with heap }
    else
      .ok (.error heap.nextObject .tooDeep)
        { heap := { heap with nextObject := heap.nextObject + 1 }
          log := host.log.push ⟨.warning, logSource, "evaluation in " ++ s.label ++ " hit the recursion limit"⟩ }
  | .error why heap => .error (.halted why) { host with heap }

/-- The value of a tree. -/
def eval (s : Session) (st : Stack) (program : Node) : Hosted Value := do
  st.setLimit s.limit
  fun host => s.ended st host (Monkey.eval (s.depth st) program s.scope host.heap)

/-- The value of a text. -/
def run (s : Session) (st : Stack) (text : String) : Hosted Value := do
  s.eval st (← s.parse text)

/-- What to show for the value of a program: nothing for null if the program is empty or ends with a `let`. -/
def display (program : Node) (result : Value) : String :=
  let silent :=
    match program.statements.getLast? with
    | none => true
    | some last => last.isLet
  if result.isNull && silent then "" else result.inspect

/-- What to show for the value of a tree. -/
def render (s : Session) (st : Stack) (program : Node) : Hosted String := do
  return display program (← s.eval st program)

/-- What to show for a text: what is wrong with it, or its value. -/
def execute (s : Session) (st : Stack) (text : String) : Hosted String := do
  match ← Hosted.attempt (s.parse text) with
  | .ok program => s.render st program
  | .error (.malformed what) => return what.listing
  | .error why => throw why

end Session

end Monkey
