import Monkey.Session
import Monkey.Text.Lines
import Monkey.Text.Space

/-!
# Dialogues

A dialogue reads lines and answers them in a session. Lines whose text only ends too early are held back until the
lines that follow complete it. `exit` or `quit` ends a dialogue that holds nothing back, and so does the end of input.
-/

namespace Monkey

/-- A dialogue: its session, and the lines that are held back. -/
structure Dialogue where
  session : Session
  pending : List String

namespace Dialogue

/-- Where the log says that dialogues speak. -/
def logSource : String := "monkeylang.repl"

/-- What is shown before a line is read. -/
def prompt (d : Dialogue) : String :=
  if d.pending.isEmpty then ">> " else ".. "

/-- A line that ends a dialogue. -/
def isFarewell (line : String) : Bool :=
  trim line = "exit" || trim line = "quit"

/-- Text on a line of its own; nothing if there is none. -/
def onLine (text : String) : String :=
  if text.isEmpty then "" else text ++ "\n"

/-- Take a line: what is shown for it and the dialogue behind it, or nothing if the line ends the dialogue. -/
def take (d : Dialogue) (st : Stack) (line : String) : Hosted (Option (String × Dialogue)) := do
  if d.pending.isEmpty && isFarewell line then return none
  else
    let pending := d.pending ++ [line]
    match ← Hosted.attempt (d.session.parse ("\n".intercalate pending)) with
    | .ok program => return some (onLine (← d.session.render st program), { d with pending := [] })
    | .error (.malformed what) =>
      if what.isIncomplete then
        Hosted.log .debug logSource ("buffering incomplete input (" ++ toString pending.length ++ " line(s))")
        return some ("", { d with pending })
      else return some (what.listing ++ "\n", { d with pending := [] })
    | .error why => throw why

/-- What is shown for the lines held back at the end of input, which are executed one call further up. -/
def finish (d : Dialogue) (st : Stack) : Hosted String := do
  if d.pending.isEmpty then return ""
  else return onLine (← d.session.execute (st.deeper 1) ("\n".intercalate d.pending))

/-- How a dialogue ended. -/
inductive Ending where
  | closed
  | interrupted
  | failed (why : Failure)

/-- A dialogue that has ended: what it wrote, the lines it did not read, and how it ended. -/
structure Transcript where
  written : String
  unread : List String
  ending : Ending

/-- A transcript with more written before it. -/
def Transcript.after (text : String) (t : Transcript) : Transcript :=
  { t with written := text ++ t.written }

/-- A line without the newline that ends it. -/
def stripNewline (line : String) : String :=
  .ofList (line.toList.filter (· ≠ '\n'))

/-- Hold a dialogue over some lines of input, after which the user may interrupt it. -/
def hold (d : Dialogue) (st : Stack) (interrupted : Bool) : List String → Host → Transcript × Host
  | [], host =>
    if interrupted then (⟨d.prompt, [], .interrupted⟩, host)
    else
      match d.finish st host with
      | .ok shown host => (⟨d.prompt ++ "\n" ++ shown, [], .closed⟩, host)
      | .error why host => (⟨d.prompt ++ "\n", [], .failed why⟩, host)
  | line :: lines, host =>
    match d.take st (stripNewline line) host with
    | .ok none host => (⟨d.prompt, lines, .closed⟩, host)
    | .ok (some (shown, d')) host =>
      let (t, host) := d'.hold st interrupted lines host
      (t.after (d.prompt ++ shown), host)
    | .error why host => (⟨d.prompt, lines, .failed why⟩, host)

/-- Hold a dialogue over a text. -/
def ofText (session : Session) (st : Stack) (text : String) (interrupted : Bool) (host : Host) : Transcript × Host :=
  Dialogue.hold ⟨session, []⟩ st interrupted (inputLines text) host

end Dialogue

end Monkey
