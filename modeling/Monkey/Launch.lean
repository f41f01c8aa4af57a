import Monkey.Launch.FileTree
import Monkey.Session.Dialogue
import Monkey.Settings
import Monkey.Text.Utf8
import Monkey.Token.Listing
import Monkey.Tree.Text

/-!
# Launching

The program as its user starts it. With no argument it holds a dialogue, with the path of a script it evaluates the
script and shows the value of its last statement, and all else shows how it is used. `launch` gives a `Report`: what
was written, the log, and the exit code or why there is none.
-/

namespace Monkey

/-- What the arguments ask for. -/
inductive Command where
  | dialogue
  | help
  | script (path : String)
  /-- Nothing that could be done. -/
  | misuse
deriving DecidableEq

/-- The command in some arguments. -/
def Command.ofArguments : List String → Command
  | [] => .dialogue
  | [arg] =>
    if arg = "-h" || arg = "--help" then .help
    else if arg.startsWith "-" then .misuse
    else .script arg
  | _ => .misuse

/-- How the program is used. -/
def usage : String :=
  "
Monkey Language Interpreter

Usage:
    monkey <script.mk>

Arguments:
    <script.mk>
        Path to a Monkey source file to execute. The value of the
        last statement is printed.

Example:
    monkey fib.mk

Or run with no arguments to enter interactive mode (REPL).

Options:
    -h, --help
        Show this help message and exit.

Environment:
    MONKEYDEBUG             print tokens and the parsed program
    MONKEY_RECURSION_LIMIT  Python recursion limit for deep programs
"

/-- What is said at the start of a dialogue to a user, who may have no name. -/
def greeting (user : Option String) : String :=
  "Hi " ++ user.getD "there" ++ "! This is the Monkey language REPL.\n" ++
    "Feel free to type in commands.\n" ++ "To exit, type `exit` or press ctrl+d.\n"

/-- What is said when the user interrupts a dialogue. -/
def interruptNotice : String := "\nInterrupted.\n"

/-- The name of the user: the first variable that gives one, else that of the account, if it is known. -/
def userName? (environment : String → Option String) (account : Option String) : Option String :=
  (["LOGNAME", "USER", "LNAME", "USERNAME"].filterMap environment).find? (!·.isEmpty) <|> account

/-- Why a run of the program ends without an exit code. -/
inductive Breakdown where
  | failed (why : Failure)
  | undecodable (fault : Utf8Fault)
  | nullInPath

/-- The words for a run that ends without an exit code. -/
def Breakdown.message : Breakdown → String
  | .failed why => why.message
  | .undecodable fault => fault.message
  | .nullInPath => "embedded null byte"

/-- A run of the program: its exit code, if there is one, what it wrote, and its log. -/
structure Report where
  exit : Except Breakdown Nat
  written : String
  log : List LogEntry

/-- The lines of a log that are shown: with `debug` all, else warnings. -/
def shownLog (debug : Bool) (log : List LogEntry) : String :=
  String.join ((log.filter fun e => debug || e.level = .warning).map LogEntry.line)

namespace Launch

/-- The tokens and the tree of a script, for a user who wants to see them. -/
def anatomy (text : String) (program : Node) : String :=
  "\nTokens:\n\n" ++ listTokens (Cursor.ofText text).tokens ++ "\n" ++ "\nAST:\n\n" ++ program.text ++ "\n \n"

/-- Evaluate a script, one call further up the stack. -/
def runText (settings : Settings) (st : Stack) (path text : String) : Report :=
  let (session, host) := Session.new (some path) settings.limit .empty
  match session.parse text host with
  | .error (.malformed what) host =>
    ⟨.ok 1, "ParseError: " ++ path ++ "\n" ++ Dialogue.onLine what.listing, host.log.toList⟩
  | .error why host => ⟨.error (.failed why), "", host.log.toList⟩
  | .ok program host =>
    let shown := if settings.debug then anatomy text program else ""
    match session.eval (st.deeper 1) program host with
    | .error why host => ⟨.error (.failed why), shown, host.log.toList⟩
    | .ok v host =>
      ⟨.ok (if v.isError then 1 else 0), shown ++ Dialogue.onLine (Session.display program v), host.log.toList⟩

/-- Evaluate the script in a file; no path holds a null character. -/
def runFile (settings : Settings) (st : Stack) (path : String) (content : Except FileProblem (List UInt8)) : Report :=
  if path.toList.contains '\x00' then ⟨.error .nullInPath, "", []⟩
  else
    match content with
    | .error problem => ⟨.ok 1, problem.message path ++ "\n", []⟩
    | .ok bytes =>
      match decodeUtf8 bytes with
      | .error fault => ⟨.error (.undecodable fault), "", []⟩
      | .ok cs => runText settings st path (.ofList (unifyNewlines cs))

/-- Hold a dialogue with a user over a text, at the end of which the user may interrupt it. Its texts are evaluated
three calls further up the stack. -/
def holdDialogue (settings : Settings) (st : Stack) (user : Option String) (text : String) (interrupted : Bool) :
    Report :=
  let (session, host) := Session.new (some Session.stdinFile) settings.limit .empty
  let (t, host) := Dialogue.ofText session (st.deeper 3) text interrupted host
  let written := greeting user ++ t.written
  match t.ending with
  | .closed => ⟨.ok 0, written, host.log.toList⟩
  | .interrupted => ⟨.ok 0, written ++ interruptNotice, host.log.toList⟩
  | .failed why => ⟨.error (.failed why), written, host.log.toList⟩

end Launch

/-- What the program finds when it is started. -/
structure Surroundings where
  /-- The stack of a session that is called at once. -/
  stack : Stack
  arguments : List String
  environment : String → Option String
  /-- The name of the user, if it can be found. -/
  user : Option String
  input : String
  interrupted : Bool
  read : String → Except FileProblem (List UInt8)

/-- Run the program; the lines of its log that are shown come with the report. -/
def launch (s : Surroundings) : Report × String :=
  match Settings.load s.environment with
  | .error e => (⟨.ok 1, e.line, []⟩, "")
  | .ok settings =>
    let report :=
      match Command.ofArguments s.arguments with
      | .dialogue => Launch.holdDialogue settings s.stack s.user s.input s.interrupted
      | .help => ⟨.ok 0, usage, []⟩
      | .script path => Launch.runFile settings s.stack path (s.read path)
      | .misuse => ⟨.ok 1, usage, []⟩
    (report, shownLog settings.debug report.log)

end Monkey
