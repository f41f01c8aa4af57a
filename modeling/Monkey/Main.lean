import Monkey.Launch

/-!
# The command line

The program on a terminal: it reads the variables and files that `Launch` asks for, holds a dialogue line by line, and
writes what comes of it.
-/

namespace Monkey.CommandLine

/-- The variables that settings and the user's name are read from. -/
def variableNames : List String :=
  ["MONKEYDEBUG", "MONKEY_RECURSION_LIMIT", "LOGNAME", "USER", "LNAME", "USERNAME"]

/-- The variables that are set. -/
def environment : IO (String → Option String) := do
  let set ← variableNames.mapM fun name => return (name, ← IO.getEnv name)
  return fun name => (set.lookup name).join

/-- The number of a system's error, which some calls give negated. -/
def errorNumber (code : UInt32) : UInt32 :=
  min code (0 - code)

/-- The bytes of a file, or why it cannot be opened. -/
def readFile (path : String) : IO (Except FileProblem (List UInt8)) := do
  try
    return .ok (← IO.FS.readBinFile path).toList
  catch
    | .noFileOrDirectory .. => return .error .notFound
    | .inappropriateType _ code _ => return .error (if errorNumber code = 21 then .isDirectory else .notADirectory)
    | e@(.invalidArgument _ code _) => if errorNumber code = 36 then return .error .nameTooLong else throw e
    | e => throw e

/-- The stack of a session that the program calls at once. -/
def stack : Stack :=
  ⟨4, 14⟩

/-- Write text at once. -/
def say (text : String) : IO Unit := do
  let out ← IO.getStdout
  out.putStr text
  out.flush

/-- Write the part of a log that is shown. -/
def sayLog (debug : Bool) (log : List LogEntry) : IO Unit := do
  (← IO.getStderr).putStr (shownLog debug log)

/-- End without an exit code of the program's own. -/
def breakDown (why : Breakdown) : IO UInt32 := do
  (← IO.getStderr).putStrLn why.message
  return 1

/-- Hold a dialogue over standard input. -/
partial def converse (debug : Bool) (d : Dialogue) (host : Host) : IO UInt32 := do
  say d.prompt
  let line ← (← IO.getStdin).getLine
  if line.isEmpty then
    say "\n"
    match d.finish (stack.deeper 3) host with
    | .ok shown host =>
      sayLog debug host.log.toList
      say shown
      return 0
    | .error why host =>
      sayLog debug host.log.toList
      breakDown (.failed why)
  else
    match d.take (stack.deeper 3) (Dialogue.stripNewline line) host with
    | .ok none _ => return 0
    | .ok (some (shown, d)) host =>
      sayLog debug host.log.toList
      say shown
      converse debug d { host with log := #[] }
    | .error why host =>
      sayLog debug host.log.toList
      breakDown (.failed why)

/-- Write a report. -/
def deliver (debug : Bool) (report : Report) : IO UInt32 := do
  sayLog debug report.log
  say report.written
  match report.exit with
  | .ok code => return code.toUInt32
  | .error why => breakDown why

/-- Run the program with some arguments. -/
def run (arguments : List String) : IO UInt32 := do
  let environment ← environment
  match Settings.load environment with
  | .error e => deliver false ⟨.ok 1, e.line, []⟩
  | .ok settings =>
    match Command.ofArguments arguments with
    | .dialogue =>
      say (greeting (userName? environment none))
      let (session, host) := Session.new (some Session.stdinFile) settings.limit .empty
      converse settings.debug ⟨session, []⟩ host
    | .script path => deliver settings.debug (Launch.runFile settings stack path (← readFile path))
    | .help => deliver settings.debug ⟨.ok 0, usage, []⟩
    | .misuse => deliver settings.debug ⟨.ok 1, usage, []⟩

end Monkey.CommandLine

def main (arguments : List String) : IO UInt32 :=
  Monkey.CommandLine.run arguments
