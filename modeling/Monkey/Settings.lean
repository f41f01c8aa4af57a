import Monkey.Session
import Monkey.Text.Numeral
import Monkey.Text.Space

/-!
# Settings

What the surroundings of the program may set: whether it shows its work, and how deep evaluation may nest.
-/

namespace Monkey

/-- The settings. -/
structure Settings where
  debug : Bool
  limit : Int

/-- What can be wrong with the limit that is set. -/
inductive SettingsError where
  | notAnInteger (text : String)
  | notPositive (limit : Int)

/-- The words for what is wrong. -/
def SettingsError.message : SettingsError → String
  | .notAnInteger text => "MONKEY_RECURSION_LIMIT must be an integer, got '" ++ text ++ "'"
  | .notPositive limit => "MONKEY_RECURSION_LIMIT must be positive, got " ++ toString limit

/-- What is wrong, as a line of text. -/
def SettingsError.line (e : SettingsError) : String :=
  "ValueError: " ++ e.message ++ "\n"

namespace Settings

/-- The limit that a text sets; white space alone sets none. -/
def limitOf (text : String) : Except SettingsError Int :=
  let text := trim text
  if text.isEmpty then .ok defaultDepth
  else
    match readInt? text.toList with
    | none => .error (.notAnInteger text)
    | some limit => if limit ≤ 0 then .error (.notPositive limit) else .ok limit

/-- The settings that some variables make. -/
def load (environment : String → Option String) : Except SettingsError Settings := do
  let debug := (environment "MONKEYDEBUG").getD ""
  let limit ← limitOf ((environment "MONKEY_RECURSION_LIMIT").getD "")
  return ⟨debug ≠ "" ∧ debug ≠ "0", limit⟩

end Settings

end Monkey
