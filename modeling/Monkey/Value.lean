import Monkey.Tree

/-!
# Values

What evaluation produces. Integers, return signals, errors and functions are made anew each time and have an identity
of their own; the two truth values and null exist once. A return signal carries a value out of the function body in
which a `return` was reached, and an error ends all evaluation; both are values, so they can be bound and passed.

* `Value.same` is identity, `Value.equal` compares integers and errors by what they hold.
* `RuntimeError.message` is the one place for the words of a fault.
-/

namespace Monkey

/-- The number of a scope, in the order in which scopes are opened. -/
abbrev ScopeId := Nat

/-- The number of a value that has an identity of its own, in the order in which such values are made. -/
abbrev ObjectId := Nat

/-- The kinds of values. -/
inductive Tag where
  | integer
  | boolean
  | null
  | returned
  | error
  | function
deriving DecidableEq

/-- The name of a kind of values, as errors speak of it. -/
def Tag.name : Tag → String
  | .integer => "INTEGER"
  | .boolean => "BOOLEAN"
  | .null => "NULL"
  | .returned => "RETURN_VALUE"
  | .error => "ERROR"
  | .function => "FUNCTION"

/-- What a program can do wrong. -/
inductive RuntimeError where
  | unbound (name : String)
  | unknownUnary (op : UnaryOp) (operand : Tag)
  | unknownBinary (op : BinaryOp) (left right : Tag)
  | typeMismatch (op : BinaryOp) (left right : Tag)
  | divisionByZero
  | notAFunction (callee : Tag)
  | wrongArity (want got : Nat)
  | tooDeep
  /-- A fault in the words of whoever made it. -/
  | custom (message : String)
deriving DecidableEq

/-- The words for a fault. -/
def RuntimeError.message : RuntimeError → String
  | .unbound name => "identifier not found: " ++ name
  | .unknownUnary op operand => "unknown operator: " ++ op.symbol ++ operand.name
  | .unknownBinary op l r => "unknown operator: " ++ l.name ++ " " ++ op.symbol ++ " " ++ r.name
  | .typeMismatch op l r => "type mismatch: " ++ l.name ++ " " ++ op.symbol ++ " " ++ r.name
  | .divisionByZero => "division by zero"
  | .notAFunction callee => "not a function: " ++ callee.name
  | .wrongArity want got => "wrong number of arguments: want=" ++ toString want ++ ", got=" ++ toString got
  | .tooDeep => "maximum recursion depth exceeded"
  | .custom message => message

/-- What a function consists of: parameters, body, and the scope in which it was made. -/
structure Closure where
  parameters : List Identifier
  body : Node
  scope : ScopeId

/-- A value. -/
inductive Value where
  | integer (id : ObjectId) (value : Int)
  | boolean (value : Bool)
  | null
  | returned (id : ObjectId) (value : Value)
  | error (id : ObjectId) (cause : RuntimeError)
  | function (id : ObjectId) (closure : Closure)

/-- What makes a value the same as another: its number, or that it exists once. -/
inductive Identity where
  | boolean (value : Bool)
  | null
  | object (id : ObjectId)
deriving DecidableEq

namespace Value

/-- The kind of a value. -/
def tag : Value → Tag
  | .integer .. => .integer
  | .boolean _ => .boolean
  | .null => .null
  | .returned .. => .returned
  | .error .. => .error
  | .function .. => .function

/-- The text that shows a value; a return signal shows as what it carries. -/
def inspect : Value → String
  | .integer _ n => toString n
  | .boolean b => if b then "true" else "false"
  | .null => "null"
  | .returned _ v => v.inspect
  | .error _ e => "ERROR: " ++ e.message
  | .function _ f => "fn(" ++ ", ".intercalate (f.parameters.map Identifier.name) ++ ") \x7b...\x7d"

/-- A value in a listing: its kind, and the text that shows it. -/
def listing (v : Value) : String :=
  let kind :=
    match v with
    | .integer .. => "Integer"
    | .boolean _ => "Boolean"
    | .null => "Null"
    | .returned .. => "ReturnValue"
    | .error .. => "Error"
    | .function .. => "Function"
  kind ++ "(" ++ v.inspect ++ ")"

def isError : Value → Bool
  | .error .. => true
  | _ => false

def isNull : Value → Bool
  | .null => true
  | _ => false

/-- A value that ends the statements it comes from: a return signal or an error. -/
def isSignal : Value → Bool
  | .returned .. => true
  | .error .. => true
  | _ => false

/-- How a condition takes a value: null and false are false, all else, zero too, is true. -/
def isTruthy : Value → Bool
  | .null => false
  | .boolean b => b
  | _ => true

/-- What a return signal carries; any other value is left as it is. -/
def unwrap : Value → Value
  | .returned _ v => v
  | v => v

/-- What makes a value the same as another. -/
def identity : Value → Identity
  | .integer id _ => .object id
  | .boolean b => .boolean b
  | .null => .null
  | .returned id _ => .object id
  | .error id _ => .object id
  | .function id _ => .object id

/-- The very same value. -/
def same (v w : Value) : Bool :=
  v.identity = w.identity

/-- Equality as a host sees it: integers by their value, errors by their words, all else by identity. -/
def equal : Value → Value → Bool
  | .integer _ m, .integer _ n => m = n
  | .error _ d, .error _ e => d.message = e.message
  | v, w => v.same w

end Value

end Monkey
