import Monkey.Heap
import Monkey.Word

/-!
# Evaluation

`eval depth node scope` is the value of a node in a scope. Faults of a program are error values: whatever needs the
value of a part and gets an error has that error as its own value. A `return` gives a return signal, which ends the
statements of every block around it and is unwrapped where a function body or a program ends.

Evaluation halts without a value in two cases, a node that has no meaning and a nesting deeper than `depth`; what has
been bound by then stays bound. Each evaluation of a node, and within it each run over a program's statements, a
block's statements or a list of arguments, each choice between two branches and each call, is one level of nesting.
-/

namespace Monkey

/-- Why evaluation halts without a value. -/
inductive Halt where
  /-- A child that is needed is not there. -/
  | missingNode
  /-- Of a node that is needed only the class is known. -/
  | unknownNode (cls : NodeClass)
  /-- The nesting is deeper than allowed. -/
  | tooDeep
deriving DecidableEq

/-- The words for a halt; a node that is not there has a class of its own. -/
def Halt.message : Halt → String
  | .missingNode => "Unknown node type 'NoneType'"
  | .unknownNode cls => "Unknown node type '" ++ cls.name ++ "'"
  | .tooDeep => RuntimeError.tooDeep.message

/-- Evaluation works on the heap, which it leaves as it got to, however it ends. -/
abbrev Eval := EStateM Halt Heap

namespace Eval

/-! ## Making values -/

/-- A value with an identity of its own. -/
def make (value : ObjectId → Value) : Eval Value :=
  modifyGet fun h => (value h.nextObject, { h with nextObject := h.nextObject + 1 })

/-- A new integer. -/
def integer (n : Int) : Eval Value :=
  make (.integer · n)

/-- A new return signal. -/
def signal (v : Value) : Eval Value :=
  make (.returned · v)

/-- A new error. -/
def fail (cause : RuntimeError) : Eval Value :=
  make (.error · cause)

/-- A new function. -/
def function (closure : Closure) : Eval Value :=
  make (.function · closure)

/-! ## Scopes -/

/-- A new scope. -/
def openScope (outer : Option ScopeId) : Eval ScopeId :=
  modifyGet fun h => h.openScope outer

/-- Bind a name. -/
def bind (scope : ScopeId) (name : String) (value : Value) : Eval Unit :=
  modify fun h => h.bind scope name value

/-- Bind parameters to arguments, in order. -/
def bindAll (scope : ScopeId) : List Identifier → List Value → Eval Unit
  | p :: ps, v :: vs => do
    bind scope p.name v
    bindAll scope ps vs
  | _, _ => return ()

/-- The value a name is bound to. -/
def lookup (scope : ScopeId) (name : String) : Eval Value := do
  match (← get).lookup scope name with
  | some v => return v
  | none => fail (.unbound name)

/-! ## Operators -/

/-- An operator applied to one operand. -/
def unary (op : UnaryOp) (operand : Value) : Eval Value :=
  match op, operand with
  | .not, v => return .boolean (!v.isTruthy)
  | .negate, .integer _ n => integer (wrap (-n))
  | op, v => fail (.unknownUnary op v.tag)

/-- An operator applied to two integers. -/
def integers (op : BinaryOp) (a b : Int) : Eval Value :=
  match op with
  | .add => integer (wrap (a + b))
  | .sub => integer (wrap (a - b))
  | .mul => integer (wrap (a * b))
  | .div => if b = 0 then fail .divisionByZero else integer (quotient a b)
  | .lt => return .boolean (a < b)
  | .gt => return .boolean (a > b)
  | .eq => return .boolean (a = b)
  | .ne => return .boolean (a ≠ b)
  | .other _ => fail (.unknownBinary op .integer .integer)

/-- An operator applied to two operands that are not both integers. -/
def objects (op : BinaryOp) (left right : Value) : Eval Value :=
  match op with
  | .eq => return .boolean (left.same right)
  | .ne => return .boolean (!left.same right)
  | _ =>
    if left.tag = right.tag then fail (.unknownBinary op left.tag right.tag)
    else fail (.typeMismatch op left.tag right.tag)

/-- An operator applied to two operands. -/
def binary (op : BinaryOp) (left right : Value) : Eval Value :=
  match left, right with
  | .integer _ a, .integer _ b => integers op a b
  | _, _ => objects op left right

/-! ## Order of evaluation -/

/-- Go on with a value, unless it is an error. -/
def proceed (x : Eval Value) (next : Value → Eval Value) : Eval Value := do
  let v ← x
  if v.isError then return v else next v

/-- The value of the last of some statements, or the first signal among their values; `last` if there is none. -/
def sequence (each : Node → Eval Value) (last : Value) : List Node → Eval Value
  | [] => return last
  | s :: rest => do
    let v ← each s
    if v.isSignal then return v else sequence each v rest

/-- The values of some expressions, from left to right, or the first error among them. -/
def collect (each : Node → Eval Value) : List Node → Eval (Except Value (List Value))
  | [] => return .ok []
  | e :: rest => do
    let v ← each e
    if v.isError then return .error v
    else
      match ← collect each rest with
      | .ok vs => return .ok (v :: vs)
      | .error err => return .error err

end Eval

open Eval

mutual

/-- The value of a node in a scope. -/
def eval : Nat → Node → ScopeId → Eval Value
  | 0, _, _ => throw .tooDeep
  | depth + 1, node, scope =>
    match node with
    | .hole => throw .missingNode
    | .unknown cls => throw (.unknownNode cls)
    | .program ss => evalProgram depth ss scope
    | .block _ ss => evalBlock depth ss scope
    | .expressionStatement _ e => eval depth e scope
    | .letStatement _ target value =>
      proceed (eval depth value scope) fun v => do
        bind scope target.name v
        return .null
    | .returnStatement _ .hole => signal .null
    | .returnStatement _ value => proceed (eval depth value scope) signal
    | .identifier id => lookup scope id.name
    | .integer _ n => integer n
    | .boolean _ b => return .boolean b
    | .function _ ps body => Eval.function ⟨ps, body, scope⟩
    | .unary _ op operand => proceed (eval depth operand scope) (unary op)
    | .binary _ left op right =>
      proceed (eval depth left scope) fun l => proceed (eval depth right scope) (binary op l)
    | .conditional _ c t e => evalConditional depth c t e scope
    | .call _ callee args =>
      proceed (eval depth callee scope) fun f => do
        match ← evalArguments depth args scope with
        | .ok vs => apply depth f vs
        | .error err => return err

/-- The value of a program: that of its last statement, or what a `return` among them gives. -/
def evalProgram : Nat → List Node → ScopeId → Eval Value
  | 0, _, _ => throw .tooDeep
  | depth + 1, ss, scope => do
    let v ← sequence (fun s => eval depth s scope) .null ss
    return v.unwrap

/-- The value of a block: that of its last statement, or the first signal among their values. -/
def evalBlock : Nat → List Node → ScopeId → Eval Value
  | 0, _, _ => throw .tooDeep
  | depth + 1, ss, scope => sequence (fun s => eval depth s scope) .null ss

/-- The value of the branch that a condition chooses; null if that branch is not there. -/
def evalConditional : Nat → Node → Node → Node → ScopeId → Eval Value
  | 0, _, _, _, _ => throw .tooDeep
  | depth + 1, c, t, e, scope =>
    proceed (eval depth c scope) fun v =>
      if v.isTruthy then eval depth t scope
      else
        match e with
        | .hole => return .null
        | e => eval depth e scope

/-- The values of the arguments of a call, or the first error among them. -/
def evalArguments : Nat → List Node → ScopeId → Eval (Except Value (List Value))
  | 0, _, _ => throw .tooDeep
  | depth + 1, args, scope => collect (fun a => eval depth a scope) args

/-- The value of a call: that of the body, in a new scope inside the function's own that binds the parameters. -/
def apply : Nat → Value → List Value → Eval Value
  | 0, _, _ => throw .tooDeep
  | depth + 1, callee, args =>
    match callee with
    | .function _ f =>
      if args.length = f.parameters.length then do
        let scope ← openScope (some f.scope)
        bindAll scope f.parameters args
        let v ← eval depth f.body scope
        return v.unwrap
      else fail (.wrongArity f.parameters.length args.length)
    | v => fail (.notAFunction v.tag)

end

end Monkey
