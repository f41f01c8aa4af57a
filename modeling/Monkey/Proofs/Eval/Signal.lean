import Monkey.Proofs.Eval.Invariant
import Monkey.Proofs.Eval.Return

/-!
# Where return signals are unwrapped

A program and a call unwrap the signal that they are given, once. So they never give one, unless a signal carries
another one. Such a signal is made by a `return` whose own value is a signal, and by nothing else
(`result_ne_returned`).

Where no conditional with a `return` in it is the value of a `let` or of a `return`, or an argument, there is no such
`return` (`returnsNoSignal_of_contained`). That can be seen from the text of a program.
-/

namespace Monkey

/-- A value that is no return signal, or one that carries none. -/
def Value.Flat (v : Value) : Prop :=
  v.unwrap.tag ≠ .returned

namespace Value

variable {v : Value}

/-- Unwrapping changes nothing but a return signal. -/
theorem unwrap_of_ne (hv : v.tag ≠ .returned) : v.unwrap = v := by
  cases v with
  | returned => exact absurd rfl hv
  | _ => rfl

/-- A value that is no return signal carries none. -/
theorem Flat.of_ne (hv : v.tag ≠ .returned) : v.Flat := by
  rwa [Flat, unwrap_of_ne hv]

/-- A computed value is no return signal. -/
theorem tag_ne_of_isComputed (hv : v.isComputed) : v.tag ≠ .returned := by
  cases v with
  | returned => cases hv
  | _ => exact nofun

end Value

namespace Evaluation

open Eval

/-- On the way, the value of a `return` is never a return signal itself. -/
def ReturnsNoSignal (a : Evaluation) : Prop :=
  ∀ (depth : Nat) (t : Token) (value : Node) (scope : ScopeId) (h : Heap) (v : Value) (h' : Heap),
    Performs a (.node (depth + 1) (.returnStatement t value) scope h) → eval depth value scope h = .ok v h' →
      v.tag ≠ .returned

/-- What never returns a signal has no part that does. -/
theorem ReturnsNoSignal.of_starts {a b : Evaluation} (ha : a.ReturnsNoSignal) (hab : Starts a b) : b.ReturnsNoSignal :=
  fun depth t value scope h v h' hb => ha depth t value scope h v h' (.head hab hb)

/-- An evaluation that unwraps a signal: that of a program or a call. -/
def unwraps : Evaluation → Bool
  | .node _ (.program _) _ _ => true
  | .node .. => false
  | .call .. => true

/-- What hands on the value of a part does not unwrap it. -/
theorem Passes.not_unwraps {a b : Evaluation} (hab : Passes a b) : a.unwraps = false := by
  cases hab <;> rfl

/-- What comes of an evaluation carries no signal within a signal, and comes out of a program or a call unwrapped. -/
def flat : Invariant where
  covers := ReturnsNoSignal
  gives a v := v.Flat ∧ (a.unwraps → v.tag ≠ .returned)
  binds := Value.Flat
  starts ha hab := ha.of_starts hab
  calls ha hab _ := ha.of_starts hab
  passes _ hab hv := ⟨hv.1, fun ha => absurd (hab.not_unwraps.symm.trans ha) Bool.false_ne_true⟩
  opens _ _ hv := ⟨.of_ne hv.1, fun _ => hv.1⟩
  called _ hv := ⟨hv.1, nofun⟩
  computed _ hv := ⟨.of_ne (Value.tag_ne_of_isComputed hv), fun _ => Value.tag_ne_of_isComputed hv⟩
  literal _ _ := ⟨nofun, nofun⟩
  identifier _ hv := ⟨hv, nofun⟩
  function _ _ := ⟨nofun, nofun⟩
  returnNothing _ _ := ⟨nofun, nofun⟩
  returnValue _ ha heq _ _ := ⟨ha _ _ _ _ _ _ _ .refl heq, nofun⟩
  letValue _ hv _ := hv.1
  argument _ _ hv _ := hv.1

end Evaluation

open Evaluation (Performs ReturnsNoSignal)

/-! ## Signals that stay where they are made -/

namespace Node

mutual

/-- What a node gives may be a return signal. -/
def mayReturn : Node → Bool
  | .returnStatement .. => true
  | .expressionStatement _ e => e.mayReturn
  | .block _ ss => anyMayReturn ss
  | .conditional _ _ t e => t.mayReturn || e.mayReturn
  | _ => false

/-- What one of some nodes gives may be a return signal. -/
def anyMayReturn : List Node → Bool
  | [] => false
  | s :: ss => s.mayReturn || anyMayReturn ss

end

/-- Where no node may give a signal, each of them does not. -/
theorem mayReturn_of_mem {n : Node} : ∀ {ns : List Node}, anyMayReturn ns = false → n ∈ ns → n.mayReturn = false
  | m :: ns, hns, hn => by
    rw [anyMayReturn, Bool.or_eq_false_iff] at hns
    rcases List.mem_cons.1 hn with rfl | hn
    · exact hns.1
    · exact mayReturn_of_mem hns.2 hn

/-- A node does not bind, pass or return what may be a return signal. -/
def handsOnNoSignal : Node → Bool
  | .letStatement _ _ value => !value.mayReturn
  | .returnStatement _ value => !value.mayReturn
  | .call _ _ args => !anyMayReturn args
  | _ => true

/-- Nowhere in a tree is what may be a return signal bound, passed or returned. -/
def contained (n : Node) : Bool :=
  n.all handsOnNoSignal

section Contained

variable {t : Token} {target : Identifier} {n value callee body : Node} {args : List Node} {ps : List Identifier}

/-- Where signals stay, the value of a `let` is none. -/
theorem mayReturn_letValue (h : (letStatement t target value).contained) : value.mayReturn = false :=
  (Bool.not_eq_true' _).mp (of_all h)

/-- Where signals stay, the value of a `return` is none. -/
theorem mayReturn_returnValue (h : (returnStatement t value).contained) : value.mayReturn = false :=
  (Bool.not_eq_true' _).mp (of_all h)

/-- Where signals stay, no argument is one. -/
theorem mayReturn_argument (h : (call t callee args).contained) (hn : n ∈ args) : n.mayReturn = false :=
  mayReturn_of_mem ((Bool.not_eq_true' _).mp (of_all h)) hn

/-- Where signals stay, they stay in the body of every function. -/
theorem contained_body (h : (function t ps body).contained) : body.contained :=
  all_of_mem_children h List.mem_cons_self

end Contained

end Node

/-- A value that is no return signal, and if it is a function, one with a body in which signals stay. -/
def Value.Plain : Value → Prop
  | .returned .. => False
  | .function _ f => f.body.contained
  | _ => True

namespace Value

variable {v : Value}

/-- A plain value is no return signal. -/
theorem Plain.tag_ne (hv : v.Plain) : v.tag ≠ .returned := by
  cases v with
  | returned => exact hv.elim
  | _ => exact nofun

theorem plain_of_isComputed (hv : v.isComputed) : v.Plain := by
  cases v with
  | returned | function => cases hv
  | _ => trivial

theorem Plain.unwrap (hv : v.Plain) : v.unwrap.Plain := by
  rwa [unwrap_of_ne hv.tag_ne]

end Value

namespace Evaluation

open Eval

/-- What an evaluation gives may be a return signal. -/
def mayReturn : Evaluation → Bool
  | .node _ n _ _ => n.mayReturn
  | .call .. => false

/-- What gives no signal is handed none by its parts. -/
theorem Passes.mayReturn_eq_false {a b : Evaluation} (hab : Passes a b) (ha : a.mayReturn = false) :
    b.mayReturn = false := by
  cases hab with
  | block hs => exact Node.mayReturn_of_mem ha hs.mem
  | expressionStatement => exact ha
  | consequence => exact (Bool.or_eq_false_iff.1 ha).1
  | alternative => exact (Bool.or_eq_false_iff.1 ha).2

/-- An evaluation of a node in which signals stay, or a call of a function with such a body. -/
def Contained : Evaluation → Prop
  | .node _ n _ _ => n.contained
  | .call _ f _ _ => f.unwrap.Plain

/-- Where signals stay, they stay in every part. -/
theorem Contained.starts {a : Evaluation} {depth : Nat} {n : Node} {scope : ScopeId} {h : Heap} (ha : a.Contained)
    (hab : Starts a (.node depth n scope h)) : n.contained := by
  cases a with
  | node => exact Node.all_of_mem_children ha hab.mem_children
  | call =>
    obtain ⟨id, closure, rfl, rfl⟩ := hab.exists_function
    exact ha

/-- What comes of an evaluation carries no signal within a signal, and is no signal unless a node like that may give one.
No signal is bound. -/
def plain : Invariant where
  covers := Contained
  gives a v := v.unwrap.Plain ∧ (a.mayReturn = false → v.Plain)
  binds := Value.Plain
  starts ha hab := ha.starts hab
  calls _ _ hf := hf.1
  passes _ hab hv := ⟨hv.1, fun ha => hv.2 (hab.mayReturn_eq_false ha)⟩
  opens _ _ hv := ⟨hv.1.unwrap, fun _ => hv.1⟩
  called _ hv := ⟨hv.1, fun _ => hv.2 rfl⟩
  computed _ hv := ⟨(Value.plain_of_isComputed hv).unwrap, fun _ => Value.plain_of_isComputed hv⟩
  literal _ _ := ⟨trivial, fun _ => trivial⟩
  identifier _ hv := ⟨hv.unwrap, fun _ => hv⟩
  function _ ha := ⟨Node.contained_body ha, fun _ => Node.contained_body ha⟩
  returnNothing _ _ := ⟨trivial, nofun⟩
  returnValue _ ha _ hv _ := ⟨hv.2 (Node.mayReturn_returnValue ha), nofun⟩
  letValue ha hv _ := hv.2 (Node.mayReturn_letValue ha)
  argument ha hmem hv _ := hv.2 (Node.mayReturn_argument ha hmem)

end Evaluation

/-- Where signals stay, no `return` is given one to return: neither in the program nor in the functions that are bound
when it is evaluated. -/
theorem returnsNoSignal_of_contained {depth : Nat} {n : Node} {scope : ScopeId} {h : Heap} (hn : n.contained)
    (hh : h.BindsOnly Value.Plain) : ReturnsNoSignal (.node depth n scope h) := by
  intro depth' t value scope' h' v h'' hreturn hv
  have hstart : Evaluation.plain.Holds (.node depth n scope h) := ⟨hn, hh, List.forall_mem_nil _⟩
  have hholds := hstart.performs hreturn
  have hvalue := hholds.founded.ends_of_starts (.returnValue (Eval.ne_hole_of_ok hv))
  exact ((hvalue.of_ok hv).1.2 (Node.mayReturn_returnValue hholds.covers)).tag_ne

/-! ## Programs and calls -/

/-- **Signals come out unwrapped.** From a heap that binds no return signal, the value of a program is never one, and
nor is that of any call on the way, unless a `return` on the way is given a signal to return. -/
theorem result_ne_returned {depth : Nat} {ss : List Node} {scope : ScopeId} {h : Heap}
    (hreturns : ReturnsNoSignal (.node depth (.program ss) scope h)) (hh : h.BindsOnly fun v => v.tag ≠ .returned) :
    (∀ v h', eval depth (.program ss) scope h = .ok v h' → v.tag ≠ .returned) ∧
      ∀ depth' f args h₁ v h₂, Performs (.node depth (.program ss) scope h) (.call depth' f args h₁) →
        apply depth' f args h₁ = .ok v h₂ → v.tag ≠ .returned := by
  have hstart : Evaluation.flat.Holds (.node depth (.program ss) scope h) :=
    ⟨hreturns, hh.mono fun _ => .of_ne, List.forall_mem_nil _⟩
  constructor
  · intro v h' hv
    exact (hstart.ends.of_ok hv).1.2 rfl
  · intro depth' f args h₁ v h₂ hcall hv
    exact ((hstart.performs hcall).ends.of_ok hv).1.2 rfl

/-- `fn() { if (true) { return 5; } 7 }();` gives 5, and no call on the way gives a signal. -/
theorem result_ne_returned_call :
    ∃ (h h' : Heap) (ss : List Node), h = ⟨#[⟨none, []⟩], 0, []⟩ ∧
      ss = [.expressionStatement .blank (.call .blank
        (.function .blank [] (.block .blank
          [.expressionStatement .blank (.returnIfTrue (.integer .blank 5)),
            .expressionStatement .blank (.integer .blank 7)])) [])] ∧
      ReturnsNoSignal (.node 20 (.program ss) 0 h) ∧ (h.BindsOnly fun v => v.tag ≠ .returned) ∧
      eval 20 (.program ss) 0 h = .ok (.integer 1 5) h' ∧ (Value.integer 1 5).tag ≠ .returned ∧
      ∀ depth f args h₁ v h₂, Performs (.node 20 (.program ss) 0 h) (.call depth f args h₁) →
        apply depth f args h₁ = .ok v h₂ → v.tag ≠ .returned := by
  let body : Node := .block .blank
    [.expressionStatement .blank (.returnIfTrue (.integer .blank 5)), .expressionStatement .blank (.integer .blank 7)]
  let program : Node := .program [.expressionStatement .blank (.call .blank (.function .blank [] body) [])]
  have hh : ∀ P, Heap.BindsOnly P ⟨#[⟨none, []⟩], 0, []⟩ := fun P => Heap.bindsOnly_single P none 0 []
  have hreturns : ReturnsNoSignal (.node 20 program 0 ⟨#[⟨none, []⟩], 0, []⟩) :=
    returnsNoSignal_of_contained rfl (hh _)
  have hfive : eval 20 program 0 ⟨#[⟨none, []⟩], 0, []⟩ = .ok (.integer 1 5) ⟨#[⟨none, []⟩, ⟨some 0, []⟩], 3, []⟩ := by
    with_unfolding_all rfl
  obtain ⟨hprogram, hcalls⟩ := result_ne_returned hreturns (hh _)
  exact ⟨_, _, _, rfl, rfl, hreturns, hh _, hfive, hprogram _ _ hfive, hcalls⟩

/-- `return if (true) { return 5; };` gives a return signal. -/
theorem result_returned_of_return :
    ¬∀ (depth : Nat) (ss : List Node) (scope : ScopeId) (h : Heap) (v : Value) (h' : Heap),
      (h.BindsOnly fun v => v.tag ≠ .returned) → eval depth (.program ss) scope h = .ok v h' → v.tag ≠ .returned := by
  intro hall
  have hsignal : eval 20 (.program [.returnStatement .blank (.returnIfTrue (.integer .blank 5))]) 0
      ⟨#[⟨none, []⟩], 0, []⟩ = .ok (.returned 1 (.integer 0 5)) ⟨#[⟨none, []⟩], 3, []⟩ := by
    with_unfolding_all rfl
  exact hall _ _ _ _ _ _ (Heap.bindsOnly_single _ none 0 []) hsignal rfl

end Monkey
