import Monkey.Proofs.Eval.Invariant
import Monkey.Proofs.Parse.Recovery
import Monkey.Proofs.Parse.Soundness
import Monkey.Proofs.Session.Steps

/-!
# The range of integers

Whole numbers are unbounded, so it is up to each place where an integer of the language is made to keep it a word of 64
bits: where a numeral is read, and where an operator gives an integer. Nothing else makes one. So the integers that
evaluation meets are words, those that are bound and those that signals carry too, however evaluation ends, if those
that were bound before it are, and the numerals in the functions that were bound (`Evaluation.range`).

A numeral that is too large leaves a gap in the tree, so nothing is asked of a text (`inRange_of_parse`).
-/

namespace Monkey

namespace Node

/-- A node that is no integer, or one that is a word. -/
def literalInRange : Node → Bool
  | .integer _ n => minWord ≤ n && n ≤ maxWord
  | _ => true

/-- All integers in a tree are words. -/
def literalsInRange (n : Node) : Bool :=
  n.all literalInRange

namespace Gapped

mutual

/-- The literals of an expression that was read are in range, gaps or not. -/
theorem IsExpression.literalsInRange : ∀ {e : Node}, IsExpression e → e.literalsInRange
  | _, .identifier | _, .boolean => rfl
  | _, .integer hmin hmax => all_of_children (by
      rw [literalInRange, Bool.and_eq_true, decide_eq_true_iff, decide_eq_true_iff]
      exact ⟨Int.le_trans (by decide) hmin, hmax⟩) (List.forall_mem_nil _)
  | _, .unary he => all_of_children rfl (List.forall_mem_singleton.2 he.literalsInRange)
  | _, .unaryGap => rfl
  | _, .binary hl hr =>
    all_of_children rfl (List.forall_mem_cons.2 ⟨hl.literalsInRange, List.forall_mem_singleton.2 hr.literalsInRange⟩)
  | _, .ifThen hc hb => all_of_children rfl (List.forall_mem_cons.2 ⟨hc.literalsInRange,
      List.forall_mem_cons.2 ⟨hb.literalsInRange, List.forall_mem_singleton.2 rfl⟩⟩)
  | _, .ifThenElse hc hb ha => all_of_children rfl (List.forall_mem_cons.2 ⟨hc.literalsInRange,
      List.forall_mem_cons.2 ⟨hb.literalsInRange, List.forall_mem_singleton.2 ha.literalsInRange⟩⟩)
  | _, .function hb => all_of_children rfl (List.forall_mem_singleton.2 hb.literalsInRange)
  | _, .call hf has =>
    all_of_children rfl (List.forall_mem_cons.2 ⟨hf.literalsInRange, fun a ha => (has a ha).literalsInRange⟩)

theorem IsStatement.literalsInRange : ∀ {s : Node}, IsStatement s → s.literalsInRange
  | _, .letStatement he | _, .returnStatement he | _, .expression he =>
    all_of_children rfl (List.forall_mem_singleton.2 he.literalsInRange)
  | _, .letGap | _, .returnGap => rfl

theorem IsBlock.literalsInRange : ∀ {b : Node}, IsBlock b → b.literalsInRange
  | _, .block hss => all_of_children rfl fun s hs => (hss s hs).literalsInRange

end

/-- The literals of a program that was read are in range, gaps or not. -/
theorem IsProgram.literalsInRange {p : Node} (hp : IsProgram p) : p.literalsInRange := by
  obtain ⟨ss, rfl, hss⟩ := hp
  exact all_of_children rfl fun s hs => (hss s hs).literalsInRange

end Gapped

end Node

/-- A value in range: if it is an integer, it is a word, and so are what a signal carries and the integers in the body
of a function. -/
def Value.InRange : Value → Prop
  | .integer _ n => minWord ≤ n ∧ n ≤ maxWord
  | .returned _ v => v.InRange
  | .function _ f => f.body.literalsInRange
  | _ => True

namespace Value

variable {v : Value}

theorem inRange_integer {id : ObjectId} {n : Int} : (integer id n).InRange ↔ (minWord ≤ n && n ≤ maxWord) := by
  rw [Bool.and_eq_true, decide_eq_true_iff, decide_eq_true_iff]
  rfl

/-- A computed value carries no number beyond a word. -/
theorem inRange_of_isComputed (hv : v.isComputed) : v.InRange := by
  cases v with
  | returned | function => cases hv
  | integer id n => exact inRange_integer.2 hv
  | _ => trivial

theorem InRange.unwrap (hv : v.InRange) : v.unwrap.InRange := by
  cases v with
  | returned _ w => exact hv
  | _ => exact hv

end Value

namespace Evaluation

open Eval

variable {a b : Evaluation} {depth : Nat} {n : Node} {scope : ScopeId} {h : Heap}

/-- An evaluation of a tree all of whose integers are words, or a call of a value in range. -/
def InRange : Evaluation → Prop
  | .node _ n _ _ => n.literalsInRange
  | .call _ f _ _ => f.InRange

/-- Every part is of a tree with literals in range. -/
theorem InRange.starts (ha : a.InRange) (hab : Starts a (.node depth n scope h)) : n.literalsInRange := by
  cases a with
  | node => exact Node.all_of_mem_children ha hab.mem_children
  | call =>
    obtain ⟨id, closure, rfl, rfl⟩ := hab.exists_function
    exact ha

/-- From trees and values in range come values in range, and only such values are bound. -/
def range : Invariant where
  covers := InRange
  gives _ v := v.InRange
  binds := Value.InRange
  starts ha hab := ha.starts hab
  calls _ _ hf := hf
  passes _ _ hv := hv
  opens _ _ hv := hv.unwrap
  called _ hv := hv
  computed _ hv := Value.inRange_of_isComputed hv
  literal _ ha := Value.inRange_integer.2 (Node.of_all ha)
  identifier _ hv := hv
  function _ ha := Node.all_of_mem_children ha List.mem_cons_self
  returnNothing _ _ := trivial
  returnValue _ _ _ hv _ := hv
  letValue _ hv _ := hv
  argument _ _ hv _ := hv

/-- Whatever is evaluated on the way is handed values in range, begins with bindings in range, and so ends. -/
theorem Performs.inRange (hn : n.literalsInRange) (hh : h.BindsOnly Value.InRange)
    (hb : Performs (.node depth n scope h) b) :
    (∀ v ∈ b.arguments, v.InRange) ∧ b.heap.BindsOnly Value.InRange ∧ Kept Value.InRange Value.InRange b.result := by
  have hstart : range.Holds (.node depth n scope h) := ⟨hn, hh, List.forall_mem_nil _⟩
  have hholds := hstart.performs hb
  exact ⟨hholds.arguments, hholds.heap, hholds.ends⟩

end Evaluation

/-! ## Sessions and texts -/

/-- What a session keeps where evaluation keeps it: the error that stands for a nesting that is too deep may be given as
well. -/
theorem Session.kept_eval {P Q : Value → Prop} {s : Session} {st : Stack} {program : Node} {host : Host}
    (hprogram : Eval.Kept P Q (s.evaluation st program host).result) (hdeep : ∀ id, Q (.error id .tooDeep))
    (hhost : host.heap.BindsOnly P) :
    match s.eval st program host with
    | .ok v host₁ => Q v ∧ host₁.heap.BindsOnly P
    | .error _ host₁ => host₁.heap.BindsOnly P := by
  rcases eval_cases s.limit st with ⟨hbelow, hle⟩ | ⟨why, hwhy⟩
  · rw [eval_of_limit hbelow hle]
    have hprogram : Eval.Kept P Q (Monkey.eval (s.depth st) program s.scope host.heap) := hprogram
    generalize Monkey.eval (s.depth st) program s.scope host.heap = r at hprogram
    cases hprogram with
    | ok hv hh => exact ⟨hv, hh⟩
    | @error why h hh =>
      rcases ended_error_cases s.limit st why with ⟨-, hfails⟩ | ⟨-, hends⟩
      · rw [hfails s rfl]
        exact hh
      · obtain ⟨log, hended⟩ := hends s rfl host h
        rw [hended]
        exact ⟨hdeep _, hh.of_scopes rfl⟩
  · rw [hwhy s rfl]
    exact hhost

/-- **Integers stay words of 64 bits.** Whatever is read from a text, with or without diagnostics, is evaluated with
values in range alone if those that were bound before are in range: all operands, arguments and contents of signals are,
and all that is bound afterwards, however the evaluation ends. -/
theorem inRange_of_parse {text : String} {p : Parse} {h : Heap} (hp : parse text = .ok p)
    (hh : h.BindsOnly Value.InRange) :
    (∀ depth scope b, Evaluation.Performs (.node depth p.program scope h) b →
      (∀ v ∈ b.arguments, v.InRange) ∧ b.heap.BindsOnly Value.InRange ∧
        Eval.Kept Value.InRange Value.InRange b.result) ∧
    ∀ (s : Session) (st : Stack) (log : Array LogEntry),
      match s.eval st p.program ⟨h, log⟩ with
      | .ok v host => v.InRange ∧ host.heap.BindsOnly Value.InRange
      | .error _ host => host.heap.BindsOnly Value.InRange := by
  have hprogram : p.program.literalsInRange := (gapped_of_parse hp).literalsInRange
  refine ⟨fun depth scope b hb => hb.inRange hprogram hh, fun s st log => ?_⟩
  have hkept := (Evaluation.Performs.inRange hprogram hh (.refl (a := s.evaluation st p.program ⟨h, log⟩))).2.2
  exact Session.kept_eval hkept (fun _ => trivial) hh

/-- `n - 1; let x = ;` where `n` is the least word: the difference wraps, and then the missing value halts. -/
theorem inRange_of_parse_gap :
    ∃ (p : Parse) (h : Heap), parse "n - 1; let x = ;" = .ok p ∧
      p.messages = ["no prefix parse function for ; found"] ∧ h.lookup 0 "n" = some (.integer 0 minWord) ∧
      h.BindsOnly Value.InRange ∧
      (∀ depth scope b, Evaluation.Performs (.node depth p.program scope h) b →
        (∀ v ∈ b.arguments, v.InRange) ∧ b.heap.BindsOnly Value.InRange ∧
          Eval.Kept Value.InRange Value.InRange b.result) ∧
      ∀ (s : Session) (st : Stack) (log : Array LogEntry),
        match s.eval st p.program ⟨h, log⟩ with
        | .ok v host => v.InRange ∧ host.heap.BindsOnly Value.InRange
        | .error _ host => host.heap.BindsOnly Value.InRange := by
  have hmessages : (parse "n - 1; let x = ;").toOption.map Parse.messages =
      some ["no prefix parse function for ; found"] := by
    decide +kernel
  obtain ⟨p, hp, hp'⟩ := exists_of_map_parse hmessages
  have hn : (Value.integer 0 minWord).InRange := ⟨Int.le_refl _, by decide⟩
  have hh := (Heap.bindsOnly_single Value.InRange none 1 []).bind hn 0 "n"
  exact ⟨p, _, hp, hp', rfl, hh, inRange_of_parse hp hh⟩

end Monkey
