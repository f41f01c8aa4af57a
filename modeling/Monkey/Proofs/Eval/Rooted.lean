import Monkey.Proofs.Eval.Closed
import Monkey.Proofs.Eval.Invariant
import Monkey.Proofs.Heap.Walk

/-!
# The scopes stay well founded

A function may be bound in the very scope in which it was made, so scopes and values refer to each other in circles. The
scopes alone do not: each lies inside of an older one, or of none. This is so in every heap that can be reached, and at
every evaluation and call on the way there, however these end (`rooted_of_performs`). So a walk outwards always ends.

One step leads from an evaluation that begins with a closed heap, and names what exists in it, to another one like that
(`Evaluation.Closed.starts`). What it has to know of the evaluations that have ended before is how those leave the heap
(`Eval.Closing.all`).
-/

namespace Monkey

namespace Evaluation

open Eval

/-- What an evaluation names exists when it begins: the scope of the node, or what is called and the arguments. -/
def NamesExisting : Evaluation → Prop
  | .node _ _ i h => i < h.scopes.size
  | .call _ f args h => f.ExistsIn h ∧ ∀ v ∈ args, v.ExistsIn h

/-- The evaluation begins with a closed heap and names what exists in it. -/
structure Closed (a : Evaluation) : Prop where
  heap : a.heap.Closed
  names : a.NamesExisting

namespace Closed

variable {a b : Evaluation} {depth depth₁ depth₂ : Nat} {n m k : Node} {ns : List Node} {stops : Value → Bool}
  {i : ScopeId} {v : Value} {h h' : Heap}

/-- However it ends, it leaves a closed heap, and what it gives exists there. -/
theorem ends (ha : a.Closed) : EndsClosed a.heap Value.ExistsIn a.result := by
  cases a with
  | node depth n i h => exact (Closing.all depth).eval n ha.names h.le_refl ha.heap
  | call depth f args h => exact (Closing.all depth).apply ha.names.1 ha.names.2 h.le_refl ha.heap

/-! ### One step -/

/-- It does not matter which node is evaluated in a scope, nor how deep it may nest. -/
theorem node (ha : Closed (.node depth₁ m i h)) : Closed (.node depth₂ n i h) :=
  ⟨ha.heap, ha.names⟩

/-- After one node another one can be evaluated in the same scope. -/
theorem next (ha : Closed (.node depth₁ m i h)) (hv : eval depth n i h = .ok v h') : Closed (.node depth₂ k i h') := by
  have hn : Closed (.node depth n i h) := ha.node
  obtain ⟨hle, hh', -⟩ := hn.ends.of_ok hv
  exact ⟨hh', Nat.lt_of_lt_of_le ha.names hle.scopes⟩

/-- Before one of some nodes, others have been evaluated in the same scope. -/
theorem of_getsTo (ha : Closed (.node depth₁ m i h)) (hn : GetsTo (fun n => eval depth n i) stops ns h n h') :
    Closed (.node depth₂ k i h') := by
  induction hn with
  | here => exact ha.node
  | later hv _ _ ih => exact ih (ha.next hv)

theorem passes (ha : a.Closed) (hab : Passes a b) : b.Closed := by
  cases hab with
  | block hs => exact ha.of_getsTo hs
  | expressionStatement => exact ha.node
  | consequence hc => exact ha.next hc
  | alternative hc => exact ha.next hc

/-- The scope in which the body of a function is evaluated is new and lies inside of one that exists. -/
theorem opens (ha : a.Closed) (hab : Opens a b) : b.Closed := by
  cases hab with
  | program hs => exact ha.of_getsTo hs
  | @body depth id f args h scope h' h'' hlength hopen hbind =>
    obtain ⟨hf, hargs⟩ := ha.names
    obtain ⟨hle, hh', hscope⟩ := (staysClosed_openScope hf.2 h.le_refl ha.heap).of_ok hopen
    have hargs' : ∀ v ∈ args, v.ExistsIn h' := fun v hv => (hargs v hv).mono hle
    obtain ⟨hle', hh'', -⟩ := (staysClosed_bindAll hargs' h'.le_refl hh').of_ok hbind
    exact ⟨hh'', Nat.lt_of_lt_of_le hscope hle'.scopes⟩

/-- **What is started names what exists.** -/
theorem starts (ha : a.Closed) (hab : Starts a b) : b.Closed := by
  cases hab with
  | passes hab => exact ha.passes hab
  | opens hab => exact ha.opens hab
  | letValue | returnValue | operand | left | condition | callee => exact ha.node
  | right hl => exact ha.next hl
  | @argument depth t callee args scope h f h' e h'' hf _ he =>
    have hargument : Closed (.node depth e scope h') := ha.next hf
    exact hargument.of_getsTo he
  | @call depth t callee args scope h f h' vs h'' hf _ hargs =>
    have hcallee : Closed (.node depth callee scope h) := ha.node
    obtain ⟨hle, hh', hf'⟩ := hcallee.ends.of_ok hf
    have hscope : scope < h'.scopes.size := Nat.lt_of_lt_of_le ha.names hle.scopes
    obtain ⟨hle', hh'', hvs⟩ := ((Closing.all depth).evalArguments args hscope h'.le_refl hh').of_ok hargs
    exact ⟨hh'', hf'.mono hle', hvs⟩

/-- **Whatever is evaluated on the way names what exists.** -/
theorem performs (ha : a.Closed) (hab : Performs a b) : b.Closed := by
  induction hab with
  | refl => exact ha
  | tail _ hstep ih => exact ih.starts hstep

end Closed

end Evaluation

open Evaluation (Performs)

/-- **The scopes stay well founded.** In a heap that can be reached, by programs in any scopes or otherwise, each outer
scope is older than the one inside of it, what is bound exists, and each walk outwards in search of a name ends after no
more scopes than there are. From there on this is so whenever something is evaluated or called: what that names exists,
functions that are handed over as arguments among it, and however it ends it leaves such a heap, in which there is what
it gives. -/
theorem rooted_of_performs {h : Heap} (hh : h.Reachable) :
    h.Rooted ∧ ∀ a b, a.heap = h → a.NamesExisting → Performs a b →
      b.NamesExisting ∧ b.heap.Rooted ∧
        (∀ v h', b.result = .ok v h' → h'.Rooted ∧ v.ExistsIn h') ∧
        ∀ why h', b.result = .error why h' → h'.Rooted := by
  refine ⟨hh.closed.rooted, ?_⟩
  rintro a b rfl ha hab
  have hb : b.Closed := Evaluation.Closed.performs ⟨hh.closed, ha⟩ hab
  refine ⟨hb.names, hb.heap.rooted, fun v h' hv => ?_, fun why h' hwhy => (hb.ends.of_error hwhy).rooted⟩
  obtain ⟨-, hh', hv'⟩ := hb.ends.of_ok hv
  exact ⟨hh'.rooted, hv'⟩

/-- `let f = fn(n) { let g = fn() { g() }; g() }; f(7)`, in one of two scopes that lie in no other, nests too deep. It
leaves the scopes of the calls that were cut off, and in that of `f` a function that was made in it. From the scope of
`g` the walk for a name that is not bound ends in the third scope. -/
theorem rooted_of_performs_too_deep :
    ∃ (h h' : Heap) (body program : Node), h.Reachable ∧
      body = .block .blank [.expressionStatement .blank (.call .blank (.identifier ⟨.blank, "g"⟩) [])] ∧
      program = .program [
        .letStatement .blank ⟨.blank, "f"⟩ (.function .blank [⟨.blank, "n"⟩] (.block .blank [
          .letStatement .blank ⟨.blank, "g"⟩ (.function .blank [] body),
          .expressionStatement .blank (.call .blank (.identifier ⟨.blank, "g"⟩) [])])),
        .expressionStatement .blank (.call .blank (.identifier ⟨.blank, "f"⟩) [.integer .blank 7])] ∧
      h.scopes.toList.map Scope.outer = [none, none] ∧ eval 12 program 0 h = .error .tooDeep h' ∧ h'.Rooted ∧
      h'.scopes.toList.map Scope.outer = [none, none, some 0, some 2] ∧
      h'.lookup 3 "g" = some (.function 2 ⟨[], body, 2⟩) ∧ h'.Walks "y" 3 3 none ∧ h'.lookup 3 "y" = none := by
  let h : Heap := ((Heap.empty.openScope none).2.openScope none).2
  let body : Node := .block .blank [.expressionStatement .blank (.call .blank (.identifier ⟨.blank, "g"⟩) [])]
  let outerBody : Node := .block .blank [
    .letStatement .blank ⟨.blank, "g"⟩ (.function .blank [] body),
    .expressionStatement .blank (.call .blank (.identifier ⟨.blank, "g"⟩) [])]
  let program : Node := .program [
    .letStatement .blank ⟨.blank, "f"⟩ (.function .blank [⟨.blank, "n"⟩] outerBody),
    .expressionStatement .blank (.call .blank (.identifier ⟨.blank, "f"⟩) [.integer .blank 7])]
  let f : Value := .function 0 ⟨[⟨.blank, "n"⟩], outerBody, 0⟩
  let g : Value := .function 2 ⟨[], body, 2⟩
  let h' : Heap :=
    ⟨#[⟨none, [("f", f)]⟩, ⟨none, []⟩, ⟨some 0, [("g", g), ("n", .integer 1 7)]⟩, ⟨some 2, []⟩], 3,
      [⟨2, "g", g⟩, ⟨2, "n", .integer 1 7⟩, ⟨0, "f", f⟩]⟩
  have hh : h.Reachable := .openScope (.openScope .empty nofun) nofun
  have hcut : eval 12 program 0 h = .error .tooDeep h' := by with_unfolding_all rfl
  obtain ⟨-, -, -, herror⟩ := (rooted_of_performs hh).2 (.node 12 program 0 h) _ rfl (by decide : 0 < 2) .refl
  have hrooted : h'.Rooted := herror _ _ hcut
  have hwalk : h'.Walks "y" 3 3 none := .outwards rfl rfl rfl (.outwards rfl rfl rfl (.outermost rfl rfl rfl))
  exact ⟨h, h', body, program, hh, rfl, rfl, rfl, hcut, hrooted, rfl, rfl, hwalk, (hrooted.within hwalk).2⟩

end Monkey
