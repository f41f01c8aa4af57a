import Monkey.Proofs.Eval.Halting
import Monkey.Proofs.Eval.Renaming
import Monkey.Proofs.Tree.WellFormed

/-!
# Evaluation of whole trees

A tree is whole where every child that is needed is there and of a known class, and a value is whole if the body of the
function in it, if any, is. Whole trees give whole values and bind whole values (`Evaluation.whole`), so what is
evaluated on the way, bodies of functions that were bound before too, is whole, and none of it halts the evaluation
unless it is too deep (`tooDeep_of_whole`).

What a scope can reach may be whole in a heap that is not: `Heap.WholeFrom` asks for a heap that is whole and the same
up to renaming as far as the scope can see.
-/

namespace Monkey

/-- A well-formed tree, or a part of one that may be evaluated. -/
def Node.IsWhole (n : Node) : Prop :=
  n.IsProgram ∨ n.IsStatement ∨ n.IsExpression ∨ n.IsBlock

/-- A value in which there is no function but one with a well-formed body. -/
def Value.IsWhole : Value → Prop
  | .returned _ v => v.IsWhole
  | .function _ f => f.body.IsBlock
  | _ => True

/-- A computed value is no function with a gap. -/
theorem Value.isWhole_of_isComputed {v : Value} (hv : v.isComputed) : v.IsWhole := by
  cases v with
  | returned | function => cases hv
  | _ => trivial

theorem Value.IsWhole.unwrap {v : Value} (hv : v.IsWhole) : v.unwrap.IsWhole := by
  cases v with
  | returned _ w => exact hv
  | _ => exact hv

namespace Node

variable {n : Node}

theorem AreStatements.isStatement {ss : List Node} (hss : AreStatements ss) (hn : n ∈ ss) : n.IsStatement := by
  induction hn with
  | head =>
    cases hss with
    | cons hs _ => exact hs
  | tail _ _ ih =>
    cases hss with
    | cons _ hss => exact ih hss

theorem AreExpressions.isExpression {es : List Node} (hes : AreExpressions es) (hn : n ∈ es) : n.IsExpression := by
  induction hn with
  | head =>
    cases hes with
    | cons he _ => exact he
  | tail _ _ ih =>
    cases hes with
    | cons _ hes => exact ih hes

end Node

namespace Evaluation

open Eval

variable {a b : Evaluation} {depth depth' : Nat} {n m : Node} {scope scope' : ScopeId} {h h' : Heap}

/-! ## What is evaluated on the way -/

/-- What a program starts is whole if its statements are. -/
theorem starts_program {ss : List Node} (hss : Node.AreStatements ss)
    (hab : Starts (.node depth (.program ss) scope h) (.node depth' m scope' h')) : m.IsWhole := by
  cases hab with
  | passes hab => cases hab
  | opens hab =>
    cases hab with
    | program hs => exact Or.inr (Or.inl (hss.isStatement hs.mem))

/-- What a block starts is whole if the block is. -/
theorem starts_block (hn : n.IsBlock) (hab : Starts (.node depth n scope h) (.node depth' m scope' h')) :
    m.IsWhole := by
  obtain ⟨hss⟩ := hn
  cases hab with
  | opens hab => cases hab
  | passes hab =>
    cases hab with
    | block hs => exact Or.inr (Or.inl (hss.isStatement hs.mem))

/-- What a statement starts is whole if the statement is. -/
theorem starts_statement (hn : n.IsStatement) (hab : Starts (.node depth n scope h) (.node depth' m scope' h')) :
    m.IsWhole := by
  have hexpression : m.IsExpression → m.IsWhole := fun hm => Or.inr (Or.inr (Or.inl hm))
  cases hab with
  | opens hab =>
    cases hab
    cases hn
  | passes hab =>
    cases hab with
    | expressionStatement =>
      cases hn with
      | expression he => exact hexpression he
    | block | consequence | alternative => cases hn
  | letValue =>
    cases hn with
    | letStatement _ he => exact hexpression he
  | returnValue hne =>
    cases hn with
    | returnNothing => exact absurd rfl hne
    | returnValue he => exact hexpression he
  | operand | left | right | condition | callee | argument => cases hn

/-- What an expression starts is whole if the expression is. -/
theorem starts_expression (hn : n.IsExpression) (hab : Starts (.node depth n scope h) (.node depth' m scope' h')) :
    m.IsWhole := by
  have hexpression : m.IsExpression → m.IsWhole := fun hm => Or.inr (Or.inr (Or.inl hm))
  have hblock : m.IsBlock → m.IsWhole := fun hm => Or.inr (Or.inr (Or.inr hm))
  cases hab with
  | opens hab =>
    cases hab
    cases hn
  | letValue | returnValue => cases hn
  | passes hab =>
    cases hab with
    | block | expressionStatement => cases hn
    | consequence =>
      cases hn with
      | ifThen _ hb | ifThenElse _ hb _ => exact hblock hb
    | alternative _ _ _ hne =>
      cases hn with
      | ifThen => exact absurd rfl hne
      | ifThenElse _ _ ha => exact hblock ha
  | operand =>
    cases hn with
    | unary _ he => exact hexpression he
  | left =>
    cases hn with
    | binary hl _ _ => exact hexpression hl
  | right =>
    cases hn with
    | binary _ _ hr => exact hexpression hr
  | condition =>
    cases hn with
    | ifThen hc _ | ifThenElse hc _ _ => exact hexpression hc
  | callee =>
    cases hn with
    | call hf _ => exact hexpression hf
  | argument _ _ ha =>
    cases hn with
    | call _ hes => exact hexpression (hes.isExpression ha.mem)

/-- An evaluation of a whole tree or a call of a whole value. -/
def IsWhole : Evaluation → Prop
  | .node _ n _ _ => n.IsWhole
  | .call _ f _ _ => f.IsWhole

/-- What is started on the way is whole. -/
theorem IsWhole.starts (ha : a.IsWhole) (hab : Starts a (.node depth m scope h)) : m.IsWhole := by
  cases a with
  | node =>
    rcases ha with ⟨ss, rfl, hss⟩ | hn | hn | hn
    · exact starts_program hss hab
    · exact starts_statement hn hab
    · exact starts_expression hn hab
    · exact starts_block hn hab
  | call =>
    obtain ⟨id, closure, rfl, rfl⟩ := hab.exists_function
    exact Or.inr (Or.inr (Or.inr ha))

/-- The body of a function expression. -/
theorem isBlock_of_isWhole {t : Token} {ps : List Identifier} (hn : (Node.function t ps n).IsWhole) : n.IsBlock := by
  rcases hn with ⟨ss, hss, -⟩ | hn | hn | hn
  · cases hss
  · cases hn
  · cases hn with
    | function _ hb => exact hb
  · cases hn

/-- All that is evaluated is whole, and so is all that comes of it. -/
def whole : Invariant where
  covers := IsWhole
  gives _ v := v.IsWhole
  binds := Value.IsWhole
  starts ha hab := ha.starts hab
  calls _ _ hf := hf
  passes _ _ hv := hv
  opens _ _ hv := hv.unwrap
  called _ hv := hv
  computed _ hv := Value.isWhole_of_isComputed hv
  literal _ _ := trivial
  identifier _ hv := hv
  function _ ha := isBlock_of_isWhole ha
  returnNothing _ _ := trivial
  returnValue _ _ _ hv _ := hv
  letValue _ hv _ := hv
  argument _ _ hv _ := hv

/-- A node without meaning is not whole. -/
theorem Faults.not_isWhole {why : Halt} (ha : a.Faults why) : ¬a.IsWhole := by
  cases ha with
  | hole | unknown =>
    rintro (⟨ss, hss, -⟩ | hn | hn | hn)
    · cases hss
    · cases hn
    · cases hn
    · cases hn

/-- **Whole trees halt only where they are too deep.** -/
theorem tooDeep_of_whole {why : Halt} (ha : whole.Holds a) (hhalt : a.result = .error why h) : why = .tooDeep := by
  by_contra hwhy
  obtain ⟨b, hab, hfault⟩ := exists_faults_of_halt hwhy hhalt
  exact hfault.not_isWhole (ha.performs hab).covers

end Evaluation

/-! ## What a scope can reach -/

/-- From a scope of the heap only whole values can be reached: as far as the scope can see, it is the same, up to
renaming, as a scope in a heap that binds whole values only. -/
def Heap.WholeFrom (h : Heap) (i : ScopeId) : Prop :=
  ∃ (ρ : Renaming) (h₀ : Heap) (i₀ : ScopeId), h₀.Renamed ρ h ∧ ρ.scope i₀ i ∧ h₀.BindsOnly Value.IsWhole

namespace Heap.WholeFrom

variable {h : Heap} {i : ScopeId}

/-- From a scope that lies in no other and binds nothing, nothing can be reached. -/
theorem of_empty (hi : h.scopes[i]? = some ⟨none, []⟩) : h.WholeFrom i :=
  ⟨.single 0 i, ⟨#[⟨none, []⟩], 0, []⟩, 0, .single rfl hi, ⟨rfl, rfl⟩, bindsOnly_single _ none 0 []⟩

theorem number (hh : h.WholeFrom i) : Heap.WholeFrom { h with nextObject := h.nextObject + 1 } i := by
  obtain ⟨ρ, h₀, i₀, hrenamed, hi, hwhole⟩ := hh
  exact ⟨_, _, i₀, hrenamed.number, hi, hwhole.of_scopes rfl⟩

/-- **In a scope that can reach only whole values a program does not halt, unless it is too deep**, and only whole values
can be reached after it. -/
theorem eval {program : Node} (hh : h.WholeFrom i) (hprogram : program.IsProgram) (depth : Nat) :
    ((Eval.after (Monkey.eval depth program i) h).WholeFrom i) ∧
      ∀ why h', Monkey.eval depth program i h = .error why h' → why = .tooDeep := by
  obtain ⟨ρ, h₀, i₀, hrenamed, hi, hwhole⟩ := hh
  have hstart : Evaluation.whole.Holds (.node depth program i₀ h₀) :=
    ⟨Or.inl hprogram, hwhole, List.forall_mem_nil _⟩
  have hends : Eval.Kept Value.IsWhole Value.IsWhole (Monkey.eval depth program i₀ h₀) := hstart.ends
  have hhalts : ∀ why h', Monkey.eval depth program i₀ h₀ = .error why h' → why = .tooDeep :=
    fun _ _ => Evaluation.tooDeep_of_whole hstart
  have hout := (Renaming.Simulation.all depth).eval program hi hrenamed
  unfold Eval.after
  generalize Monkey.eval depth program i h = r at hout
  generalize Monkey.eval depth program i₀ h₀ = r₀ at hout hends hhalts
  cases hout with
  | ok hg _ hh' =>
    cases hends with
    | ok _ hwhole' => exact ⟨⟨_, _, i₀, hh', hg.le.scope hi, hwhole'⟩, nofun⟩
  | error hg hh' =>
    cases hends with
    | error hwhole' =>
      refine ⟨⟨_, _, i₀, hh', hg.le.scope hi, hwhole'⟩, ?_⟩
      rintro why h' ⟨⟩
      exact hhalts _ _ rfl

end Heap.WholeFrom

end Monkey
