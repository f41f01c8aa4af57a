import Monkey.Proofs.Eval.Closed
import Monkey.Proofs.Eval.Deeper
import Monkey.Proofs.Eval.Renaming

/-!
# Calls are pure

A call that is made once more, after any number of other calls, comes to the same (`apply_again`): to a value of the same
kind that shows the same, or to the same halt. What the two calls make is not the same, but it differs in its numbers
only, and what there was before the first call is the same for both.

In a closed heap all that exists stands for itself (`Heap.Closed.renamed`). Calls change no scope that was there, so this
is still so when the second call begins (`Heap.CallsTo.evolves`), and by the simulation of evaluation the two calls go
the same way. If they may nest to different depths, the one that may not nest so deep may also be cut off.
-/

namespace Monkey

/-! ## What is there stands for itself -/

/-- The renaming in which what is there in a heap stands for itself. -/
def Renaming.diagonal (h : Heap) : Renaming where
  scope i j := i = j ∧ i < h.scopes.size
  object m n := m = n ∧ m < h.nextObject

theorem Value.ExistsIn.renamed {h : Heap} {v : Value} (hv : v.ExistsIn h) : v.Renamed (.diagonal h) v := by
  induction v with
  | integer id n => exact .integer ⟨rfl, hv⟩
  | boolean b => exact .boolean
  | null => exact .null
  | returned id v ih => exact .returned ⟨rfl, hv.1⟩ (ih hv.2)
  | error id cause => exact .error ⟨rfl, hv⟩
  | function id f => exact .function ⟨rfl, hv.1⟩ ⟨rfl, rfl, rfl, hv.2⟩

namespace Heap

variable {h h' : Heap}

theorem Closed.renamed (hh : h.Closed) : h.Renamed (.diagonal h) h where
  scope := by
    rintro i _ ⟨rfl, hi⟩
    have hs : h.scopes[i]? = some h.scopes[i] := Array.getElem?_eq_getElem hi
    refine ⟨_, _, hs, hs, ?_, ?_⟩
    · cases houter : h.scopes[i].outer with
      | none => exact .none
      | some o => exact .some ⟨rfl, Nat.lt_trans (hh.outer hs houter) hi⟩
    · exact List.forall₂_same.2 fun b hb => ⟨rfl, (hh.bound hs hb).renamed⟩
  object := by
    rintro m _ ⟨rfl, hm⟩
    exact ⟨hm, hm⟩
  scopes_unique := ⟨fun _ _ _ hij hkj => hij.1.trans hkj.1.symm, fun _ _ _ hij hik => hij.1.symm.trans hik.1⟩
  objects_unique := ⟨fun _ _ _ hij hkj => hij.1.trans hkj.1.symm, fun _ _ _ hij hik => hij.1.symm.trans hik.1⟩

/-- It does so as long as nothing is bound in the scopes that are there. -/
theorem Closed.renamed_of_evolves (hh : h.Closed) (hw : Evolves (fun _ _ => False) h h') :
    h.Renamed (.diagonal h) h' := by
  refine hh.renamed.of_unchanged ?_ hw.nextObject_le
  rintro i _ ⟨rfl, hi⟩
  exact hw.scope_eq hi fun _ => id

/-! ## Calls -/

/-- From one heap to another only calls are made, of whatever and with whatever arguments, and values. -/
inductive CallsTo (h : Heap) : Heap → Prop
  | refl : CallsTo h h
  | number {h₁} : CallsTo h h₁ → CallsTo h { h₁ with nextObject := h₁.nextObject + 1 }
  | call {h₁} (depth : Nat) (f : Value) (args : List Value) : CallsTo h h₁ →
    CallsTo h ((apply depth f args).after h₁)

/-- Calls bind nothing in the scopes that are there. -/
theorem CallsTo.evolves (hcalls : h.CallsTo h') : Evolves (fun _ _ => False) h h' := by
  induction hcalls with
  | refl => exact .refl
  | number _ ih => exact .number ih
  | @call h₁ depth f args _ ih => exact ih.trans ((Eval.Frames.all depth).apply _ f args h₁)

end Heap

/-- Two evaluations, both begun with all that there is in `h`, come to the same: to values of one kind that show the
same, or to the same halt. Values and heaps differ in numbers only, and what there is in `h` stands for itself. -/
inductive SameOutcome (h : Heap) : EStateM.Result Halt Heap Value → EStateM.Result Halt Heap Value → Prop
  | ok {ρ v v' h₁ h₂} : v.tag = v'.tag → v.inspect = v'.inspect → v.Renamed ρ v' → h₁.Renamed ρ h₂ → .diagonal h ≤ ρ →
    SameOutcome h (.ok v h₁) (.ok v' h₂)
  | error {ρ why h₁ h₂} : h₁.Renamed ρ h₂ → .diagonal h ≤ ρ → SameOutcome h (.error why h₁) (.error why h₂)

namespace SameOutcome

variable {h h' h₁ : Heap} {r r' : EStateM.Result Halt Heap Value} {f : Value} {args : List Value}

theorem of_tooDeep_left (hr : SameOutcome h r r') (hcut : r = .error .tooDeep h₁) : ∃ h₂, r' = .error .tooDeep h₂ := by
  subst hcut
  cases hr with
  | error => exact ⟨_, rfl⟩

theorem of_tooDeep_right (hr : SameOutcome h r r') (hcut : r' = .error .tooDeep h₁) : ∃ h₂, r = .error .tooDeep h₂ := by
  subst hcut
  cases hr with
  | error => exact ⟨_, rfl⟩

/-- The same call, once nothing has been bound in the scopes that were there. -/
theorem apply (hh : h.Closed) (hf : f.ExistsIn h) (hargs : ∀ v ∈ args, v.ExistsIn h)
    (hw : Heap.Evolves (fun _ _ => False) h h') (depth : Nat) :
    SameOutcome h (apply depth f args h) (apply depth f args h') := by
  have hvs : List.Forall₂ (Value.Renamed (.diagonal h)) args args :=
    List.forall₂_same.2 fun v hv => (hargs v hv).renamed
  have hout := (Renaming.Simulation.all depth).apply hf.renamed hvs (hh.renamed_of_evolves hw)
  generalize Monkey.apply depth f args h = r at hout
  generalize Monkey.apply depth f args h' = r' at hout
  cases hout with
  | ok hg hv hh' => exact .ok hv.tag_eq hv.inspect_eq hv hh' hg.le
  | error hg hh' => exact .error hh' hg.le

end SameOutcome

/-- **Calls are pure.** In a heap that can be reached, a function is called with some arguments, and after any number of
other calls, if any, it is called with them again. Then both calls come to the same, or one of them nests too deep where
the other may nest deeper. -/
theorem apply_again {h h' : Heap} {f : Value} {args : List Value} (hh : h.Reachable) (hf : f.ExistsIn h)
    (hargs : ∀ v ∈ args, v.ExistsIn h) (depth depth' : Nat)
    (hcalls : ((apply depth f args).after h).CallsTo h') :
    SameOutcome h (apply depth f args h) (apply depth' f args h') ∨
      (depth < depth' ∧ ∃ h₁, apply depth f args h = .error .tooDeep h₁) ∨
      (depth' < depth ∧ ∃ h₁, apply depth' f args h' = .error .tooDeep h₁) := by
  have hw : Heap.Evolves (fun _ _ => False) h h' :=
    ((Eval.Frames.all depth).apply _ f args h).trans hcalls.evolves
  have hsame := SameOutcome.apply hh.closed hf hargs hw
  rcases Nat.lt_trichotomy depth depth' with hlt | rfl | hlt
  · rcases ((Eval.Deepening.all (Nat.le_of_lt hlt)).apply f args h').2 with heq | ⟨h₂, hcut, -⟩
    · exact Or.inl (heq ▸ hsame depth)
    · exact Or.inr (Or.inl ⟨hlt, (hsame depth).of_tooDeep_right hcut⟩)
  · exact Or.inl (hsame depth)
  · rcases ((Eval.Deepening.all (Nat.le_of_lt hlt)).apply f args h).2 with heq | ⟨h₁, hcut, -⟩
    · exact Or.inl (heq ▸ hsame depth')
    · exact Or.inr (Or.inr ⟨hlt, (hsame depth').of_tooDeep_left hcut⟩)

/-- `fn(n) { fn(k) { n } }`, bound to a name and called with 7, then with itself, then with 7 again: what comes of the
first call and of the last is the same function but for its number and its scope. -/
theorem apply_again_closure :
    ∃ (h h' h₁ h₂ : Heap) (f : Value) (args : List Value) (body : Node), h.Reachable ∧
      h.bindingsOf 0 = [("f", f)] ∧ f.ExistsIn h ∧ (∀ v ∈ args, v.ExistsIn h) ∧
      ((apply 9 f args).after h).CallsTo h' ∧
      apply 9 f args h = .ok (.function 2 ⟨[⟨.blank, "k"⟩], body, 1⟩) h₁ ∧
      apply 9 f args h' = .ok (.function 4 ⟨[⟨.blank, "k"⟩], body, 3⟩) h₂ ∧
      SameOutcome h (apply 9 f args h) (apply 9 f args h') := by
  let body : Node := .block .blank [.expressionStatement .blank (.identifier ⟨.blank, "n"⟩)]
  let maker : Node := .block .blank [.expressionStatement .blank (.function .blank [⟨.blank, "k"⟩] body)]
  let f : Value := .function 0 ⟨[⟨.blank, "n"⟩], maker, 0⟩
  let args : List Value := [.integer 1 7]
  let h : Heap := Heap.bind ⟨#[⟨none, []⟩], 2, []⟩ 0 "f" f
  have hroot : Heap.Reachable (Heap.empty.openScope none).2 := .openScope .empty nofun
  have hbefore : Heap.Reachable ⟨#[⟨none, []⟩], 2, []⟩ := .number (.number hroot)
  have hf : f.ExistsIn h := ⟨by decide, by decide⟩
  have hargs : ∀ v ∈ args, v.ExistsIn h := List.forall_mem_singleton.2 (by decide : 1 < 2)
  have hh : h.Reachable := .bind hbefore (by decide) ⟨by decide, by decide⟩
  have hcalls := (Heap.CallsTo.refl (h := (apply 9 f args).after h)).call 9 f [f]
  have hagain := (apply_again hh hf hargs 9 9 hcalls).resolve_right (by simp)
  exact ⟨h, _, _, _, f, args, body, hh, by with_unfolding_all rfl, hf, hargs, hcalls, by with_unfolding_all rfl,
    by with_unfolding_all rfl, hagain⟩

end Monkey
