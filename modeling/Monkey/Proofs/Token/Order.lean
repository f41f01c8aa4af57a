import Mathlib.Data.Prod.Lex
import Monkey.Proofs.Token.Placement
import Monkey.Proofs.Token.Standing

/-!
# The order of places

Places are ordered as they follow each other in a text, by line and then by column (`Position.lt_iff`). Each character
takes a place further on, so the tokens of a text stand at places that grow (`Cursor.pairwise_tokens`).
-/

namespace Monkey

namespace Position

/-- Places in the order of a text. -/
instance : PartialOrder Position :=
  PartialOrder.lift (fun p => toLex (p.line, p.column)) fun p q h => by
    cases p
    cases q
    cases h
    rfl

variable {p q : Position} {cs : List Char}

/-- A place comes before another one on an earlier line, or further left on the same line. -/
theorem lt_iff : p < q ↔ p.line < q.line ∨ p.line = q.line ∧ p.column < q.column :=
  Prod.Lex.toLex_lt_toLex

/-- Every character, a newline too, takes a place further on. -/
theorem lt_next (p : Position) (c : Char) : p < p.next c := by
  rw [lt_iff, next]
  split <;> simp

theorem le_after (p : Position) (cs : List Char) : p ≤ p.after cs := by
  induction cs generalizing p with
  | nil => exact le_refl p
  | cons c cs ih => exact (lt_next p c).le.trans (ih (p.next c))

theorem lt_after (p : Position) (hcs : cs ≠ []) : p < p.after cs := by
  obtain ⟨c, cs, rfl⟩ := List.exists_cons_of_ne_nil hcs
  exact (lt_next p c).trans_le (le_after (p.next c) cs)

end Position

namespace Cursor

variable {c : Cursor} {t : Token}

/-- At the end of the text the end token is the only one. -/
theorem tokens_of_eof (h : c.read.1.kind = .eof) : c.tokens = [c.read.1] := by
  rw [tokens, toEnd_eq_of_eof h, read_read_of_eof h]
  rfl

theorem tokens_of_ne_eof (h : c.read.1.kind ≠ .eof) : c.tokens = c.read.1 :: c.read.2.tokens := by
  rw [tokens, toEnd_eq_of_ne_eof h]
  rfl

/-- A token stands where the cursor is or behind the blanks there. -/
theorem position_le_read (c : Cursor) : c.position ≤ c.read.1.position := by
  have hposition : c.read.1.position = c.skipBlanks.position := by
    rw [read, lex]
    split <;> rfl
  rw [hposition, (over_skipBlanks c).position]
  exact Position.le_after _ _

/-- Behind a token one gets further. -/
theorem position_read_lt (h : c.read.1.kind ≠ .eof) : c.read.1.position < c.read.2.position := by
  obtain ⟨bs, x, xs, -, -, -, htoken, -, hover⟩ := over_read h
  rw [htoken, hover.position, Position.after_append]
  exact Position.lt_after _ (List.ne_nil_of_length_pos (length_lexeme_pos x xs))

/-- No token stands before the cursor. -/
theorem position_le_of_mem_tokens (ht : t ∈ c.tokens) : c.position ≤ t.position := by
  fun_induction toEnd c with
  | case1 c next hk =>
    rw [tokens_of_eof hk, List.mem_singleton] at ht
    exact ht ▸ position_le_read c
  | case2 c next hk later ih =>
    rw [tokens_of_ne_eof hk] at ht
    obtain rfl | ht := List.mem_cons.1 ht
    · exact position_le_read c
    · exact ((position_le_read c).trans (position_read_lt hk).le).trans (ih ht)

/-- **Tokens stand in order**: each one before all that come behind it. -/
theorem pairwise_tokens (c : Cursor) : c.tokens.Pairwise fun t u => t.position < u.position := by
  fun_induction toEnd c with
  | case1 c next hk =>
    rw [tokens_of_eof hk]
    exact List.pairwise_singleton _ _
  | case2 c next hk later ih =>
    rw [tokens_of_ne_eof hk]
    exact List.pairwise_cons.2 ⟨fun u hu => (position_read_lt hk).trans_le (position_le_of_mem_tokens hu), ih⟩

end Cursor

end Monkey
