import Monkey.Proofs.Parse.Allowance
import Monkey.Proofs.Parse.Recovery

/-!
# Where names are bound

However malformed a text is, what is read of it as a `let` statement at its top level begins with a `let`, a name and an
equals sign in a row, and these are further and further on (`located_of_parse`). So the statement keeps the token where
its name stands.
-/

namespace Monkey

open Rule

/-- The `let` statements among the statements are read from some tokens, one behind the other: each begins with a `let`,
its name and an equals sign. -/
inductive Located : List Token → List Node → Prop
  | nil {ts} : Located ts []
  | skip {t ts ss} : Located ts ss → Located (t :: ts) ss
  | binding {t u v ts e ss} : t.kind = .letKeyword → u.kind = .ident → v.kind = .assign → Located ts ss →
      Located (t :: u :: v :: ts) (.letStatement t ⟨u, u.literal⟩ e :: ss)
  | other {s ts ss} : s.isLet = false → Located ts ss → Located ts (s :: ss)

namespace Located

variable {ts ts' : List Token} {ss : List Node}

theorem of_suffix (h : Located ts ss) (hts : ts <:+ ts') : Located ts' ss := by
  obtain ⟨before, rfl⟩ := hts
  induction before with
  | nil => exact h
  | cons t before ih => exact .skip ih

/-- The tokens that a `let` statement begins with. -/
theorem exists_suffix {t : Token} {target : Identifier} {e : Node} (h : Located ts ss)
    (hs : .letStatement t target e ∈ ss) :
    ∃ v rest, t :: target.token :: v :: rest <:+ ts ∧ t.kind = .letKeyword ∧ target.token.kind = .ident ∧
      v.kind = .assign ∧ target.name = target.token.literal := by
  induction h with
  | nil => cases hs
  | skip h ih =>
    obtain ⟨v, rest, hsuffix, hkinds⟩ := ih hs
    exact ⟨v, rest, hsuffix.trans (List.suffix_cons _ _), hkinds⟩
  | @binding t' u v ts e' ss ht hu hv h ih =>
    obtain hs | hs := List.mem_cons.1 hs
    · cases hs
      exact ⟨v, ts, List.suffix_refl _, ht, hu, hv, rfl⟩
    · obtain ⟨v', rest, hsuffix, hkinds⟩ := ih hs
      exact ⟨v', rest, hsuffix.trans ⟨[t', u, v], rfl⟩, hkinds⟩
  | other hlet h ih =>
    obtain hs | hs := List.mem_cons.1 hs
    · subst hs
      cases hlet
    · exact ih hs

end Located

namespace Rule

variable {n : Nat} {p q : Parser} {s : Node}

/-- The tokens that a `let` statement is read from. -/
theorem letStatement_run (hp : p.final.kind = .eof) (hk : p.current.kind = .letKeyword)
    (h : letStatement n p = .ok s q) :
    ∃ u v rest e, p.ahead = p.current :: u :: v :: rest ∧ u.kind = .ident ∧ v.kind = .assign ∧
      s = .letStatement p.current ⟨u, u.literal⟩ e ∧ q.ahead <:+ rest := by
  cases n with
  | zero => cases h
  | succ n =>
    rw [letStatement, bind_current] at h
    obtain ⟨_, p₁, hident, h⟩ := bind_eq_ok.1 h
    obtain ⟨hu, rfl⟩ := expect_eq_ok.1 hident
    obtain ⟨target, p₂, hname, h⟩ := bind_eq_ok.1 h
    cases hname
    obtain ⟨_, p₃, hassign, h⟩ := bind_eq_ok.1 h
    obtain ⟨hv, rfl⟩ := expect_eq_ok.1 hassign
    obtain ⟨_, p₄, hadvance, h⟩ := bind_eq_ok.1 h
    cases hadvance
    obtain ⟨value, p₅, hvalue, h⟩ := bind_eq_ok.1 h
    obtain ⟨_, p₆, hskip, h⟩ := bind_eq_ok.1 h
    obtain ⟨rfl, rfl⟩ := pure_eq_ok.1 h
    have hsuffix := (Forward.ok (x := skipSemicolon) hskip).ahead.trans (Forward.ok (x := attempt _) hvalue).ahead
    refine ⟨p.next, p.advance.next, _, _, ?_, hu, hv, rfl, hsuffix⟩
    rw [Parser.ahead_eq_cons hp (by rw [hk]; decide),
      Parser.ahead_eq_cons (p := p.advance) hp (by rw [Parser.current_advance, hu]; decide),
      Parser.ahead_eq_cons (p := p.advance.advance) hp (by rw [Parser.current_advance, hv]; decide)]
    rfl

theorem yields_returnStatement (n : Nat) : Yields (·.isLet = false) (returnStatement n) := by
  cases n with
  | zero => exact .refuse _
  | succ n =>
    rw [returnStatement]
    exact .step fun _ => .step fun _ => .ite (.step fun _ => .pure rfl) (.ite (.pure rfl)
      (.step fun _ => .step fun _ => .step fun _ => .pure rfl))

theorem yields_expressionStatement (n : Nat) : Yields (·.isLet = false) (expressionStatement n) := by
  cases n with
  | zero => exact .refuse _
  | succ n =>
    rw [expressionStatement]
    exact .step fun _ => .step fun _ => .step fun _ => .pure rfl

/-- A statement is of the kind that its first token says. -/
theorem statement_run (n : Nat) (p : Parser) :
    statement (n + 1) p = (if p.current.kind = .letKeyword then letStatement n else
      if p.current.kind = .returnKeyword then returnStatement n else expressionStatement n) (entering p) := by
  rw [statement, bind_enter, bind_current, Parser.current_entering]
  cases p.current.kind <;> rfl

/-- A statement is located if those behind it are. -/
theorem statement_located {ss : List Node} (hp : p.final.kind = .eof) (h : statement n p = .ok s q)
    (hss : Located q.ahead ss) : Located p.ahead (s :: ss) := by
  have hbehind : Located p.ahead ss := hss.of_suffix (Forward.ok (x := statement n) h).ahead
  cases n with
  | zero => cases h
  | succ n =>
    rw [statement_run] at h
    split at h
    · next hk =>
      obtain ⟨u, v, rest, e, hahead, hu, hv, rfl, hrest⟩ := letStatement_run (p := entering p) hp hk h
      rw [← Parser.ahead_entering, hahead]
      exact .binding hk hu hv (hss.of_suffix hrest)
    · have hother := Yields.ite (c := p.current.kind = .returnKeyword) (yields_returnStatement n)
        (yields_expressionStatement n)
      exact .other (hother h) hbehind

theorem programStatements_located {ss : List Node} (hp : p.final.kind = .eof) (h : programStatements n p = .ok ss q) :
    Located p.ahead ss := by
  induction n generalizing p q ss with
  | zero => cases h
  | succ n ih =>
    obtain ⟨-, rfl, -⟩ | ⟨-, first, p₁, rest, hfirst, hrest, rfl⟩ := programStatements_eq_ok.1 h
    · exact .nil
    · have hreaches : p.Reaches p₁ := Forward.ok (x := attempt (statement n)) hfirst
      have hbehind : Located p₁.ahead rest :=
        (ih (p := p₁.advance) (hreaches.final ▸ hp) hrest).of_suffix (List.tail_suffix _)
      cases first with
      | none => exact hbehind.of_suffix hreaches.ahead
      | some s => exact statement_located hp (attempt_eq_some.1 hfirst) hbehind

end Rule

/-- **The `let` statements of a program stand among the tokens of its text**, in their order. -/
theorem located_of_parse {text : String} {t : Parse} (h : parse text = .ok t) :
    ∃ ss, t.program = .program ss ∧ Located (Cursor.ofText text).toEnd.1 ss := by
  obtain ⟨ss, q, hrun, rfl⟩ := programStatements_of_parse h (Nat.le_refl _)
  exact ⟨ss, rfl, programStatements_located (p := entering (.ofText text)) (Parser.final_ofText text) hrun⟩

end Monkey
