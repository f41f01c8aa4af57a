import Monkey.Proofs.Parse.Soundness
import Monkey.Proofs.Parse.Stages
import Monkey.Proofs.Token.Order

/-!
# The order of reports

A report is made at the current token or at the next one, and a rule goes on after a part that could not be read. It
never goes back, though: as long as the current token is still to be looked at, all that has been reported lies before
it or at it, and when it is done with, before the next one or at that. Both are told by `Parser.ReportedTo`, and
`Rule.inOrder` says that every rule keeps to it.
-/

namespace Monkey

/-- The problem is one that the token shows: it is of that kind, or it is that numeral. -/
def Problem.IsOf (t : Token) : Problem → Prop
  | .unexpected _ got => got = t.kind
  | .noExpression kind => kind = t.kind
  | .outOfRange numeral => t.kind = .int ∧ numeral = t.literal

/-- The diagnostic is of one of the tokens, at the place of which it stands. -/
def Diagnostic.IsAmong (ts : List Token) (d : Diagnostic) : Prop :=
  ∃ t ∈ ts, d.position = t.position ∧ d.problem.IsOf t

namespace Parser

/-- What has been reported are problems of tokens of the text `ts`, in order, at `place` or before it; and the parser
moves over these tokens. -/
structure ReportedTo (ts : List Token) (place : Position) (p : Parser) : Prop where
  tokens : p.tokens <:+ ts
  among : ∀ d ∈ p.diagnostics.toList, d.IsAmong ts
  ordered : p.diagnostics.toList.Pairwise fun d e => d.position ≤ e.position
  le : ∀ d ∈ p.diagnostics.toList, d.position ≤ place

variable {p : Parser} {ts : List Token} {place later : Position} {problem : Problem} {token : Token}

theorem current_mem_tokens (p : Parser) : p.current ∈ p.tokens := by
  obtain ⟨rest, hrest⟩ := p.exists_tokens_eq
  rw [hrest]
  exact List.mem_cons_self

theorem next_mem_tokens (p : Parser) : p.next ∈ p.tokens :=
  (Reaches.advance p).tokens.subset p.advance.current_mem_tokens

/-- The next token does not stand before the current one. -/
theorem position_current_le (h : p.tokens.Pairwise fun t u => t.position < u.position) :
    p.current.position ≤ p.next.position := by
  unfold tokens at h
  unfold current next
  cases ha : p.ahead with
  | nil => exact le_refl _
  | cons t us =>
    rw [ha, List.cons_append, List.pairwise_cons] at h
    cases us with
    | nil => exact (h.1 p.final List.mem_cons_self).le
    | cons u us => exact (h.1 u List.mem_cons_self).le

namespace ReportedTo

theorem mono (h : p.ReportedTo ts place) (hle : place ≤ later) : p.ReportedTo ts later :=
  { h with le := fun d hd => (h.le d hd).trans hle }

theorem entering (h : p.ReportedTo ts place) : (Rule.entering p).ReportedTo ts place :=
  ⟨h.tokens, h.among, h.ordered, h.le⟩

/-- Moving on reports nothing. -/
theorem advance (h : p.ReportedTo ts place) : p.advance.ReportedTo ts place :=
  ⟨(Reaches.advance p).tokens.trans h.tokens, h.among, h.ordered, h.le⟩

/-- A report at a token no further back than the last one. -/
theorem reporting (h : p.ReportedTo ts token.position) (ht : token ∈ ts) (hproblem : problem.IsOf token) :
    (Rule.reporting p problem token).ReportedTo ts token.position := by
  have hpush : (Rule.reporting p problem token).diagnostics.toList =
      p.diagnostics.toList ++ [⟨problem, token.position⟩] := Array.toList_push
  refine ⟨h.tokens, ?_, ?_, ?_⟩
  · rw [hpush]
    exact List.forall_mem_append.2 ⟨h.among, List.forall_mem_singleton.2 ⟨token, ht, rfl, hproblem⟩⟩
  · rw [hpush]
    exact List.pairwise_append.2 ⟨h.ordered, List.pairwise_singleton _ _, fun d hd e he =>
      List.mem_singleton.1 he ▸ h.le d hd⟩
  · rw [hpush]
    exact List.forall_mem_append.2 ⟨h.le, List.forall_mem_singleton.2 (le_refl _)⟩

theorem reporting_current (h : p.ReportedTo ts p.current.position) (hproblem : problem.IsOf p.current) :
    (Rule.reporting p problem p.current).ReportedTo ts p.current.position :=
  h.reporting (h.tokens.subset p.current_mem_tokens) hproblem

theorem reporting_next (h : p.ReportedTo ts p.next.position) (hproblem : problem.IsOf p.next) :
    (Rule.reporting p problem p.next).ReportedTo ts p.next.position :=
  h.reporting (h.tokens.subset p.next_mem_tokens) hproblem

end ReportedTo

end Parser

namespace Rule

open Monkey.Parser (ReportedTo)

section

variable {ts : List Token} (hts : ts.Pairwise fun t u => t.position < u.position) {p : Parser}

include hts

/-- The current token is done with. -/
theorem reportedTo_next (h : p.ReportedTo ts p.current.position) : p.ReportedTo ts p.next.position :=
  h.mono (Parser.position_current_le (hts.sublist h.tokens.sublist))

/-- A numeral is reported at its own place, before the next token. -/
theorem leads_integer_inOrder (h : p.ReportedTo ts p.current.position) (hk : p.current.kind = .int) :
    Leads (fun q => q.ReportedTo ts q.next.position) integer p := by
  rw [integer]
  refine .bind_current (.ite (fun _ => .refuse _) fun _ => .ite (fun _ => .fail ?_) fun _ => .pure ?_ _)
  · exact reportedTo_next hts (h.reporting_current ⟨hk, rfl⟩)
  · exact reportedTo_next hts h

/-- **Every rule reports in order**, and only problems of tokens. -/
def inOrder : Stages where
  between p := p.ReportedTo ts p.current.position
  pending _ p := p.ReportedTo ts p.current.position
  held _ p := p.ReportedTo ts p.next.position
  done p := p.ReportedTo ts p.next.position
  begins hp _ := hp
  ended hp _ := reportedTo_next hts hp
  unclosed hp hk := reportedTo_next hts (hp.reporting_current hk.symm)
  resumed hp := hp.advance
  enters hp := hp.entering
  looked hp _ := reportedTo_next hts hp
  numeral hp hk := leads_integer_inOrder hts hp hk
  noExpression hp _ := reportedTo_next hts (hp.reporting_current rfl)
  takes hp := hp.entering
  releases hp := hp
  goesOn hp := hp.advance
  moves hp _ := reportedTo_next hts hp.advance
  unexpected _ hp := hp.reporting_next rfl

end

end Rule

/-- **Reports come in the order of the text.** Of whatever text is read, each diagnostic stands where one of its tokens
begins, the end token among them, and is of that token; and none stands before one that was made earlier. -/
theorem diagnostics_in_order {text : String} {t : Parse} (h : parse text = .ok t) :
    (∀ d ∈ t.diagnostics, ∃ token ∈ (Cursor.ofText text).tokens,
      d.position = token.position ∧ d.problem.IsOf token) ∧
    t.diagnostics.Pairwise fun d e => d.position ≤ e.position := by
  obtain ⟨ss, q, hrun, rfl⟩ := Rule.programStatements_of_parse h (Nat.le_refl _)
  have hbegin : (Rule.entering (.ofText text)).ReportedTo (Cursor.ofText text).tokens
      (Rule.entering (.ofText text)).current.position :=
    ⟨List.suffix_refl _, List.forall_mem_nil _, .nil, List.forall_mem_nil _⟩
  have hend := ((Rule.inOrder (Cursor.ofText text).pairwise_tokens).programStatements hbegin hrun).1
  exact ⟨hend.among, hend.ordered⟩

/-- Reports at a next token and at current ones, two of them at the end of the text. -/
theorem diagnostics_in_order_unclosed :
    ∃ t, parse "let 5;\nfn(x) \x7b (" = .ok t ∧
      t.diagnostics.map (fun d => (d.message, d.position)) =
        [("expected next token to be IDENT, got INT instead", ⟨1, 5⟩),
          ("no prefix parse function for EOF found", ⟨2, 10⟩),
          ("expected next token to be \x7d, got EOF instead", ⟨2, 10⟩)] ∧
      (∀ d ∈ t.diagnostics, ∃ token ∈ (Cursor.ofText "let 5;\nfn(x) \x7b (").tokens,
        d.position = token.position ∧ d.problem.IsOf token) ∧
      t.diagnostics.Pairwise fun d e => d.position ≤ e.position := by
  have hreports : (parse "let 5;\nfn(x) \x7b (").toOption.map
      (fun t => t.diagnostics.map fun d => (d.message, d.position)) =
      some [("expected next token to be IDENT, got INT instead", ⟨1, 5⟩),
        ("no prefix parse function for EOF found", ⟨2, 10⟩),
        ("expected next token to be \x7d, got EOF instead", ⟨2, 10⟩)] := by
    decide +kernel
  obtain ⟨t, ht, ht'⟩ := exists_of_map_parse hreports
  exact ⟨t, ht, ht', diagnostics_in_order ht⟩

end Monkey
