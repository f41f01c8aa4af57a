import Monkey.Proofs.Parse.Cutoff
import Monkey.Proofs.Parse.Greedy

/-!
# A text that can go on

If nothing is reported of a text but that it has ended, then nothing is wrong with it up to its end, and what is left
open there can be completed.

* `Grammar.Completable`: a few fixed lexemes complete what the grammar derives.
* `Rule.Broken`: a rule reports something, and nothing but the end of the text. Up to its end the run is clean, so the
  place where it breaks follows the sequence of its steps (`Rule.Broken.of_bind`).
* `Rule.Completes.all`: where a rule breaks, what it reads is completable.
* `parse_lines_of_atEnd`: a text of which only its end is reported can go on.
-/

namespace Monkey

/-- What follows lexemes does not change how they begin. -/
theorem headKind_append_of_ne_nil {ls : List Lexeme} (h : ls ≠ []) (rest : List Lexeme) :
    headKind (ls ++ rest) = headKind ls := by
  obtain ⟨l, ls', rfl⟩ := List.exists_cons_of_ne_nil h
  rfl

namespace Grammar

/-! ## Completing what is left open -/

/-- Lexemes that complete whatever is left open. -/
def fillers : List Lexeme :=
  [⟨.lparen, "("⟩, ⟨.rparen, ")"⟩, ⟨.lbrace, "\x7b"⟩, ⟨.rbrace, "\x7d"⟩, ⟨.assign, "="⟩, ⟨.ident, "x"⟩]

/-- Each filler is a word that is read as itself. -/
theorem isWord_of_mem_fillers {l : Lexeme} (h : l ∈ fillers) : IsWord l.literal ∧ Lexeme.ofWord l.literal = l := by
  simp only [fillers, List.mem_cons, List.not_mem_nil, or_false] at h
  rcases h with rfl | rfl | rfl | rfl | rfl | rfl <;> exact ⟨⟨_, _, rfl, rfl, rfl⟩, by decide⟩

/-- Some text has the fillers as its lexemes. -/
theorem exists_lexemesOf_eq {fs : List Lexeme} (h : fs ⊆ fillers) : ∃ text, lexemesOf text = fs := by
  refine ⟨" ".intercalate (fs.map Lexeme.literal), ?_⟩
  rw [lexemesOf_intercalate (List.forall_mem_map.2 fun l hl => (isWord_of_mem_fillers (h hl)).1), List.map_map]
  exact (List.map_congr_left fun l hl => (isWord_of_mem_fillers (h hl)).2).trans (List.map_id fs)

/-- No filler is a numeral. -/
theorem shortNumerals_of_subset_fillers {fs : List Lexeme} (h : fs ⊆ fillers) : ShortNumerals fs := by
  intro l hl hk
  have hne : ∀ l ∈ fillers, l.kind ≠ .int := by decide
  exact absurd hk (hne l (h hl))

/-- The lexemes begin what `G` derives, and fillers complete it. -/
def Completable (G : List Lexeme → Prop) (ls : List Lexeme) : Prop :=
  ∃ fs, fs ⊆ fillers ∧ G (ls ++ fs)

/-- What `G` derives, up to a closing lexeme of kind `k`. -/
def UpTo (k : TokenKind) (G : List Lexeme → Prop) (ls : List Lexeme) : Prop :=
  ∃ ms s, ls = ms ++ [⟨k, s⟩] ∧ G ms

namespace Completable

variable {G G' : List Lexeme → Prop} {ls : List Lexeme}

/-- What is completable is so in its place, if fillers complete the rest. -/
theorem within (h : Completable G ls) (before fs : List Lexeme) (hfs : fs ⊆ fillers)
    (hG : ∀ ms, G ms → G' (before ++ ms ++ fs)) : Completable G' (before ++ ls) := by
  obtain ⟨gs, hgs, hG₁⟩ := h
  refine ⟨gs ++ fs, List.append_subset.2 ⟨hgs, hfs⟩, ?_⟩
  rw [← List.append_assoc, List.append_assoc before]
  exact hG _ hG₁

/-- What stands before is out of the way. -/
theorem skip (before : List Lexeme) (h : Completable (fun ms => G (before ++ ms)) ls) : Completable G (before ++ ls) := by
  obtain ⟨fs, hfs, hG⟩ := h
  exact ⟨fs, hfs, by rwa [List.append_assoc]⟩

/-- What is completable stays so behind what makes it part of something else. -/
theorem behind (h : Completable G ls) (before : List Lexeme) (hG : ∀ ms, G ms → G' (before ++ ms)) :
    Completable G' (before ++ ls) :=
  h.within before [] (List.nil_subset _) fun ms hms => (List.append_nil (before ++ ms)).symm ▸ hG ms hms

/-- At the end of a text it is the fillers that come next. -/
theorem of_nil (h : ls = []) (before fs : List Lexeme) (hfs : fs ⊆ fillers) (hG : G (before ++ fs)) :
    Completable G (before ++ ls) :=
  ⟨fs, hfs, by rwa [h, List.append_nil]⟩

end Completable

/-- An expression with arguments up to their parenthesis is a call. -/
theorem Expression.call_of_upTo {ls as : List Lexeme} {s : String} (h : Expression ls)
    (has : UpTo .rparen Arguments as) : Expression (ls ++ ⟨.lparen, s⟩ :: as) := by
  obtain ⟨ms, s', rfl, hms⟩ := has
  exact .call h hms

/-- Parameters up to their parenthesis and a block make a function. -/
theorem Expression.function_of_upTo {ps bs : List Lexeme} {s₁ s₂ : String} (hps : UpTo .rparen Parameters ps)
    (hb : Block bs) : Expression (⟨.fnKeyword, s₁⟩ :: ⟨.lparen, s₂⟩ :: (ps ++ bs)) := by
  obtain ⟨ms, s', rfl, hms⟩ := hps
  rw [List.append_assoc, List.singleton_append]
  exact .function hms hb

/-- Statements up to their brace make a block. -/
theorem Block.of_upTo {ls : List Lexeme} {s : String} (h : UpTo .rbrace (Statements .rbrace) ls) :
    Block (⟨.lbrace, s⟩ :: ls) := by
  obtain ⟨ms, s', rfl, hms⟩ := h
  exact .statements hms

/-- A block that nothing stands in. -/
theorem Block.nil : Block [⟨.lbrace, "\x7b"⟩, ⟨.rbrace, "\x7d"⟩] :=
  .statements .nil

/-- One statement makes statements in a row. -/
theorem Statements.single {k : TokenKind} {ls : List Lexeme} (h : Statement k ls) : Statements k ls :=
  List.append_nil ls ▸ .cons h .nil

/-- At the end of a text a statement stands as it does at the end of a block. -/
theorem Statement.before_rbrace {ls : List Lexeme} (h : Statement .eof ls) : Statement .rbrace ls := by
  cases h with
  | letStatement h hes => exact .letStatement h hes
  | returnValue h hes => exact .returnValue h hes
  | returnNothing => exact .returnNothing
  | returnLast _ => exact .returnLast (.inl rfl)
  | expression h hes => exact .expression h hes

end Grammar

namespace Parser

variable {p q r : Parser}

/-- A parser in front of the only end token of its text. -/
structure Proper (p : Parser) : Prop where
  final : p.final.kind = .eof
  ahead : ∀ t ∈ p.ahead, t.kind ≠ .eof

/-- The parser of a text begins in front of its only end token. -/
theorem proper_ofText (text : String) : (Parser.ofText text).Proper :=
  ⟨final_ofText text, fun _ ht => Cursor.kind_ne_eof_of_mem_toEnd ht⟩

/-- A parser further on still stands in front of the only end token. -/
theorem Proper.of_reaches (hp : p.Proper) (h : p.Reaches q) : q.Proper :=
  ⟨h.final ▸ hp.final, fun t ht => hp.ahead t (h.ahead.subset ht)⟩

/-- At the end token no lexemes are ahead. -/
theorem Proper.lexemes_eq_nil (hp : p.Proper) (hk : p.current.kind = .eof) : p.lexemes = [] := by
  rw [lexemes, ahead_eq_nil hp.ahead hk, List.map_nil]

/-- Before the end token no lexemes lie behind the window. -/
theorem Proper.rest_eq_nil (hp : p.Proper) (hk : p.next.kind = .eof) : p.rest = [] := by
  rw [← lexemes_advance]
  exact (hp.of_reaches (.advance p)).lexemes_eq_nil (by rwa [current_advance])

/-- What is reported on the parts of a way is reported on the whole of it. -/
theorem ReportsEnd.of_trans (h : p.ReportsEnd r) (hpq : p.Reaches q) (hqr : q.Reaches r) :
    p.ReportsEnd q ∧ q.ReportsEnd r := by
  obtain ⟨ds, hds, hend⟩ := h
  obtain ⟨ds₁, hds₁⟩ := hpq.diagnostics
  obtain ⟨ds₂, hds₂⟩ := hqr.diagnostics
  rw [← hds₂, ← hds₁, List.append_assoc, List.append_cancel_left_eq] at hds
  subst hds
  exact ⟨⟨ds₁, hds₁.symm, fun d hd => hend d (List.mem_append_left _ hd)⟩,
    ⟨ds₂, hds₂.symm, fun d hd => hend d (List.mem_append_right _ hd)⟩⟩

end Parser

namespace Rule

open Grammar

/-! ## Where a rule breaks -/

/-- From `p` on the rule reports something, and nothing but the end of the text. -/
structure Broken {α : Type} (x : Rule α) (p : Parser) : Prop where
  proper : p.Proper
  reports : p.ReportsEnd (after x p)
  size : p.diagnostics.size < (after x p).diagnostics.size

section Steps

variable {α β : Type} {x : Rule α} {p q : Parser} {a : α}

/-- A rule moves forward however it ends. -/
theorem reaches_after [hx : Forward x] (p : Parser) : p.Reaches (after x p) := by
  unfold after
  cases h : x p with
  | ok a q => exact hx.ok h
  | error why q => exact hx.error h

namespace Broken

/-- A sequence breaks in its first step, or behind it after a clean run. -/
theorem of_bind {f : α → Rule β} [hx : Forward x] [hf : ∀ a, Forward (f a)] (h : Broken (x >>= f) p) :
    Broken x p ∨ ∃ a q, Clean x p a q ∧ Broken (f a) q := by
  obtain ⟨hproper, hreports, hsize⟩ := h
  cases hr : x p with
  | error why q =>
    rw [after_bind_of_error hr] at hreports hsize
    have hafter : after x p = q := by rw [after, hr]
    exact .inl ⟨hproper, hafter ▸ hreports, hafter ▸ hsize⟩
  | ok a q =>
    rw [after_bind_of_ok hr] at hreports hsize
    have hafter : after x p = q := by rw [after, hr]
    have hpq := hx.ok hr
    obtain ⟨hbefore, hbehind⟩ := hreports.of_trans hpq (reaches_after q)
    by_cases hs : q.diagnostics.size = p.diagnostics.size
    · exact .inr ⟨a, q, ⟨hr, hproper.final, hs⟩, hproper.of_reaches hpq, hbehind, hs ▸ hsize⟩
    · have := hpq.size_diagnostics_le
      exact .inl ⟨hproper, hafter ▸ hbefore, hafter ▸ by omega⟩

theorem of_current {f : Token → Rule β} (h : Broken (current >>= f) p) : Broken (f p.current) p :=
  ⟨h.proper, h.reports, h.size⟩

theorem of_nextKind {f : TokenKind → Rule β} (h : Broken (nextKind >>= f) p) : Broken (f p.next.kind) p :=
  ⟨h.proper, h.reports, h.size⟩

theorem of_name {f : Identifier → Rule β} (h : Broken (name >>= f) p) :
    Broken (f ⟨p.current, p.current.literal⟩) p :=
  ⟨h.proper, h.reports, h.size⟩

theorem of_advance {f : Unit → Rule β} (h : Broken (advance >>= f) p) : Broken (f ()) p.advance :=
  ⟨h.proper.of_reaches (.advance p), h.reports, h.size⟩

theorem of_enter {f : Unit → Rule β} (h : Broken (enter >>= f) p) : Broken (f ()) (entering p) :=
  ⟨h.proper.of_reaches (.entering p), h.reports, h.size⟩

/-- A rule that is only attempted breaks where the rule itself does. -/
theorem of_attempt (h : Broken (attempt x) p) : Broken x p :=
  ⟨h.proper, after_attempt x p ▸ h.reports, after_attempt x p ▸ h.size⟩

/-- A rule that builds something at once does not break. -/
theorem not_pure : ¬ Broken (pure a) p :=
  fun h => Nat.lt_irrefl _ h.size

/-- A rule that refuses the text does not break. -/
theorem not_refuse {why : Refusal} : ¬ Broken (refuse why : Rule α) p :=
  fun h => Nat.lt_irrefl _ h.size

/-- The only report is one about the end of the text. -/
theorem atEnd {problem : Problem} {token : Token} (h : Broken x p) (hx : after x p = reporting p problem token) :
    problem.atEnd := by
  obtain ⟨ds, hds, hend⟩ := h.reports
  rw [hx, reporting, Array.toList_push, List.append_cancel_left_eq] at hds
  exact hend ⟨problem, token.position⟩ (hds ▸ List.mem_singleton_self _)

/-- A token is missed at the end of the text, or something breaks behind it. -/
theorem of_expect {kind : TokenKind} {f : Unit → Rule β} [hf : ∀ u, Forward (f u)] (h : Broken (expect kind >>= f) p) :
    p.rest = [] ∨ p.next.kind = kind ∧ Broken (f ()) p.advance := by
  rcases h.of_bind with h | ⟨_, q, hclean, h⟩
  · by_cases hk : p.next.kind = kind
    · have hafter : after (expect kind) p = p.advance := by rw [after, expect_run, if_pos hk]
      exact absurd (hafter ▸ h.size) (Nat.lt_irrefl _)
    · have hend := h.atEnd (by rw [after, expect_run, if_neg hk])
      exact .inl (h.proper.rest_eq_nil (by simpa [Problem.atEnd] using hend))
  · obtain ⟨hk, rfl⟩ := expect_eq_ok.1 hclean.run
    exact .inr ⟨hk, h⟩

/-- Skipping a semicolon reports nothing. -/
theorem not_skipSemicolon : ¬ Broken skipSemicolon p := by
  intro h
  replace h := h.of_nextKind
  split at h
  · exact Nat.lt_irrefl _ h.size
  · exact not_pure h

/-- A numeral out of range is not mended by what follows. -/
theorem not_integer : ¬ Broken integer p := by
  intro h
  replace h := h.of_current
  dsimp only at h
  split at h
  · exact not_refuse h
  · split at h
    · exact Bool.false_ne_true (h.atEnd rfl)
    · exact not_pure h

end Broken

end Steps

/-! ## What clean runs have derived -/

section Derived

variable {n : Nat} {p q : Parser}

/-- What a clean run for an expression moves over is derived as one. -/
theorem Clean.expression_derives {floor : Precedence} {e : Node} (hc : Clean (expression n floor) p e q) :
    ∃ ms, p.lexemes = ms ++ q.rest ∧ Expression ms :=
  ((Reads.all n).expression hc).1.derives

/-- What a clean run for an operand moves over is derived as an expression. -/
theorem Clean.operand_derives {e : Node} (hc : Clean (operand n) p e q) :
    ∃ ms, p.lexemes = ms ++ q.rest ∧ Expression ms :=
  ((Reads.all n).operand hc).derives

/-- What a clean run for a statement moves over is derived as one, before what follows it. -/
theorem Clean.statement_derives {e : Node} (hc : Clean (statement n) p e q) :
    ∃ ms, p.lexemes = ms ++ q.rest ∧ Statement (headKind q.rest) ms :=
  ((Reads.all n).statement hc).derives

/-- What a clean run for a block moves over is derived as one. -/
theorem Clean.block_derives {e : Node} (hk : p.current.kind = .lbrace) (hc : Clean (block n) p e q) :
    ∃ ms, p.lexemes = ms ++ q.rest ∧ Block ms := by
  obtain ⟨t, ss, s, -, hss⟩ := (Reads.all n).block hc
  obtain ⟨ms, hms, hss⟩ := hss.derives
  refine ⟨⟨.lbrace, p.current.literal⟩ :: (ms ++ [⟨.rbrace, s⟩]), ?_, .statements hss⟩
  rw [Parser.lexemes_eq_cons hc.final hk (by decide), hms]
  simp

/-- What a clean run for parameters moves over is derived up to the parenthesis. -/
theorem Clean.parameters_derives {ps : List Identifier} (hc : Clean (parameters n) p ps q) :
    ∃ ms, p.rest = ms ++ q.rest ∧ UpTo .rparen Parameters ms := by
  obtain ⟨ms, s, hms, hps⟩ := (parameters_reads hc).derives
  exact ⟨ms ++ [⟨.rparen, s⟩], by simpa using hms, ms, s, rfl, hps⟩

/-- What a clean run for arguments moves over is derived up to the parenthesis. -/
theorem Clean.arguments_derives {as : List Node} (hc : Clean (arguments n) p as q) :
    ∃ ms, p.rest = ms ++ q.rest ∧ UpTo .rparen Arguments ms := by
  obtain ⟨ms, s, hms, has⟩ := ((Reads.all n).arguments hc).derives
  exact ⟨ms ++ [⟨.rparen, s⟩], by simpa using hms, ms, s, rfl, has⟩

/-- An operator with what stands on its right prolongs an expression. -/
theorem Clean.application_derives {floor : Precedence} {left e : Node} {ls : List Lexeme} (he : Expression ls)
    (hlt : floor < p.current.kind.precedence) (hc : Clean (application n left) p e q) :
    ∃ ms, p.lexemes = ms ++ q.rest ∧ Expression (ls ++ ms) := by
  cases n with
  | zero => exact absurd hc.run refuse_ne_ok
  | succ n =>
    rw [Parser.lexemes_eq_cons hc.final rfl (TokenKind.ne_eof_of_lt_precedence hlt)]
    rw [application] at hc
    replace hc := hc.of_enter.of_current
    rw [Parser.current_entering] at hc
    cases hop : p.current.kind.binaryOp? with
    | some op =>
      rw [hop] at hc
      obtain ⟨right, r, hright, hc⟩ := hc.of_advance.of_bind
      obtain ⟨rfl, rfl⟩ := hc.of_pure
      obtain ⟨ms, hms, hr⟩ := hright.expression_derives
      rw [Parser.lexemes_advance] at hms
      refine ⟨⟨p.current.kind, p.current.literal⟩ :: ms, ?_, .binary he (TokenKind.mem_operators_iff.2 ⟨op, hop⟩) hr⟩
      exact congrArg _ hms
    | none =>
      rw [hop] at hc
      obtain ⟨args, r, hargs, hc⟩ := hc.of_bind
      obtain ⟨rfl, rfl⟩ := hc.of_pure
      obtain ⟨ms, hms, has⟩ := hargs.arguments_derives
      rw [TokenKind.eq_lparen_of_lt_precedence hlt hop]
      exact ⟨⟨.lparen, p.current.literal⟩ :: ms, congrArg _ hms, .call_of_upTo he has⟩

/-- Further parameters are read whether or not the parenthesis is closed behind them. -/
theorem Clean.moreParameters_derives {ps : List Identifier} (hc : Clean (moreParameters n) p ps q) :
    ∃ ms, p.rest = ms ++ q.rest ∧ MoreParameters ms := by
  induction n generalizing p ps with
  | zero => exact absurd hc.run refuse_ne_ok
  | succ n ih =>
    have hp := hc.final
    rw [moreParameters] at hc
    replace hc := hc.of_nextKind
    split at hc
    · next hcomma =>
      obtain ⟨hident, hc⟩ := hc.of_advance.of_expect
      obtain ⟨rest, r, hrest, hc⟩ := hc.of_name.of_bind
      obtain ⟨rfl, rfl⟩ := hc.of_pure
      obtain ⟨ms, hms, hps⟩ := ih hrest
      rw [Parser.rest_eq_cons hp hcomma (by decide), Parser.rest_eq_cons (p := p.advance) hp hident (by decide), hms]
      exact ⟨_, rfl, .cons hps⟩
    · obtain ⟨rfl, rfl⟩ := hc.of_pure
      exact ⟨[], rfl, .nil⟩

/-- What a clean run for more arguments moves over is derived as such. -/
theorem Clean.moreArguments_derives {as : List Node} (hc : Clean (moreArguments n) p as q) :
    ∃ ms, p.rest = ms ++ q.rest ∧ MoreArguments ms := by
  induction n generalizing p as with
  | zero => exact absurd hc.run refuse_ne_ok
  | succ n ih =>
    have hp := hc.final
    rw [moreArguments] at hc
    replace hc := hc.of_nextKind
    split at hc
    · next hcomma =>
      obtain ⟨first, r, hfirst, hc⟩ := hc.of_advance.of_advance.of_bind
      obtain ⟨rest, r', hrest, hc⟩ := hc.of_bind
      obtain ⟨rfl, rfl⟩ := hc.of_pure
      obtain ⟨ls, hls, he⟩ := hfirst.expression_derives
      obtain ⟨ms, hms, has⟩ := ih hrest
      rw [Parser.rest_eq_cons hp hcomma (by decide), ← Parser.lexemes_advance, hls, hms, ← List.append_assoc]
      exact ⟨_, rfl, .cons he has⟩
    · obtain ⟨rfl, rfl⟩ := hc.of_pure
      exact ⟨[], rfl, .nil⟩

end Derived

/-! ## Where a rule breaks, what it reads is completable -/

/-- More parameters that break off can be completed. -/
theorem Broken.moreParameters {n : Nat} {p : Parser} (h : Broken (moreParameters n) p) :
    Completable MoreParameters p.rest := by
  induction n generalizing p with
  | zero => exact absurd h Broken.not_refuse
  | succ n ih =>
    have hp := h.proper.final
    rw [Rule.moreParameters] at h
    replace h := h.of_nextKind
    split at h
    · next hcomma =>
      rw [Parser.rest_eq_cons hp hcomma (by decide)]
      rcases h.of_advance.of_expect with hnil | ⟨hident, h⟩
      · exact .of_nil hnil [_] [⟨.ident, "x"⟩] (by decide) (.cons .nil)
      · rcases h.of_name.of_bind with h | ⟨rest, r, hrest, h⟩
        · rw [Parser.rest_eq_cons (p := p.advance) hp hident (by decide)]
          exact (ih h).behind [_, _] fun ms hms => .cons hms
        · exact absurd h Broken.not_pure
    · exact absurd h Broken.not_pure

/-- Parameters that break off can be completed, their parenthesis included. -/
theorem Broken.parameters {n : Nat} {p : Parser} (h : Broken (parameters n) p) :
    Completable (UpTo .rparen Parameters) p.rest := by
  have hp := h.proper.final
  replace h := h.of_nextKind
  split at h
  · exact absurd h.of_advance Broken.not_pure
  · rcases h.of_expect with hnil | ⟨hident, h⟩
    · exact .of_nil hnil [] [⟨.rparen, ")"⟩] (by decide) ⟨[], _, rfl, .nil⟩
    · rw [Parser.rest_eq_cons hp hident (by decide)]
      rcases h.of_name.of_bind with h | ⟨rest, r, hrest, h⟩
      · exact h.moreParameters.within [_] [⟨.rparen, ")"⟩] (by decide) fun ms hms =>
          ⟨_ :: ms, _, rfl, .cons hms⟩
      · obtain ⟨ms, hms, hps⟩ := hrest.moreParameters_derives
        rcases h.of_expect with hnil | ⟨-, h⟩
        · rw [hms]
          exact .of_nil hnil (_ :: ms) [⟨.rparen, ")"⟩] (by decide) ⟨_ :: ms, _, rfl, .cons hps⟩
        · exact absurd h Broken.not_pure

/-- What each rule at allowance `n` reads is completable where the rule breaks. -/
structure Completes (n : Nat) : Prop where
  expression : ∀ {floor p}, Broken (expression n floor) p → Completable Expression p.lexemes
  operand : ∀ {p}, Broken (operand n) p → Completable Expression p.lexemes
  unary : ∀ {op p}, Broken (unary n op) p → Completable Expression p.rest
  group : ∀ {p}, p.current.kind = .lparen → Broken (group n) p → Completable Expression p.lexemes
  conditional : ∀ {p}, p.current.kind = .ifKeyword → Broken (conditional n) p → Completable Expression p.lexemes
  function : ∀ {p}, p.current.kind = .fnKeyword → Broken (function n) p → Completable Expression p.lexemes
  extend : ∀ {floor left p ls}, Expression ls → Broken (extend n floor left) p → Completable Expression (ls ++ p.rest)
  application : ∀ {floor left p ls}, Expression ls → floor < p.current.kind.precedence →
    Broken (application n left) p → Completable Expression (ls ++ p.lexemes)
  arguments : ∀ {p}, Broken (arguments n) p → Completable (UpTo .rparen Arguments) p.rest
  moreArguments : ∀ {p}, Broken (moreArguments n) p → Completable MoreArguments p.rest
  statement : ∀ {p} k, Broken (statement n) p → Completable (Statement k) p.lexemes
  letStatement : ∀ {p} k, p.current.kind = .letKeyword → Broken (letStatement n) p →
    Completable (Statement k) p.lexemes
  returnStatement : ∀ {p} k, p.current.kind = .returnKeyword → Broken (returnStatement n) p →
    Completable (Statement k) p.lexemes
  expressionStatement : ∀ {p} k, Broken (expressionStatement n) p → Completable (Statement k) p.lexemes
  block : ∀ {p}, p.current.kind = .lbrace → Broken (block n) p → Completable Block p.lexemes
  blockStatements : ∀ {p}, Broken (blockStatements n) p → Completable (UpTo .rbrace (Statements .rbrace)) p.lexemes

namespace Completes

variable {n : Nat} {p : Parser}

/-- At no allowance no rule breaks, as it refuses the text. -/
theorem zero : Completes 0 := by
  constructor <;> intros <;> rename_i h <;> exact absurd h Broken.not_refuse

/-- An expression breaks off in its operand or in what follows it. -/
theorem expression_succ (h : Completes n) {floor : Precedence} (hb : Broken (Rule.expression (n + 1) floor) p) :
    Completable Expression p.lexemes := by
  rw [Rule.expression] at hb
  rcases hb.of_enter.of_bind with hb | ⟨left, q, hleft, hb⟩
  · exact h.operand (p := entering p) hb
  · obtain ⟨ms, hms, he⟩ := hleft.operand_derives
    rw [show p.lexemes = ms ++ q.rest from hms]
    exact h.extend he hb

/-- An operand breaks off where the rule for its first token does, or the text ends before it. -/
theorem operand_succ (h : Completes n) (hb : Broken (Rule.operand (n + 1)) p) : Completable Expression p.lexemes := by
  have hp := hb.proper
  rw [Rule.operand] at hb
  replace hb := hb.of_enter.of_current
  rw [Parser.current_entering] at hb
  split at hb
  · exact absurd hb.of_name Broken.not_pure
  · exact absurd hb Broken.not_integer
  · exact absurd hb Broken.not_pure
  · exact absurd hb Broken.not_pure
  · next hk =>
    rw [Parser.lexemes_eq_cons hp.final hk (by decide)]
    exact (h.unary (p := entering p) hb).behind [_] fun ms hms => .not hms
  · next hk =>
    rw [Parser.lexemes_eq_cons hp.final hk (by decide)]
    exact (h.unary (p := entering p) hb).behind [_] fun ms hms => .negate hms
  · next hk => exact h.group (p := entering p) hk hb
  · next hk => exact h.conditional (p := entering p) hk hb
  · next hk => exact h.function (p := entering p) hk hb
  · -- nothing begins at the end of the text
    have hend := hb.atEnd rfl
    have hnil := hp.lexemes_eq_nil (by simpa [Problem.atEnd] using hend)
    exact .of_nil hnil [] [⟨.ident, "x"⟩] (by decide) .identifier

theorem unary_succ (h : Completes n) {op : UnaryOp} (hb : Broken (Rule.unary (n + 1) op) p) :
    Completable Expression p.rest := by
  rw [Rule.unary] at hb
  rcases hb.of_current.of_advance.of_bind with hb | ⟨right, q, hright, hb⟩
  · exact Parser.lexemes_advance p ▸ h.expression hb.of_attempt
  · exact absurd hb Broken.not_pure

theorem group_succ (h : Completes n) (hk : p.current.kind = .lparen) (hb : Broken (Rule.group (n + 1)) p) :
    Completable Expression p.lexemes := by
  rw [Parser.lexemes_eq_cons hb.proper.final hk (by decide), ← Parser.lexemes_advance]
  rw [Rule.group] at hb
  rcases hb.of_advance.of_bind with hb | ⟨inner, q, hinner, hb⟩
  · exact (h.expression hb).within [_] [⟨.rparen, ")"⟩] (by decide) fun ms hms => .group hms
  · obtain ⟨ms, hms, he⟩ := hinner.expression_derives
    rcases hb.of_expect with hnil | ⟨-, hb⟩
    · rw [hms]
      exact .of_nil hnil (_ :: ms) [⟨.rparen, ")"⟩] (by decide) (.group he)
    · exact absurd hb Broken.not_pure

/-- A block that has to follow: it is missing or breaks, or what comes behind it breaks. -/
theorem block_of_expect (h : Completes n) {f : Node → Rule Node} [∀ b, Forward (f b)]
    (hb : Broken (expect .lbrace >>= fun _ => Rule.block n >>= f) p) :
    Completable Block p.rest ∨ ∃ b q ms, p.rest = ms ++ q.rest ∧ Block ms ∧ Broken (f b) q := by
  rcases hb.of_expect with hnil | ⟨hk, hb⟩
  · exact .inl (.of_nil hnil [] [⟨.lbrace, "\x7b"⟩, ⟨.rbrace, "\x7d"⟩] (by decide) .nil)
  have hk' : p.advance.current.kind = .lbrace := by rw [Parser.current_advance, hk]
  rcases hb.of_bind with hb | ⟨b, q, hblock, hb⟩
  · exact .inl (Parser.lexemes_advance p ▸ h.block hk' hb)
  · obtain ⟨ms, hms, hderives⟩ := hblock.block_derives hk'
    exact .inr ⟨b, q, ms, Parser.lexemes_advance p ▸ hms, hderives, hb⟩

set_option synthInstance.maxSize 512 in
/-- An `if` can be completed wherever it breaks off. -/
theorem conditional_succ (h : Completes n) (hk : p.current.kind = .ifKeyword)
    (hb : Broken (Rule.conditional (n + 1)) p) : Completable Expression p.lexemes := by
  have hp := hb.proper.final
  rw [Parser.lexemes_eq_cons hp hk (by decide)]
  rw [Rule.conditional] at hb
  rcases hb.of_current.of_expect with hnil | ⟨hopen, hb⟩
  · exact .of_nil hnil [_] [⟨.lparen, "("⟩, ⟨.ident, "x"⟩, ⟨.rparen, ")"⟩, ⟨.lbrace, "\x7b"⟩, ⟨.rbrace, "\x7d"⟩]
      (by decide) (.ifThen .identifier .nil)
  rw [Parser.rest_eq_cons hp hopen (by decide), ← Parser.lexemes_advance]
  rcases hb.of_advance.of_bind with hb | ⟨c, q, hc, hb⟩
  · exact (h.expression hb).within [_, _] [⟨.rparen, ")"⟩, ⟨.lbrace, "\x7b"⟩, ⟨.rbrace, "\x7d"⟩] (by decide)
      fun ms hms => .ifThen hms .nil
  obtain ⟨ls, hls, he⟩ := hc.expression_derives
  rw [hls]
  refine .skip (_ :: _ :: ls) ?_
  rcases hb.of_expect with hnil | ⟨hclose, hb⟩
  · exact .of_nil hnil [] [⟨.rparen, ")"⟩, ⟨.lbrace, "\x7b"⟩, ⟨.rbrace, "\x7d"⟩] (by decide) (.ifThen he .nil)
  rw [Parser.rest_eq_cons hc.final_eof hclose (by decide)]
  rcases h.block_of_expect hb with hblock | ⟨b, r, bs, hbs, hblock, hb⟩
  · exact hblock.behind [_] fun _ hms => .ifThen he hms
  rw [hbs]
  refine .skip (_ :: bs) ?_
  have hr := hb.proper.final
  replace hb := hb.of_nextKind
  split at hb
  · next helse =>
    rw [Parser.rest_eq_cons hr helse (by decide)]
    rcases h.block_of_expect hb.of_advance with hblock' | ⟨_, _, _, -, -, hb⟩
    · exact hblock'.behind [_] fun _ hms => .ifThenElse he hblock hms
    · exact absurd hb Broken.not_pure
  · exact absurd hb Broken.not_pure

/-- A function can be completed wherever it breaks off. -/
theorem function_succ (h : Completes n) (hk : p.current.kind = .fnKeyword)
    (hb : Broken (Rule.function (n + 1)) p) : Completable Expression p.lexemes := by
  have hp := hb.proper.final
  rw [Parser.lexemes_eq_cons hp hk (by decide)]
  rw [Rule.function] at hb
  rcases hb.of_current.of_expect with hnil | ⟨hopen, hb⟩
  · exact .of_nil hnil [_] [⟨.lparen, "("⟩, ⟨.rparen, ")"⟩, ⟨.lbrace, "\x7b"⟩, ⟨.rbrace, "\x7d"⟩] (by decide)
      (.function .nil .nil)
  rw [Parser.rest_eq_cons hp hopen (by decide)]
  rcases hb.of_bind with hb | ⟨ps, q, hps, hb⟩
  · exact hb.parameters.within [_, _] [⟨.lbrace, "\x7b"⟩, ⟨.rbrace, "\x7d"⟩] (by decide)
      fun _ hms => Expression.function_of_upTo hms .nil
  obtain ⟨ms, hms, hderives⟩ := hps.parameters_derives
  rw [hms]
  rcases h.block_of_expect hb with hblock | ⟨_, _, _, -, -, hb⟩
  · exact hblock.behind (_ :: _ :: ms) fun _ hbs => .function_of_upTo hderives hbs
  · exact absurd hb Broken.not_pure

/-- What extends an expression breaks off behind a shorter expression. -/
theorem extend_succ (h : Completes n) {floor : Precedence} {left : Node} {ls : List Lexeme} (he : Expression ls)
    (hb : Broken (Rule.extend (n + 1) floor left) p) : Completable Expression (ls ++ p.rest) := by
  rw [Rule.extend] at hb
  replace hb := hb.of_nextKind
  split at hb
  · next hlt =>
    rcases hb.of_advance.of_bind with hb | ⟨longer, q, hlonger, hb⟩
    · exact Parser.lexemes_advance p ▸ h.application (p := p.advance) he hlt hb
    · obtain ⟨ms, hms, he'⟩ := hlonger.application_derives (p := p.advance) he hlt
      rw [← Parser.lexemes_advance, hms, ← List.append_assoc]
      exact h.extend he' hb
  · exact absurd hb Broken.not_pure

/-- An operator can be completed with an operand, a call with its parenthesis. -/
theorem application_succ (h : Completes n) {floor : Precedence} {left : Node} {ls : List Lexeme} (he : Expression ls)
    (hlt : floor < p.current.kind.precedence) (hb : Broken (Rule.application (n + 1) left) p) :
    Completable Expression (ls ++ p.lexemes) := by
  have hp := hb.proper.final
  rw [Parser.lexemes_eq_cons hp rfl (TokenKind.ne_eof_of_lt_precedence hlt)]
  refine .skip ls ?_
  rw [Rule.application] at hb
  replace hb := hb.of_enter.of_current
  rw [Parser.current_entering] at hb
  cases hop : p.current.kind.binaryOp? with
  | some op =>
    rw [hop] at hb
    rw [← Parser.lexemes_advance]
    rcases hb.of_advance.of_bind with hb | ⟨right, q, hright, hb⟩
    · exact (h.expression hb).behind [⟨p.current.kind, p.current.literal⟩] fun _ hms =>
        .binary he (TokenKind.mem_operators_iff.2 ⟨op, hop⟩) hms
    · exact absurd hb Broken.not_pure
  | none =>
    rw [hop] at hb
    rw [TokenKind.eq_lparen_of_lt_precedence hlt hop]
    rcases hb.of_bind with hb | ⟨args, q, hargs, hb⟩
    · exact (h.arguments (p := entering p) hb).behind [_] fun _ hms => .call_of_upTo he hms
    · exact absurd hb Broken.not_pure

/-- Arguments can be completed, their parenthesis included. -/
theorem arguments_succ (h : Completes n) (hb : Broken (Rule.arguments (n + 1)) p) :
    Completable (UpTo .rparen Arguments) p.rest := by
  rw [Rule.arguments] at hb
  replace hb := hb.of_nextKind
  split at hb
  · exact absurd hb.of_advance Broken.not_pure
  rw [← Parser.lexemes_advance]
  rcases hb.of_advance.of_bind with hb | ⟨first, q, hfirst, hb⟩
  · exact (h.expression hb).within [] [⟨.rparen, ")"⟩] (by decide) fun ms hms =>
      ⟨ms, _, rfl, List.append_nil ms ▸ .cons hms .nil⟩
  obtain ⟨ls, hls, he⟩ := hfirst.expression_derives
  rw [hls]
  refine .skip ls ?_
  rcases hb.of_bind with hb | ⟨more, r, hmore, hb⟩
  · exact (h.moreArguments hb).within [] [⟨.rparen, ")"⟩] (by decide) fun ms hms =>
      ⟨ls ++ ms, ")", (List.append_assoc ..).symm, .cons he hms⟩
  obtain ⟨ms, hms, has⟩ := hmore.moreArguments_derives
  rw [hms]
  rcases hb.of_expect with hnil | ⟨-, hb⟩
  · exact .of_nil hnil ms [⟨.rparen, ")"⟩] (by decide) ⟨ls ++ ms, _, (List.append_assoc ..).symm, .cons he has⟩
  · exact absurd hb Broken.not_pure

theorem moreArguments_succ (h : Completes n) (hb : Broken (Rule.moreArguments (n + 1)) p) :
    Completable MoreArguments p.rest := by
  have hp := hb.proper.final
  rw [Rule.moreArguments] at hb
  replace hb := hb.of_nextKind
  split at hb
  · next hcomma =>
    rw [Parser.rest_eq_cons hp hcomma (by decide), ← Parser.lexemes_advance]
    rcases hb.of_advance.of_advance.of_bind with hb | ⟨first, q, hfirst, hb⟩
    · exact (h.expression hb).behind [_] fun _ hms => by simpa using MoreArguments.cons hms .nil
    obtain ⟨ls, hls, he⟩ := hfirst.expression_derives
    rw [hls]
    rcases hb.of_bind with hb | ⟨more, r, hmore, hb⟩
    · exact (h.moreArguments hb).behind (_ :: ls) fun ms hms => .cons he hms
    · exact absurd hb Broken.not_pure
  · exact absurd hb Broken.not_pure

/-- A statement breaks off where the rule for its first token does. -/
theorem statement_succ (h : Completes n) (k : TokenKind) (hb : Broken (Rule.statement (n + 1)) p) :
    Completable (Statement k) p.lexemes := by
  rw [Rule.statement] at hb
  replace hb := hb.of_enter.of_current
  split at hb
  · next hk => exact h.letStatement (p := entering p) k hk hb
  · next hk => exact h.returnStatement (p := entering p) k hk hb
  · exact h.expressionStatement (p := entering p) k hb

/-- Behind the value of a statement nothing breaks. -/
theorem not_skipSemicolon_pure {a : Node} : ¬ Broken (skipSemicolon >>= fun _ => (pure a : Rule Node)) p := by
  intro hb
  rcases hb.of_bind with hb | ⟨_, _, -, hb⟩
  · exact Broken.not_skipSemicolon hb
  · exact Broken.not_pure hb

/-- A `let` can be completed wherever it breaks off. -/
theorem letStatement_succ (h : Completes n) (k : TokenKind) (hk : p.current.kind = .letKeyword)
    (hb : Broken (Rule.letStatement (n + 1)) p) : Completable (Statement k) p.lexemes := by
  have hp := hb.proper.final
  rw [Parser.lexemes_eq_cons hp hk (by decide)]
  rw [Rule.letStatement] at hb
  rcases hb.of_current.of_expect with hnil | ⟨hident, hb⟩
  · exact .of_nil hnil [_] [⟨.ident, "x"⟩, ⟨.assign, "="⟩, ⟨.ident, "x"⟩] (by decide)
      (.letStatement .identifier .absent)
  rw [Parser.rest_eq_cons hp hident (by decide)]
  rcases hb.of_name.of_expect with hnil | ⟨hassign, hb⟩
  · exact .of_nil hnil [_, _] [⟨.assign, "="⟩, ⟨.ident, "x"⟩] (by decide) (.letStatement .identifier .absent)
  rw [Parser.rest_eq_cons (p := p.advance) hp hassign (by decide), ← Parser.lexemes_advance]
  rcases hb.of_advance.of_bind with hb | ⟨value, q, hvalue, hb⟩
  · exact (h.expression hb.of_attempt).behind [_, _, _] fun _ hms => by simpa using Statement.letStatement hms .absent
  · exact absurd hb not_skipSemicolon_pure

/-- A `return` breaks off in its value, as without one it is complete. -/
theorem returnStatement_succ (h : Completes n) (k : TokenKind) (hk : p.current.kind = .returnKeyword)
    (hb : Broken (Rule.returnStatement (n + 1)) p) : Completable (Statement k) p.lexemes := by
  rw [Parser.lexemes_eq_cons hb.proper.final hk (by decide), ← Parser.lexemes_advance]
  rw [Rule.returnStatement] at hb
  replace hb := hb.of_current.of_nextKind
  split at hb
  · exact absurd hb.of_advance Broken.not_pure
  · split at hb
    · exact absurd hb Broken.not_pure
    · rcases hb.of_advance.of_bind with hb | ⟨value, q, hvalue, hb⟩
      · exact (h.expression hb.of_attempt).behind [_] fun _ hms => by simpa using Statement.returnValue hms .absent
      · exact absurd hb not_skipSemicolon_pure

theorem expressionStatement_succ (h : Completes n) (k : TokenKind) (hb : Broken (Rule.expressionStatement (n + 1)) p) :
    Completable (Statement k) p.lexemes := by
  rw [Rule.expressionStatement] at hb
  rcases hb.of_current.of_bind with hb | ⟨e, q, he, hb⟩
  · exact (h.expression hb).behind [] fun _ hms => by simpa using Statement.expression hms .absent
  · exact absurd hb not_skipSemicolon_pure

theorem block_succ (h : Completes n) (hk : p.current.kind = .lbrace) (hb : Broken (Rule.block (n + 1)) p) :
    Completable Block p.lexemes := by
  rw [Parser.lexemes_eq_cons hb.proper.final hk (by decide), ← Parser.lexemes_advance]
  rw [Rule.block] at hb
  rcases hb.of_enter.of_current.of_advance.of_bind with hb | ⟨ss, q, hss, hb⟩
  · exact (h.blockStatements hb).behind [⟨.lbrace, p.current.literal⟩] fun _ hms => .of_upTo hms
  · exact absurd hb Broken.not_pure

/-- Statements of a block can be completed, their brace included. -/
theorem blockStatements_succ (h : Completes n) (hb : Broken (Rule.blockStatements (n + 1)) p) :
    Completable (UpTo .rbrace (Statements .rbrace)) p.lexemes := by
  rw [Rule.blockStatements] at hb
  have hp := hb.proper
  replace hb := hb.of_current
  split at hb
  · exact absurd hb Broken.not_pure
  split at hb
  · next hk => exact .of_nil (hp.lexemes_eq_nil hk) [] [⟨.rbrace, "\x7d"⟩] (by decide) ⟨[], _, rfl, .nil⟩
  rcases hb.of_bind with hb | ⟨first, q, hfirst, hb⟩
  · exact (h.statement .rbrace hb.of_attempt).within [] [⟨.rbrace, "\x7d"⟩] (by decide) fun ms hms =>
      ⟨ms, _, rfl, .single hms⟩
  obtain ⟨_, -, hstatement⟩ := hfirst.of_attempt
  obtain ⟨ls, hls, hderives⟩ := hstatement.statement_derives
  rw [hls]
  refine .skip ls ?_
  rcases hb.of_advance.of_bind with hb | ⟨_, _, -, hb⟩
  · by_cases hnil : q.rest = []
    · rw [hnil] at hderives
      exact .of_nil hnil [] [⟨.rbrace, "\x7d"⟩] (by decide)
        ⟨ls, _, rfl, .single hderives.before_rbrace⟩
    · obtain ⟨fs, hfs, ss, s, hss, hstatements⟩ := h.blockStatements hb
      rw [Parser.lexemes_advance] at hss
      have hhead : headKind q.rest = firstKind .rbrace ss := by
        rw [← headKind_append_of_ne_nil hnil fs, hss]
        exact headKind_append ss [⟨.rbrace, s⟩]
      refine ⟨fs, hfs, ls ++ ss, s, ?_, .cons (hhead ▸ hderives) hstatements⟩
      rw [hss, List.append_assoc]
  · exact absurd hb Broken.not_pure

/-- **Where a rule breaks, what it reads is completable.** -/
theorem all : ∀ n, Completes n
  | 0 => zero
  | n + 1 =>
    have h := all n
    { expression := h.expression_succ
      operand := h.operand_succ
      unary := h.unary_succ
      group := h.group_succ
      conditional := h.conditional_succ
      function := h.function_succ
      extend := h.extend_succ
      application := h.application_succ
      arguments := h.arguments_succ
      moreArguments := h.moreArguments_succ
      statement := h.statement_succ
      letStatement := h.letStatement_succ
      returnStatement := h.returnStatement_succ
      expressionStatement := h.expressionStatement_succ
      block := h.block_succ
      blockStatements := h.blockStatements_succ }

end Completes

/-- Statements of a program that break off can be completed. -/
theorem Broken.programStatements {n : Nat} {p : Parser} (hb : Broken (programStatements n) p) :
    Completable Program p.lexemes := by
  induction n generalizing p with
  | zero => exact absurd hb Broken.not_refuse
  | succ n ih =>
    rw [Rule.programStatements] at hb
    replace hb := hb.of_current
    split at hb
    · exact absurd hb Broken.not_pure
    rcases hb.of_bind with hb | ⟨first, q, hfirst, hb⟩
    · exact ((Completes.all n).statement .eof hb.of_attempt).behind [] fun _ hms => .single hms
    obtain ⟨_, -, hstatement⟩ := hfirst.of_attempt
    obtain ⟨ls, hls, hderives⟩ := hstatement.statement_derives
    rw [hls]
    refine .skip ls ?_
    rcases hb.of_advance.of_bind with hb | ⟨_, _, -, hb⟩
    · by_cases hnil : q.rest = []
      · rw [hnil] at hderives
        exact .of_nil hnil [] [] (List.nil_subset _) ((List.append_nil ls).symm ▸ .single hderives)
      · obtain ⟨fs, hfs, hstatements⟩ := ih hb
        rw [Parser.lexemes_advance] at hstatements
        have hhead : headKind q.rest = firstKind .eof (q.rest ++ fs) := by
          rw [← headKind_append_of_ne_nil hnil fs, ← headKind_nil, ← headKind_append, List.append_nil]
        exact ⟨fs, hfs, .cons (hhead ▸ hderives) hstatements⟩
    · exact absurd hb Broken.not_pure

end Rule

/-! ## A whole text -/

open Rule in
/-- **A text of which only its end is reported can go on**: with some more lines nothing is wrong with it. -/
theorem parse_lines_of_atEnd {text : String} (hshort : ShortNumerals (lexemesOf text)) {t : Parse}
    (h : parse text = .ok t) (hne : t.diagnostics ≠ []) (hend : ∀ d ∈ t.diagnostics, d.problem.atEnd) :
    ∃ more t', parse (text ++ "\n" ++ more) = .ok t' ∧ t'.diagnostics = [] := by
  obtain ⟨ss, q, hrun, rfl⟩ := programStatements_of_parse h (Nat.le_refl _)
  let p := entering (.ofText text)
  have hafter : after (programStatements (Parser.ofText text).allowance) p = q := by rw [after, hrun]
  have hbroken : Broken (programStatements (Parser.ofText text).allowance) p :=
    ⟨(Parser.proper_ofText text).of_reaches (.entering _), ⟨q.diagnostics.toList, by rw [hafter]; rfl, hend⟩,
      by rw [hafter]; exact Array.size_pos_iff.2 fun h => hne (by rw [h])⟩
  obtain ⟨fs, hfs, hprogram⟩ := hbroken.programStatements
  obtain ⟨more, rfl⟩ := Grammar.exists_lexemesOf_eq hfs
  have hls : lexemesOf (text ++ "\n" ++ more) = p.lexemes ++ lexemesOf more := lexemesOf_lines text more
  have hshort' : ShortNumerals (p.lexemes ++ lexemesOf more) :=
    shortNumerals_append.2 ⟨hshort, Grammar.shortNumerals_of_subset_fillers hfs⟩
  have hsequence := Grammar.Statements.sequence hprogram hshort' (.inr rfl)
  obtain ⟨ss', hss'⟩ := @hsequence.reads [] rfl
  rw [List.append_nil, ← hls] at hss'
  obtain ⟨ss'', hparse, -⟩ := parse_of_reads hss'
  exact ⟨more, _, hparse, rfl⟩

end Monkey
