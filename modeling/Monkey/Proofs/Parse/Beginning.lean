import Monkey.Proofs.Parse.Grammar
import Monkey.Proofs.Parse.Soundness

/-!
# The beginning of a text

A rule looks at the current token and at the next one. So where it reads something and stops before the last token, it
reads the same from a text that goes on behind that token (`Rule.Carries`). An expression does not end with a semicolon,
so a statement that does has looked at nothing behind it. Hence statements of which the last one ends with a semicolon
are read in the same way whatever follows (`Rule.programStatements_carries`).
-/

namespace Monkey

/-! ## Lexemes that end with a semicolon -/

/-- There are no lexemes, or the last one is a semicolon. -/
def Terminated (ls : List Lexeme) : Prop :=
  ∀ l ∈ ls.getLast?, l.kind = .semicolon

instance (ls : List Lexeme) : Decidable (Terminated ls) :=
  inferInstanceAs (Decidable (∀ l ∈ ls.getLast?, l.kind = .semicolon))

/-- The end of a text that ends with a semicolon ends with it too. -/
theorem Terminated.of_suffix {ls ls' : List Lexeme} (h : Terminated ls) (hs : ls' <:+ ls) : Terminated ls' := by
  obtain ⟨pre, rfl⟩ := hs
  intro l hl
  refine h l ?_
  rw [List.getLast?_append, Option.mem_def.1 hl]
  rfl

/-- There is a last lexeme, and it is no semicolon. -/
def Unterminated (ls : List Lexeme) : Prop :=
  ∃ pre l, ls = pre ++ [l] ∧ l.kind ≠ .semicolon

namespace Unterminated

variable {ls : List Lexeme}

theorem single {k : TokenKind} {s : String} (h : k ≠ .semicolon) : Unterminated [⟨k, s⟩] := ⟨[], _, rfl, h⟩

/-- What stands before lexemes does not change how they end. -/
theorem append (h : Unterminated ls) (pre : List Lexeme) : Unterminated (pre ++ ls) := by
  obtain ⟨pre', l, rfl, hl⟩ := h
  exact ⟨pre ++ pre', l, (List.append_assoc ..).symm, hl⟩

theorem cons (h : Unterminated ls) (l : Lexeme) : Unterminated (l :: ls) :=
  h.append [l]

/-- Lexemes cannot end both ways. -/
theorem not_terminated (h : Unterminated ls) : ¬ Terminated ls := by
  obtain ⟨pre, l, rfl, hl⟩ := h
  exact fun hterm => hl (hterm l (by rw [List.getLast?_concat]; rfl))

end Unterminated

/-- A block ends with a brace. -/
theorem Grammar.Block.unterminated {ls : List Lexeme} (h : Block ls) : Unterminated ls := by
  obtain ⟨-⟩ := h
  exact ((Unterminated.single (k := .rbrace) nofun).append _).cons _

/-- An expression does not end with a semicolon. -/
theorem Grammar.Expression.unterminated : ∀ {ls : List Lexeme}, Expression ls → Unterminated ls
  | _, .identifier | _, .integer _ | _, .true | _, .false => .single nofun
  | _, .not h | _, .negate h => h.unterminated.cons _
  | _, .group _ => ((Unterminated.single (k := .rparen) nofun).append _).cons _
  | _, .binary _ _ h => (h.unterminated.cons _).append _
  | _, .call _ _ => (((Unterminated.single (k := .rparen) nofun).append _).cons _).append _
  | _, .ifThen _ hb => (((hb.unterminated.cons _).append _).cons _).cons _
  | _, .ifThenElse _ _ hb => (((((hb.unterminated.cons _).append _).cons _).append _).cons _).cons _
  | _, .function _ hb => (((hb.unterminated.cons _).append _).cons _).cons _

/-! ## Parsers on a text that goes on -/

/-- The parser at the same place in a text that goes on with some more tokens. -/
structure Parser.Begins (more : List Token) (p p' : Parser) : Prop where
  ahead : p'.ahead = p.ahead ++ more
  diagnostics : p'.diagnostics = p.diagnostics

namespace Parser.Begins

variable {more : List Token} {p p' : Parser}

/-- As long as tokens are left, both parsers are at the same one. -/
theorem current (h : p.Begins more p') (hne : p.ahead ≠ []) : p'.current = p.current := by
  obtain ⟨t, ts, ht⟩ := List.exists_cons_of_ne_nil hne
  rw [Parser.current, Parser.current, h.ahead, ht]
  rfl

theorem advance (h : p.Begins more p') (hne : p.ahead ≠ []) : p.advance.Begins more p'.advance where
  ahead := (congrArg List.tail h.ahead).trans (List.tail_append_of_ne_nil hne)
  diagnostics := h.diagnostics

theorem ne_nil_of_two_le (h : 2 ≤ p.ahead.length) : p.ahead ≠ [] ∧ p.advance.ahead ≠ [] := by
  have hadvance : p.advance.ahead.length = p.ahead.length - 1 := p.length_ahead_advance
  exact ⟨List.ne_nil_of_length_pos (by omega), List.ne_nil_of_length_pos (by omega)⟩

/-- As long as two tokens are left, both parsers look ahead at the same one. -/
theorem next (h : p.Begins more p') (hlength : 2 ≤ p.ahead.length) : p'.next = p.next := by
  obtain ⟨hne, hne'⟩ := ne_nil_of_two_le hlength
  exact (h.advance hne).current hne'

/-- Entering a rule keeps both parsers at the same place. -/
theorem entering (h : p.Begins more p') : (Rule.entering p).Begins more (Rule.entering p') :=
  ⟨h.ahead, h.diagnostics⟩

end Parser.Begins

/-- A parser that moves on still has a text before it that ends with a semicolon. -/
theorem Terminated.advance {p : Parser} (h : Terminated p.lexemes) : Terminated p.advance.lexemes :=
  h.of_suffix (p.lexemes_advance ▸ List.tail_suffix _)

namespace Rule

/-! ## Rules that stop before the last token -/

/-- What `x` reads without a report, stopping before the last token, `y` reads from a text that goes on. -/
structure Carries (more : List Token) {α : Type} (x y : Rule α) : Prop where
  forward : Forward x
  reads : ∀ {p p' : Parser} {a : α} {q : Parser}, p.Begins more p' → Clean x p a q → 2 ≤ q.ahead.length →
    ∃ q', y p' = .ok a q' ∧ q.Begins more q'

namespace Carries

variable {more : List Token} {α β : Type} {x y x' y' : Rule α}

/-- Rules that carry on make a sequence that does. -/
theorem bind {f g : α → Rule β} (hxy : Carries more x y) (hfg : ∀ a, Carries more (f a) (g a)) :
    Carries more (x >>= f) (y >>= g) := by
  have := hxy.forward
  have := fun a => (hfg a).forward
  refine ⟨inferInstance, fun hp hc hlength => ?_⟩
  obtain ⟨a, q, hx, hf⟩ := hc.of_bind
  have hq : 2 ≤ q.ahead.length := Nat.le_trans hlength (Forward.ok hf.run).length_ahead_le
  obtain ⟨q', hy, hq'⟩ := hxy.reads hp hx hq
  rw [bind_of_ok hy]
  exact (hfg a).reads hq' hf hlength

/-- A rule that carries on does so where it may give up. -/
theorem attempt (hxy : Carries more x y) : Carries more (attempt x) (attempt y) := by
  have := hxy.forward
  refine ⟨inferInstance, fun hp hc hlength => ?_⟩
  obtain ⟨a, rfl, hx⟩ := hc.of_attempt
  obtain ⟨q', hy, hq'⟩ := hxy.reads hp hx hlength
  exact ⟨q', attempt_eq_some.2 hy, hq'⟩

theorem ite {c : Prop} [Decidable c] (hxy : Carries more x y) (hxy' : Carries more x' y') :
    Carries more (if c then x else x') (if c then y else y') := by
  split
  · exact hxy
  · exact hxy'

theorem pure (a : α) : Carries more (pure a : Rule α) (pure a) where
  forward := inferInstance
  reads hp hc _ := by
    obtain ⟨rfl, rfl⟩ := hc.of_pure
    exact ⟨_, rfl, hp⟩

theorem refuse (why : Refusal) (y : Rule α) : Carries more (refuse why) y where
  forward := inferInstance
  reads _ hc _ := absurd hc.run refuse_ne_ok

/-- A rule that reports a problem reads nothing that has to be read again. -/
theorem fail (problem : Problem) (token : Token) (y : Rule α) :
    Carries more (Rule.report problem token >>= fun _ => giveUp) y where
  forward := inferInstance
  reads _ hc _ := nomatch hc.run

theorem current : Carries more current current where
  forward := inferInstance
  reads {p p' _ _} hp hc hlength := by
    cases hc.run
    have hcurrent := hp.current (Parser.Begins.ne_nil_of_two_le hlength).1
    exact ⟨p', by rw [← hcurrent]; rfl, hp⟩

theorem nextKind : Carries more nextKind nextKind where
  forward := inferInstance
  reads {p p' _ _} hp hc hlength := by
    cases hc.run
    have hnext := hp.next hlength
    exact ⟨p', by rw [← hnext]; rfl, hp⟩

theorem advance : Carries more advance advance where
  forward := inferInstance
  reads {p p' _ _} hp hc hlength := by
    cases hc.run
    refine ⟨p'.advance, rfl, hp.advance ?_⟩
    intro hnil
    rw [p.length_ahead_advance, hnil] at hlength
    exact absurd hlength (by decide)

theorem enter : Carries more enter enter where
  forward := inferInstance
  reads hp hc _ := by
    cases hc.run
    exact ⟨_, rfl, hp.entering⟩

theorem expect (kind : TokenKind) : Carries more (expect kind) (expect kind) where
  forward := inferInstance
  reads {p p' _ _} hp hc hlength := by
    obtain ⟨hk, rfl⟩ := expect_eq_ok.1 hc.run
    have hp2 : 2 ≤ p.ahead.length := Nat.le_trans hlength (Parser.Reaches.advance p).length_ahead_le
    refine ⟨p'.advance, expect_eq_ok.2 ⟨?_, rfl⟩, hp.advance (Parser.Begins.ne_nil_of_two_le hp2).1⟩
    rw [hp.next hp2, hk]

theorem report (problem : Problem) (token : Token) : Carries more (report problem token) (report problem token) where
  forward := inferInstance
  reads _ hc _ := by
    have hsize := hc.size
    cases hc.run
    exact absurd hsize (Nat.ne_of_gt (Nat.lt_of_lt_of_eq (Nat.lt_succ_self _) (Array.size_push ..).symm))

theorem integer : Carries more integer integer :=
  current.bind fun _ => .ite (.refuse _ _) (.ite (.fail _ _ _) (.pure _))

end Carries

/-- Carrying on is kept by whatever the rules of the grammar are built from. -/
theorem congruence_carries (more : List Token) : Congruence (Carries more) where
  exhausted := .refuse .tooDeep
  pure := .pure
  bind := .bind
  attempt := .attempt
  current := .current
  nextKind := .nextKind
  advance := .advance
  enter := .enter
  expect := .expect
  integer := .integer
  report := .report
  fail problem token := .fail problem token _

/-! ## Statements that end with a semicolon -/

section Expressions

variable {more : List Token} {n m : Nat} {p p' q : Parser} {e : Node} {floor : Precedence}

/-- An expression stops before a semicolon that ends the text. -/
theorem two_le_of_expression (hterm : Terminated p.lexemes) (hc : Clean (expression n floor) p e q) :
    2 ≤ q.ahead.length := by
  obtain ⟨hchain, -⟩ := (Reads.all n).expression hc
  obtain ⟨pre, hpre, hexpression⟩ := hchain.derives
  refine Nat.lt_of_not_le fun hle => ?_
  have hrest : q.rest = [] := by
    refine List.eq_nil_of_length_eq_zero ?_
    rw [Parser.rest, List.length_tail, Parser.lexemes, List.length_map]
    omega
  rw [hrest, List.append_nil] at hpre
  exact hexpression.unterminated.not_terminated (hpre ▸ hterm)

/-- An expression in a text that ends with a semicolon is read in the same way where the text goes on. -/
theorem expression_carries (hnm : n ≤ m) (hp : p.Begins more p') (hterm : Terminated p.lexemes)
    (hc : Clean (expression n floor) p e q) :
    ∃ q', expression m floor p' = .ok e q' ∧ q.Begins more q' ∧ 2 ≤ q.ahead.length := by
  have hlength := two_le_of_expression hterm hc
  obtain ⟨q', hrun, hq⟩ := (((congruence_carries more).rules hnm).expression floor).reads hp hc hlength
  exact ⟨q', hrun, hq, hlength⟩

end Expressions

/-- What `x` reads as a statement of a text that ends with a semicolon, `y` reads from a text that goes on, and it stops
before what the text goes on with. -/
def CarriesStatement (more : List Token) (x y : Rule Node) : Prop :=
  ∀ ⦃p p' : Parser⦄ ⦃s : Node⦄ ⦃q : Parser⦄, p.Begins more p' → Terminated p.lexemes → p.ahead ≠ [] → Clean x p s q →
    ∃ q', y p' = .ok s q' ∧ q.Begins more q' ∧ q.ahead ≠ []

namespace CarriesStatement

variable {more : List Token} {n m : Nat}

theorem refuse (why : Refusal) (y : Rule Node) : CarriesStatement more (refuse why) y :=
  fun _ _ _ _ _ _ _ hc => absurd hc.run refuse_ne_ok

/-- A rule that first looks at the current token carries on if what it does then does. -/
theorem bind_current {f g : Token → Rule Node} (h : ∀ t, CarriesStatement more (f t) (g t)) :
    CarriesStatement more (current >>= f) (current >>= g) := by
  intro p p' s q hp hterm hne hc
  rw [Rule.bind_current, hp.current hne]
  exact h _ hp hterm hne hc.of_current

/-- A rule that first takes the current token for a name carries on if what it does then does. -/
theorem bind_name {f g : Identifier → Rule Node} (h : ∀ id, CarriesStatement more (f id) (g id)) :
    CarriesStatement more (name >>= f) (name >>= g) := by
  intro p p' s q hp hterm hne hc
  show ∃ q', g ⟨p'.current, p'.current.literal⟩ p' = .ok s q' ∧ _
  rw [hp.current hne]
  exact h _ hp hterm hne hc.of_name

/-- A rule that first moves to a token of some kind carries on if what it does then does. -/
theorem bind_expect {kind : TokenKind} (hkind : kind ≠ .eof) {f g : Unit → Rule Node}
    (h : CarriesStatement more (f ()) (g ())) : CarriesStatement more (expect kind >>= f) (expect kind >>= g) := by
  intro p p' s q hp hterm hne hc
  have hfinal := hc.final
  obtain ⟨hk, hc⟩ := hc.of_expect
  have hlength : 2 ≤ p.ahead.length := Parser.two_le_length_ahead hfinal (hk ▸ hkind)
  rw [bind_of_ok (expect_eq_ok.2 ⟨(congrArg Token.kind (hp.next hlength)).trans hk, rfl⟩)]
  exact h (hp.advance hne) hterm.advance (Parser.Begins.ne_nil_of_two_le hlength).2 hc

/-- The end of a statement, behind an expression that stops before the last token. -/
theorem skipSemicolon {p p' q : Parser} {node s : Node} (hp : p.Begins more p') (hlength : 2 ≤ p.ahead.length)
    (hc : Clean (skipSemicolon >>= fun _ => Pure.pure node) p s q) :
    ∃ q', (Rule.skipSemicolon >>= fun _ => (Pure.pure node : Rule Node)) p' = .ok s q' ∧ q.Begins more q' ∧
      q.ahead ≠ [] := by
  obtain ⟨hne, hne'⟩ := Parser.Begins.ne_nil_of_two_le hlength
  obtain ⟨_, r, hskip, hc⟩ := hc.of_bind
  obtain ⟨rfl, rfl⟩ := hc.of_pure
  have hr := skipSemicolon_eq_ok.1 hskip.run
  rw [bind_of_ok (skipSemicolon_run p'), hp.next hlength]
  by_cases hk : p.next.kind = .semicolon
  · rw [if_pos hk] at hr ⊢
    exact ⟨_, rfl, hr ▸ hp.advance hne, hr ▸ hne'⟩
  · rw [if_neg hk] at hr ⊢
    exact ⟨_, rfl, hr ▸ hp, hr ▸ hne⟩

/-- A value and the end of its statement. -/
theorem value (hnm : n ≤ m) (node : Option Node → Node) :
    CarriesStatement more
      (advance >>= fun _ => attempt (expression n .lowest) >>= fun value => Rule.skipSemicolon >>= fun _ =>
        Pure.pure (node value))
      (advance >>= fun _ => attempt (expression m .lowest) >>= fun value => Rule.skipSemicolon >>= fun _ =>
        Pure.pure (node value)) := by
  intro p p' s q hp hterm hne hc
  obtain ⟨_, r, hvalue, hc⟩ := hc.of_advance.of_bind
  obtain ⟨value, rfl, hexpression⟩ := hvalue.of_attempt
  obtain ⟨r', hrun, hr, hlength⟩ := expression_carries hnm (hp.advance hne) hterm.advance hexpression
  rw [bind_of_ok (x := advance) (q := p'.advance) rfl, bind_of_ok (attempt_eq_some.2 hrun)]
  exact skipSemicolon hr hlength hc

/-- A `let` is read in the same way where the text goes on. -/
theorem letStatement (hnm : n ≤ m) : CarriesStatement more (letStatement n) (letStatement m) := by
  cases n with
  | zero => exact .refuse .tooDeep _
  | succ n =>
    obtain ⟨m, rfl⟩ := Nat.exists_eq_add_of_lt hnm
    rw [Rule.letStatement, Rule.letStatement]
    exact .bind_current fun _ => .bind_expect (by decide) (.bind_name fun _ => .bind_expect (by decide)
      (.value (Nat.le_add_right n m) _))

/-- An expression statement is read in the same way where the text goes on. -/
theorem expressionStatement (hnm : n ≤ m) :
    CarriesStatement more (expressionStatement n) (expressionStatement m) := by
  cases n with
  | zero => exact .refuse .tooDeep _
  | succ n =>
    obtain ⟨m, rfl⟩ := Nat.exists_eq_add_of_lt hnm
    rw [Rule.expressionStatement, Rule.expressionStatement]
    refine .bind_current fun token => ?_
    intro p p' s q hp hterm _ hc
    obtain ⟨e, r, hexpression, hc⟩ := hc.of_bind
    obtain ⟨r', hrun, hr, hlength⟩ := expression_carries (Nat.le_add_right n m) hp hterm hexpression
    rw [bind_of_ok hrun]
    exact skipSemicolon hr hlength hc

/-- A `return` does not end the text, so it is known whether a value follows. -/
theorem two_le_of_current {p : Parser} (hterm : Terminated p.lexemes) (hne : p.ahead ≠ [])
    (hk : p.current.kind ≠ .semicolon) : 2 ≤ p.ahead.length := by
  obtain ⟨t, ts, ht⟩ := List.exists_cons_of_ne_nil hne
  cases ts with
  | nil =>
    rw [Parser.current, ht] at hk
    rw [Parser.lexemes, ht] at hterm
    exact absurd (hterm t.lexeme rfl) hk
  | cons t' ts =>
    rw [ht]
    exact Nat.le_add_left 2 ts.length

/-- A `return` is read in the same way where the text goes on, unless the parser is already at its semicolon. -/
theorem returnStatement (hnm : n ≤ m) {p p' q : Parser} {s : Node} (hp : p.Begins more p')
    (hterm : Terminated p.lexemes) (hne : p.ahead ≠ []) (hk : p.current.kind ≠ .semicolon)
    (hc : Clean (returnStatement n) p s q) :
    ∃ q', Rule.returnStatement m p' = .ok s q' ∧ q.Begins more q' ∧ q.ahead ≠ [] := by
  have hlength := two_le_of_current hterm hne hk
  cases n with
  | zero => exact nomatch hc.run
  | succ n =>
    obtain ⟨m, rfl⟩ := Nat.exists_eq_add_of_lt hnm
    rw [Rule.returnStatement] at hc
    replace hc := hc.of_current.of_nextKind
    have hnext := hp.next hlength
    rw [Rule.returnStatement, Rule.bind_current, hp.current hne]
    show ∃ q', (if p'.next.kind = _ then _ else _ : Rule Node) p' = .ok s q' ∧ _
    rw [hnext]
    split at hc
    · next hsemicolon =>
      obtain ⟨rfl, rfl⟩ := hc.of_advance.of_pure
      rw [if_pos hsemicolon]
      exact ⟨p'.advance, rfl, hp.advance hne, (Parser.Begins.ne_nil_of_two_le hlength).2⟩
    · next hsemicolon =>
      rw [if_neg hsemicolon]
      split at hc
      · next hlast =>
        obtain ⟨rfl, rfl⟩ := hc.of_pure
        rw [if_pos hlast]
        exact ⟨p', rfl, hp, hne⟩
      · next hlast =>
        rw [if_neg hlast]
        exact value (Nat.le_add_right n m) _ hp hterm hne hc

/-- **A statement in a text that ends with a semicolon is read from a text that goes on.** -/
theorem statement (hnm : n ≤ m) : CarriesStatement more (statement n) (statement m) := by
  cases n with
  | zero => exact .refuse .tooDeep _
  | succ n =>
    obtain ⟨m, rfl⟩ := Nat.exists_eq_add_of_lt hnm
    have hnm' := Nat.le_add_right n m
    rw [Rule.statement, Rule.statement]
    intro p p' s q hp hterm hne hc
    replace hc := hc.of_enter.of_current
    rw [bind_enter, Rule.bind_current, hp.entering.current hne]
    split at hc
    · next hk =>
      rw [hk]
      exact letStatement hnm' hp.entering hterm hne hc
    · next hk =>
      rw [hk]
      exact returnStatement hnm' hp.entering hterm hne (by rw [hk]; decide) hc
    · exact expressionStatement hnm' hp.entering hterm hne hc

end CarriesStatement

/-! ## Programs -/

/-- **A program that ends with a semicolon is read in the same way whatever follows**; then what follows is read. -/
theorem programStatements_carries {more : List Token} {n m : Nat} (hnm : n ≤ m) {p p' q : Parser} {ss : List Node}
    (hp : p.Begins more p') (hterm : Terminated p.lexemes) (heof : ∀ t ∈ p.ahead, t.kind ≠ .eof)
    (hc : Clean (programStatements n) p ss q) :
    ∃ k p'', m ≤ k + p.ahead.length ∧ p''.ahead = more ∧ p''.final = p'.final ∧ p''.diagnostics = p.diagnostics ∧
      programStatements m p' = (programStatements k >>= fun ss' => pure (ss ++ ss')) p'' := by
  induction n generalizing m p p' ss with
  | zero => exact nomatch hc.run
  | succ n ih =>
    obtain ⟨m, rfl⟩ := Nat.exists_eq_add_of_lt hnm
    by_cases hnil : p.ahead = []
    · have hk : p.current.kind = .eof := by rw [Parser.current, hnil]; exact hc.final
      rw [programStatements] at hc
      replace hc := hc.of_current
      rw [if_pos hk] at hc
      obtain ⟨rfl, rfl⟩ := hc.of_pure
      refine ⟨_, p', Nat.le_add_right _ _, ?_, rfl, hp.diagnostics, (congrFun (bind_pure _) p').symm⟩
      rw [hp.ahead, hnil, List.nil_append]
    · have hk : p.current.kind ≠ .eof := by
        obtain ⟨t, ts, ht⟩ := List.exists_cons_of_ne_nil hnil
        rw [Parser.current, ht]
        exact heof t (ht ▸ List.mem_cons_self)
      rw [programStatements] at hc
      replace hc := hc.of_current
      rw [if_neg hk] at hc
      obtain ⟨_, r, hfirst, hc⟩ := hc.of_bind
      obtain ⟨first, rfl, hstatement⟩ := hfirst.of_attempt
      obtain ⟨rest, r₁, hrest, hc⟩ := hc.of_advance.of_bind
      obtain ⟨rfl, rfl⟩ := hc.of_pure
      obtain ⟨r', hrun, hr, hne⟩ := CarriesStatement.statement (Nat.le_add_right n m) hp hterm hnil hstatement
      have hreach := Forward.ok hstatement.run
      have hsuffix : r.advance.ahead <:+ p.ahead := (List.tail_suffix _).trans hreach.ahead
      obtain ⟨k, p'', hle, hahead, hfinal, hdiagnostics, hprogram⟩ := ih (Nat.le_add_right n m) (hr.advance hne)
        (hterm.of_suffix (hsuffix.map _)) (fun t ht => heof t (hsuffix.subset ht)) hrest
      refine ⟨k, p'', ?_, hahead, ?_, ?_, ?_⟩
      · have := List.length_pos_iff.2 hne
        have := hreach.length_ahead_le
        rw [Parser.length_ahead_advance] at hle
        omega
      · exact hfinal.trans (Forward.ok hrun).final
      · exact hdiagnostics.trans hstatement.diagnostics
      · rw [programStatements, bind_current, hp.current hnil, if_neg hk, bind_of_ok (attempt_eq_some.2 hrun),
          bind_of_ok (x := advance) (q := r'.advance) rfl, bind_run, hprogram, bind_run, bind_run]
        cases programStatements k p'' <;> rfl

end Rule

end Monkey
