import Monkey.Proofs.Parse.Soundness

/-!
# A text that is cut off

On the beginning of a text a rule does what it does on the whole text, until it looks for a token that is cut off. From
there on it only reports that the text has ended. So if nothing is wrong with the whole, nothing but the end is reported
of its beginning (`atEnd_of_parse_lines`).

* `Rule.RunsOut`: the rule gets to the last token and reports nothing but the end.
* `Rule.Starves`, `Rule.StarvesAtEnd`: the rule does so from the last token on, or from behind it.
* `Rule.Mirrors`: the rule does so from wherever it stands, unless it ends as it does on the whole text.
-/

namespace Monkey

namespace Parser

variable {p q r : Parser}

/-- All that is reported from `p` to `q` is about the end of the text. -/
def ReportsEnd (p q : Parser) : Prop :=
  ∃ ds : List Diagnostic, q.diagnostics.toList = p.diagnostics.toList ++ ds ∧ ∀ d ∈ ds, d.problem.atEnd

/-- Where nothing is reported, nothing but the end is. -/
theorem ReportsEnd.of_eq (h : q.diagnostics = p.diagnostics) : p.ReportsEnd q :=
  ⟨[], by rw [h, List.append_nil], nofun⟩

theorem ReportsEnd.refl (p : Parser) : p.ReportsEnd p :=
  .of_eq rfl

/-- What is reported on two ways in a row is about the end if it is on both. -/
theorem ReportsEnd.trans (h : p.ReportsEnd q) (h' : q.ReportsEnd r) : p.ReportsEnd r := by
  obtain ⟨ds, hds, hend⟩ := h
  obtain ⟨ds', hds', hend'⟩ := h'
  exact ⟨ds ++ ds', by rw [hds', hds, List.append_assoc], List.forall_mem_append.2 ⟨hend, hend'⟩⟩

theorem ReportsEnd.reporting {problem : Problem} (h : problem.atEnd) (p : Parser) (token : Token) :
    p.ReportsEnd (Rule.reporting p problem token) :=
  ⟨[⟨problem, token.position⟩], by simp [Rule.reporting], by simpa using h⟩

/-- Behind the last token nothing is left. -/
theorem rest_eq_nil_of_lexemes (h : p.lexemes = []) : p.rest = [] := by
  rw [rest, h, List.tail_nil]

/-- Behind the last token the end comes next. -/
theorem kind_next_of_rest (hp : p.final.kind = .eof) (h : p.rest = []) : p.next.kind = .eof := by
  rw [kind_next hp, h, headKind_nil]

/-- On a text that goes on behind the last token of another one the same token comes next. -/
theorem kind_next_eq {tail : List Lexeme} (hp : p.final.kind = .eof) (hq : q.final.kind = .eof) (hne : p.rest ≠ [])
    (hrest : q.rest = p.rest ++ tail) : p.next.kind = q.next.kind := by
  rw [kind_next hp, kind_next hq, hrest]
  cases hr : p.rest with
  | nil => exact absurd hr hne
  | cons l ls => rfl

/-- Behind the last token the window stands on the end. -/
theorem kind_current_of_lexemes (hp : p.final.kind = .eof) (h : p.lexemes = []) : p.current.kind = .eof := by
  rw [kind_current hp, h, headKind_nil]

end Parser

namespace Rule

/-- The parser that a rule leaves, however it ends. -/
def after {α : Type} (x : Rule α) (p : Parser) : Parser :=
  match x p with
  | .ok _ q => q
  | .error _ q => q

/-- From `p` on the rule gets to the last token and reports nothing but the end of the text. -/
structure RunsOut {α : Type} (x : Rule α) (p : Parser) : Prop where
  rest : (after x p).rest = []
  reports : p.ReportsEnd (after x p)

/-- A rule that runs out of text on the last token and behind it. -/
class Starves {α : Type} (x : Rule α) : Prop where
  runsOut : ∀ {p : Parser}, p.final.kind = .eof → p.rest = [] → RunsOut x p

/-- A rule that runs out of text behind the last token. -/
class StarvesAtEnd {α : Type} (x : Rule α) : Prop where
  runsOut : ∀ {p : Parser}, p.final.kind = .eof → p.lexemes = [] → RunsOut x p

section Sequences

variable {α β : Type} {x : Rule α} {f : α → Rule β} {p q r : Parser}

/-- Two rules in a row report nothing if neither does. -/
theorem Clean.bind {a : α} {b : β} (h : Clean x p a q) (h' : Clean (f a) q b r) : Clean (x >>= f) p b r :=
  ⟨(bind_of_ok h.run).trans h'.run, h.final, h'.size.trans h.size⟩

/-- Behind a rule that has built something the parser is where the next one leaves it. -/
theorem after_bind_of_ok {a : α} (h : x p = .ok a q) : after (x >>= f) p = after (f a) q := by
  rw [after, bind_of_ok h, after]

/-- A rule that stops leaves the parser where it is. -/
theorem after_bind_of_error {why : Stop} (h : x p = .error why q) : after (x >>= f) p = q := by
  rw [after, bind_of_error h]

/-- Taking what is given up as missing does not move the parser. -/
theorem after_attempt (x : Rule α) (p : Parser) : after (attempt x) p = after x p := by
  rw [after, after, attempt_run]
  rcases x p with ⟨a, q⟩ | ⟨_ | why, q⟩ <;> rfl

namespace RunsOut

/-- A rule runs out of text if the parser that it leaves is at the end of it. -/
theorem of_after (h : after x p = q) (hrest : q.rest = []) (hreports : p.ReportsEnd q) : RunsOut x p :=
  ⟨h ▸ hrest, h ▸ hreports⟩

theorem of_ok {a : α} (h : x p = .ok a q) (hrest : q.rest = []) (hreports : p.ReportsEnd q) : RunsOut x p :=
  of_after (by rw [after, h]) hrest hreports

theorem of_error {why : Stop} (h : x p = .error why q) (hrest : q.rest = []) (hreports : p.ReportsEnd q) :
    RunsOut x p :=
  of_after (by rw [after, h]) hrest hreports

/-- What follows a step runs out of text if it does so where the step leads. -/
theorem bind_of_ok {a : α} (h : x p = .ok a q) (hreports : p.ReportsEnd q) (hf : RunsOut (f a) q) :
    RunsOut (x >>= f) p :=
  of_after (after_bind_of_ok h) hf.rest (hreports.trans hf.reports)

/-- A rule that has run out of text is followed by steps that do. -/
theorem bind [hx : Forward x] [hf : ∀ a, Starves (f a)] (hp : p.final.kind = .eof) (h : RunsOut x p) :
    RunsOut (x >>= f) p := by
  obtain ⟨hrest, hreports⟩ := h
  unfold after at hrest hreports
  cases hr : x p with
  | ok a q =>
    rw [hr] at hrest hreports
    exact bind_of_ok hr hreports ((hf a).runsOut ((hx.ok hr).final ▸ hp) hrest)
  | error why q =>
    rw [hr] at hrest hreports
    exact of_after (after_bind_of_error hr) hrest hreports

/-- What runs out of text does so as well if it may be missing. -/
theorem attempt (h : RunsOut x p) : RunsOut (attempt x) p :=
  of_after (after_attempt x p) h.rest h.reports

end RunsOut

instance [hx : Starves x] : StarvesAtEnd x where
  runsOut hp h := hx.runsOut hp (Parser.rest_eq_nil_of_lexemes h)

instance Starves.bind [Forward x] [hx : Starves x] [∀ a, Starves (f a)] : Starves (x >>= f) where
  runsOut hp h := (hx.runsOut hp h).bind hp

instance StarvesAtEnd.bind [Forward x] [hx : StarvesAtEnd x] [∀ a, Starves (f a)] : StarvesAtEnd (x >>= f) where
  runsOut hp h := (hx.runsOut hp h).bind hp

instance StarvesAtEnd.attempt [hx : StarvesAtEnd x] : StarvesAtEnd (attempt x) where
  runsOut hp h := (hx.runsOut hp h).attempt

/-- A step forward from the last token leads behind it. -/
instance Starves.bind_advance {f : Unit → Rule β} [hf : StarvesAtEnd (f ())] : Starves (advance >>= f) where
  runsOut {p} hp h :=
    .bind_of_ok (q := p.advance) rfl (.refl p) (hf.runsOut (p := p.advance) hp (p.lexemes_advance.trans h))

instance StarvesAtEnd.bind_enter {f : Unit → Rule β} [hf : StarvesAtEnd (f ())] : StarvesAtEnd (enter >>= f) where
  runsOut {p} hp h := .bind_of_ok (q := entering p) rfl (.refl p) (hf.runsOut (p := entering p) hp h)

instance StarvesAtEnd.bind_current {f : Token → Rule β} [hf : ∀ t, StarvesAtEnd (f t)] :
    StarvesAtEnd (current >>= f) where
  runsOut {p} hp h := .bind_of_ok (q := p) rfl (.refl p) ((hf p.current).runsOut hp h)

instance Starves.pure (a : α) : Starves (pure a : Rule α) where
  runsOut {p} _ h := .of_ok (q := p) rfl h (.refl p)

instance Starves.refuse (why : Refusal) : Starves (refuse why : Rule α) where
  runsOut {p} _ h := .of_error (q := p) rfl h (.refl p)

instance Starves.current : Starves current where
  runsOut {p} _ h := .of_ok (q := p) rfl h (.refl p)

instance Starves.nextKind : Starves nextKind where
  runsOut {p} _ h := .of_ok (q := p) rfl h (.refl p)

instance Starves.enter : Starves enter where
  runsOut {p} _ h := .of_ok (q := entering p) rfl h (.refl p)

instance Starves.advance : Starves advance where
  runsOut {p} _ h := .of_ok (q := p.advance) rfl
    (Parser.rest_eq_nil_of_lexemes (p := p.advance) (p.lexemes_advance.trans h)) (.refl p)

instance Starves.expect (kind : TokenKind) : Starves (expect kind) where
  runsOut {p} hp h := by
    by_cases hk : p.next.kind = kind
    · have hr : Rule.expect kind p = .ok () p.advance := expect_eq_ok.2 ⟨hk, rfl⟩
      exact .of_ok hr (Starves.advance.runsOut hp h).rest (.refl p)
    · have hr := expect_run kind p
      rw [if_neg hk, Parser.kind_next_of_rest hp h] at hr
      exact .of_error hr h (.reporting rfl p p.next)

instance Starves.ite {c : Prop} [Decidable c] {y : Rule α} [hx : Starves x] [hy : Starves y] :
    Starves (if c then x else y) := by
  split
  · exact hx
  · exact hy

instance Starves.name : Starves name :=
  inferInstanceAs (Starves (Rule.current >>= _))

instance Starves.skipSemicolon : Starves skipSemicolon :=
  inferInstanceAs (Starves (Rule.nextKind >>= _))

end Sequences

/-! ## Rules at the end of a text -/

section Rules

variable (n : Nat)

/-- Nothing begins with the end token. -/
instance : StarvesAtEnd (operand n) where
  runsOut {p} hp h := by
    cases n with
    | zero => exact (Starves.refuse .tooDeep).runsOut hp (Parser.rest_eq_nil_of_lexemes h)
    | succ n =>
      have hk : (entering p).current.kind = .eof := Parser.kind_current_of_lexemes hp h
      have hr : operand (n + 1) p = .error .unreadable (reporting (entering p) (.noExpression .eof) p.current) := by
        rw [operand, bind_enter, bind_current]
        simp only [hk]
        rfl
      exact .of_error hr (Parser.rest_eq_nil_of_lexemes (p := entering p) h) (.reporting rfl (entering p) p.current)

/-- No expression goes on at the end token. -/
instance (floor : Precedence) (left : Node) : Starves (extend n floor left) where
  runsOut {p} hp h := by
    cases n with
    | zero => exact (Starves.refuse .tooDeep).runsOut hp h
    | succ n =>
      have hk : ¬ floor < p.next.kind.precedence := fun hlt =>
        TokenKind.ne_eof_of_lt_precedence hlt (Parser.kind_next_of_rest hp h)
      have hr : extend (n + 1) floor left p = .ok left p := by
        rw [extend]
        exact congrFun (if_neg hk) p
      exact .of_ok hr h (.refl p)

instance (floor : Precedence) : StarvesAtEnd (expression n floor) := by
  cases n with
  | zero => exact inferInstanceAs (StarvesAtEnd (refuse .tooDeep))
  | succ n =>
    rw [expression]
    infer_instance

/-- The end of the text ends a block, which is reported. -/
instance : StarvesAtEnd (blockStatements n) where
  runsOut {p} hp h := by
    cases n with
    | zero => exact (Starves.refuse .tooDeep).runsOut hp (Parser.rest_eq_nil_of_lexemes h)
    | succ n =>
      have hk : p.current.kind = .eof := Parser.kind_current_of_lexemes hp h
      have hr : blockStatements (n + 1) p = .ok [] (reporting p (.unexpected .rbrace .eof) p.current) := by
        rw [blockStatements, bind_current]
        simp only [hk, reduceCtorEq, ↓reduceIte]
        rfl
      exact .of_ok hr (Parser.rest_eq_nil_of_lexemes h) (.reporting rfl p p.current)

instance : StarvesAtEnd (programStatements n) where
  runsOut {p} hp h := by
    cases n with
    | zero => exact (Starves.refuse .tooDeep).runsOut hp (Parser.rest_eq_nil_of_lexemes h)
    | succ n =>
      have hk : p.current.kind = .eof := Parser.kind_current_of_lexemes hp h
      have hr : programStatements (n + 1) p = .ok [] p := by
        rw [programStatements, bind_current]
        simp only [hk, ↓reduceIte]
        rfl
      exact .of_ok hr (Parser.rest_eq_nil_of_lexemes h) (.refl p)

instance : Starves (block n) := by
  cases n with
  | zero => exact inferInstanceAs (Starves (refuse .tooDeep))
  | succ n =>
    rw [block]
    infer_instance

instance : Starves (moreParameters n) := by
  induction n with
  | zero => exact inferInstanceAs (Starves (refuse .tooDeep))
  | succ n ih =>
    rw [moreParameters]
    infer_instance

instance : Starves (parameters n) := by
  rw [parameters]
  infer_instance

instance : Starves (moreArguments n) := by
  induction n with
  | zero => exact inferInstanceAs (Starves (refuse .tooDeep))
  | succ n ih =>
    rw [moreArguments]
    infer_instance

instance : Starves (arguments n) := by
  cases n with
  | zero => exact inferInstanceAs (Starves (refuse .tooDeep))
  | succ n =>
    rw [arguments]
    infer_instance

instance (left : Node) : StarvesAtEnd (application n left) := by
  cases n with
  | zero => exact inferInstanceAs (StarvesAtEnd (refuse .tooDeep))
  | succ n =>
    rw [application]
    have (token : Token) : Starves (match token.kind.binaryOp? with
        | some op => do
          advance
          let right ← expression n token.kind.precedence
          return Node.binary token left op right
        | none => do
          let args ← arguments n
          return Node.call token left args) := by
      split <;> infer_instance
    infer_instance

end Rules

/-! ## Rules on the beginning of a text -/

/-- `x` on the beginning of a text that goes on with `tail`, and `y` on the whole of it: where nothing is wrong with the
whole, `x` gets over the same lexemes without a report, or it runs out of text. -/
def Mirrors (tail : List Lexeme) {α β : Type} (x : Rule α) (y : Rule β) : Prop :=
  ∀ ⦃p p' q' : Parser⦄ ⦃b : β⦄, p.final.kind = .eof → p.lexemes ≠ [] → p'.lexemes = p.lexemes ++ tail →
    Clean y p' b q' → (∃ a q, Clean x p a q ∧ q.lexemes ≠ [] ∧ q'.lexemes = q.lexemes ++ tail) ∨ RunsOut x p

namespace Mirrors

variable {α β : Type} {tail : List Lexeme}

/-- **Two rules in a row** do on the beginning of a text what they do on the whole, or run out of text in one of
them. -/
theorem bind {α' β' : Type} {x : Rule α} {y : Rule β} {f : α → Rule α'} {g : β → Rule β'} [hx : Forward x] [Forward y]
    [∀ b, Forward (g b)] [∀ a, Starves (f a)] (hxy : Mirrors tail x y)
    (hfg : ∀ a b, Mirrors tail (f a) (g b)) : Mirrors tail (x >>= f) (y >>= g) := by
  intro p p' r' c hp hne hls hc
  obtain ⟨b, q', hy, hg⟩ := hc.of_bind
  rcases hxy hp hne hls hy with ⟨a, q, hclean, hne', hls'⟩ | hout
  · have hq := hclean.final_eof
    rcases hfg a b hq hne' hls' hg with ⟨a', r, hclean', hend⟩ | hout
    · exact .inl ⟨a', r, hclean.bind hclean', hend⟩
    · exact .inr (.bind_of_ok hclean.run (.of_eq hclean.diagnostics) hout)
  · exact .inr (hout.bind hp)

/-- A rule that runs out of text on the last token need only be looked at before it. -/
theorem of_starves {x : Rule α} {y : Rule β} [hx : Starves x]
    (h : ∀ ⦃p p' q' : Parser⦄ ⦃b : β⦄, p.final.kind = .eof → p.rest ≠ [] → p'.lexemes = p.lexemes ++ tail →
      p'.rest = p.rest ++ tail → Clean y p' b q' →
        (∃ a q, Clean x p a q ∧ q.lexemes ≠ [] ∧ q'.lexemes = q.lexemes ++ tail) ∨ RunsOut x p) :
    Mirrors tail x y := by
  intro p p' q' b hp hne hls hc
  by_cases hrest : p.rest = []
  · exact .inr (hx.runsOut hp hrest)
  · refine h hp hrest hls ?_ hc
    rw [Parser.rest, Parser.rest, hls, List.tail_append_of_ne_nil hne]

/-- What reads no token is done on both. -/
theorem pure (a : α) (b : β) : Mirrors tail (pure a : Rule α) (pure b : Rule β) := by
  intro p p' q' b' hp hne hls hc
  obtain ⟨-, rfl⟩ := hc.of_pure
  exact .inl ⟨a, p, ⟨rfl, hp, rfl⟩, hne, hls⟩

/-- A report means that something is wrong with the whole. -/
theorem fail {problem problem' : Problem} {token token' : Token} :
    Mirrors tail (Rule.report problem token >>= fun _ => (giveUp : Rule α))
      (Rule.report problem' token' >>= fun _ => (giveUp : Rule β)) :=
  fun _ _ _ _ _ _ _ hc => absurd hc.run (by simp)

/-- The token in the window has the same kind and literal on both. -/
theorem bind_current {f : Token → Rule α} {g : Token → Rule β}
    (h : ∀ t t' : Token, t.kind = t'.kind → t.literal = t'.literal → Mirrors tail (f t) (g t')) :
    Mirrors tail (Rule.current >>= f) (Rule.current >>= g) := by
  intro p p' q' b hp hne hls hc
  have hlexeme : p.current.lexeme = p'.current.lexeme := by
    have hne' : p.ahead ≠ [] := fun e => hne (by rw [Parser.lexemes, e, List.map_nil])
    obtain ⟨t, ts, ht⟩ := List.exists_cons_of_ne_nil hne'
    obtain ⟨t', ts', ht'⟩ : ∃ t' ts', p'.ahead = t' :: ts' := by
      refine List.exists_cons_of_ne_nil fun e => ?_
      rw [Parser.lexemes, e, Parser.lexemes, ht] at hls
      cases hls
    rw [Parser.lexemes, Parser.lexemes, ht, ht', List.map_cons, List.map_cons, List.cons_append,
      List.cons.injEq] at hls
    rw [Parser.current, Parser.current, ht, ht', List.headD_cons, List.headD_cons, hls.1]
  obtain ⟨hk, hlit⟩ := Lexeme.mk.inj hlexeme
  rcases h p.current p'.current hk hlit hp hne hls hc.of_current with ⟨a, q, hclean, hend⟩ | hout
  · exact .inl ⟨a, q, ⟨hclean.run, hp, hclean.size⟩, hend⟩
  · exact .inr (.bind_of_ok (q := p) rfl (.refl p) hout)

theorem bind_enter {f : Unit → Rule α} {g : Unit → Rule β} (h : Mirrors tail (f ()) (g ())) :
    Mirrors tail (Rule.enter >>= f) (Rule.enter >>= g) := by
  intro p p' q' b hp hne hls hc
  rcases @h (entering p) (entering p') _ _ hp hne hls hc.of_enter with ⟨a, q, hclean, hend⟩ | hout
  · exact .inl ⟨a, q, ⟨hclean.run, hp, hclean.size⟩, hend⟩
  · exact .inr (.bind_of_ok (q := entering p) rfl (.refl p) hout)

/-- The next kind is the same on both, unless the text is cut off there. -/
theorem bind_nextKind {f : TokenKind → Rule α} {g : TokenKind → Rule β} [Starves (Rule.nextKind >>= f)]
    (h : ∀ k, Mirrors tail (f k) (g k)) : Mirrors tail (Rule.nextKind >>= f) (Rule.nextKind >>= g) := by
  refine of_starves fun p p' q' b hp hne hls hrest hc => ?_
  have hk : p.next.kind = p'.next.kind := Parser.kind_next_eq hp hc.final hne hrest
  have hne' : p.lexemes ≠ [] := fun e => hne (Parser.rest_eq_nil_of_lexemes e)
  rcases h p.next.kind hp hne' hls (hk ▸ hc.of_nextKind) with ⟨a, q, hclean, hend⟩ | hout
  · exact .inl ⟨a, q, ⟨hclean.run, hp, hclean.size⟩, hend⟩
  · exact .inr (.bind_of_ok (q := p) rfl (.refl p) hout)

/-- Moving on gets to the same token, unless the text is cut off there. -/
theorem bind_advance {f : Unit → Rule α} {g : Unit → Rule β} [StarvesAtEnd (f ())] (h : Mirrors tail (f ()) (g ())) :
    Mirrors tail (Rule.advance >>= f) (Rule.advance >>= g) := by
  refine of_starves fun p p' q' b hp hne hls hrest hc => ?_
  have hne' : p.advance.lexemes ≠ [] := p.lexemes_advance ▸ hne
  have hls' : p'.advance.lexemes = p.advance.lexemes ++ tail := by
    rw [Parser.lexemes_advance, Parser.lexemes_advance, hrest]
  rcases h (p := p.advance) hp hne' hls' hc.of_advance with ⟨a, q, hclean, hend⟩ | hout
  · exact .inl ⟨a, q, ⟨hclean.run, hp, hclean.size⟩, hend⟩
  · exact .inr (.bind_of_ok (q := p.advance) rfl (.refl p) hout)

theorem advance : Mirrors tail Rule.advance Rule.advance := by
  refine of_starves fun p p' q' b hp hne hls hrest hc => ?_
  cases hc.run
  refine .inl ⟨(), p.advance, ⟨rfl, hp, rfl⟩, p.lexemes_advance ▸ hne, ?_⟩
  rw [Parser.lexemes_advance, Parser.lexemes_advance, hrest]

/-- A token that is expected is there on both, unless the text is cut off before it. -/
theorem expect (kind : TokenKind) : Mirrors tail (Rule.expect kind) (Rule.expect kind) := by
  refine of_starves fun p p' q' b hp hne hls hrest hc => ?_
  obtain ⟨hk, rfl⟩ := expect_eq_ok.1 hc.run
  have hk' : p.next.kind = kind := (Parser.kind_next_eq hp hc.final hne hrest).trans hk
  refine .inl ⟨(), p.advance, ⟨expect_eq_ok.2 ⟨hk', rfl⟩, hp, rfl⟩, p.lexemes_advance ▸ hne, ?_⟩
  rw [Parser.lexemes_advance, Parser.lexemes_advance, hrest]

theorem attempt {x : Rule α} {y : Rule β} [Forward y] (h : Mirrors tail x y) :
    Mirrors tail (attempt x) (Rule.attempt y) := by
  intro p p' q' b hp hne hls hc
  obtain ⟨b, rfl, hy⟩ := hc.of_attempt
  rcases h hp hne hls hy with ⟨a, q, hclean, hend⟩ | hout
  · exact .inl ⟨some a, q, ⟨attempt_eq_some.2 hclean.run, hp, hclean.size⟩, hend⟩
  · exact .inr hout.attempt

/-- A name is the same on both. -/
theorem name : Mirrors tail Rule.name Rule.name :=
  bind_current fun _ _ _ _ => pure _ _

/-- A semicolon is passed over on both, unless the text is cut off before it. -/
theorem skipSemicolon : Mirrors tail Rule.skipSemicolon Rule.skipSemicolon := by
  refine bind_nextKind fun k => ?_
  split
  · exact advance
  · exact pure _ _

/-- A numeral that is read in the whole is read in its beginning. -/
theorem integer : Mirrors tail Rule.integer Rule.integer := by
  refine bind_current fun t t' _ hlit => ?_
  dsimp only
  rw [hlit]
  split
  · exact fun _ _ _ _ _ _ _ hc => nomatch hc.run
  · split
    · exact fail
    · exact pure _ _

/-- Parameters behind the first one are the same on both, as far as the text goes. -/
theorem moreParameters (n : Nat) : Mirrors tail (moreParameters n) (Rule.moreParameters n) := by
  induction n with
  | zero => exact fun _ _ _ _ _ _ _ hc => nomatch hc.run
  | succ n ih =>
    rw [Rule.moreParameters]
    refine bind_nextKind fun k => ?_
    split
    · exact bind_advance (bind (expect _) fun _ _ => bind name fun _ _ => bind ih fun _ _ => pure _ _)
    · exact pure _ _

/-- The parameters of a function are the same on both, as far as the text goes. -/
theorem parameters (n : Nat) : Mirrors tail (parameters n) (Rule.parameters n) := by
  rw [Rule.parameters]
  refine bind_nextKind fun k => ?_
  split
  · exact bind_advance (pure _ _)
  · exact bind (expect _) fun _ _ => bind name fun _ _ => bind (moreParameters n) fun _ _ =>
      bind (expect _) fun _ _ => pure _ _

end Mirrors

/-- Every rule at allowance `n` on the beginning of a text, and the same rule on the whole of it. The trees on the left of
an operator have been built on either side. -/
structure Mirroring (tail : List Lexeme) (n : Nat) : Prop where
  expression : ∀ floor, Mirrors tail (expression n floor) (expression n floor)
  operand : Mirrors tail (operand n) (operand n)
  unary : ∀ op, Mirrors tail (unary n op) (unary n op)
  group : Mirrors tail (group n) (group n)
  conditional : Mirrors tail (conditional n) (conditional n)
  function : Mirrors tail (function n) (function n)
  extend : ∀ floor left left', Mirrors tail (extend n floor left) (extend n floor left')
  application : ∀ left left', Mirrors tail (application n left) (application n left')
  arguments : Mirrors tail (arguments n) (arguments n)
  moreArguments : Mirrors tail (moreArguments n) (moreArguments n)
  statement : Mirrors tail (statement n) (statement n)
  letStatement : Mirrors tail (letStatement n) (letStatement n)
  returnStatement : Mirrors tail (returnStatement n) (returnStatement n)
  expressionStatement : Mirrors tail (expressionStatement n) (expressionStatement n)
  block : Mirrors tail (block n) (block n)
  blockStatements : Mirrors tail (blockStatements n) (blockStatements n)

namespace Mirroring

variable {tail : List Lexeme} {n : Nat}

theorem zero : Mirroring tail 0 := by
  constructor <;> intros <;> exact fun _ _ _ _ _ _ _ hc => nomatch hc.run

theorem expression_succ (h : Mirroring tail n) (floor : Precedence) :
    Mirrors tail (Rule.expression (n + 1) floor) (Rule.expression (n + 1) floor) := by
  rw [Rule.expression]
  exact .bind_enter (.bind h.operand (h.extend floor))

/-- The rule that reads an operand is told by the kind of its token. -/
theorem operand_succ (h : Mirroring tail n) : Mirrors tail (Rule.operand (n + 1)) (Rule.operand (n + 1)) := by
  rw [Rule.operand]
  refine .bind_enter (.bind_current fun t t' hk _ => ?_)
  rw [hk]
  split
  · exact .bind .name fun _ _ => .pure _ _
  · exact .integer
  · exact .pure _ _
  · exact .pure _ _
  · exact h.unary .not
  · exact h.unary .negate
  · exact h.group
  · exact h.conditional
  · exact h.function
  · exact .fail

theorem unary_succ (h : Mirroring tail n) (op : UnaryOp) :
    Mirrors tail (Rule.unary (n + 1) op) (Rule.unary (n + 1) op) := by
  rw [Rule.unary]
  exact .bind_current fun _ _ _ _ => .bind_advance (.bind (.attempt (h.expression _)) fun _ _ => .pure _ _)

theorem group_succ (h : Mirroring tail n) : Mirrors tail (Rule.group (n + 1)) (Rule.group (n + 1)) := by
  rw [Rule.group]
  exact .bind_advance (.bind (h.expression _) fun _ _ => .bind (.expect _) fun _ _ => .pure _ _)

set_option synthInstance.maxSize 512 in
theorem conditional_succ (h : Mirroring tail n) :
    Mirrors tail (Rule.conditional (n + 1)) (Rule.conditional (n + 1)) := by
  rw [Rule.conditional]
  refine .bind_current fun _ _ _ _ => .bind (.expect _) fun _ _ => .bind_advance (.bind (h.expression _) fun _ _ =>
    .bind (.expect _) fun _ _ => .bind (.expect _) fun _ _ => .bind h.block fun _ _ => .bind_nextKind fun k => ?_)
  split
  · exact .bind_advance (.bind (.expect _) fun _ _ => .bind h.block fun _ _ => .pure _ _)
  · exact .pure _ _

theorem function_succ (h : Mirroring tail n) : Mirrors tail (Rule.function (n + 1)) (Rule.function (n + 1)) := by
  rw [Rule.function]
  exact .bind_current fun _ _ _ _ => .bind (.expect _) fun _ _ => .bind (.parameters n) fun _ _ =>
    .bind (.expect _) fun _ _ => .bind h.block fun _ _ => .pure _ _

/-- An operand is extended on the beginning as on the whole, as far as the text goes. -/
theorem extend_succ (h : Mirroring tail n) (floor : Precedence) (left left' : Node) :
    Mirrors tail (Rule.extend (n + 1) floor left) (Rule.extend (n + 1) floor left') := by
  rw [Rule.extend, Rule.extend]
  refine .bind_nextKind fun k => ?_
  split
  · exact .bind_advance (.bind (h.application left left') (h.extend floor))
  · exact .pure _ _

/-- An operator or arguments are read on the beginning as on the whole, whatever the operand before them is. -/
theorem application_succ (h : Mirroring tail n) (left left' : Node) :
    Mirrors tail (Rule.application (n + 1) left) (Rule.application (n + 1) left') := by
  rw [Rule.application, Rule.application]
  refine .bind_enter (.bind_current fun t t' hk _ => ?_)
  rw [hk]
  cases t'.kind.binaryOp? with
  | some op => exact .bind_advance (.bind (h.expression _) fun _ _ => .pure _ _)
  | none => exact .bind h.arguments fun _ _ => .pure _ _

theorem arguments_succ (h : Mirroring tail n) : Mirrors tail (Rule.arguments (n + 1)) (Rule.arguments (n + 1)) := by
  rw [Rule.arguments]
  refine .bind_nextKind fun k => ?_
  split
  · exact .bind_advance (.pure _ _)
  · exact .bind_advance (.bind (h.expression _) fun _ _ => .bind h.moreArguments fun _ _ =>
      .bind (.expect _) fun _ _ => .pure _ _)

theorem moreArguments_succ (h : Mirroring tail n) :
    Mirrors tail (Rule.moreArguments (n + 1)) (Rule.moreArguments (n + 1)) := by
  rw [Rule.moreArguments]
  refine .bind_nextKind fun k => ?_
  split
  · exact .bind_advance (.bind_advance (.bind (h.expression _) fun _ _ => .bind h.moreArguments fun _ _ => .pure _ _))
  · exact .pure _ _

/-- The rule that reads a statement is told by the kind of its first token. -/
theorem statement_succ (h : Mirroring tail n) : Mirrors tail (Rule.statement (n + 1)) (Rule.statement (n + 1)) := by
  rw [Rule.statement]
  refine .bind_enter (.bind_current fun t t' hk _ => ?_)
  rw [hk]
  split
  · exact h.letStatement
  · exact h.returnStatement
  · exact h.expressionStatement

theorem letStatement_succ (h : Mirroring tail n) :
    Mirrors tail (Rule.letStatement (n + 1)) (Rule.letStatement (n + 1)) := by
  rw [Rule.letStatement]
  exact .bind_current fun _ _ _ _ => .bind (.expect _) fun _ _ => .bind .name fun _ _ => .bind (.expect _) fun _ _ =>
    .bind_advance (.bind (.attempt (h.expression _)) fun _ _ => .bind .skipSemicolon fun _ _ => .pure _ _)

/-- A `return` has a value on the beginning if it has one on the whole, unless the text is cut off behind it. -/
theorem returnStatement_succ (h : Mirroring tail n) :
    Mirrors tail (Rule.returnStatement (n + 1)) (Rule.returnStatement (n + 1)) := by
  rw [Rule.returnStatement]
  refine .bind_current fun _ _ _ _ => .bind_nextKind fun k => ?_
  split
  · exact .bind_advance (.pure _ _)
  · split
    · exact .pure _ _
    · exact .bind_advance (.bind (.attempt (h.expression _)) fun _ _ => .bind .skipSemicolon fun _ _ => .pure _ _)

theorem expressionStatement_succ (h : Mirroring tail n) :
    Mirrors tail (Rule.expressionStatement (n + 1)) (Rule.expressionStatement (n + 1)) := by
  rw [Rule.expressionStatement]
  exact .bind_current fun _ _ _ _ => .bind (h.expression _) fun _ _ => .bind .skipSemicolon fun _ _ => .pure _ _

theorem block_succ (h : Mirroring tail n) : Mirrors tail (Rule.block (n + 1)) (Rule.block (n + 1)) := by
  rw [Rule.block]
  exact .bind_enter (.bind_current fun _ _ _ _ => .bind_advance (.bind h.blockStatements fun _ _ => .pure _ _))

/-- A block ends on the beginning where it ends on the whole, unless the text is cut off in it. -/
theorem blockStatements_succ (h : Mirroring tail n) :
    Mirrors tail (Rule.blockStatements (n + 1)) (Rule.blockStatements (n + 1)) := by
  rw [Rule.blockStatements]
  refine .bind_current fun t t' hk _ => ?_
  rw [hk]
  split
  · exact .pure _ _
  · split
    · -- the whole has no report
      intro p p' q' b hp hne hls hc
      cases hc.run
      exact absurd hc.size (by simp)
    · exact .bind (.attempt h.statement) fun _ _ => .bind_advance (.bind h.blockStatements fun _ _ => .pure _ _)

/-- **Every rule does the same on the beginning of a text as on the whole, up to the end of the beginning.** -/
theorem all : ∀ n, Mirroring tail n
  | 0 => zero
  | n + 1 =>
    have h := all n
    { expression := h.expression_succ
      operand := h.operand_succ
      unary := h.unary_succ
      group := h.group_succ
      conditional := h.conditional_succ
      function := h.function_succ
      extend := h.extend_succ
      application := h.application_succ
      arguments := h.arguments_succ
      moreArguments := h.moreArguments_succ
      statement := h.statement_succ
      letStatement := h.letStatement_succ
      returnStatement := h.returnStatement_succ
      expressionStatement := h.expressionStatement_succ
      block := h.block_succ
      blockStatements := h.blockStatements_succ }

end Mirroring

/-- **The statements of a text that is cut off** are those of the whole, as far as it goes. -/
theorem mirrors_programStatements {tail : List Lexeme} (n : Nat) :
    Mirrors tail (programStatements n) (programStatements n) := by
  induction n with
  | zero => exact fun _ _ _ _ _ _ _ hc => nomatch hc.run
  | succ n ih =>
    rw [programStatements]
    refine .bind_current fun t t' hk _ => ?_
    rw [hk]
    split
    · exact .pure _ _
    · exact .bind (.attempt (Mirroring.all n).statement) fun _ _ => .bind_advance (.bind ih fun _ _ => .pure _ _)

end Rule

/-! ## A whole text -/

open Rule in
/-- **A text that more lines put right only ends too early**: all that is reported of it is about its end. -/
theorem atEnd_of_parse_lines {text more : String} {t t' : Parse} (h : parse text = .ok t)
    (h' : parse (text ++ "\n" ++ more) = .ok t') (hd : t'.diagnostics = []) : ∀ d ∈ t.diagnostics, d.problem.atEnd := by
  let p := entering (.ofText text)
  let p' := entering (.ofText (text ++ "\n" ++ more))
  let n := (Parser.ofText text).allowance + (Parser.ofText (text ++ "\n" ++ more)).allowance
  obtain ⟨ss, q, hrun, rfl⟩ := programStatements_of_parse h (n := n) (Nat.le_add_right ..)
  obtain ⟨ss', q', hrun', rfl⟩ := programStatements_of_parse h' (n := n) (Nat.le_add_left ..)
  have hp : p.final.kind = .eof := Parser.final_ofText text
  have hclean : Clean (programStatements n) p' ss' q' := ⟨hrun', Parser.final_ofText _, by simp_all; rfl⟩
  have hls : p'.lexemes = p.lexemes ++ lexemesOf more := lexemesOf_lines text more
  have hreports : p.ReportsEnd q := by
    have hafter : after (programStatements n) p = q := by rw [after, hrun]
    by_cases hne : p.lexemes = []
    · exact hafter ▸ (StarvesAtEnd.runsOut hp hne).reports
    · rcases mirrors_programStatements n hp hne hls hclean with ⟨ss₁, q₁, hclean, -⟩ | hout
      · cases hrun.symm.trans hclean.run
        exact .of_eq hclean.diagnostics
      · exact hafter ▸ hout.reports
  obtain ⟨ds, hds, hend⟩ := hreports
  rw [show q.diagnostics.toList = ds from hds]
  exact hend

end Monkey
