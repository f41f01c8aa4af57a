import Monkey.Proofs.Parse.Completion
import Monkey.Proofs.Parse.Stages

/-!
# How much is done to read a text

A parser can be asked for an expression, a statement, a block or a program at any time (`Parser.Entry`), also behind the
end of its text, where moving on changes nothing. Reading comes to an end all the same: at the end a rule finds nothing
that it could go on with. And not much is done until then. Counted are programs, blocks, statements, expressions, what an
expression begins with and what an operator or an opening parenthesis makes of the operand before it; whatever else a
rule does, it does once for one of these or once for a token. No more than three of them are entered for one token. So
each token pays for three when the window moves on, and `Parser.weight` never grows by more than what the first rules
take (`Rule.thrifty`).
-/

namespace Monkey

namespace Parser

/-- The rules that have been entered, and three for each token ahead. -/
def weight (p : Parser) : Nat :=
  p.entered + 3 * p.ahead.length

@[simp] theorem entered_advance (p : Parser) : p.advance.entered = p.entered := rfl

@[simp] theorem weight_entering (p : Parser) : (Rule.entering p).weight = p.weight + 1 := by
  simp only [weight, Rule.entering]
  omega

theorem weight_advance_of_pos {p : Parser} (h : 1 ≤ p.ahead.length) : p.advance.weight + 3 = p.weight := by
  rw [weight, weight, length_ahead_advance, entered_advance]
  omega

theorem weight_advance_le (p : Parser) : p.advance.weight ≤ p.weight := by
  rw [weight, weight, length_ahead_advance, entered_advance]
  omega

/-- With `k` more the parser stays within `bound`. -/
structure Within (bound k : Nat) (p : Parser) : Prop where
  final : p.final.kind = .eof
  le : p.weight + k ≤ bound

namespace Within

variable {p : Parser} {bound k l : Nat}

theorem self (hp : p.final.kind = .eof) (k : Nat) : p.Within (p.weight + k) k :=
  ⟨hp, Nat.le_refl _⟩

theorem mono (h : p.Within bound k) (hlk : l ≤ k) : p.Within bound l :=
  ⟨h.final, (Nat.add_le_add_left hlk _).trans h.le⟩

theorem entering (h : p.Within bound (k + 1)) : (Rule.entering p).Within bound k := by
  refine ⟨h.final, ?_⟩
  have := h.le
  rw [weight_entering]
  omega

theorem reporting (h : p.Within bound k) (problem : Problem) (token : Token) :
    (Rule.reporting p problem token).Within bound k :=
  ⟨h.final, h.le⟩

/-- Moving on costs nothing. -/
theorem advance_le (h : p.Within bound k) : p.advance.Within bound k :=
  ⟨h.final, (Nat.add_le_add_right p.weight_advance_le k).trans h.le⟩

/-- A token that is left pays for three rules. -/
theorem advance (h : p.Within bound k) (hpos : 1 ≤ p.ahead.length) : p.advance.Within bound (k + 3) := by
  refine ⟨h.final, ?_⟩
  have := h.le
  have := weight_advance_of_pos hpos
  omega

/-- Behind a token there is enough for a statement, or else the end of the text. -/
theorem resumed (h : p.Within bound 0) :
    p.advance.Within bound 0 ∧ (p.advance.current.kind ≠ .eof → p.advance.Within bound 3) := by
  refine ⟨h.advance_le, fun hk => ?_⟩
  have htwo := two_le_length_ahead h.final hk
  exact h.advance (by omega)

end Within

end Parser

namespace Rule

open Monkey.Parser (Within)

/-- An integer is looked at, and no rule is entered. -/
theorem leads_integer_within {p : Parser} {bound : Nat} (h : p.Within bound 0) :
    Leads (Within bound 0) integer p := by
  rw [integer]
  refine .bind_current (.ite (fun _ => .refuse _) fun _ => .ite (fun _ => .fail ?_) fun _ => .pure h _)
  exact h.reporting _ _

/-- **Every rule stays within its bound.** -/
def thrifty (bound : Nat) : Stages where
  between p := p.Within bound 0 ∧ (p.current.kind ≠ .eof → p.Within bound 3)
  pending k p := p.Within bound k
  held k p := p.Within bound k ∧ 1 ≤ p.ahead.length
  done p := p.Within bound 0
  begins hp hk := hp.2 hk
  ended hp _ := hp.1
  unclosed hp _ := hp.1.reporting _ _
  resumed hp := hp.resumed
  enters hp := hp.entering
  looked hp hk := ⟨hp.mono (Nat.zero_le _), Parser.one_le_length_ahead hp.final (TokenKind.ne_eof_of_isSound hk)⟩
  numeral hp _ := leads_integer_within hp
  noExpression hp _ := hp.reporting _ _
  takes hp := ⟨hp.1.entering, hp.2⟩
  releases hp := hp.1.mono (Nat.zero_le _)
  goesOn hp := ((hp.1.mono (Nat.zero_le _)).advance hp.2).mono (by decide)
  moves {p} hp hk := by
    have htwo := Parser.two_le_length_ahead hp.final (TokenKind.ne_eof_of_isSound hk)
    refine ⟨(hp.advance (by omega)).mono (by decide), ?_⟩
    rw [Parser.length_ahead_advance]
    omega
  unexpected _ hp := hp.reporting _ _

theorem thrifty_between {p : Parser} {bound : Nat} (h : p.Within bound 3) : (thrifty bound).between p :=
  ⟨h.mono (Nat.zero_le _), fun _ => h⟩

end Rule

/-! ## What a parser can be asked for -/

namespace Parser

/-- What a parser can be asked to read. -/
inductive Entry where
  | expression (floor : Precedence)
  | statement
  | block
  | program

/-- What a parser can be asked to do: to move on, to move on to a token of some kind, or to read. -/
inductive Call where
  | advance
  | expect (kind : TokenKind)
  | read (e : Entry)

/-- How a parser reads what it is asked for. -/
def Entry.rule : Entry → Rule Node
  | .expression floor => Parser.expression floor
  | .statement => Parser.statement
  | .block => Parser.block
  | .program => Parser.program

/-- How it reads that with a given allowance for nesting. -/
def Entry.within (n : Nat) : Entry → Rule Node
  | .expression floor => Rule.expression n floor
  | .statement => Rule.statement n
  | .block => Rule.block n
  | .program => do
    Rule.enter
    return .program (← Rule.programStatements n)

/-- The parser after a call, however it has ended. -/
def Call.after (p : Parser) : Call → Parser
  | .advance => p.advance
  | .expect kind => Rule.after (Rule.expect kind) p
  | .read e => Rule.after e.rule p

/-- The parser after some calls. -/
def after (p : Parser) (calls : List Call) : Parser :=
  calls.foldl Call.after p

namespace Entry

variable {p q : Parser} {n m : Nat}

theorem rule_run (e : Entry) (p : Parser) : e.rule p = e.within p.allowance p := by
  have hget : (get : Rule Parser) p = .ok p p := rfl
  cases e with
  | expression floor => exact Rule.bind_of_ok hget
  | statement => exact Rule.bind_of_ok hget
  | block => exact Rule.bind_of_ok hget
  | program => exact Parser.program_run p

instance (e : Entry) (n : Nat) : Rule.Forward (e.within n) := by
  cases e with
  | expression floor => exact inferInstanceAs (Rule.Forward (Rule.expression n floor))
  | statement => exact inferInstanceAs (Rule.Forward (Rule.statement n))
  | block => exact inferInstanceAs (Rule.Forward (Rule.block n))
  | program => exact inferInstanceAs (Rule.Forward (Rule.enter >>= fun _ => Rule.programStatements n >>= _))

theorem reaches_after (e : Entry) (p : Parser) : p.Reaches (Rule.after e.rule p) := by
  have hreaches := Rule.reaches_after (x := e.within p.allowance) p
  rwa [Rule.after, ← rule_run] at hreaches

/-- The allowance of the window is enough. -/
theorem answers (e : Entry) (hp : p.final.kind = .eof) (hn : p.allowance ≤ n) : Rule.Answers (e.within n) p := by
  unfold allowance at hn
  cases e with
  | expression floor => exact (Rule.Enough.all n).expression floor p hp (by omega)
  | statement => exact (Rule.Enough.all n).statement p hp (by omega)
  | block => exact (Rule.Enough.all n).block p hp (by omega)
  | program =>
    refine .bind_enter (.bind (Rule.answers_programStatements hp ?_) fun _ _ _ => .pure _)
    rw [ahead_entering]
    omega

theorem extends_within (e : Entry) (hnm : n ≤ m) : Rule.Extends (e.within n) (e.within m) := by
  cases e with
  | expression floor => exact (Rule.extends_rules hnm).expression floor
  | statement => exact (Rule.extends_rules hnm).statement
  | block => exact (Rule.extends_rules hnm).block
  | program =>
    exact .bind (.refl _) fun _ => .bind (Rule.congruence_extends.programStatements hnm) fun _ => .refl _

/-- At most four rules are entered that no token pays for. -/
theorem leads_within (e : Entry) (hp : p.final.kind = .eof) : Rule.Leads (Within (p.weight + 4) 0) (e.within n) p := by
  have hrules := (Rule.thrifty (p.weight + 4)).all n
  have hwithin := Within.self hp 4
  cases e with
  | expression floor => exact hrules.expression (i := ()) floor (hwithin.mono (by decide))
  | statement => exact hrules.statement (i := ()) (hwithin.mono (by decide))
  | block => exact hrules.block (i := ()) (Rule.thrifty_between hwithin.entering.advance_le)
  | program =>
    have hbetween := Rule.thrifty_between hwithin.entering
    exact .bind_enter (.bind ((Rule.thrifty _).leads_programStatements hbetween) fun _ q hq => .pure hq _)

/-- Where numerals are short, nothing is refused. -/
theorem within_ne_refused (e : Entry) (hp : p.final.kind = .eof) (hn : p.allowance ≤ n)
    (hshort : ∀ t ∈ p.ahead, t.kind = .int → t.literal.length ≤ maxDigits) {why : Refusal} :
    e.within n p ≠ .error (.refused why) q := by
  intro hrefused
  obtain ⟨t, ht, hk, hlong, -⟩ := e.answers hp hn why q hrefused
  exact absurd (hshort t ht hk) (Nat.not_le.2 hlong)

/-- A program is read to the end of its text. -/
theorem program_eq_ok (hp : p.Proper) {tree : Node} (h : program.within n p = .ok tree q) :
    (∃ ss, tree = .program ss) ∧ q.ahead = [] ∧ q.current.kind = .eof := by
  have hq : p.Reaches q := Rule.Forward.ok h
  obtain ⟨ss, r, hrun, hr⟩ := Rule.bind_eq_ok.1 ((Rule.bind_enter _).symm.trans h)
  obtain ⟨rfl, rfl⟩ := Rule.pure_eq_ok.1 hr
  have hbetween := Rule.thrifty_between (Within.self hp.final 4).entering
  have hk := ((Rule.thrifty _).programStatements hbetween hrun).2
  exact ⟨⟨ss, rfl⟩, ahead_eq_nil (hp.of_reaches hq).ahead hk, hk⟩

theorem persists_program (n : Nat) : Rule.Persists (program.within n) :=
  .bind .enter fun _ => .bind (Rule.persists_programStatements n) fun _ => .pure _

end Entry

theorem Call.reaches_after (p : Parser) (c : Call) : p.Reaches (c.after p) := by
  cases c with
  | advance => exact .advance p
  | expect kind => exact Rule.reaches_after p
  | read e => exact e.reaches_after p

theorem reaches_after (p : Parser) (calls : List Call) : p.Reaches (p.after calls) := by
  induction calls generalizing p with
  | nil => exact .refl p
  | cons c calls ih => exact (c.reaches_after p).trans (ih (c.after p))

end Parser

/-- **Reading comes to an end from everywhere.** Whatever a parser has been asked before, it looks at some place of its
text or at the end. From there on an expression, a statement, a block and a program are read, or given up, and how deep
rules may be nested does not matter as long as it is deep enough; the window moves forward over the tokens; and at most
three rules are entered for each token it moves over, or could still move over, and four more. A program is read up to
the end of the text. -/
theorem reads_from_everywhere {text : String}
    (hdigits : ∀ ds, ds <:+: text.toList → (∀ c ∈ ds, isDigit c) → ds.length ≤ maxDigits) :
    (∀ calls, (Parser.ofText text).Reaches ((Parser.ofText text).after calls)) ∧
    ∀ p, (Parser.ofText text).Reaches p → ∀ e : Parser.Entry, ∃ q,
      ((∃ tree, e.rule p = .ok tree q) ∨ e.rule p = .error .unreadable q) ∧
      (∀ n, p.allowance ≤ n → e.within n p = e.rule p) ∧
      q.ahead <:+ p.ahead ∧ q.final = p.final ∧
      q.entered + 3 * q.ahead.length ≤ p.entered + 3 * p.ahead.length + 4 ∧
      (e = .program → (∃ ss, e.rule p = .ok (.program ss) q) ∧ q.ahead = [] ∧ q.current.kind = .eof) := by
  refine ⟨fun calls => Parser.reaches_after _ calls, fun p hp e => ?_⟩
  have hproper : p.Proper := (Parser.proper_ofText text).of_reaches hp
  have hshort : ∀ t ∈ p.ahead, t.kind = .int → t.literal.length ≤ maxDigits := fun t ht =>
    shortNumerals_lexemesOf hdigits t.lexeme (List.mem_map_of_mem (hp.ahead.subset ht))
  have hrefused {n : Nat} (hn : p.allowance ≤ n) {why : Refusal} {q : Parser} :
      e.within n p ≠ .error (.refused why) q := e.within_ne_refused hproper.final hn hshort
  have hdeep : ∀ n, p.allowance ≤ n → e.within n p = e.within p.allowance p := by
    intro n hn
    obtain heq | ⟨q, hq⟩ := e.extends_within hn p
    · exact heq
    · exact absurd hq (hrefused (Nat.le_refl _))
  rw [e.rule_run]
  have hleads := e.leads_within (n := p.allowance) hproper.final
  cases hrun : e.within p.allowance p with
  | ok tree q =>
    have hq : p.Reaches q := Rule.Forward.ok hrun
    refine ⟨q, .inl ⟨tree, rfl⟩, fun n hn => (hdeep n hn).trans hrun, hq.ahead, hq.final, (hleads.ok hrun).le, ?_⟩
    rintro rfl
    obtain ⟨⟨ss, rfl⟩, hend⟩ := Parser.Entry.program_eq_ok hproper hrun
    exact ⟨⟨ss, rfl⟩, hend⟩
  | error stop q =>
    cases stop with
    | refused why => exact absurd hrun (hrefused (Nat.le_refl _))
    | unreadable =>
      have hq : p.Reaches q := Rule.Forward.error hrun
      refine ⟨q, .inr rfl, fun n hn => (hdeep n hn).trans hrun, hq.ahead, hq.final, (hleads.unreadable hrun).le, ?_⟩
      rintro rfl
      exact absurd hrun (Parser.Entry.persists_program _ _ _)

/-- Behind the end of `fn(`, once it has been read as a program, a block is still asked for: it ends there, for four
rules at most. -/
theorem reads_from_everywhere_behind_end :
    (∀ ds, ds <:+: "fn(".toList → (∀ c ∈ ds, isDigit c) → ds.length ≤ maxDigits) ∧
      ∃ p, p = (Parser.ofText "fn(").after [.read .program, .advance] ∧ p.current.kind = .eof ∧
        ∃ q, ((∃ tree, Parser.block p = .ok tree q) ∨ Parser.block p = .error .unreadable q) ∧ q.ahead = [] ∧
          q.entered ≤ p.entered + 4 := by
  have hdigits : ∀ ds, ds <:+: "fn(".toList → (∀ c ∈ ds, isDigit c) → ds.length ≤ maxDigits :=
    fun ds hds _ => Nat.le_trans hds.length_le (by decide)
  obtain ⟨hcalls, hreads⟩ := reads_from_everywhere hdigits
  obtain ⟨r, -, -, -, -, -, hprogram⟩ := hreads _ (.refl _) .program
  obtain ⟨⟨ss, hrun⟩, hr, hk⟩ := hprogram rfl
  have hafter : (Parser.ofText "fn(").after [.read .program, .advance] = r.advance := by
    show (Rule.after Parser.Entry.program.rule _).advance = _
    rw [Rule.after, hrun]
  have hnil : r.advance.ahead = [] := by rw [Parser.advance, hr, List.tail_nil]
  refine ⟨hdigits, _, rfl, ?_, ?_⟩
  · rw [hafter, Parser.current_advance, Parser.next, hr]
    rwa [Parser.current, hr] at hk
  · obtain ⟨q, hends, -, hahead, -, hle, -⟩ := hreads _ (hcalls [.read .program, .advance]) .block
    rw [hafter] at hends hahead hle ⊢
    rw [hnil] at hahead hle
    have hq : q.ahead = [] := List.suffix_nil.1 hahead
    rw [hq, List.length_nil] at hle
    exact ⟨q, hends, hq, by omega⟩

end Monkey
