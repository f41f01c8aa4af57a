import Monkey.Proofs.Parse.Effort
import Monkey.Proofs.Token.Order

/-!
# Where a block ends

A block ends at the brace that closes it, and counting braces tells which one that is (`closing?`). But not every brace
counts. Where an expression is missing, the token in its place is reported, since no expression begins with it, and
passed over, be it a brace: an opening one then opens nothing, and a closing one closes nothing. There is no other way
to pass over a brace that is not the one of a block. So the reports tell which braces count.

* `Counted`: how deep in blocks a list of tokens leads, given what has been reported.
* `Rule.counting`: every rule keeps count, on each level of nesting.
* `block_ends_at_brace`: a block ends at its brace, by counting those that have not been passed over.
-/

namespace Monkey

/-! ## Counting braces -/

/-- How deep in blocks one is behind a token, unless it closes the outermost one; what is `passed` over counts for
nothing. -/
def braceDepth? (passed : Token → Bool) (depth : Nat) (t : Token) : Option Nat :=
  if passed t then some depth
  else match t.kind, depth with
    | .lbrace, d => some (d + 1)
    | .rbrace, 0 => none
    | .rbrace, d + 1 => some d
    | _, d => some d

/-- The tokens from the brace on that closes the outermost block. -/
def closing? (passed : Token → Bool) : Nat → List Token → Option (List Token)
  | _, [] => none
  | depth, t :: ts =>
    match braceDepth? passed depth t with
    | some d => closing? passed d ts
    | none => some (t :: ts)

section Counting

variable {passed passed' : Token → Bool} {depth d : Nat} {t : Token} {ts used rest : List Token}

theorem braceDepth?_of_passed (h : passed t) : braceDepth? passed depth t = some depth := by
  simp only [braceDepth?, h, if_true]

theorem braceDepth?_of_lbrace (h : passed t = false) (hk : t.kind = .lbrace) :
    braceDepth? passed depth t = some (depth + 1) := by
  simp [braceDepth?, h, hk]

theorem braceDepth?_of_rbrace (h : passed t = false) (hk : t.kind = .rbrace) :
    braceDepth? passed (depth + 1) t = some depth := by
  simp [braceDepth?, h, hk]

theorem braceDepth?_zero_of_rbrace (h : passed t = false) (hk : t.kind = .rbrace) : braceDepth? passed 0 t = none := by
  simp [braceDepth?, h, hk]

theorem braceDepth?_of_ne (hopen : t.kind ≠ .lbrace) (hclose : t.kind ≠ .rbrace) :
    braceDepth? passed depth t = some depth := by
  unfold braceDepth?
  split
  · rfl
  · split <;> first | contradiction | rfl

/-- Which tokens are passed over is told by the braces among them. -/
theorem braceDepth?_congr (h : t.kind = .lbrace ∨ t.kind = .rbrace → passed t = passed' t) :
    braceDepth? passed depth t = braceDepth? passed' depth t := by
  by_cases hk : t.kind = .lbrace ∨ t.kind = .rbrace
  · simp only [braceDepth?, h hk]
  · obtain ⟨hopen, hclose⟩ := not_or.1 hk
    rw [braceDepth?_of_ne hopen hclose, braceDepth?_of_ne hopen hclose]

theorem closing?_congr (h : ∀ t ∈ ts, t.kind = .lbrace ∨ t.kind = .rbrace → passed t = passed' t) :
    closing? passed depth ts = closing? passed' depth ts := by
  induction ts generalizing depth with
  | nil => rfl
  | cons t ts ih =>
    obtain ⟨ht, hts⟩ := List.forall_mem_cons.1 h
    rw [closing?, closing?, braceDepth?_congr ht]
    cases braceDepth? passed' depth t with
    | some d => exact ih hts
    | none => rfl

theorem foldlM_braceDepth?_congr (h : ∀ t ∈ ts, passed t = passed' t) :
    ts.foldlM (braceDepth? passed) depth = ts.foldlM (braceDepth? passed') depth := by
  induction ts generalizing depth with
  | nil => rfl
  | cons t ts ih =>
    obtain ⟨ht, hts⟩ := List.forall_mem_cons.1 h
    rw [List.foldlM_cons, List.foldlM_cons, braceDepth?_congr fun _ => ht]
    exact congrArg _ (funext fun d => ih hts)

/-- The search goes on behind tokens that do not close the outermost block. -/
theorem closing?_append (h : used.foldlM (braceDepth? passed) depth = some d) :
    closing? passed depth (used ++ rest) = closing? passed d rest := by
  induction used generalizing depth with
  | nil =>
    cases h
    rfl
  | cons t used ih =>
    rw [List.foldlM_cons, Option.bind_eq_bind, Option.bind_eq_some_iff] at h
    obtain ⟨e, he, hd⟩ := h
    rw [List.cons_append, closing?, he]
    exact ih hd

theorem closing?_eq_none (h : ts.foldlM (braceDepth? passed) depth = some d) : closing? passed depth ts = none := by
  have hnil : closing? passed depth (ts ++ []) = none := closing?_append h
  rwa [List.append_nil] at hnil

end Counting

/-! ## What has been passed over -/

/-- The diagnostic says that no expression begins with the token. -/
def Diagnostic.passesOver (d : Diagnostic) (t : Token) : Bool :=
  d.position = t.position && d.problem = .noExpression t.kind

/-- One of the reports says that no expression begins with the token. -/
def passedOver (reports : List Diagnostic) (t : Token) : Bool :=
  reports.any fun d => d.passesOver t

section PassedOver

variable {reports : List Diagnostic} {d : Diagnostic} {t u : Token}

theorem passedOver_append : passedOver (reports ++ [d]) t = (passedOver reports t || d.passesOver t) := by
  simp [passedOver]

theorem passedOver_append_of_eq_false (h : d.passesOver t = false) :
    passedOver (reports ++ [d]) t = passedOver reports t := by
  rw [passedOver_append, h, Bool.or_false]

theorem passesOver_self (t : Token) : Diagnostic.passesOver ⟨.noExpression t.kind, t.position⟩ t := by
  simp [Diagnostic.passesOver]

theorem passesOver_of_position_ne (h : d.position ≠ t.position) : d.passesOver t = false := by
  simp [Diagnostic.passesOver, h]

theorem passesOver_of_problem_ne (h : d.problem ≠ .noExpression t.kind) : d.passesOver t = false := by
  simp [Diagnostic.passesOver, h]

end PassedOver

/-- The tokens `used` lead `depth` deep into blocks, if there is a `rest` behind them at all; and nothing of the rest
has been passed over. -/
structure Counted (reports : List Diagnostic) (used rest : List Token) (depth : Nat) : Prop where
  leads : ∃ d, used.foldlM (braceDepth? (passedOver reports)) 0 = some d ∧ (rest = [] ∨ d = depth)
  ahead : ∀ t ∈ rest, passedOver reports t = false

namespace Counted

variable {reports : List Diagnostic} {used rest : List Token} {depth d : Nat} {t : Token}

theorem start (ts : List Token) : Counted [] [] ts 0 :=
  ⟨⟨0, rfl, .inr rfl⟩, fun _ _ => rfl⟩

theorem ended (h : Counted reports used [] depth) : Counted reports used [] d := by
  obtain ⟨e, he, -⟩ := h.leads
  exact ⟨⟨e, he, .inl rfl⟩, List.forall_mem_nil _⟩

theorem foldlM_append (h : Counted reports used (t :: rest) depth) :
    (used ++ [t]).foldlM (braceDepth? (passedOver reports)) 0 = braceDepth? (passedOver reports) depth t := by
  obtain ⟨e, he, hrest⟩ := h.leads
  have hdepth : e = depth := hrest.resolve_left (List.cons_ne_nil t rest)
  rw [List.foldlM_append, he, hdepth]
  simp

/-- A token that is not passed over counts as what it is. -/
theorem step (h : Counted reports used (t :: rest) depth)
    (hd : passedOver reports t = false → braceDepth? (passedOver reports) depth t = some d) :
    Counted reports (used ++ [t]) rest d := by
  obtain ⟨ht, hrest⟩ := List.forall_mem_cons.1 h.ahead
  exact ⟨⟨d, h.foldlM_append.trans (hd ht), .inr rfl⟩, hrest⟩

/-- A report that passes over none of the tokens changes nothing. -/
theorem report {e : Diagnostic} (h : Counted reports used rest depth)
    (he : ∀ t ∈ used ++ rest, e.passesOver t = false) : Counted (reports ++ [e]) used rest depth := by
  obtain ⟨hused, hrest⟩ := List.forall_mem_append.1 he
  obtain ⟨d, hd, hdepth⟩ := h.leads
  refine ⟨⟨d, ?_, hdepth⟩, fun t ht => ?_⟩
  · rwa [foldlM_braceDepth?_congr fun t ht => passedOver_append_of_eq_false (hused t ht)]
  · rw [passedOver_append_of_eq_false (hrest t ht), h.ahead t ht]

/-- A token that is reported is passed over, and no other one is. -/
theorem pass (h : Counted reports used (t :: rest) depth)
    (hts : (used ++ t :: rest).Pairwise fun t u => t.position < u.position) :
    Counted (reports ++ [⟨.noExpression t.kind, t.position⟩]) (used ++ [t]) rest depth := by
  obtain ⟨-, hright, hleft⟩ := List.pairwise_append.1 hts
  have hother : ∀ u ∈ used ++ rest, Diagnostic.passesOver ⟨.noExpression t.kind, t.position⟩ u = false := by
    refine List.forall_mem_append.2 ⟨fun u hu => ?_, fun u hu => ?_⟩
    · exact passesOver_of_position_ne (hleft u hu t List.mem_cons_self).ne'
    · exact passesOver_of_position_ne (List.rel_of_pairwise_cons hright hu).ne
  obtain ⟨d, hd, hdepth⟩ := h.leads
  have hwithout : Counted reports used rest depth :=
    ⟨⟨d, hd, .inr (hdepth.resolve_left (List.cons_ne_nil t rest))⟩, (List.forall_mem_cons.1 h.ahead).2⟩
  obtain ⟨⟨e, he, hrest⟩, hahead⟩ := hwithout.report hother
  refine ⟨⟨e, ?_, hrest⟩, hahead⟩
  rw [List.foldlM_append, he]
  simp [braceDepth?_of_passed, passedOver_append, passesOver_self]

/-- Where the outermost block is closed. -/
theorem closing?_eq_some (h : Counted reports used (t :: rest) 0) (hk : t.kind = .rbrace) :
    closing? (passedOver reports) 0 (used ++ t :: rest) = some (t :: rest) := by
  obtain ⟨d, hd, hdepth⟩ := h.leads
  obtain rfl : d = 0 := hdepth.resolve_left (List.cons_ne_nil t rest)
  rw [closing?_append hd, closing?, braceDepth?_zero_of_rbrace (h.ahead t List.mem_cons_self) hk]

/-- At the end of the tokens nothing has closed it. -/
theorem closing?_eq_none (h : Counted reports used [] depth) : closing? (passedOver reports) 0 used = none := by
  obtain ⟨d, hd, -⟩ := h.leads
  exact Monkey.closing?_eq_none hd

end Counted

namespace Parser

/-- Since `earlier` was reported, the parser has gone over the tokens `ts` of a block up to `rest`, and there it is
`depth` deep in blocks, if anything is left. -/
structure CountedTo (earlier : List Diagnostic) (ts : List Token) (depth : Nat) (rest : List Token) (p : Parser) :
    Prop where
  final : p.final.kind = .eof
  counted : ∃ reports used, earlier ++ reports = p.diagnostics.toList ∧ used ++ rest = ts ∧
    Counted reports used rest depth

namespace CountedTo

variable {earlier : List Diagnostic} {ts rest : List Token} {depth d : Nat} {p : Parser} {t : Token}
  {problem : Problem}

theorem entering (h : p.CountedTo earlier ts depth rest) : (Rule.entering p).CountedTo earlier ts depth rest :=
  ⟨h.final, h.counted⟩

theorem advance (h : p.CountedTo earlier ts depth rest) : p.advance.CountedTo earlier ts depth rest :=
  ⟨h.final, h.counted⟩

theorem mem (h : p.CountedTo earlier ts depth rest) (ht : t ∈ rest) : t ∈ ts := by
  obtain ⟨-, used, -, rfl, -⟩ := h.counted
  exact List.mem_append_right used ht

theorem ended (h : p.CountedTo earlier ts depth []) : p.CountedTo earlier ts d [] := by
  obtain ⟨reports, used, hreports, hused, hcounted⟩ := h.counted
  exact ⟨h.final, reports, used, hreports, hused, hcounted.ended⟩

theorem step (h : p.CountedTo earlier ts depth (t :: rest))
    (hd : ∀ passed : Token → Bool, passed t = false → braceDepth? passed depth t = some d) :
    p.CountedTo earlier ts d rest := by
  obtain ⟨reports, used, hreports, hused, hcounted⟩ := h.counted
  have hmoved : used ++ [t] ++ rest = ts := (List.append_cons used t rest).symm.trans hused
  exact ⟨h.final, reports, used ++ [t], hreports, hmoved, hcounted.step (hd _)⟩

theorem step_of_ne (h : p.CountedTo earlier ts depth (t :: rest)) (hopen : t.kind ≠ .lbrace)
    (hclose : t.kind ≠ .rbrace) : p.CountedTo earlier ts depth rest :=
  h.step fun _ _ => braceDepth?_of_ne hopen hclose

theorem report (h : p.CountedTo earlier ts depth rest)
    (ht : ∀ u ∈ ts, Diagnostic.passesOver ⟨problem, t.position⟩ u = false) :
    (Rule.reporting p problem t).CountedTo earlier ts depth rest := by
  obtain ⟨reports, used, hreports, rfl, hcounted⟩ := h.counted
  refine ⟨h.final, reports ++ [⟨problem, t.position⟩], used, ?_, rfl, hcounted.report ht⟩
  rw [← List.append_assoc, hreports, Rule.reporting, Array.toList_push]

/-- Only a report of a missing expression passes over a token. -/
theorem report_of_ne (h : p.CountedTo earlier ts depth rest) (hproblem : ∀ kind, problem ≠ .noExpression kind) :
    (Rule.reporting p problem t).CountedTo earlier ts depth rest :=
  h.report fun _ _ => passesOver_of_problem_ne (hproblem _)

theorem pass (h : p.CountedTo earlier ts depth (t :: rest)) (hts : ts.Pairwise fun t u => t.position < u.position) :
    (Rule.reporting p (.noExpression t.kind) t).CountedTo earlier ts depth rest := by
  obtain ⟨reports, used, hreports, rfl, hcounted⟩ := h.counted
  refine ⟨h.final, _, _, ?_, (List.append_cons used t rest).symm, hcounted.pass hts⟩
  rw [← List.append_assoc, hreports, Rule.reporting, Array.toList_push]

/-- Before the end of the text the current token is the first one that is left. -/
theorem ahead (h : p.CountedTo earlier ts depth p.ahead) (hk : p.current.kind ≠ .eof) :
    p.CountedTo earlier ts depth (p.current :: p.ahead.tail) :=
  (ahead_eq_cons h.final hk).symm ▸ h

/-- So is the next one, if the current one is done with. -/
theorem behind (h : p.CountedTo earlier ts depth p.ahead.tail) (hk : p.next.kind ≠ .eof) :
    p.CountedTo earlier ts depth (p.next :: p.ahead.tail.tail) :=
  ⟨h.final, (ahead (p := p.advance) h.advance hk).counted⟩

end CountedTo

end Parser

namespace Rule

section

variable {earlier : List Diagnostic} {ts : List Token} {depth : Nat} {p : Parser}

theorem countedTo_tail_of_ne (h : p.CountedTo earlier ts depth p.ahead) (hk : p.current.kind ≠ .eof)
    (hopen : p.current.kind ≠ .lbrace) (hclose : p.current.kind ≠ .rbrace) :
    p.CountedTo earlier ts depth p.ahead.tail :=
  (h.ahead hk).step_of_ne hopen hclose

theorem countedTo_tail_of_isPlain (h : p.CountedTo earlier ts depth p.ahead) (hk : p.current.kind.isPlain) :
    p.CountedTo earlier ts depth p.ahead.tail := by
  obtain ⟨hsound, hopen, hclose⟩ := TokenKind.isPlain_iff.1 hk
  exact countedTo_tail_of_ne h (TokenKind.ne_eof_of_isSound hsound) hopen hclose

theorem leads_integer_counting (h : p.CountedTo earlier ts depth p.ahead) (hk : p.current.kind = .int) :
    Leads (fun q => q.CountedTo earlier ts depth q.ahead.tail) integer p := by
  have htail : p.CountedTo earlier ts depth p.ahead.tail :=
    countedTo_tail_of_ne h (by simp [hk]) (by simp [hk]) (by simp [hk])
  rw [integer]
  refine .bind_current (.ite (fun _ => .refuse _) fun _ => .ite (fun _ => .fail ?_) fun _ => .pure ?_ _)
  · exact htail.report_of_ne (by simp)
  · exact htail

variable (hproper : ∀ t ∈ ts, t.kind ≠ .eof)

include hproper

/-- Any depth will do at the end of the text. -/
theorem countedTo_tail_of_eof {d : Nat} (h : p.CountedTo earlier ts depth p.ahead) (hk : p.current.kind = .eof) :
    p.CountedTo earlier ts d p.ahead.tail := by
  have hnil : p.ahead = [] := Parser.ahead_eq_nil (fun t ht => hproper t (h.mem ht)) hk
  rw [hnil] at h ⊢
  exact h.ended

variable (hts : ts.Pairwise fun t u => t.position < u.position)

include hts

theorem countedTo_noExpression (h : p.CountedTo earlier ts depth p.ahead) :
    (reporting p (.noExpression p.current.kind) p.current).CountedTo earlier ts depth p.ahead.tail := by
  by_cases hk : p.current.kind = .eof
  · have htail := countedTo_tail_of_eof (d := depth) hproper h hk
    exact htail.report fun t ht => passesOver_of_problem_ne (by simpa [hk] using (hproper t ht).symm)
  · exact (h.ahead hk).pass hts

variable (earlier) in
/-- **Every rule keeps count of the braces**, on each level. -/
def counting : Levels Nat where
  inner := (· + 1)
  between depth p := p.CountedTo earlier ts depth p.ahead
  pending depth _ p := p.CountedTo earlier ts depth p.ahead
  held depth _ p := p.CountedTo earlier ts depth p.ahead ∧ p.current.kind.isPlain
  done depth p := p.CountedTo earlier ts depth p.ahead.tail
  begins hp _ := hp
  ended hp hk := countedTo_tail_of_eof hproper hp hk
  resumed hp := hp.advance
  opens hp hk := ((hp.behind (by simp [hk])).step fun _ h => braceDepth?_of_lbrace h hk).advance.entering.advance
  closes hp hk := (hp.ahead (by simp [hk])).step fun _ h => braceDepth?_of_rbrace h hk
  unclosed hp hk := (countedTo_tail_of_eof hproper hp hk).report_of_ne (by simp)
  enters hp := hp.entering
  looked hp hk := ⟨hp, hk⟩
  numeral hp hk := leads_integer_counting hp hk
  noExpression hp _ := countedTo_noExpression hproper hts hp
  takes hp := ⟨hp.1.entering, hp.2⟩
  releases hp := countedTo_tail_of_isPlain hp.1 hp.2
  goesOn hp := (countedTo_tail_of_isPlain hp.1 hp.2).advance
  moves hp hk := ⟨hp.advance, hk⟩
  unexpected _ hp := hp.report_of_ne (by simp)

end

theorem block_eq_ok {n : Nat} {p q : Parser} {b : Node} :
    block (n + 1) p = .ok b q ↔
      ∃ ss, blockStatements n (entering p).advance = .ok ss q ∧ b = .block p.current ss := by
  rw [block, bind_enter, bind_current]
  simp only [bind_eq_ok, pure_eq_ok]
  constructor
  · rintro ⟨_, r, hr, ss, r', hrun, rfl, rfl⟩
    cases hr
    exact ⟨ss, hrun, rfl⟩
  · rintro ⟨ss, hrun, rfl⟩
    exact ⟨(), (entering p).advance, rfl, ss, q, hrun, rfl, rfl⟩

/-- With what allowance a block is read does not show. -/
theorem block_unique {n m : Nat} {p q r : Parser} {b c : Node} (hb : block n p = .ok b q) (hc : block m p = .ok c r) :
    b = c ∧ q = r := by
  have hlargest := (extends_rules (Nat.le_max_left n m)).block.ok hb
  rw [(extends_rules (Nat.le_max_right n m)).block.ok hc] at hlargest
  cases hlargest
  exact ⟨rfl, rfl⟩

end Rule

namespace Parser

/-- From its opening brace at `p` on, a block has been read up to its end at `q`. That is the brace that closes it, by
counting those that have not been `passed` over; and if there is none, the end of the text, which is reported last. -/
structure ClosesBlock (passed : Token → Bool) (p q : Parser) : Prop where
  closed : ∀ rest, closing? passed 0 p.ahead.tail = some rest → q.ahead = rest ∧ q.current.kind = .rbrace
  unclosed : closing? passed 0 p.ahead.tail = none → q.current.kind = .eof ∧ ∃ reports d,
    p.diagnostics.toList ++ reports ++ [d] = q.diagnostics.toList ∧ d.position = q.current.position ∧
      d.message = "expected next token to be \x7d, got EOF instead"

variable {p q : Parser} {n : Nat} {b : Node}

theorem ClosesBlock.congr {passed passed' : Token → Bool} (h : p.ClosesBlock passed q)
    (hp : ∀ t ∈ p.ahead.tail, t.kind = .lbrace ∨ t.kind = .rbrace → passed t = passed' t) :
    p.ClosesBlock passed' q :=
  ⟨closing?_congr hp ▸ h.closed, closing?_congr hp ▸ h.unclosed⟩

/-- A block ends at its brace, by counting the braces that have not been passed over. -/
theorem closesBlock_of_block (hp : p.Proper) (hts : p.ahead.Pairwise fun t u => t.position < u.position)
    (h : Rule.block n p = .ok b q) :
    ∃ reports, p.diagnostics.toList ++ reports = q.diagnostics.toList ∧ p.ClosesBlock (passedOver reports) q := by
  cases n with
  | zero => cases h
  | succ n =>
    obtain ⟨ss, hrun, -⟩ := Rule.block_eq_ok.1 h
    have hproper : ∀ t ∈ p.ahead.tail, t.kind ≠ .eof := fun t ht => hp.ahead t (List.mem_of_mem_tail ht)
    have hbegin : (Rule.counting p.diagnostics.toList hproper hts.tail).between 0 (Rule.entering p).advance :=
      ⟨hp.final, [], [], List.append_nil _, rfl, .start _⟩
    obtain ⟨r, hr, hend⟩ := Rule.Levels.blockStatements _ hbegin hrun
    obtain ⟨reports, used, hreports, hused, hcounted⟩ := hr.counted
    obtain ⟨hk, rfl⟩ | ⟨hk, rfl⟩ := hend
    · have hahead : r.ahead = r.current :: r.ahead.tail := ahead_eq_cons hr.final (by simp [hk])
      have hclosing : closing? (passedOver reports) 0 p.ahead.tail = some r.ahead := by
        rw [hahead] at hcounted hused ⊢
        exact hused ▸ hcounted.closing?_eq_some hk
      refine ⟨reports, hreports, fun rest h => ⟨Option.some.inj (hclosing.symm.trans h), hk⟩, fun h => ?_⟩
      rw [hclosing] at h
      cases h
    · have hnil : r.ahead = [] := ahead_eq_nil (fun t ht => hproper t (hr.mem ht)) hk
      rw [hnil] at hcounted hused
      have hreported : p.diagnostics.toList ++ reports ++ [⟨.unexpected .rbrace .eof, r.current.position⟩] =
          (Rule.reporting r (.unexpected .rbrace .eof) r.current).diagnostics.toList := by
        rw [hreports, Rule.reporting, Array.toList_push]
      have hclosing := (hcounted.report (e := ⟨.unexpected .rbrace .eof, r.current.position⟩) fun t _ =>
        passesOver_of_problem_ne (by simp)).closing?_eq_none
      rw [← List.append_nil used, hused] at hclosing
      refine ⟨_, (List.append_assoc _ _ _).symm.trans hreported, fun rest h => ?_, fun _ =>
        ⟨hk, reports, _, hreported, rfl, rfl⟩⟩
      rw [hclosing] at h
      cases h

end Parser

/-- **A block ends at its own brace**, by counting the braces that have not been passed over. Wherever a parser has got
to in whatever text, a block that opens there is read, unless a numeral ahead is too long for the text to be read at
all; and whichever rule it is read for, it is the same block. It ends at the brace that closes it, and if there is none,
at the end of the text with a report of that. And if no brace has been reported as one with which no expression begins,
all of them count. -/
theorem block_ends_at_brace {text : String} {p : Parser} (hp : (Parser.ofText text).Reaches p) :
    (∃ t ∈ p.ahead, t.kind = .int ∧ maxDigits < t.literal.length ∧
      ∃ q, Parser.block p = .error (.refused (.numeralTooLong t.literal.length)) q) ∨
    ∃ b q reports, Parser.block p = .ok b q ∧ (∀ n c r, Rule.block n p = .ok c r → c = b ∧ r = q) ∧
      p.Reaches q ∧ p.diagnostics.toList ++ reports = q.diagnostics.toList ∧
      p.ClosesBlock (passedOver reports) q ∧
      ((∀ d ∈ reports, d.problem ≠ .noExpression .lbrace ∧ d.problem ≠ .noExpression .rbrace) →
        p.ClosesBlock (fun _ => false) q) := by
  have hproper : p.Proper := (Parser.proper_ofText text).of_reaches hp
  have hts : p.ahead.Pairwise fun t u => t.position < u.position :=
    ((Cursor.ofText text).pairwise_tokens.sublist (List.sublist_append_left _ _)).sublist hp.ahead.sublist
  have hblock : Parser.block p = Rule.block p.allowance p := Parser.Entry.rule_run .block p
  rw [hblock]
  cases hrun : Rule.block p.allowance p with
  | ok b q =>
    obtain ⟨reports, hreports, hcloses⟩ := Parser.closesBlock_of_block hproper hts hrun
    refine .inr ⟨b, q, reports, rfl, fun n c r h => Rule.block_unique h hrun, Rule.Forward.ok hrun, hreports, hcloses,
      fun h => ?_⟩
    refine hcloses.congr fun t _ hbrace => List.any_eq_false.2 fun d hd => ?_
    obtain ⟨hopen, hclose⟩ := h d hd
    rw [passesOver_of_problem_ne]
    · exact Bool.false_ne_true
    · obtain hk | hk := hbrace <;> rwa [hk]
  | error stop q =>
    cases stop with
    | unreadable => exact absurd hrun (Rule.persists_block _ _ _)
    | refused why =>
      obtain ⟨t, ht, hint, hlong, rfl⟩ := Parser.Entry.block.answers hproper.final (Nat.le_refl _) why q hrun
      exact .inl ⟨t, ht, hint, hlong, q, rfl⟩

/-- A block with another one in it and an operand missing there ends at the second closing brace. -/
theorem block_ends_at_brace_nested :
    (Parser.ofText "\x7b if (x) \x7b 1 + ; \x7d x \x7d 2 \x7d").current.kind = .lbrace ∧
      ∃ b q, Parser.block (.ofText "\x7b if (x) \x7b 1 + ; \x7d x \x7d 2 \x7d") = .ok b q ∧
        q.ahead.map Token.literal = ["\x7d", "2", "\x7d"] := by
  have hshort : ∀ t ∈ (Parser.ofText "\x7b if (x) \x7b 1 + ; \x7d x \x7d 2 \x7d").ahead,
      ¬ maxDigits < t.literal.length := by
    decide +kernel
  have hproblems : (Rule.after Parser.block (.ofText "\x7b if (x) \x7b 1 + ; \x7d x \x7d 2 \x7d")).diagnostics.toList.map
      Diagnostic.problem = [.noExpression .semicolon] := by
    decide +kernel
  have hclosing : (closing? (fun _ => false) 0
      (Parser.ofText "\x7b if (x) \x7b 1 + ; \x7d x \x7d 2 \x7d").ahead.tail).map (fun ts => ts.map Token.literal) =
      some ["\x7d", "2", "\x7d"] := by
    decide +kernel
  refine ⟨by decide +kernel, ?_⟩
  obtain ⟨t, ht, -, hlong, -⟩ | ⟨b, q, reports, hrun, -, -, hreports, -, hcloses⟩ := block_ends_at_brace (.refl _)
  · exact absurd hlong (hshort t ht)
  · have hsemicolon : ∀ d ∈ reports, d.problem = .noExpression .semicolon := by
      rw [Rule.after, hrun, ← hreports] at hproblems
      intro d hd
      exact List.mem_singleton.1 (hproblems ▸ List.mem_map_of_mem hd)
    obtain ⟨rest, hrest, hliterals⟩ := Option.map_eq_some_iff.1 hclosing
    obtain ⟨hahead, -⟩ := (hcloses fun d hd => by simp [hsemicolon d hd]).closed rest hrest
    exact ⟨b, q, hrun, hahead ▸ hliterals⟩

/-- Where an operand is missing, the brace in its place is passed over: it does not end the block that it closes. -/
theorem not_block_ends_at_brace :
    (Parser.ofText "\x7b 1 + \x7d").current.kind = .lbrace ∧ ∃ b q, Parser.block (.ofText "\x7b 1 + \x7d") = .ok b q ∧
      ¬ (Parser.ofText "\x7b 1 + \x7d").ClosesBlock (fun _ => false) q := by
  have hread : ((Parser.block.run' (.ofText "\x7b 1 + \x7d")).isSome) = true := by decide +kernel
  have hend : (Rule.after Parser.block (.ofText "\x7b 1 + \x7d")).current.kind = .eof := by decide +kernel
  have hclosing : (closing? (fun _ => false) 0 (Parser.ofText "\x7b 1 + \x7d").ahead.tail).isSome = true := by
    decide +kernel
  refine ⟨by decide +kernel, ?_⟩
  unfold EStateM.run' EStateM.run at hread
  rw [Rule.after] at hend
  cases hrun : Parser.block (.ofText "\x7b 1 + \x7d") with
  | error stop q =>
    rw [hrun] at hread
    cases hread
  | ok b q =>
    refine ⟨b, q, rfl, fun hcloses => ?_⟩
    obtain ⟨rest, hrest⟩ := Option.isSome_iff_exists.1 hclosing
    rw [hrun] at hend
    exact absurd ((hcloses.closed rest hrest).2.symm.trans hend) (by decide)

end Monkey
