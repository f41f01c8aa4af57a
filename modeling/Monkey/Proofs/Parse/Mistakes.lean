import Monkey.Proofs.Parse.Completion
import Monkey.Proofs.Parse.Stages

/-!
# Mistakes of single tokens

A token of no kind and an integer that is too large are wrong wherever they stand. Such a mistake is reported when the
token is the current one and an expression is to begin there, and the window never skips a token, whatever is wrong
around it. So an account is kept: what has been reported of single tokens together with what is still to be reported of
those that have not been looked at (`Parser.account`).

* `Rule.accounting`: every rule keeps the account, whether it builds something or gives up.
* `reports_of_tokens`: a text is refused exactly if an integer in it has too many digits; of every other text each
  mistake of a single token is reported once, in the order of the text.
-/

namespace Monkey

/-! ## What is wrong with a token by itself -/

namespace Token

/-- An integer that has more digits than are ever read. -/
def isOverlong (t : Token) : Bool :=
  t.kind = .int && maxDigits < t.literal.length

/-- An integer beyond the largest one. -/
def isTooLarge (t : Token) : Bool :=
  t.kind = .int && Rule.maxInteger < numeralValue t.literal

/-- What is to be reported of a token wherever it stands. -/
def mistake? (t : Token) : Option Diagnostic :=
  if t.kind = .illegal then some ⟨.noExpression .illegal, t.position⟩
  else if t.isTooLarge then some ⟨.outOfRange t.literal, t.position⟩
  else none

end Token

namespace Token

variable {t : Token}

theorem isOverlong_eq_false (h : t.kind.isDoubtful = false) : t.isOverlong = false := by
  simp_all [TokenKind.isDoubtful, isOverlong]

theorem mistake?_eq_none (h : t.kind.isDoubtful = false) : t.mistake? = none := by
  simp_all [TokenKind.isDoubtful, mistake?, isTooLarge]

end Token

/-- The problem is one of a token by itself. -/
def Problem.isLexical : Problem → Bool
  | .unexpected _ _ => false
  | .noExpression kind => kind = .illegal
  | .outOfRange _ => true

/-! ## The account -/

namespace Parser

/-- What has been reported of single tokens and then what is to be reported of `ts`; and those of `ts` that have too
many digits. -/
def account (p : Parser) (ts : List Token) : List Diagnostic × List Token :=
  (p.diagnostics.toList.filter (·.problem.isLexical) ++ ts.filterMap Token.mistake?, ts.filter Token.isOverlong)

/-- The account comes to `total` where the current token is still to be looked at. -/
structure Before (total : List Diagnostic × List Token) (p : Parser) : Prop where
  final : p.final.kind = .eof
  account_eq : p.account p.ahead = total

/-- The account comes to `total` where the current token has been looked at. -/
structure Behind (total : List Diagnostic × List Token) (p : Parser) : Prop where
  final : p.final.kind = .eof
  account_eq : p.account p.ahead.tail = total

variable {p : Parser} {total : List Diagnostic × List Token} {t : Token} {ts : List Token}

theorem account_cons_of_not_doubtful (h : t.kind.isDoubtful = false) : p.account (t :: ts) = p.account ts := by
  rw [account, account, List.filterMap_cons_none (Token.mistake?_eq_none h),
    List.filter_cons_of_neg (by rw [Token.isOverlong_eq_false h]; decide)]

/-- A report that is not of a single token is not in the account. -/
theorem account_reporting {problem : Problem} (h : problem.isLexical = false) (token : Token) (ts : List Token) :
    (Rule.reporting p problem token).account ts = p.account ts := by
  simp [account, Rule.reporting, List.filter_append, h]

/-- What has been to be reported is reported. -/
theorem account_reporting_mistake {problem : Problem} (hlexical : problem.isLexical)
    (h : t.mistake? = some ⟨problem, t.position⟩) (hshort : t.isOverlong = false) :
    (Rule.reporting p problem t).account ts = p.account (t :: ts) := by
  simp [account, Rule.reporting, List.filter_append, hlexical, List.filterMap_cons_some h, hshort]

namespace Before

/-- Most tokens need not be looked at. -/
theorem behind (h : p.Before total) (hk : p.current.kind.isDoubtful = false) : p.Behind total := by
  refine ⟨h.final, h.account_eq.symm.trans ?_ |>.symm⟩
  cases ha : p.ahead with
  | nil => rfl
  | cons t ts =>
    rw [current, ha] at hk
    exact account_cons_of_not_doubtful hk

theorem entering (h : p.Before total) : (Rule.entering p).Before total :=
  ⟨h.final, h.account_eq⟩

end Before

namespace Behind

theorem advance (h : p.Behind total) : p.advance.Before total :=
  ⟨h.final, h.account_eq⟩

theorem next (h : p.Behind total) (hk : p.next.kind.isDoubtful = false) : p.advance.Behind total :=
  h.advance.behind hk

theorem entering (h : p.Behind total) : (Rule.entering p).Behind total :=
  ⟨h.final, h.account_eq⟩

theorem reporting (h : p.Behind total) (problem : Problem) (hp : problem.isLexical = false) (token : Token) :
    (Rule.reporting p problem token).Behind total :=
  ⟨h.final, (account_reporting hp token _).trans h.account_eq⟩

end Behind

end Parser

namespace Rule

open Monkey.Parser (Before Behind)

/-! ## Rules keep the account -/

variable {n : Nat} {p : Parser} {total : List Diagnostic × List Token}

/-- An integer is looked at: it is reported if it is too large, and the text is refused if it has too many digits. -/
theorem leads_integer (h : p.Before total) (hk : p.current.kind = .int) : Leads (Behind total) integer p := by
  have hcons := Parser.ahead_eq_cons h.final (by rw [hk]; decide)
  have htotal := h.account_eq
  rw [hcons] at htotal
  rw [integer]
  refine .bind_current (.ite (fun _ => .refuse _) fun hdigits => ?_)
  have hshort : p.current.isOverlong = false := by
    rw [List.length_map, String.length_toList] at hdigits
    simp [Token.isOverlong, hdigits]
  refine .ite (fun hlarge => .fail ⟨h.final, ?_⟩) fun hsmall => .pure ⟨h.final, ?_⟩ _
  · have hmistake : p.current.mistake? = some ⟨.outOfRange p.current.literal, p.current.position⟩ := by
      have hlarge' : p.current.isTooLarge := by
        rw [Token.isTooLarge, hk, Bool.and_eq_true]
        exact ⟨rfl, decide_eq_true hlarge⟩
      rw [Token.mistake?, hk, if_neg (by decide), if_pos hlarge']
    exact (Parser.account_reporting_mistake rfl hmistake hshort).trans htotal
  · have hmistake : p.current.mistake? = none := by
      have hsmall' : p.current.isTooLarge = false := by
        rw [Token.isTooLarge, hk, Bool.and_eq_false_iff]
        exact .inr (decide_eq_false hsmall)
      rw [Token.mistake?, hk, if_neg (by decide), hsmall']
      rfl
    rw [← htotal, Parser.account, Parser.account, List.filterMap_cons_none hmistake,
      List.filter_cons_of_neg (by rw [hshort]; decide)]
    rfl

/-- Where no expression begins, a token of no kind is reported as such. -/
theorem behind_noExpression (h : p.Before total) (hk : p.current.kind ≠ .int) :
    (reporting p (.noExpression p.current.kind) p.current).Behind total := by
  by_cases hillegal : p.current.kind = .illegal
  · have hcons := Parser.ahead_eq_cons h.final (by rw [hillegal]; decide)
    have hmistake : p.current.mistake? = some ⟨.noExpression p.current.kind, p.current.position⟩ := by
      rw [Token.mistake?, if_pos hillegal, hillegal]
    have hshort : p.current.isOverlong = false := by
      rw [Token.isOverlong, hillegal]
      rfl
    refine ⟨h.final, (Parser.account_reporting_mistake ?_ hmistake hshort).trans ?_⟩
    · exact decide_eq_true hillegal
    · exact hcons ▸ h.account_eq
  · have hdoubtful : p.current.kind.isDoubtful = false := by simp [TokenKind.isDoubtful, hk, hillegal]
    exact (h.behind hdoubtful).reporting (.noExpression p.current.kind) (decide_eq_false hillegal) _

/-- **Every rule keeps the account.** -/
def accounting (total : List Diagnostic × List Token) : Stages where
  between := Before total
  pending _ := Before total
  held _ := Behind total
  done := Behind total
  begins hp _ := hp
  ended hp hk := hp.behind (by rw [hk]; rfl)
  unclosed hp hk := (hp.behind (by rw [hk]; rfl)).reporting _ rfl _
  resumed hp := hp.advance
  enters hp := hp.entering
  looked hp hk := hp.behind (TokenKind.isDoubtful_of_isSound hk)
  numeral hp hk := leads_integer hp hk
  noExpression hp hk := behind_noExpression hp hk
  takes hp := hp.entering
  releases hp := hp
  goesOn hp := hp.advance
  moves hp hk := hp.next (TokenKind.isDoubtful_of_isSound hk)
  unexpected _ hp := hp.reporting _ rfl _

/-- Behind all statements nothing is left to be looked at. -/
theorem programStatements_account {ss : List Node} {q : Parser} (hp : p.Before total)
    (hproper : p.Proper) (h : programStatements n p = .ok ss q) : q.account [] = total := by
  obtain ⟨hq, hk⟩ := (accounting total).programStatements hp h
  rw [← hq.account_eq, Parser.ahead_eq_nil (hproper.of_reaches (Forward.ok h)).ahead hk, List.tail_nil]

end Rule

/-! ## Reports told by their words -/

namespace Problem

/-- The letter that the words for a problem begin with, which tells what sort of problem it is. -/
def initial : Problem → Char
  | .unexpected _ _ => 'e'
  | .noExpression _ => 'n'
  | .outOfRange _ => 'c'

theorem head?_message (problem : Problem) : problem.message.toList.head? = some problem.initial := by
  have hbegins {w : String} {c : Char} (h : w.toList.head? = some c) (t : String) :
      (w ++ t).toList.head? = some c := by
    rw [String.toList_append, List.head?_append, h]
    rfl
  cases problem with
  | unexpected expected got =>
    show ("expected next token to be " ++ expected.display ++ ", got " ++ got.display ++ " instead").toList.head? =
      some 'e'
    exact hbegins (hbegins (hbegins (hbegins (by decide) _) _) _) _
  | noExpression kind =>
    show ("no prefix parse function for " ++ kind.display ++ " found").toList.head? = some 'n'
    exact hbegins (hbegins (by decide) _) _
  | outOfRange numeral =>
    show ("could not parse " ++ numeral ++ " as integer").toList.head? = some 'c'
    exact hbegins (hbegins (by decide) _) _

/-- The problem is an integer that is too large. -/
def isOutOfRange : Problem → Bool
  | .outOfRange _ => true
  | _ => false

theorem initial_eq_c_iff {problem : Problem} : problem.initial = 'c' ↔ problem.isOutOfRange := by
  cases problem <;> simp [initial, isOutOfRange]

theorem isPrefixOf_message (problem : Problem) :
    "could not parse ".toList.isPrefixOf problem.message.toList = problem.isOutOfRange := by
  rw [Bool.eq_iff_iff, List.isPrefixOf_iff_prefix]
  constructor
  · rintro ⟨rest, hrest⟩
    have hletter : problem.message.toList.head? = some 'c' := by
      rw [← hrest, List.head?_append, show "could not parse ".toList.head? = some 'c' by decide]
      rfl
    rw [head?_message, Option.some_inj] at hletter
    exact initial_eq_c_iff.1 hletter
  · intro h
    cases problem with
    | unexpected | noExpression => cases h
    | outOfRange numeral =>
      show _ <+: ("could not parse " ++ numeral ++ " as integer").toList
      rw [String.toList_append, String.toList_append, List.append_assoc]
      exact List.prefix_append ..

theorem message_eq_illegal_iff {problem : Problem} :
    problem.message = "no prefix parse function for ILLEGAL found" ↔ problem = .noExpression .illegal := by
  have hword : "no prefix parse function for ILLEGAL found" = (noExpression .illegal).message := rfl
  rw [hword]
  refine ⟨fun h => ?_, congrArg message⟩
  have hletter := congrArg (·.toList.head?) h
  simp only [head?_message, Option.some_inj] at hletter
  cases problem with
  | noExpression kind =>
    have hdisplay : kind.display = TokenKind.illegal.display ↔ kind = .illegal := by cases kind <;> decide
    replace h : "no prefix parse function for " ++ kind.display ++ " found" =
        "no prefix parse function for " ++ TokenKind.illegal.display ++ " found" := h
    rw [String.append_left_inj, String.append_right_inj] at h
    rw [hdisplay.1 h]
  | unexpected | outOfRange => exact absurd hletter (by simp [initial])

end Problem

namespace Token

variable (t : Token)

theorem filter_isOutOfRange_mistake? : t.mistake?.filter (·.problem.isOutOfRange) =
    if t.isTooLarge then some ⟨.outOfRange t.literal, t.position⟩ else none := by
  unfold mistake?
  split
  · next hk => simp [isTooLarge, hk, Problem.isOutOfRange]
  · split <;> rfl

theorem filter_illegal_mistake? : t.mistake?.filter (·.problem = .noExpression .illegal) =
    if t.kind = .illegal then some ⟨.noExpression .illegal, t.position⟩ else none := by
  unfold mistake?
  split
  · rfl
  · split <;> rfl

end Token

/-! ## A whole text -/

section

variable {text : String} {t : Parse}

/-- What is reported of single tokens is what calls for a report, and no integer has too many digits. -/
theorem account_of_parse (h : parse text = .ok t) :
    t.diagnostics.filter (·.problem.isLexical) = (Cursor.ofText text).tokens.filterMap Token.mistake? ∧
      ∀ token ∈ (Cursor.ofText text).tokens, token.isOverlong = false := by
  obtain ⟨ss, q, hrun, rfl⟩ := Rule.programStatements_of_parse h (Nat.le_refl _)
  have hfinal : (Cursor.ofText text).toEnd.2.read.1.kind.isDoubtful = false := by
    rw [Cursor.kind_read_toEnd]
    rfl
  have hbefore : (Rule.entering (.ofText text)).Before ((Rule.entering (.ofText text)).account _) :=
    ⟨Parser.final_ofText text, rfl⟩
  have hproper := (Parser.proper_ofText text).of_reaches (.entering _)
  obtain ⟨hreports, hoverlong⟩ := Prod.mk.inj (Rule.programStatements_account hbefore hproper hrun)
  constructor
  · have hnone : (Rule.entering (.ofText text)).diagnostics.toList.filter (·.problem.isLexical) = [] := rfl
    rw [Cursor.tokens, List.filterMap_append, List.filterMap_cons_none (Token.mistake?_eq_none hfinal),
      List.filterMap_nil, List.append_nil]
    rw [hnone, List.filterMap_nil, List.append_nil, List.nil_append] at hreports
    exact hreports
  · intro token htoken
    obtain htoken | htoken := List.mem_append.1 htoken
    · exact Bool.eq_false_iff.2 (List.filter_eq_nil_iff.1 hoverlong.symm token htoken)
    · rw [List.mem_singleton.1 htoken]
      exact Token.isOverlong_eq_false hfinal

/-- The reports of one sort are those of the tokens that call for them, in the order of the text. -/
theorem filter_diagnostics (h : parse text = .ok t) {p : Diagnostic → Bool} {q : Token → Bool} {f : Token → Diagnostic}
    (hp : ∀ d, p d → d.problem.isLexical)
    (hf : ∀ token : Token, token.mistake?.filter p = if q token then some (f token) else none) :
    t.diagnostics.filter p = ((Cursor.ofText text).tokens.filter q).map f := by
  have hlexical : t.diagnostics.filter p = (t.diagnostics.filter (·.problem.isLexical)).filter p := by
    rw [List.filter_filter]
    refine List.filter_congr fun d _ => ?_
    by_cases hd : p d
    · rw [hd, hp d hd, Bool.and_self]
    · rw [Bool.eq_false_iff.2 hd, Bool.false_and]
  rw [hlexical, (account_of_parse h).1, List.filter_filterMap]
  induction (Cursor.ofText text).tokens with
  | nil => rfl
  | cons token ts ih =>
    by_cases hq : q token
    · rw [List.filter_cons_of_pos hq, List.map_cons, ← ih, List.filterMap_cons_some (by rw [hf, if_pos hq])]
    · rw [List.filter_cons_of_neg hq, ← ih, List.filterMap_cons_none (by rw [hf, if_neg hq])]

/-- A text is refused exactly if an integer in it has too many digits. -/
theorem parse_refused_iff : (∃ why, parse text = .error why) ↔
    ∃ token ∈ (Cursor.ofText text).tokens, token.isOverlong := by
  constructor
  · rintro ⟨why, hwhy⟩
    obtain ⟨token, htoken, hk, hdigits, -⟩ := parse_refuses hwhy
    exact ⟨token, List.mem_append_left _ htoken, by simp [Token.isOverlong, hk, hdigits]⟩
  · rintro ⟨token, htoken, hoverlong⟩
    cases h : parse text with
    | error why => exact ⟨why, rfl⟩
    | ok t => exact absurd hoverlong (Bool.eq_false_iff.1 ((account_of_parse h).2 token htoken))

end

/-- **No mistake of a single token is lost or reported twice.** A text is refused exactly if an integer in it has too
many digits, and for nothing else. Of every other text there is one report for each integer that is too large and one
for each token of no kind, each at the place of the token, in the order of the text. -/
theorem reports_of_tokens (text : String) :
    ((∃ why, parse text = .error why) ↔ ∃ token ∈ (Cursor.ofText text).tokens, token.isOverlong) ∧
      (∀ why, parse text = .error why → ∃ digits, why = .numeralTooLong digits) ∧
      ∀ t, parse text = .ok t →
        ((t.diagnostics.filter fun d => "could not parse ".toList.isPrefixOf d.message.toList).map
            fun d => (d.message, d.position)) =
          ((Cursor.ofText text).tokens.filter Token.isTooLarge).map
            (fun token => ("could not parse " ++ token.literal ++ " as integer", token.position)) ∧
        ((t.diagnostics.filter fun d => d.message = "no prefix parse function for ILLEGAL found").map
            fun d => (d.message, d.position)) =
          ((Cursor.ofText text).tokens.filter (·.kind = .illegal)).map
            fun token => ("no prefix parse function for ILLEGAL found", token.position) := by
  refine ⟨parse_refused_iff, fun why hwhy => ?_, fun t h => ⟨?_, ?_⟩⟩
  · obtain ⟨token, -, -, -, hdigits⟩ := parse_refuses hwhy
    exact ⟨_, hdigits⟩
  · have hlexical (d : Diagnostic) (hd : d.problem.isOutOfRange) : d.problem.isLexical := by
      cases hproblem : d.problem <;> simp_all [Problem.isOutOfRange, Problem.isLexical]
    simp only [Diagnostic.message, Problem.isPrefixOf_message]
    rw [filter_diagnostics h hlexical Token.filter_isOutOfRange_mistake?, List.map_map]
    rfl
  · have hlexical (d : Diagnostic) (hd : decide (d.problem = .noExpression .illegal)) : d.problem.isLexical := by
      rw [of_decide_eq_true hd]
      rfl
    have hmistake (token : Token) : token.mistake?.filter (fun d => decide (d.problem = .noExpression .illegal)) =
        if decide (token.kind = .illegal) then some ⟨.noExpression .illegal, token.position⟩ else none := by
      rw [token.filter_illegal_mistake?]
      simp only [decide_eq_true_eq]
    have hwords : (Problem.noExpression .illegal).message = _ := Problem.message_eq_illegal_iff.2 rfl
    simp only [Diagnostic.message, Problem.message_eq_illegal_iff]
    rw [filter_diagnostics h hlexical hmistake, List.map_map, ← hwords]
    rfl

/-- Three mistakes of single tokens among other reports. -/
example : (parse "let @ 99999999999999999999 (@").toOption.map Parse.messages =
    some ["expected next token to be IDENT, got ILLEGAL instead", "no prefix parse function for ILLEGAL found",
      "could not parse 99999999999999999999 as integer", "no prefix parse function for ILLEGAL found"] := by
  decide +kernel

end Monkey
