import Monkey.Editor.Symbol
import Monkey.Proofs.Parse.Bindings
import Monkey.Proofs.Token.Order
import Monkey.Proofs.Token.Reader

/-!
# The ranges of symbols

A symbol tells where its name stands: on which line of the text, if lines end in a newline only, and behind how many
characters. What stands there is its name (`exists_line_of_name`). The symbols of a text are those of its `let`
statements, one for each, and their names stand further and further on, however malformed the text is
(`Symbol.ranges_cover_names`).
-/

namespace Monkey

/-! ## The line of a position -/

section

variable {w rest : List Char}

/-- What stands before the first newline of a text is longer by the characters put in front of it. -/
theorem splitOn_append (hw : '\n' ∉ w) (rest : List Char) :
    (w ++ rest).splitOn '\n' = (rest.splitOn '\n').modifyHead (w ++ ·) := by
  induction w with
  | nil =>
    rw [List.nil_append]
    cases rest.splitOn '\n' <;> rfl
  | cons c w ih =>
    rw [List.mem_cons, not_or] at hw
    rw [List.cons_append, List.splitOn_cons_eq_if_modifyHead, if_neg (by simpa using Ne.symm hw.1), ih hw.2,
      List.modifyHead_modifyHead]
    rfl

/-- **The line that one gets to behind some characters**, and behind how many characters on it: what is left of that line
is the first line of what follows, and the lines below are the same. -/
theorem exists_line_behind (pre rest : List Char) :
    ∃ line lines, ((pre ++ rest).splitOn '\n').drop (pre.count '\n') = line :: lines ∧
      rest.splitOn '\n' = line.drop (pre.reverse.takeWhile (· ≠ '\n')).length :: lines := by
  induction pre using List.reverseRecOn generalizing rest with
  | nil =>
    obtain ⟨line, lines, hrest⟩ := List.exists_cons_of_ne_nil (List.splitOn_ne_nil '\n' rest)
    exact ⟨line, lines, hrest, hrest⟩
  | append_singleton pre c ih =>
    obtain ⟨line, lines, hdrop, hc⟩ := ih (c :: rest)
    obtain ⟨first, others, hrest⟩ := List.exists_cons_of_ne_nil (List.splitOn_ne_nil '\n' rest)
    rw [List.splitOn_cons_eq_if_modifyHead, hrest] at hc
    rw [List.append_assoc, List.singleton_append, List.reverse_append, hrest]
    by_cases hnewline : c = '\n'
    · subst hnewline
      rw [if_pos (beq_self_eq_true _)] at hc
      obtain ⟨-, rfl⟩ := List.cons.inj hc
      refine ⟨first, others, ?_, rfl⟩
      rw [List.count_append, List.count_singleton_self, ← List.tail_drop, hdrop, List.tail_cons]
    · rw [if_neg (by simpa using hnewline)] at hc
      obtain ⟨hline, rfl⟩ := List.cons.inj hc
      refine ⟨line, others, ?_, ?_⟩
      · rw [List.count_append, List.count_singleton, if_neg (by simpa using hnewline)]
        exact hdrop
      · rw [List.reverse_singleton, List.singleton_append, List.takeWhile_cons, if_pos (by simpa using hnewline),
          List.length_cons, ← List.tail_drop, ← hline, List.tail_cons]

/-- Where a name without newlines stands in a text, it is found on the line and at the column of its position. -/
theorem exists_line_of_name {pre : List Char} (hw : '\n' ∉ w) (rest : List Char) :
    ∃ line, ((pre ++ w ++ rest).splitOn '\n')[((Position.behind pre).line - 1)]? = some line ∧
      (line.drop ((Position.behind pre).column - 1)).take w.length = w := by
  obtain ⟨line, lines, hdrop, hw'⟩ := exists_line_behind pre (w ++ rest)
  obtain ⟨first, others, hrest⟩ := List.exists_cons_of_ne_nil (List.splitOn_ne_nil '\n' rest)
  rw [splitOn_append hw, hrest] at hw'
  obtain ⟨hline, -⟩ := List.cons.inj hw'
  refine ⟨line, ?_, ?_⟩
  · rw [Position.behind, Nat.add_sub_cancel_left, List.append_assoc, ← Nat.add_zero (List.count _ _),
      ← List.getElem?_drop, hdrop]
    rfl
  · rw [Position.behind, Nat.add_sub_cancel_left, ← hline, List.take_left]

end

/-! ## The names that are bound -/

/-- The token at which the name of a `let` statement stands. -/
def Node.nameToken? : Node → Option Token
  | .letStatement _ target _ => some target.token
  | _ => none

/-- The names that the statements bind stand among the tokens, in their order. -/
theorem Located.sublist {ts : List Token} {ss : List Node} (h : Located ts ss) :
    (ss.filterMap Node.nameToken?).Sublist ts := by
  induction h with
  | nil => exact List.nil_sublist _
  | skip _ ih => exact ih.cons _
  | binding _ _ _ _ ih => exact ((ih.cons _).cons_cons _).cons _
  | @other s ts ss hlet _ ih =>
    cases s with
    | letStatement => cases hlet
    | _ => exact ih

/-- What is bound stands in the text, between a `let` and an equals sign. -/
theorem Located.exists_name {text : String} {ss : List Node} (h : Located (Cursor.ofText text).toEnd.1 ss) {t : Token}
    {target : Identifier} {value : Node} (hs : .letStatement t target value ∈ ss) :
    ∃ v pre rest, [t, target.token, v] <:+: (Cursor.ofText text).tokens ∧ t.kind = .letKeyword ∧
      target.token.kind = .ident ∧ v.kind = .assign ∧ target.token.literal = target.name ∧
      text.toList = pre ++ target.name.toList ++ rest ∧ target.token.NameBetween pre rest := by
  obtain ⟨v, ts, hsuffix, ht, hu, hv, hname⟩ := h.exists_suffix hs
  obtain ⟨pre, rest, htext, hstands⟩ := Cursor.exists_name hsuffix ht hu hv
  have hinfix : [t, target.token, v] <:+: (Cursor.ofText text).tokens := by
    have hfront : [t, target.token, v] <+: t :: target.token :: v :: ts := ⟨ts, rfl⟩
    exact (hfront.isInfix.trans hsuffix.isInfix).trans (List.prefix_append _ _).isInfix
  exact ⟨v, pre, rest, hinfix, ht, hu, hv, hname.symm, hname ▸ htext, hstands⟩

namespace Token.NameBetween

variable {t : Token} {pre rest : List Char}

theorem position_behind (h : t.NameBetween pre rest) : t.position = .behind pre :=
  h.position.trans (Position.after_start pre)

theorem newline_notMem (h : t.NameBetween pre rest) : '\n' ∉ t.literal.toList := by
  intro hnewline
  exact absurd (h.letters _ hnewline) (by decide)

end Token.NameBetween

namespace Editor

/-- Places in the order of a text, by line and then by character. -/
def Place.Before (p q : Place) : Prop :=
  p.line < q.line ∨ p.line = q.line ∧ p.character < q.character

theorem Place.before_ofPosition {pre : List Char} {q : Position} (h : Position.behind pre < q) :
    (ofPosition (.behind pre)).Before (ofPosition q) := by
  simp only [Before, ofPosition, Position.behind, Nat.add_sub_cancel_left]
  rw [Position.lt_iff, Position.behind] at h
  dsimp only at h
  omega

namespace Symbol

theorem ofStatement?_eq_some {document : String} {n : Node} {s : Symbol} (h : ofStatement? document n = some s) :
    ∃ t target value, n = .letStatement t target value ∧ s.name = target.name ∧
      s.place = .ofPosition target.token.position := by
  cases n with
  | letStatement t target value =>
    cases h
    exact ⟨t, target, value, rfl, rfl, rfl⟩
  | _ => cases h

/-- One symbol for each `let` statement, in their order. -/
theorem forall₂_ofProgram (document : String) (ss : List Node) :
    List.Forall₂ (fun n s => ∃ t target value, n = .letStatement t target value ∧ s.name = target.name ∧
      s.range.start = .ofPosition target.token.position) (ss.filter Node.isLet)
      (ss.filterMap (ofStatement? document)) := by
  induction ss with
  | nil => exact .nil
  | cons n ss ih =>
    cases n with
    | letStatement => exact .cons ⟨_, _, _, rfl, rfl, rfl⟩ ih
    | _ => exact ih

/-- The symbols of statements that are located stand further and further on. -/
theorem pairwise_ofProgram {text : String} {ss : List Node} (h : Located (Cursor.ofText text).toEnd.1 ss)
    (document : String) :
    (ss.filterMap (ofStatement? document)).Pairwise fun s s' => s.range.start.Before s'.range.start := by
  have htokens := ((Cursor.ofText text).pairwise_tokens.sublist (List.sublist_append_left _ _)).sublist h.sublist
  refine List.pairwise_filterMap.2 ((List.pairwise_filterMap.1 htokens).imp_of_mem ?_)
  intro n n' hn _ hlt s hs s' hs'
  obtain ⟨t, target, value, rfl, -, hplace⟩ := ofStatement?_eq_some hs
  obtain ⟨t', target', value', rfl, -, hplace'⟩ := ofStatement?_eq_some hs'
  obtain ⟨-, pre, rest, -, -, -, -, -, -, hstands⟩ := h.exists_name hn
  rw [range, range, Range.onLine, Range.onLine, hplace, hplace', hstands.position_behind]
  exact Place.before_ofPosition (hstands.position_behind ▸ hlt _ rfl _ rfl)

/-- **The range of a symbol covers its name.** Of whatever text, malformed or not: the symbols are those of the `let`
statements at its top level, one for each, and they stand further and further on. On the line that a range tells, with
lines that end in newlines only, there stands the name from the character on that it tells and for as many characters as
the name has; its token stands right between a `let` and an equals sign. -/
theorem ranges_cover_names {document text : String} {symbols : List Symbol} {diagnostics : List Diagnostic}
    (h : collect document text = .ok (symbols, diagnostics)) :
    ∃ p, parse text = .ok p ∧
      List.Forall₂ (fun n s => ∃ t target value, n = .letStatement t target value ∧ s.name = target.name ∧
        s.range.start = .ofPosition target.token.position) (p.program.statements.filter Node.isLet) symbols ∧
      symbols.Pairwise (fun s s' => s.range.start.Before s'.range.start) ∧
      ∀ s ∈ symbols, s.range.stop = ⟨s.range.start.line, s.range.start.character + s.name.length⟩ ∧
        (∃ line, (text.toList.splitOn '\n')[s.range.start.line]? = some line ∧
          (line.drop s.range.start.character).take s.name.length = s.name.toList) ∧
        ∃ t u v, [t, u, v] <:+: (Cursor.ofText text).tokens ∧ t.kind = .letKeyword ∧ u.kind = .ident ∧
          u.literal = s.name ∧ s.range.start = .ofPosition u.position ∧ v.kind = .assign := by
  cases hp : parse text with
  | error why =>
    rw [collect, hp] at h
    cases h
  | ok p =>
    rw [collect, hp] at h
    cases h
    obtain ⟨ss, hprogram, hlocated⟩ := located_of_parse hp
    refine ⟨p, rfl, forall₂_ofProgram document _, ?_, fun s hs => ?_⟩
    · rw [ofProgram, hprogram]
      exact pairwise_ofProgram hlocated document
    · obtain ⟨n, hn, hsymbol⟩ := List.mem_filterMap.1 hs
      obtain ⟨t, target, value, rfl, hname, hplace⟩ := ofStatement?_eq_some hsymbol
      rw [hprogram] at hn
      obtain ⟨v, pre, rest, hinfix, ht, hu, hv, hliteral, htext, hstands⟩ := hlocated.exists_name hn
      have hstart : s.range.start = .ofPosition target.token.position := hplace
      refine ⟨rfl, ?_, t, target.token, v, hinfix, ht, hu, hliteral.trans hname.symm, hstart, hv⟩
      rw [hstart, hstands.position_behind, htext, hname, ← String.length_toList]
      exact exists_line_of_name (hliteral ▸ hstands.newline_notMem) rest

/-- A text in which the value of one binding is missing and another one stands where a parameter should. -/
theorem ranges_cover_names_malformed :
    ∃ symbols diagnostics, collect "a" "é\rlet e = ;\nfn( let f=2" = .ok (symbols, diagnostics) ∧
      symbols.map (fun s => (s.name, s.range.start)) = [("e", ⟨0, 6⟩), ("f", ⟨1, 8⟩)] ∧ diagnostics.length = 3 ∧
      ∀ s ∈ symbols, ∃ line, ("é\rlet e = ;\nfn( let f=2".toList.splitOn '\n')[s.range.start.line]? = some line ∧
        (line.drop s.range.start.character).take s.name.length = s.name.toList := by
  have hcollect : (collect "a" "é\rlet e = ;\nfn( let f=2").toOption.map
      (fun r => (r.1.map fun s => (s.name, s.range.start), r.2.length)) =
      some ([("e", ⟨0, 6⟩), ("f", ⟨1, 8⟩)], 3) := by
    decide +kernel
  cases h : collect "a" "é\rlet e = ;\nfn( let f=2" with
  | error why =>
    rw [h] at hcollect
    cases hcollect
  | ok r =>
    rw [h] at hcollect
    obtain ⟨hsymbols, hdiagnostics⟩ := Prod.mk.inj (Option.some.inj hcollect)
    obtain ⟨-, -, -, -, hcovers⟩ := ranges_cover_names h
    exact ⟨r.1, r.2, rfl, hsymbols, hdiagnostics, fun s hs => (hcovers s hs).2.1⟩

end Symbol

end Editor

end Monkey
