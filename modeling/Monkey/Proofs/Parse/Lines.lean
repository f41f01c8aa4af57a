import Monkey.Proofs.Parse.Beginning
import Monkey.Proofs.Parse.Greedy
import Monkey.Proofs.Parse.Lowering

/-!
# A text on the lines behind another

A text whose last token is a semicolon leaves nothing open. What is on the lines behind it is parsed as it is alone,
only further down: the statements and the reports are those of the one text and then those of the other
(`parse_append_lines`). This puts together what `Rule.programStatements_carries` says of the one text and what
`Rule.moves_programStatements` says of the other.
-/

namespace Monkey

open Rule

section

variable {text : String} {ss : List Node}

/-- Behind the statements of a terminated text, the statements on the lines behind it are read as they are alone, only
further down, and with any allowance that is wanted. -/
theorem programStatements_append_lines (h : parse text = .ok ⟨.program ss, []⟩) (hterm : Terminated (lexemesOf text))
    (more : String) (least : Nat) :
    ∃ n k p, least ≤ n ∧ least ≤ k ∧
      (entering (.ofText more)).Moved (Position.lower (text.toList.count '\n' + 1)) p ∧
      programStatements n (entering (.ofText (text ++ "\n" ++ more))) =
        (programStatements k >>= fun ss' => pure (ss ++ ss')) p := by
  let p := entering (.ofText text)
  let p' := entering (.ofText (text ++ "\n" ++ more))
  obtain ⟨ss₁, q, hrun, hq⟩ := programStatements_of_parse h (Nat.le_refl _)
  obtain ⟨rfl, hd⟩ : ss₁ = ss ∧ q.diagnostics.toList = [] := by simpa using hq.symm
  have hclean : Clean (programStatements (Parser.ofText text).allowance) p ss₁ q :=
    ⟨hrun, Parser.final_ofText text, by rw [Array.toList_eq_nil_iff.1 hd]; rfl⟩
  obtain ⟨c, hc, htokens⟩ := toEnd_lines text more
  obtain ⟨hahead, hlast⟩ := hc.toEnd
  have hp : p.Begins c.toEnd.1 p' := ⟨congrArg Prod.fst htokens, rfl⟩
  have hn : (Parser.ofText text).allowance ≤ least + (Parser.ofText text).allowance := Nat.le_add_left ..
  obtain ⟨k, p'', hle, hahead'', hfinal'', hdiagnostics'', hread⟩ :=
    programStatements_carries hn hp hterm (fun t ht => Cursor.kind_ne_eof_of_mem_toEnd ht) hclean
  have hk : least ≤ k := by
    have hallowance : p.ahead.length ≤ (Parser.ofText text).allowance :=
      Nat.le_trans (Nat.le_mul_of_pos_left _ (by decide)) (Nat.le_add_right _ _)
    omega
  refine ⟨_, k, p'', Nat.le_add_right .., hk,
    ⟨hahead''.trans hahead, ?_, hdiagnostics''.trans Array.map_empty.symm⟩, hread⟩
  have hfinal : p'.final = c.toEnd.2.read.1 := congrArg (fun tokens => tokens.2.read.1) htokens
  rw [hfinal'', hfinal]
  exact hlast.read.1

/-- A text behind a terminated one is refused as it is alone, or parsed as it is alone, only further down. -/
theorem parse_append_lines_cases (h : parse text = .ok ⟨.program ss, []⟩) (hterm : Terminated (lexemesOf text))
    (more : String) :
    (∃ why, parse more = .error why) ∨ ∃ ss' ds, parse more = .ok ⟨.program ss', ds⟩ ∧
      parse (text ++ "\n" ++ more) = .ok
        ⟨.program (ss ++ ss'.map (Node.lower (text.toList.count '\n' + 1))),
          ds.map (Diagnostic.lower (text.toList.count '\n' + 1))⟩ := by
  obtain ⟨n, k, p, hn, hk, hp, hread⟩ := programStatements_append_lines h hterm more
    ((Parser.ofText more).allowance + (Parser.ofText (text ++ "\n" ++ more)).allowance)
  rw [parse_eq more (Nat.le_trans (Nat.le_add_right ..) hk),
    parse_eq (text ++ "\n" ++ more) (Nat.le_trans (Nat.le_add_left ..) hn), hread, bind_run]
  have hends := moves_programStatements (n := k) hp
  generalize hr : programStatements k (entering (.ofText more)) = r at hends
  generalize programStatements k p = r' at hends
  cases hends with
  | @ok ss' q q' hq =>
    have hdiagnostics : q'.diagnostics.toList = q.diagnostics.toList.map
        (Diagnostic.lower (text.toList.count '\n' + 1)) := by
      rw [hq.diagnostics, Array.toList_map]
      rfl
    refine .inr ⟨ss', q.diagnostics.toList, rfl, ?_⟩
    rw [← hdiagnostics, ← List.map_congr_left fun n _ => Node.move_lower (text.toList.count '\n' + 1) n]
    rfl
  | @error why q q' =>
    cases why with
    | unreadable => exact absurd hr (persists_programStatements _ _ _)
    | refused why => exact .inl ⟨why, rfl⟩

/-- **Parsing goes on behind a semicolon as if the text began there.** -/
theorem parse_append_lines {t : Parse} {more : String} (h : parse text = .ok t) (hclean : t.diagnostics = [])
    (hterm : Terminated (lexemesOf text))
    (hdigits : ∀ ds, ds <:+: more.toList → (∀ c ∈ ds, isDigit c) → ds.length ≤ maxDigits) :
    ∃ ss ss' ds, t.program = .program ss ∧ parse more = .ok ⟨.program ss', ds⟩ ∧
      parse (text ++ "\n" ++ more) = .ok
        ⟨.program (ss ++ ss'.map (Node.lower (text.toList.count '\n' + 1))),
          ds.map (Diagnostic.lower (text.toList.count '\n' + 1))⟩ := by
  obtain ⟨ss, hprogram, -⟩ := reads_of_parse h hclean
  obtain ⟨program, diagnostics⟩ := t
  subst hprogram hclean
  obtain ⟨why, hwhy⟩ | ⟨ss', ds, hmore, hlines⟩ := parse_append_lines_cases h hterm more
  · obtain ⟨t', ht'⟩ := (shortNumerals_lexemesOf hdigits).parse_ok
    cases hwhy.symm.trans ht'
  · exact ⟨ss, ss', ds, rfl, hmore, hlines⟩

end

/-- A text of two lines, and behind it one with a report. -/
theorem parse_append_lines_malformed :
    ∃ t, parse "let x = 1;\n-x;" = .ok t ∧ t.diagnostics = [] ∧ Terminated (lexemesOf "let x = 1;\n-x;") ∧
      (∀ ds, ds <:+: "if (x) \x7b 3 \x7d else 4".toList → (∀ c ∈ ds, isDigit c) → ds.length ≤ maxDigits) ∧
      ∃ ss ss' ds, t.program = .program ss ∧ parse "if (x) \x7b 3 \x7d else 4" = .ok ⟨.program ss', ds⟩ ∧
        parse ("let x = 1;\n-x;" ++ "\n" ++ "if (x) \x7b 3 \x7d else 4") = .ok
          ⟨.program (ss ++ ss'.map (Node.lower ("let x = 1;\n-x;".toList.count '\n' + 1))),
            ds.map (Diagnostic.lower ("let x = 1;\n-x;".toList.count '\n' + 1))⟩ := by
  have haccepted : isAccepted "let x = 1;\n-x;" := by decide +kernel
  obtain ⟨t, h, hclean⟩ := exists_of_isAccepted haccepted
  have hterm : Terminated (lexemesOf "let x = 1;\n-x;") := by decide +kernel
  have hdigits : ∀ ds, ds <:+: "if (x) \x7b 3 \x7d else 4".toList → (∀ c ∈ ds, isDigit c) →
      ds.length ≤ maxDigits := fun ds hds _ => Nat.le_trans hds.length_le (by decide)
  exact ⟨t, h, hclean, hterm, hdigits, parse_append_lines h hclean hterm hdigits⟩

end Monkey
