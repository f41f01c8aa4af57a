import Monkey.Proofs.Session.Piecewise

/-!
# What a session shows

A session shows nothing for a program without statements, and for one whose last statement is a `let` that has been
reached and has bound its name. For every other program it shows something; where a `return` ends the program, it shows
what is returned (`Session.execute_eq_empty_iff`).

What is shown depends on the value of the program and on its last statement only, so null that is returned before a `let`
at the end looks like the value of that `let`: nothing is shown for it (`Session.not_execute_eq_empty_iff`). Such
programs are left out.

* `Eval.RunsOver` tells how evaluation goes over statements that do not end the program, `Session.ComesTo` which
  statement it comes to.
* The value of the statements tells how they have ended (`Session.endsByReturn_iff`, `Session.completesLet_iff`).
-/

namespace Monkey

/-! ## Texts of values -/

/-- Every value shows as something. -/
theorem Value.inspect_ne_empty (v : Value) : v.inspect ≠ "" := by
  induction v with
  | integer id n =>
    cases n with
    | ofNat n => exact Nat.repr_ne_empty
    | negSucc n => simp [inspect, Int.repr]
  | boolean b => cases b <;> decide
  | null => decide
  | returned id v ih => exact ih
  | error id cause => simp [inspect]
  | function id f => simp [inspect]

/-- The last statement of a program is a `let`. -/
def Node.EndsWithLet (program : Node) : Prop :=
  program.statements.getLast?.any Node.isLet

theorem Value.isNull_iff {v : Value} : v.isNull ↔ v = .null := by
  cases v <;> simp [isNull]

/-- A program that has no value of its own: it has no statements, or its last one is a `let`. -/
def Node.IsSilent (program : Node) : Prop :=
  program.statements = [] ∨ program.EndsWithLet

namespace Session

/-- Nothing is shown for null if the program has no value of its own; else the value is shown. -/
theorem display_cases (program : Node) (v : Value) :
    (display program v = "" ∧ v = .null ∧ program.IsSilent) ∨
      (display program v = v.inspect ∧ ¬(v = .null ∧ program.IsSilent)) := by
  unfold Node.IsSilent Node.EndsWithLet
  rw [display, ← Value.isNull_iff]
  cases hlast : program.statements.getLast? with
  | none =>
    rw [List.getLast?_eq_none_iff.1 hlast]
    cases v.isNull <;> simp
  | some last =>
    have hne : program.statements ≠ [] := by
      intro hnil
      rw [hnil] at hlast
      cases hlast
    cases v.isNull <;> cases hlet : last.isLet <;> simp [hne, hlet]

end Session

/-! ## Statements in order -/

namespace Eval

/-- Some nodes are evaluated in order, and none of them gives a signal. -/
inductive RunsOver (each : Node → Eval Value) : List Node → Heap → Heap → Prop
  | nil {h} : RunsOver each [] h h
  | cons {n ns h v h' h''} : each n h = .ok v h' → v.isSignal = false → RunsOver each ns h' h'' →
    RunsOver each (n :: ns) h h''

variable {each : Node → Eval Value} {before later ns : List Node} {n : Node} {last v : Value} {h h' h'' : Heap}

/-- Behind nodes that give no signal a sequence goes on as if it began there. -/
theorem RunsOver.sequence (hbefore : RunsOver each before h h') (n : Node) (later : List Node) (last : Value) :
    sequence each last (before ++ n :: later) h = sequence each .null (n :: later) h' := by
  induction hbefore generalizing last with
  | nil => rfl
  | cons hm hgo _ ih =>
    rw [List.cons_append, Eval.sequence, bind_of_ok hm, hgo]
    exact ih _

/-- A node that is come to and gives a signal, or is the last one, gives the value of the sequence. -/
theorem RunsOver.sequence_eq (hbefore : RunsOver each before h h') (hn : each n h' = .ok v h'')
    (hends : v.isSignal ∨ later = []) : Eval.sequence each last (before ++ n :: later) h = .ok v h'' := by
  rw [hbefore.sequence, Eval.sequence, bind_of_ok hn]
  cases hv : v.isSignal with
  | true => rfl
  | false =>
    rw [hv] at hends
    rw [hends.resolve_left Bool.false_ne_true]
    rfl

/-- The value of a sequence is that of the first node that gives a signal, or else of the last one. -/
theorem runsOver_of_sequence (hns : sequence each last ns h = .ok v h'') :
    (ns = [] ∧ v = last) ∨ ∃ before n later h', ns = before ++ n :: later ∧ RunsOver each before h h' ∧
      each n h' = .ok v h'' ∧ (v.isSignal ∨ later = []) := by
  induction ns generalizing last h with
  | nil =>
    cases hns
    exact Or.inl ⟨rfl, rfl⟩
  | cons n ns ih =>
    rw [Eval.sequence, run_bind] at hns
    cases hn : each n h with
    | error why h' =>
      rw [hn] at hns
      cases hns
    | ok w h' =>
      rw [hn] at hns
      dsimp only at hns
      cases hw : w.isSignal with
      | true =>
        rw [hw] at hns
        cases hns
        exact Or.inr ⟨[], n, ns, h, rfl, .nil, hn, Or.inl hw⟩
      | false =>
        rw [hw] at hns
        rcases ih hns with ⟨rfl, rfl⟩ | ⟨before, m, later, h₁, rfl, hbefore, hm, hends⟩
        · cases hns
          exact Or.inr ⟨[], n, [], h, rfl, .nil, hn, Or.inr rfl⟩
        · exact Or.inr ⟨n :: before, m, later, h₁, rfl, .cons hn hw hbefore, hm, hends⟩

end Eval

/-! ## How a program ends -/

namespace Session

open Eval (sequence RunsOver runsOver_of_sequence)

variable {s : Session} {st : Stack} {program : Node} {host host₁ : Host} {v : Value} {h : Heap} {ss : List Node}
  {text : String}

/-- The session can evaluate, and its limit leaves room for the statements of a program. -/
def Admits (s : Session) (st : Stack) : Prop :=
  st.below + 2 ≤ s.limit ∧ s.limit ≤ maxDepth
deriving Decidable

/-- How a session evaluates a statement of a program. -/
def evalStatement (s : Session) (st : Stack) (n : Node) : Eval Value :=
  Monkey.eval (s.depth st - 2) n s.scope

/-- A session comes to a statement of a program, behind which there are some later ones: it has evaluated all those
before, and none of them has ended the program. -/
def ComesTo (s : Session) (st : Stack) (program : Node) (host : Host) (n : Node) (later : List Node) (h : Heap) : Prop :=
  s.Admits st ∧ ∃ before, program.statements = before ++ n :: later ∧ RunsOver (s.evalStatement st) before host.heap h

/-- A session comes to a `let` at the end of a program, and completes it. -/
def CompletesLet (s : Session) (st : Stack) (program : Node) (host : Host) : Prop :=
  ∃ n h v h', s.ComesTo st program host n [] h ∧ n.isLet ∧ s.evalStatement st n h = .ok v h' ∧ v.isError = false

/-- A session comes to a statement of a program that returns a value. -/
def EndsByReturn (s : Session) (st : Stack) (program : Node) (host : Host) (v : Value) : Prop :=
  ∃ n later h id h', s.ComesTo st program host n later h ∧ s.evalStatement st n h = .ok (.returned id v) h'

theorem endsByReturn_iff (hadmits : s.Admits st) :
    s.EndsByReturn st program host v ↔
      ∃ id h, sequence (s.evalStatement st) .null program.statements host.heap = .ok (.returned id v) h := by
  constructor
  · rintro ⟨n, later, h, id, h', ⟨-, before, hstatements, hbefore⟩, hn⟩
    exact ⟨id, h', hstatements ▸ hbefore.sequence_eq hn (Or.inl rfl)⟩
  · rintro ⟨id, h', hresult⟩
    rcases runsOver_of_sequence hresult with ⟨-, hv⟩ | ⟨before, n, later, h, hstatements, hbefore, hn, -⟩
    · cases hv
    · exact ⟨n, later, h, id, h', ⟨hadmits, before, hstatements, hbefore⟩, hn⟩

/-- The value that a program returns, if it does. -/
def returned? (s : Session) (st : Stack) (program : Node) (host : Host) : Option Value :=
  match sequence (s.evalStatement st) .null program.statements host.heap with
  | .ok (.returned _ v) _ => some v
  | _ => none

theorem endsByReturn_iff_returned? (hadmits : s.Admits st) :
    s.EndsByReturn st program host v ↔ s.returned? st program host = some v := by
  rw [endsByReturn_iff hadmits, returned?]
  constructor
  · rintro ⟨id, h, hss⟩
    rw [hss]
  · intro hreturned
    split at hreturned
    · cases hreturned
      exact ⟨_, _, ‹_›⟩
    · cases hreturned

theorem completesLet_iff (hadmits : s.Admits st) :
    s.CompletesLet st program host ↔
      (∃ h, sequence (s.evalStatement st) .null program.statements host.heap = .ok .null h) ∧ program.EndsWithLet := by
  unfold Node.EndsWithLet
  constructor
  · rintro ⟨n, h, v, h', ⟨-, before, hstatements, hbefore⟩, hlet, hn, hv⟩
    rw [hstatements]
    cases Evaluation.null_of_isLet hlet hn hv
    exact ⟨⟨h', hbefore.sequence_eq hn (Or.inr rfl)⟩, by simpa using hlet⟩
  · rintro ⟨⟨h', hresult⟩, hlet⟩
    rcases runsOver_of_sequence hresult with ⟨hnil, -⟩ | ⟨before, n, later, h, hstatements, hbefore, hn, hends⟩
    · rw [hnil] at hlet
      cases hlet
    · rcases hends with hsignal | rfl
      · cases hsignal
      · rw [hstatements] at hlet
        exact ⟨n, h, .null, h', ⟨hadmits, before, hstatements, hbefore⟩, by simpa using hlet, hn, rfl⟩

/-! ## Values of programs -/

theorem eval_of_admits (hadmits : s.Admits st) (ss : List Node) (host : Host) :
    s.eval st (.program ss) host =
      s.ended st host ((sequence (s.evalStatement st) .null ss >>= fun v => pure v.unwrap) host.heap) := by
  obtain ⟨hlow, hhigh⟩ := hadmits
  obtain ⟨depth, hdepth⟩ : ∃ depth, s.depth st = depth + 2 := ⟨s.depth st - 2, by unfold depth; omega⟩
  unfold evalStatement
  rw [eval_of_limit (by omega) hhigh, hdepth, Monkey.eval, evalProgram]
  rfl

theorem eval_of_sequence (hadmits : s.Admits st) (hss : sequence (s.evalStatement st) .null ss host.heap = .ok v h) :
    s.eval st (.program ss) host = .ok v.unwrap { host with heap := h } := by
  rw [eval_of_admits hadmits, Eval.bind_of_ok hss]
  rfl

/-- Where a program has a value that is no error, its statements have been evaluated. -/
theorem sequence_of_eval (heval : s.eval st (.program ss) host = .ok v host₁) (hv : v.isError = false) :
    s.Admits st ∧ ∃ w h, sequence (s.evalStatement st) .null ss host.heap = .ok w h ∧ v = w.unwrap := by
  rcases eval_cases s.limit st with ⟨hbelow, hhigh⟩ | ⟨why, hwhy⟩
  · by_cases hlow : st.below + 2 ≤ s.limit
    · refine ⟨⟨hlow, hhigh⟩, ?_⟩
      rw [eval_of_admits ⟨hlow, hhigh⟩, Eval.run_bind] at heval
      cases hss : sequence (s.evalStatement st) .null ss host.heap with
      | ok w h =>
        rw [hss] at heval
        cases heval
        exact ⟨w, h, rfl, rfl⟩
      | error why h =>
        rw [hss] at heval
        exact absurd (isError_of_ended heval) (Bool.eq_false_iff.1 hv)
    · have hdepth : s.depth st < 2 := by unfold depth; omega
      rw [eval_of_limit hbelow hhigh, Evaluation.eval_program_of_lt_two hdepth] at heval
      exact absurd (isError_of_ended heval) (Bool.eq_false_iff.1 hv)
  · rw [hwhy s rfl] at heval
    cases heval

/-! ## What is shown for programs -/

/-- Nothing is shown only if the statements have been evaluated and what they come to is null, returned or not. -/
theorem exists_of_render_empty (hshown : s.render st (.program ss) host = .ok "" host₁) :
    s.Admits st ∧ (Node.program ss).IsSilent ∧
      ∃ w h, sequence (s.evalStatement st) .null ss host.heap = .ok w h ∧ w.unwrap = .null := by
  cases heval : s.eval st (.program ss) host with
  | error why host₂ =>
    rw [render_of_error heval] at hshown
    cases hshown
  | ok v host₂ =>
    rw [render_of_ok heval] at hshown
    obtain ⟨hdisplay, -⟩ := EStateM.Result.ok.inj hshown
    obtain ⟨-, rfl, hsilent⟩ :=
      (display_cases _ v).resolve_right fun hv => v.inspect_ne_empty (hv.1.symm.trans hdisplay)
    obtain ⟨hadmits, w, h, hss, hw⟩ := sequence_of_eval heval rfl
    exact ⟨hadmits, hsilent, w, h, hss, hw.symm⟩

/-- Nothing is shown for null where the program has no value of its own. -/
theorem render_of_silent (hadmits : s.Admits st) (hss : sequence (s.evalStatement st) .null ss host.heap = .ok .null h)
    (hsilent : (Node.program ss).IsSilent) : ∃ host₁, s.render st (.program ss) host = .ok "" host₁ := by
  have hrender := render_of_ok (eval_of_sequence hadmits hss)
  obtain ⟨hdisplay, -⟩ := (display_cases (.program ss) .null).resolve_right fun hv => hv.2 ⟨rfl, hsilent⟩
  exact ⟨_, hdisplay ▸ hrender⟩

/-- What is returned is shown, unless it is null and a `let` stands at the end. -/
theorem render_of_endsByReturn (hends : s.EndsByReturn st (.program ss) host v)
    (hlet : v = .null → ¬(Node.program ss).EndsWithLet) :
    ∃ host₁, s.render st (.program ss) host = .ok v.inspect host₁ := by
  obtain ⟨n, later, _, _, _, ⟨hadmits, before, hstatements, -⟩, -⟩ := id hends
  obtain ⟨id, h, hss⟩ := (endsByReturn_iff hadmits).1 hends
  have hrender := render_of_ok (eval_of_sequence hadmits hss)
  rcases display_cases (.program ss) v with ⟨-, hnull, hnil | hends⟩ | ⟨hdisplay, -⟩
  · rw [hnil] at hstatements
    exact absurd hstatements.symm (List.append_ne_nil_of_right_ne_nil before (List.cons_ne_nil _ _))
  · exact absurd hends (hlet hnull)
  · exact ⟨_, hdisplay ▸ hrender⟩

/-- **A result is hidden only where there is none.** For a text in which nothing is wrong, in whatever state the session
is, nothing is shown if and only if the program has no statements or comes to a `let` at its end and completes it; and
where a statement ends it by a `return`, the value that is returned is shown. This is so unless null is returned by a
program with a `let` at its end. A session whose limit leaves no room for statements hides nothing. -/
theorem execute_eq_empty_iff {p : Parse} (hp : Monkey.parse text = .ok p) (hclean : p.diagnostics = [])
    (hreturn : s.EndsByReturn st p.program host .null → ¬p.program.EndsWithLet) :
    ((∃ host₁, s.execute st text host = .ok "" host₁) ↔
        s.Admits st ∧ p.program.statements = [] ∨ s.CompletesLet st p.program host) ∧
      ∀ v, s.EndsByReturn st p.program host v → ∃ host₁, s.execute st text host = .ok v.inspect host₁ := by
  obtain ⟨ss, hprogram, -⟩ := reads_of_parse hp hclean
  have hexecute : s.execute st text host = s.render st p.program host := execute_of_parse_ok (parse_of_clean hp hclean s host)
  rw [hexecute]
  generalize p.program = program at hprogram hreturn
  subst hprogram
  refine ⟨⟨?_, ?_⟩, fun v hends => render_of_endsByReturn hends fun hnull => hreturn (hnull ▸ hends)⟩
  · rintro ⟨host₁, hshown⟩
    obtain ⟨hadmits, hnil | hlet, w, h, hss, hw⟩ := exists_of_render_empty hshown
    · exact Or.inl ⟨hadmits, hnil⟩
    · refine Or.inr ((completesLet_iff hadmits).2 ⟨⟨h, ?_⟩, hlet⟩)
      cases w with
      | null => exact hss
      | returned id w =>
        cases (show w = Value.null from hw)
        exact absurd hlet (hreturn ((endsByReturn_iff hadmits).2 ⟨id, h, hss⟩))
      | integer | boolean | error | function => cases hw
  · rintro (⟨hadmits, hnil⟩ | hcompletes)
    · cases (show ss = [] from hnil)
      exact render_of_silent hadmits rfl (Or.inl rfl)
    · obtain ⟨-, -, -, -, ⟨hadmits, -⟩, -⟩ := id hcompletes
      obtain ⟨⟨h, hss⟩, hlet⟩ := (completesLet_iff hadmits).1 hcompletes
      exact render_of_silent hadmits hss (Or.inr hlet)

/-- A program that returns an integer from a branch of a conditional, before the `let` at its end. -/
theorem execute_eq_empty_iff_branch :
    ∃ (s : Session) (st : Stack) (host : Host) (p : Parse),
      Monkey.parse "let y = 4; if (y < 5) \x7b return y + 1; \x7d let x = 7;" = .ok p ∧ p.diagnostics = [] ∧
      p.program.EndsWithLet ∧ (s.EndsByReturn st p.program host .null → ¬p.program.EndsWithLet) ∧
      (∃ v, s.EndsByReturn st p.program host v ∧ v.inspect = "5") ∧
      ((∃ host₁, s.execute st "let y = 4; if (y < 5) \x7b return y + 1; \x7d let x = 7;" host = .ok "" host₁) ↔
        s.Admits st ∧ p.program.statements = [] ∨ s.CompletesLet st p.program host) ∧
      ∀ v, s.EndsByReturn st p.program host v → ∃ host₁,
        s.execute st "let y = 4; if (y < 5) \x7b return y + 1; \x7d let x = 7;" host = .ok v.inspect host₁ := by
  let s : Session := ⟨0, none, 30⟩
  let st : Stack := ⟨4, 14⟩
  let host : Host := (Session.new none 30 .empty).2
  have hadmits : s.Admits st := by decide
  have hends : (Monkey.parse "let y = 4; if (y < 5) \x7b return y + 1; \x7d let x = 7;").toOption.map
      (fun p => (p.diagnostics, p.program.statements.getLast?.any Node.isLet,
        (s.returned? st p.program host).map fun v => (v.isNull, v.inspect))) = some ([], true, some (false, "5")) := by
    decide +kernel
  obtain ⟨p, hp, hp'⟩ := exists_of_map_parse hends
  obtain ⟨hclean, hp'⟩ := Prod.mk.inj hp'
  obtain ⟨hlet, hreturned⟩ := Prod.mk.inj hp'
  obtain ⟨v, hv, hshows⟩ := Option.map_eq_some_iff.1 hreturned
  obtain ⟨hnull, hinspect⟩ := Prod.mk.inj hshows
  have hreturn : s.EndsByReturn st p.program host .null → ¬p.program.EndsWithLet := by
    intro hends
    cases hv.symm.trans ((endsByReturn_iff_returned? hadmits).1 hends)
    cases hnull
  exact ⟨s, st, host, p, hp, hclean, hlet, hreturn, ⟨v, (endsByReturn_iff_returned? hadmits).2 hv, hinspect⟩,
    execute_eq_empty_iff hp hclean hreturn⟩

/-- **Null that is returned before a `let` at the end is hidden**: without the exception that is made for it, nothing is
shown for a program that returns a value and does not come to its last statement. -/
theorem not_execute_eq_empty_iff :
    ¬∀ (s : Session) (st : Stack) (host : Host) (text : String) (p : Parse), Monkey.parse text = .ok p →
      p.diagnostics = [] →
        ((∃ host₁, s.execute st text host = .ok "" host₁) ↔
            s.Admits st ∧ p.program.statements = [] ∨ s.CompletesLet st p.program host) ∧
          ∀ v, s.EndsByReturn st p.program host v → ∃ host₁, s.execute st text host = .ok v.inspect host₁ := by
  intro hall
  let s : Session := ⟨0, none, 30⟩
  let st : Stack := ⟨4, 14⟩
  let host : Host := (Session.new none 30 .empty).2
  have hends : (Monkey.parse "return; let x = 1;").toOption.map
      (fun p => (p.diagnostics, (s.returned? st p.program host).map Value.isNull)) = some ([], some true) := by
    decide +kernel
  have hshown : (s.execute st "return; let x = 1;").run' host = some "" := by decide +kernel
  obtain ⟨p, hp, hp'⟩ := exists_of_map_parse hends
  obtain ⟨hclean, hreturned⟩ := Prod.mk.inj hp'
  obtain ⟨v, hv, hnull⟩ := Option.map_eq_some_iff.1 hreturned
  cases Value.isNull_iff.1 hnull
  obtain ⟨host₁, hexecute⟩ :=
    (hall s st host _ p hp hclean).2 .null ((endsByReturn_iff_returned? (by decide)).2 hv)
  unfold EStateM.run' EStateM.run at hshown
  rw [hexecute] at hshown
  exact absurd (Option.some.inj hshown) (by decide)

end Session

end Monkey
