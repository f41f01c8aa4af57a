import Monkey.Proofs.Eval.Bare
import Monkey.Proofs.Parse.Lines
import Monkey.Proofs.Session.Isolation

/-!
# Texts that are run one after another

A session that is given two programs one after the other ends up as one that is given both at once, on the lines of one
text, as long as no statement of the first one ends the program (`run_append_lines`).

* The text is parsed as the statements of both (`parse_append_lines_cases`), those of the second one further down.
* Where no statement ends the program, evaluating the statements of both is evaluating the first program and then the
  second (`Evaluation.RunsThrough.eval_append`).
* Where a statement stands in the text does not matter (`Eval.withoutTokens_eval_eq`).
-/

namespace Monkey

namespace Evaluation

open Eval

/-- No statement of a program ends it: none of them gives an error or a return signal. -/
def RunsThrough (a : Evaluation) : Prop :=
  ∀ ⦃b : Evaluation⦄ ⦃v : Value⦄ ⦃h : Heap⦄, Opens a b → b.result = .ok v h → v.isSignal = false

variable {depth : Nat} {ss ss' : List Node} {scope : ScopeId} {h : Heap}

theorem eval_program_of_lt_two (hdepth : depth < 2) : eval depth (.program ss) scope h = .error .tooDeep h := by
  match depth with
  | 0 =>
    rw [eval]
    rfl
  | 1 =>
    rw [eval, evalProgram]
    rfl

/-- **One program after another**, if no statement of the first one ends it and there are statements behind it. -/
theorem RunsThrough.eval_append (hthrough : RunsThrough (.node depth (.program ss) scope h)) (hne : ss' ≠ []) :
    eval depth (.program (ss ++ ss')) scope h =
      (eval depth (.program ss) scope >>= fun _ => eval depth (.program ss') scope) h := by
  obtain ⟨s, ss', rfl⟩ := List.exists_cons_of_ne_nil hne
  by_cases hdepth : depth < 2
  · rw [run_bind, eval_program_of_lt_two hdepth, eval_program_of_lt_two hdepth]
  · obtain ⟨depth, rfl⟩ := Nat.exists_eq_add_of_le' (Nat.not_lt.1 hdepth)
    rw [eval, eval, eval, evalProgram, evalProgram, evalProgram, sequence_append _ rfl, bind_assoc, bind_assoc,
      run_bind, run_bind]
    cases hss : sequence (fun s => eval depth s scope) .null ss h with
    | error why h' => rfl
    | ok v h' =>
      have hv : v.isSignal = false := by
        rcases getsTo_of_sequence hss with ⟨rfl, -⟩ | ⟨n, h₁, hn, hresult⟩
        · rfl
        · exact hthrough (.program hn) hresult
      dsimp only
      rw [hv, if_neg Bool.false_ne_true, pure_bind]
      rfl

/-- A `let` gives null, unless it gives an error. -/
theorem null_of_isLet {n : Node} {v : Value} {h' : Heap} (hlet : n.isLet) (hn : eval depth n scope h = .ok v h')
    (hv : v.isError = false) : v = .null := by
  cases n with
  | letStatement t target value =>
    cases depth with
    | zero =>
      rw [eval] at hn
      cases hn
    | succ depth =>
      rw [eval, proceed, run_bind] at hn
      cases hvalue : eval depth value scope h with
      | error why h₁ =>
        rw [hvalue] at hn
        cases hn
      | ok w h₁ =>
        rw [hvalue] at hn
        dsimp only at hn
        cases hw : w.isError with
        | true =>
          rw [hw] at hn
          cases hn
          cases hv.symm.trans hw
        | false =>
          rw [hw] at hn
          cases hn
          rfl
  | _ => cases hlet

/-- A signal that a `let` gives is an error. -/
theorem isError_of_isLet {n : Node} {v : Value} {h' : Heap} (hlet : n.isLet) (hn : eval depth n scope h = .ok v h')
    (hv : v.isSignal) : v.isError := by
  by_contra herror
  cases null_of_isLet hlet hn (Bool.eq_false_iff.2 herror)
  cases hv

/-- A program of `let`s runs through if its value is no error. -/
theorem runsThrough_of_isLet {v : Value} {h' : Heap} (hlets : ∀ n ∈ ss, n.isLet)
    (hprogram : eval depth (.program ss) scope h = .ok v h') (hv : v.isError = false) :
    RunsThrough (.node depth (.program ss) scope h) := by
  intro b w h₁ hopens hb
  cases hw : w.isSignal with
  | false => rfl
  | true =>
    have hresult := hopens.result_of_signal hb hw
    cases hopens with
    | program hs =>
      have herror : w.isError := isError_of_isLet (hlets _ hs.mem) hb hw
      rw [Value.unwrap_of_isError herror] at hresult
      cases hprogram.symm.trans hresult
      cases hv.symm.trans herror

end Evaluation

open Evaluation (RunsThrough runsThrough_of_isLet)

namespace Session

variable {s : Session} {st : Stack} {host host' : Host} {text more : String} {ss ss' : List Node} {n n' : Node}

/-- One program after another, if the first one does not nest too deep either. -/
theorem eval_append (hthrough : RunsThrough (s.evaluation st (.program ss) host))
    (hguard : ¬s.HitsGuard st (.program ss) host) (hne : ss' ≠ []) :
    s.eval st (.program (ss ++ ss')) host =
      (s.eval st (.program ss) >>= fun _ => s.eval st (.program ss')) host := by
  rcases eval_cases s.limit st with ⟨hbelow, hle⟩ | ⟨why, hwhy⟩
  · have hfirst := eval_of_limit hbelow hle (.program ss) host
    rw [eval_of_limit hbelow hle, hthrough.eval_append hne, Eval.run_bind]
    cases hss : Monkey.eval (s.depth st) (.program ss) s.scope host.heap with
    | ok v h =>
      rw [hss] at hfirst
      rw [Hosted.bind_of_ok hfirst, eval_of_limit hbelow hle]
      rfl
    | error why h =>
      rw [hss] at hfirst
      cases why with
      | tooDeep => exact absurd ⟨Int.lt_of_le_of_lt (Int.natCast_nonneg _) hbelow, hle, h, hss⟩ hguard
      | missingNode | unknownNode => exact (Hosted.bind_of_error hfirst).symm
  · rw [hwhy s rfl, Hosted.bind_of_error (hwhy s rfl _ host)]

/-- What a caller sees of the value of a text. -/
def showsValue (v : Value) : Answer :=
  .value v.tag v.inspect

/-- Values that are the same up to tokens show the same. -/
theorem showsValue_eq {v v' : Value} (hv : v.bare = v'.bare) : showsValue v = showsValue v' := by
  rw [showsValue, showsValue, ← v.tag_bare, ← v.inspect_bare, hv, v'.tag_bare, v'.inspect_bare]

/-- For trees that are the same up to tokens a session has the same answer, and it leaves the same but for tokens. -/
theorem seen_eval_of_bare_eq (hn : n.bare = n'.bare) (st : Stack) (host : Host) :
    (seen showsValue (s.eval st n host)).1 = (seen showsValue (s.eval st n' host)).1 ∧
      (seen showsValue (s.eval st n host)).2.heap.bare = (seen showsValue (s.eval st n' host)).2.heap.bare := by
  rcases eval_cases s.limit st with ⟨hbelow, hle⟩ | ⟨why, hwhy⟩
  · have hends := Eval.withoutTokens_eval_eq hn (s.depth st) s.scope host.heap
    rw [eval_of_limit hbelow hle, eval_of_limit hbelow hle]
    obtain ⟨v, v', h, h', hr, hr', hv, hh⟩ | ⟨why, h, h', hr, hr', hh⟩ := Eval.withoutTokens_eq_cases hends
    · rw [hr, hr']
      exact ⟨showsValue_eq hv, hh⟩
    · rw [hr, hr']
      rcases ended_error_cases s.limit st why with ⟨-, hfails⟩ | ⟨-, hends⟩
      · rw [hfails s rfl, hfails s rfl]
        exact ⟨rfl, hh⟩
      · obtain ⟨log, hended⟩ := hends s rfl host h
        obtain ⟨log', hended'⟩ := hends s rfl host h'
        rw [hended, hended']
        exact ⟨rfl, congrArg (fun h => { h with nextObject := h.nextObject + 1 }) hh⟩
  · rw [hwhy s rfl, hwhy s rfl]
    exact ⟨rfl, rfl⟩

theorem bindings_of_bare_eq (hh : host.heap.bare = host'.heap.bare) : s.bindings host = s.bindings host' :=
  Heap.bindingsOf_of_bare_eq hh s.scope

/-- **A session may be given a text piecewise.** Whatever its state, it gives the same answer in the end and is left
with the same bindings, and with the same heap but for the places that functions have in their texts. This is so if the
first text ends with a semicolon and there is a statement in the second, and if no statement of the first gives an error
or a return signal and the first does not nest too deep. Should the second one nest too deep, it does so both ways. -/
theorem run_append_lines {p q : Parse} (hp : Monkey.parse text = .ok p) (hpclean : p.diagnostics = [])
    (hq : Monkey.parse more = .ok q) (hqclean : q.diagnostics = []) (hterm : Terminated (lexemesOf text))
    (hne : q.program.statements ≠ []) (hthrough : RunsThrough (s.evaluation st p.program host))
    (hguard : ¬s.HitsGuard st p.program host) :
    let whole := seen showsValue (s.run st (text ++ "\n" ++ more) host)
    let pieces := seen showsValue ((s.run st text >>= fun _ => s.run st more) host)
    whole.1 = pieces.1 ∧ s.bindings whole.2 = s.bindings pieces.2 ∧ whole.2.heap.bare = pieces.2.heap.bare := by
  obtain ⟨ss, hprogram, -⟩ := reads_of_parse hp hpclean
  obtain ⟨program, diagnostics⟩ := p
  subst hprogram hpclean
  obtain ⟨why, hwhy⟩ | ⟨ss', ds, hmore, hlines⟩ := parse_append_lines_cases hp hterm more
  · cases hwhy.symm.trans hq
  · cases hmore.symm.trans hq
    subst hqclean
    have hrun : s.run st text = s.eval st (.program ss) :=
      funext fun host => run_of_parse_ok (parse_of_clean hp rfl s host)
    have hrun' : s.run st more = s.eval st (.program ss') :=
      funext fun host => run_of_parse_ok (parse_of_clean hq rfl s host)
    have hpieces : (s.run st text >>= fun _ => s.run st more) host = s.eval st (.program (ss ++ ss')) host := by
      rw [hrun, hrun']
      exact (eval_append hthrough hguard hne).symm
    have hbare : (Node.program (ss ++ ss'.map (Node.lower (text.toList.count '\n' + 1)))).bare =
        (Node.program (ss ++ ss')).bare := by
      rw [Node.bare, Node.bare, Node.bareAll_eq, Node.bareAll_eq, List.map_append, List.map_append, List.map_map]
      congr 2
      exact List.map_congr_left fun n _ => Node.bare_lower _ n
    obtain ⟨hanswer, hheap⟩ := seen_eval_of_bare_eq (s := s) hbare st host
    rw [run_of_parse_ok (parse_of_clean hlines rfl s host), hpieces]
    exact ⟨hanswer, bindings_of_bare_eq hheap, hheap⟩

/-- Where a run gives a value that is no error, the program has that value. -/
theorem exists_result_of_run {p : Parse} (hp : Monkey.parse text = .ok p) (hclean : p.diagnostics = [])
    (hvalue : ((s.run st text).run' host).map Value.isError = some false) :
    ∃ v h, (s.evaluation st p.program host).result = .ok v h ∧ v.isError = false := by
  unfold EStateM.run' EStateM.run at hvalue
  rw [run_of_parse_ok (parse_of_clean hp hclean s host)] at hvalue
  rcases eval_cases s.limit st with ⟨hbelow, hle⟩ | ⟨why, hwhy⟩
  · rw [eval_of_limit hbelow hle] at hvalue
    cases hresult : Monkey.eval (s.depth st) p.program s.scope host.heap with
    | ok v h =>
      rw [hresult] at hvalue
      exact ⟨v, h, hresult, Option.some.inj hvalue⟩
    | error why h =>
      rw [hresult] at hvalue
      rcases ended_error_cases s.limit st why with ⟨-, hfails⟩ | ⟨-, hends⟩
      · rw [hfails s rfl] at hvalue
        cases hvalue
      · obtain ⟨log, hended⟩ := hends s rfl host h
        rw [hended] at hvalue
        cases hvalue
  · rw [hwhy s rfl] at hvalue
    cases hvalue

/-- A function that the first text binds, where something is bound already, and the second one calls. -/
theorem run_append_lines_call :
    ∃ (s : Session) (st : Stack) (host : Host) (p q : Parse), s.bindings host = [("x", "7")] ∧
      Monkey.parse "let f = fn(n) \x7b n + x \x7d;" = .ok p ∧ p.diagnostics = [] ∧
      Monkey.parse "let y = f(2); f(y)" = .ok q ∧ q.diagnostics = [] ∧
      Terminated (lexemesOf "let f = fn(n) \x7b n + x \x7d;") ∧ q.program.statements ≠ [] ∧
      RunsThrough (s.evaluation st p.program host) ∧ ¬s.HitsGuard st p.program host ∧
      let whole := seen showsValue (s.run st ("let f = fn(n) \x7b n + x \x7d;" ++ "\n" ++ "let y = f(2); f(y)") host)
      let pieces := seen showsValue
        ((s.run st "let f = fn(n) \x7b n + x \x7d;" >>= fun _ => s.run st "let y = f(2); f(y)") host)
      (whole.1 = pieces.1 ∧ s.bindings whole.2 = s.bindings pieces.2 ∧ whole.2.heap.bare = pieces.2.heap.bare) ∧
        s.bindings whole.2 = [("x", "7"), ("f", "fn(n) \x7b...\x7d"), ("y", "9")] := by
  let s : Session := ⟨0, none, 50⟩
  let st : Stack := ⟨4, 14⟩
  let host : Host := ⟨⟨#[⟨none, [("x", .integer 0 7)]⟩], 1, []⟩, #[]⟩
  have hlets : (Monkey.parse "let f = fn(n) \x7b n + x \x7d;").toOption.map
      (fun p => (p.diagnostics, p.program.statements.all Node.isLet)) = some ([], true) := by
    decide +kernel
  have hstatements : (Monkey.parse "let y = f(2); f(y)").toOption.map
      (fun q => (q.diagnostics, q.program.statements.isEmpty)) = some ([], false) := by
    decide +kernel
  have hterm : Terminated (lexemesOf "let f = fn(n) \x7b n + x \x7d;") := by decide +kernel
  have hvalue : ((s.run st "let f = fn(n) \x7b n + x \x7d;").run' host).map Value.isError = some false := by
    decide +kernel
  obtain ⟨p, hp, hp'⟩ := exists_of_map_parse hlets
  obtain ⟨q, hq, hq'⟩ := exists_of_map_parse hstatements
  obtain ⟨hpclean, hpall⟩ := Prod.mk.inj hp'
  obtain ⟨hqclean, hqempty⟩ := Prod.mk.inj hq'
  obtain ⟨v, h, hresult, hv⟩ := exists_result_of_run hp hpclean hvalue
  obtain ⟨ss, hprogram, -⟩ := reads_of_parse hp hpclean
  have hthrough : RunsThrough (s.evaluation st p.program host) := by
    rw [hprogram] at hresult hpall ⊢
    exact runsThrough_of_isLet (List.all_eq_true.1 hpall) hresult hv
  have hguard : ¬s.HitsGuard st p.program host := by
    rintro ⟨-, -, h', hdeep⟩
    cases hresult.symm.trans hdeep
  have hne : q.program.statements ≠ [] := by
    intro hnil
    rw [hnil] at hqempty
    cases hqempty
  exact ⟨s, st, host, p, q, rfl, hp, hpclean, hq, hqclean, hterm, hne, hthrough, hguard,
    run_append_lines hp hpclean hq hqclean hterm hne hthrough hguard, by decide +kernel⟩

end Session

end Monkey
