import Mathlib.Algebra.Group.Int.Defs
import Monkey.Proofs.Eval.Whole
import Monkey.Proofs.Parse.RoundTrip
import Monkey.Proofs.Session.Steps

/-!
# Sessions that are given programs only

A text in which nothing is wrong is read as a whole tree. So a session that starts with nothing bound and is given such
texts only has a value for each of them, be it an error or the one that stands for a nesting that is too deep, if its
limit leaves room on the stack for this error (`run_of_isAccepted`). Where it leaves none, a session whose evaluation
nests too deep fails instead (`not_run_of_isAccepted`), and it fails for nothing else.

Every node that is evaluated is there and of a known class, also in the bodies of functions that texts before have
bound.
-/

namespace Monkey

/-- A node that is there and of a known class. -/
def Node.isKnown : Node → Bool
  | .hole => false
  | .unknown _ => false
  | _ => true

/-- A limit leaves room above what is in use: some to evaluate in, and as much as an entry of the log takes. -/
structure Stack.HasRoom (st : Stack) (limit : Int) : Prop where
  evaluation : st.below < limit
  entry : st.below + st.entry ≤ limit

instance (st : Stack) (limit : Int) : Decidable (st.HasRoom limit) :=
  decidable_of_iff (st.below < limit ∧ st.below + st.entry ≤ limit) ⟨fun h => ⟨h.1, h.2⟩, fun h => ⟨h.1, h.2⟩⟩

theorem Stack.HasRoom.of_deeper {st : Stack} {limit : Int} {calls : Nat} (h : (st.deeper calls).HasRoom limit) :
    st.HasRoom limit := by
  obtain ⟨hevaluation, hentry⟩ := h
  simp only [Stack.deeper] at hevaluation hentry
  exact ⟨by omega, by omega⟩

theorem Stack.HasRoom.pos {st : Stack} {limit : Int} (h : st.HasRoom limit) : 0 < limit :=
  Int.lt_of_le_of_lt (Int.natCast_nonneg _) h.evaluation

namespace Session

open Evaluation (Performs)

variable {s : Session} {st : Stack} {host host₁ : Host} {text : String} {program : Node}
  {calls : List (Stack × String)}

/-- Where a program does not halt unless it is too deep, all nodes that are evaluated are known. -/
theorem isKnown_of_performs {n : Node} {depth : Nat} {scope : ScopeId} {h : Heap}
    (hhalts : ∀ why h', (s.evaluation st program host).result = .error why h' → why = .tooDeep)
    (hn : Performs (s.evaluation st program host) (.node (depth + 1) n scope h)) : n.isKnown := by
  have hfault : ∀ why, why ≠ .tooDeep → ¬Evaluation.Faults (.node (depth + 1) n scope h) why := by
    intro why hwhy hfault
    obtain ⟨h', hresult⟩ := hfault.result
    exact hwhy (hhalts why h' (hn.result_of_halt hresult))
  cases n with
  | hole => exact absurd .hole (hfault _ nofun)
  | unknown cls => exact absurd .unknown (hfault _ nofun)
  | _ => rfl

/-! ## One text -/

/-- A session hits the guard, and its limit leaves no room for the error that stands for this. -/
def LacksRoom (s : Session) (st : Stack) (program : Node) (host : Host) : Prop :=
  s.HitsGuard st program host ∧ ¬st.HasRoom s.limit

/-- Why a session fails for want of room: its limit is reached before it is set, or behind the evaluation. -/
def exhaustion (s : Session) (st : Stack) : Failure :=
  if s.limit ≤ st.below then .limitReached s.limit st.below else .halted .tooDeep

/-- **One program.** From where only whole values can be reached it has a value, unless the session lacks room. Either
way only whole values can be reached after it. -/
theorem eval_of_wholeFrom (hpos : 0 < s.limit) (hle : s.limit ≤ maxDepth) (hhost : host.heap.WholeFrom s.scope)
    (hprogram : program.IsProgram) (st : Stack) :
    ∃ host₁, host₁.heap.WholeFrom s.scope ∧
      (¬s.LacksRoom st program host ∧ (∃ v, s.eval st program host = .ok v host₁) ∨
        s.LacksRoom st program host ∧ s.eval st program host = .error (s.exhaustion st) host₁) := by
  by_cases hbelow : s.limit ≤ st.below
  · have hguard := hitsGuard_of_le_below hpos hle hbelow program host
    have hfails := eval_of_le_below hpos hle hbelow program host
    refine ⟨host, hhost, Or.inr ⟨⟨hguard, fun hroom => ?_⟩, ?_⟩⟩
    · exact absurd hroom.evaluation (Int.not_lt.2 hbelow)
    · rw [hfails, exhaustion, if_pos hbelow]
  · obtain ⟨hwhole, hhalts⟩ := hhost.eval hprogram (s.depth st)
    rw [eval_of_limit (Int.not_le.1 hbelow) hle]
    unfold Eval.after at hwhole
    cases hresult : Monkey.eval (s.depth st) program s.scope host.heap with
    | ok v h =>
      rw [hresult] at hwhole
      refine ⟨_, hwhole, Or.inl ⟨?_, v, rfl⟩⟩
      rintro ⟨⟨-, -, h', hguard⟩, -⟩
      cases hresult.symm.trans hguard
    | error why h =>
      rw [hresult] at hwhole
      cases hhalts why h hresult
      rcases ended_error_cases s.limit st .tooDeep with ⟨hcramped, hfails⟩ | ⟨⟨-, hroom⟩, hends⟩
      · refine ⟨{ host with heap := h }, hwhole, Or.inr ⟨⟨⟨hpos, hle, h, hresult⟩, fun hroom => ?_⟩, ?_⟩⟩
        · exact absurd hroom.entry (Int.not_le.2 (hcramped rfl))
        · rw [hfails s rfl, exhaustion, if_neg hbelow]
      · obtain ⟨log, hended⟩ := hends s rfl host h
        exact ⟨_, hwhole.number, Or.inl ⟨fun hlacks => hlacks.2 ⟨Int.not_le.1 hbelow, hroom⟩, _, hended⟩⟩

/-- **One run.** From where only whole values can be reached a text has a value, unless the session lacks room. All nodes
that are evaluated are known, and only whole values can be reached after it. -/
theorem run_of_wholeFrom (hpos : 0 < s.limit) (hle : s.limit ≤ maxDepth) (hhost : host.heap.WholeFrom s.scope)
    (htext : isAccepted text) (st : Stack) :
    ∃ p host₁, Monkey.parse text = .ok p ∧ host₁.heap.WholeFrom s.scope ∧
      (¬s.LacksRoom st p.program host ∧ (∃ v, s.run st text host = .ok v host₁) ∨
        s.LacksRoom st p.program host ∧ s.run st text host = .error (s.exhaustion st) host₁) ∧
      ∀ depth n scope h, Performs (s.evaluation st p.program host) (.node (depth + 1) n scope h) → n.isKnown := by
  obtain ⟨p, hp, hclean⟩ := exists_of_isAccepted htext
  have hprogram := isProgram_of_parse hp hclean
  obtain ⟨host₁, hhost₁, hends⟩ := eval_of_wholeFrom hpos hle hhost hprogram st
  rw [← run_of_parse_ok (parse_of_clean hp hclean s host)] at hends
  exact ⟨p, host₁, hp, hhost₁, hends, fun _ _ _ _ => isKnown_of_performs (hhost.eval hprogram (s.depth st)).2⟩

/-- Whatever text is read, it is answered if there is room, and only whole values can be reached after it. -/
theorem execute_of_wholeFrom {p : Parse} (hroom : st.HasRoom s.limit) (hle : s.limit ≤ maxDepth)
    (hhost : host.heap.WholeFrom s.scope) (hp : Monkey.parse text = .ok p) :
    ∃ shown host₁, s.execute st text host = .ok shown host₁ ∧ host₁.heap.WholeFrom s.scope := by
  by_cases hclean : p.diagnostics = []
  · have hparse := parse_of_clean hp hclean s host
    obtain ⟨host₁, hhost₁, ⟨-, v, heval⟩ | ⟨hlacks, -⟩⟩ :=
      eval_of_wholeFrom hroom.pos hle hhost (isProgram_of_parse hp hclean) st
    · exact ⟨_, host₁, (execute_of_parse_ok hparse).trans (render_of_ok heval), hhost₁⟩
    · exact absurd hroom hlacks.2
  · obtain ⟨log, hparse⟩ := s.parse_of_diagnostics hp hclean host
    exact ⟨_, _, execute_of_malformed hparse, hhost⟩

/-! ## One text after another -/

/-- What comes of some texts, run one after another from some place on the stack each. One that fails is no end. -/
def runs (s : Session) (calls : List (Stack × String)) : Hosted (List (Except Failure Value)) :=
  calls.mapM fun (st, text) => Hosted.attempt (s.run st text)

/-- **One run after another.** Some of them may fail, and only whole values can be reached after them. -/
theorem runs_of_wholeFrom (hpos : 0 < s.limit) (hle : s.limit ≤ maxDepth) (hhost : host.heap.WholeFrom s.scope)
    (hcalls : ∀ call ∈ calls, isAccepted call.2) :
    ∃ rs host₁, s.runs calls host = .ok rs host₁ ∧ host₁.heap.WholeFrom s.scope := by
  induction calls generalizing host with
  | nil => exact ⟨[], host, rfl, hhost⟩
  | cons call calls ih =>
    obtain ⟨hcall, hcalls⟩ := List.forall_mem_cons.1 hcalls
    obtain ⟨_, host₁, -, hhost₁, hends, -⟩ := run_of_wholeFrom hpos hle hhost hcall call.1
    obtain ⟨r, hrun⟩ : ∃ r, Hosted.attempt (s.run call.1 call.2) host = .ok r host₁ := by
      rcases hends with ⟨-, v, hrun⟩ | ⟨-, hrun⟩
      · exact ⟨_, Hosted.attempt_of_ok hrun⟩
      · exact ⟨_, Hosted.attempt_of_error hrun⟩
    obtain ⟨rs, host₂, hruns, hhost₂⟩ := ih hhost₁ hcalls
    refine ⟨r :: rs, host₂, ?_, hhost₂⟩
    rw [runs] at hruns ⊢
    rw [List.mapM_cons, Hosted.bind_of_ok hrun, Hosted.bind_of_ok hruns]
    rfl

/-- **Programs that are accepted are evaluated.** A session that starts with nothing bound is given some texts, one after
another, in none of which anything is wrong. Each of them has a value, unless the session hits the guard where its limit
leaves no room on the stack to say so; then it fails for this. Whatever node is evaluated is there and of a known
class. -/
theorem run_of_isAccepted (hpos : 1 ≤ s.limit) (hle : s.limit ≤ 2 ^ 31 - 1) (hfresh : s.IsFresh host)
    (hcalls : ∀ call ∈ calls, isAccepted call.2) :
    ∀ before st text after, calls = before ++ (st, text) :: after →
      ∃ p rs host₁ host₂, Monkey.parse text = .ok p ∧ s.runs before host = .ok rs host₁ ∧
        (¬s.LacksRoom st p.program host₁ ∧ (∃ v, s.run st text host₁ = .ok v host₂) ∨
          s.LacksRoom st p.program host₁ ∧ s.run st text host₁ = .error (s.exhaustion st) host₂) ∧
        ∀ depth n scope h, Performs (s.evaluation st p.program host₁) (.node (depth + 1) n scope h) → n.isKnown := by
  have hhost : host.heap.WholeFrom s.scope := .of_empty hfresh
  rintro before st text after rfl
  have hbefore : ∀ call ∈ before, isAccepted call.2 := fun call hcall => hcalls call (List.mem_append_left _ hcall)
  obtain ⟨rs, host₁, hruns, hhost₁⟩ := runs_of_wholeFrom hpos hle hhost hbefore
  have htext : isAccepted text := hcalls (st, text) (List.mem_append_right _ List.mem_cons_self)
  obtain ⟨p, host₂, hp, -, hends, hknown⟩ := run_of_wholeFrom hpos hle hhost₁ htext st
  exact ⟨p, rs, host₁, host₂, hp, hruns, hends, hknown⟩

/-- A function that an earlier text has bound is called by later ones, and one that calls itself without end. -/
theorem run_of_isAccepted_call :
    ∃ (s : Session) (st : Stack) (host : Host) (before : List (Stack × String)), 1 ≤ s.limit ∧ s.limit ≤ 2 ^ 31 - 1 ∧
      s.IsFresh host ∧ st.HasRoom s.limit ∧
      before.map Prod.snd = ["let f = fn(x) \x7b if (x) \x7b return 1; \x7d y \x7d;", "f(true)", "f(false)"] ∧
      (∀ call ∈ before ++ [(st, "let g = fn() \x7b g() \x7d; g()")], isAccepted call.2) ∧
      ∃ p rs host₁ host₂, Monkey.parse "let g = fn() \x7b g() \x7d; g()" = .ok p ∧ s.runs before host = .ok rs host₁ ∧
        (∃ v, s.run st "let g = fn() \x7b g() \x7d; g()" host₁ = .ok v host₂) ∧
        ∀ depth n scope h, Performs (s.evaluation st p.program host₁) (.node (depth + 1) n scope h) → n.isKnown := by
  let st : Stack := ⟨4, 14⟩
  let before : List (Stack × String) :=
    [(st, "let f = fn(x) \x7b if (x) \x7b return 1; \x7d y \x7d;"), (st.deeper 1, "f(true)"), (st, "f(false)")]
  have hcalls : ∀ call ∈ before ++ [(st, "let g = fn() \x7b g() \x7d; g()")], isAccepted call.2 := by
    decide +kernel
  have hfresh : (Session.new none 50 .empty).1.IsFresh (Session.new none 50 .empty).2 := rfl
  have hroom : st.HasRoom (Session.new none 50 .empty).1.limit := by decide
  obtain ⟨p, rs, host₁, host₂, hp, hruns, ⟨-, hvalue⟩ | ⟨hlacks, -⟩, hknown⟩ :=
    run_of_isAccepted (by decide) (by decide) hfresh hcalls before st _ [] rfl
  · exact ⟨_, st, _, before, by decide, by decide, hfresh, hroom, rfl, hcalls, p, rs, host₁, host₂, hp, hruns, hvalue,
      hknown⟩
  · exact absurd hroom hlacks.2

/-- **A session may fail for want of room.** Under the limit 1 it fails wherever it is called from, since the frame of its
caller is in use. Under a limit that can be set it fails for a function that calls itself without end, if the log does
not find room to say so. -/
theorem not_run_of_isAccepted :
    ∃ (s : Session) (host : Host), s.IsFresh host ∧ isAccepted "let f = fn() \x7b f() \x7d; f()" ∧
      (∀ st : Stack, 1 ≤ st.below →
        run { s with limit := 1 } st "let f = fn() \x7b f() \x7d; f()" host = .error (.limitReached 1 st.below) host) ∧
      ∃ st : Stack, st.below < 10 ∧ ∃ host₁,
        run { s with limit := 10 } st "let f = fn() \x7b f() \x7d; f()" host = .error (.halted .tooDeep) host₁ := by
  let s : Session := (Session.new none 10 .empty).1
  let host : Host := (Session.new none 10 .empty).2
  have hfresh : s.IsFresh host := rfl
  have htext : isAccepted "let f = fn() \x7b f() \x7d; f()" := by decide +kernel
  refine ⟨s, host, hfresh, htext, fun st hst => ?_, ⟨4, 14⟩, by decide, ?_⟩
  · obtain ⟨p, hp, hclean⟩ := exists_of_isAccepted htext
    rw [run_of_parse_ok (parse_of_clean hp hclean _ host)]
    exact eval_of_le_below (s := { s with limit := 1 }) (by decide) (by decide) (Int.ofNat_le.2 hst) p.program host
  · have hguard : (Monkey.parse "let f = fn() \x7b f() \x7d; f()").toOption.map
        (fun p => decide (s.HitsGuard ⟨4, 14⟩ p.program host)) = some true := by
      decide +kernel
    obtain ⟨p, hp, hguard⟩ := exists_of_map_parse hguard
    obtain ⟨p', host₁, hp', -, hends, -⟩ :=
      run_of_wholeFrom (s := s) (by decide) (by decide) (.of_empty hfresh) htext ⟨4, 14⟩
    obtain rfl : p = p' := Except.ok.inj (hp.symm.trans hp')
    have hlacks : s.LacksRoom ⟨4, 14⟩ p.program host := ⟨of_decide_eq_true hguard, by decide⟩
    rcases hends with ⟨hroom, -⟩ | ⟨-, hfails⟩
    · exact absurd hlacks hroom
    · exact ⟨host₁, hfails⟩

end Session

end Monkey
