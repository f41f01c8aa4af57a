import Monkey.Proofs.Eval.Nesting
import Monkey.Session

/-!
# The steps of a session

A session reads a text and evaluates the program that it finds. Reading is the same on every host and leaves the heap as
it is (`Session.parse_cases`); all else that a session does is evaluation (`run_of_parse_ok`, `execute_of_parse_ok`).
The log is written and never read (`Session.ignoresLog_execute`).
-/

namespace Monkey

namespace Hosted

variable {α β : Type} {x : Hosted α} {f : α → Hosted β} {a : α} {why : Failure} {host host₁ : Host}

/-- A computation that gives a value goes on with it. -/
theorem bind_of_ok (hx : x host = .ok a host₁) : (x >>= f) host = f a host₁ := by
  show EStateM.bind x f host = _
  rw [EStateM.bind, hx]

/-- A computation that fails is where the whole fails. -/
theorem bind_of_error (hx : x host = .error why host₁) : (x >>= f) host = .error why host₁ := by
  show EStateM.bind x f host = _
  rw [EStateM.bind, hx]

theorem attempt_of_ok (hx : x host = .ok a host₁) : attempt x host = .ok (.ok a) host₁ := by
  rw [attempt, hx]

theorem attempt_of_error (hx : x host = .error why host₁) : attempt x host = .ok (.error why) host₁ := by
  rw [attempt, hx]

/-! ## The log -/

/-- Two pieces of work end in the same way and leave hosts that differ in their logs only. -/
inductive Alike : EStateM.Result Failure Host α → EStateM.Result Failure Host α → Prop
  | ok {a host host'} : host.heap = host'.heap → Alike (.ok a host) (.ok a host')
  | error {why host host'} : host.heap = host'.heap → Alike (.error why host) (.error why host')

/-- What is done does not depend on the log. -/
def IgnoresLog (x : Hosted α) : Prop :=
  ∀ ⦃host host' : Host⦄, host.heap = host'.heap → Alike (x host) (x host')

namespace IgnoresLog

theorem pure (a : α) : IgnoresLog (pure a) :=
  fun _ _ => .ok

theorem throw (why : Failure) : IgnoresLog (throw why : Hosted α) :=
  fun _ _ => .error

theorem log (level : LogLevel) (source message : String) : IgnoresLog (log level source message) := by
  intro host host' hhosts
  show Alike (.ok () { host with log := _ }) (.ok () { host' with log := _ })
  exact .ok hhosts

/-- A computation followed by another ignores the log if both do. -/
theorem bind (hx : IgnoresLog x) (hf : ∀ a, IgnoresLog (f a)) : IgnoresLog (x >>= f) := by
  intro host host' hhosts
  have halike := hx hhosts
  generalize hr : x host = r at halike
  generalize hr' : x host' = r' at halike
  cases halike with
  | ok hhosts₁ =>
    rw [bind_of_ok hr, bind_of_ok hr']
    exact hf _ hhosts₁
  | error hhosts₁ =>
    rw [bind_of_error hr, bind_of_error hr']
    exact .error hhosts₁

/-- A computation that is attempted ignores the log if it does without. -/
theorem attempt (hx : IgnoresLog x) : IgnoresLog (attempt x) := by
  intro host host' hhosts
  have halike := hx hhosts
  generalize hr : x host = r at halike
  generalize hr' : x host' = r' at halike
  cases halike with
  | ok hhosts₁ =>
    rw [attempt_of_ok hr, attempt_of_ok hr']
    exact .ok hhosts₁
  | error hhosts₁ =>
    rw [attempt_of_error hr, attempt_of_error hr']
    exact .ok hhosts₁

end IgnoresLog

end Hosted

namespace Session

variable {s s' : Session} {st : Stack} {text : String} {program : Node} {why : Failure} {host host₁ host₂ : Host}
  {v : Value}

/-- The scope of the session lies in no other and binds nothing yet. -/
def IsFresh (s : Session) (host : Host) : Prop :=
  host.heap.scopes[s.scope]? = some ⟨none, []⟩

/-! ## Reading -/

/-- What a text is read as depends on the session only in its file. -/
theorem parse_congr (hfile : s.file = s'.file) (text : String) : s.parse text = s'.parse text := by
  unfold parse label
  rw [hfile]

/-- What a text is read as does not depend on the host. Something may be written to the log. -/
theorem parse_cases (s : Session) (text : String) :
    (∃ program, ∀ host, s.parse text host = .ok program host) ∨
      ∃ why, ∀ host, ∃ log, s.parse text host = .error why { host with log } := by
  unfold parse
  cases Monkey.parse text with
  | error why => exact Or.inr ⟨_, fun host => ⟨host.log, rfl⟩⟩
  | ok p =>
    dsimp only
    split
    · exact Or.inl ⟨_, fun _ => rfl⟩
    · exact Or.inr ⟨_, fun _ => ⟨_, rfl⟩⟩

/-- A text without diagnostics gives its program and leaves the host alone. -/
theorem parse_of_clean {p : Parse} (hp : Monkey.parse text = .ok p) (hclean : p.diagnostics = []) (s : Session)
    (host : Host) : s.parse text host = .ok p.program host := by
  unfold parse
  rw [hp]
  dsimp only
  rw [hclean]
  rfl

/-- A text with diagnostics fails with all of them; only the log changes. -/
theorem parse_of_diagnostics {p : Parse} (hp : Monkey.parse text = .ok p) (hne : p.diagnostics ≠ []) (s : Session)
    (host : Host) : ∃ log, s.parse text host = .error (.malformed ⟨p.messages, s.file⟩) { host with log } := by
  unfold parse
  rw [hp]
  dsimp only
  rw [List.isEmpty_eq_false_iff.2 hne]
  exact ⟨_, rfl⟩

theorem ignoresLog_parse (s : Session) (text : String) : Hosted.IgnoresLog (s.parse text) := by
  unfold parse
  cases Monkey.parse text with
  | error why => exact .throw _
  | ok p =>
    dsimp only
    split
    · exact .pure _
    · exact .bind (.log _ _ _) fun _ => .throw _

/-! ## Evaluation -/

/-- The evaluation of a program by a session. -/
def evaluation (s : Session) (st : Stack) (program : Node) (host : Host) : Evaluation :=
  .node (s.depth st) program s.scope host.heap

/-- The evaluation of a program by a session nests deeper than its limit leaves room for. -/
def HitsGuard (s : Session) (st : Stack) (program : Node) (host : Host) : Prop :=
  0 < s.limit ∧ s.limit ≤ maxDepth ∧ ∃ h, (s.evaluation st program host).result = .error .tooDeep h

/-- Whether a session hits the guard can be tried out. -/
instance (s : Session) (st : Stack) (program : Node) (host : Host) : Decidable (s.HitsGuard st program host) :=
  have : Decidable (∃ h, (s.evaluation st program host).result = .error .tooDeep h) :=
    match (s.evaluation st program host).result with
    | .error .tooDeep h => .isTrue ⟨h, rfl⟩
    | .error .missingNode _ => .isFalse nofun
    | .error (.unknownNode _) _ => .isFalse nofun
    | .ok _ _ => .isFalse nofun
  inferInstanceAs (Decidable (_ ∧ _ ∧ _))

/-- A session whose limit is reached already hits the guard at once. -/
theorem hitsGuard_of_le_below (hpos : 0 < s.limit) (hle : s.limit ≤ maxDepth) (hbelow : s.limit ≤ st.below)
    (program : Node) (host : Host) : s.HitsGuard st program host := by
  have hdepth : s.depth st = 0 := Int.toNat_eq_zero.2 (by omega)
  refine ⟨hpos, hle, host.heap, ?_⟩
  rw [evaluation, hdepth, Evaluation.result, Monkey.eval]
  rfl

/-- What comes of an evaluation that halts depends on its reason, the limit and the stack only: the session fails as well,
or the evaluation nests too deep and there is room for the error value that stands for this. -/
theorem ended_error_cases (limit : Int) (st : Stack) (why : Halt) :
    ((why = .tooDeep → limit < st.below + st.entry) ∧ ∀ s : Session, s.limit = limit → ∀ host h,
      s.ended st host (.error why h) = .error (.halted why) { host with heap := h }) ∨
    (why = .tooDeep ∧ st.below + st.entry ≤ limit) ∧ ∀ s : Session, s.limit = limit → ∀ host h, ∃ log,
      s.ended st host (.error why h) =
        .ok (.error h.nextObject .tooDeep) ⟨{ h with nextObject := h.nextObject + 1 }, log⟩ := by
  cases why with
  | missingNode | unknownNode => exact Or.inl ⟨nofun, fun _ _ _ _ => rfl⟩
  | tooDeep =>
    by_cases hroom : limit < st.below + st.entry
    · refine Or.inl ⟨fun _ => hroom, ?_⟩
      rintro s rfl host h
      exact if_pos hroom
    · refine Or.inr ⟨⟨rfl, Int.not_lt.1 hroom⟩, ?_⟩
      rintro s rfl host h
      exact ⟨_, if_neg hroom⟩

/-- If an evaluation that halts has a value at all, this is an error. -/
theorem isError_of_ended {why : Halt} {h : Heap} (hended : s.ended st host (.error why h) = .ok v host₁) :
    v.isError := by
  rcases ended_error_cases s.limit st why with ⟨-, hfails⟩ | ⟨-, hends⟩
  · cases (hfails s rfl host h).symm.trans hended
  · obtain ⟨log, hended'⟩ := hends s rfl host h
    cases hended'.symm.trans hended
    rfl

/-- A limit can be set only if it is above what is in use, and not too large. -/
theorem setLimit_cases (st : Stack) (limit : Int) :
    (st.below < limit ∧ limit ≤ maxDepth) ∨ ∃ why, st.setLimit limit = throw why := by
  unfold Stack.setLimit
  split
  · exact Or.inr ⟨_, rfl⟩
  · split
    · exact Or.inr ⟨_, rfl⟩
    · split
      · exact Or.inr ⟨_, rfl⟩
      · exact Or.inl ⟨by omega, by omega⟩

/-- Under a limit that can be set the program is evaluated as deep as the limit allows. -/
theorem eval_of_limit (hbelow : st.below < s.limit) (hle : s.limit ≤ maxDepth) (program : Node) (host : Host) :
    s.eval st program host = s.ended st host (Monkey.eval (s.depth st) program s.scope host.heap) := by
  have hset : st.setLimit s.limit = pure () := by
    rw [Stack.setLimit, if_neg (by omega), if_neg (by omega), if_neg (by omega)]
  rw [eval, hset]
  rfl

/-- A session whose limit is reached already cannot set it. -/
theorem eval_of_le_below (hpos : 0 < s.limit) (hle : s.limit ≤ maxDepth) (hbelow : s.limit ≤ st.below) (program : Node)
    (host : Host) : s.eval st program host = .error (.limitReached s.limit st.below) host := by
  have hset : st.setLimit s.limit = throw (.limitReached s.limit st.below) := by
    rw [Stack.setLimit, if_neg (by omega), if_neg (by omega), if_pos hbelow]
  rw [eval, hset]
  rfl

/-- Whether a session can evaluate at all depends on its limit and on the stack only. -/
theorem eval_cases (limit : Int) (st : Stack) :
    (st.below < limit ∧ limit ≤ maxDepth) ∨
      ∃ why, ∀ s : Session, s.limit = limit → ∀ program host, s.eval st program host = .error why host := by
  rcases setLimit_cases st limit with hlimit | ⟨why, hset⟩
  · exact Or.inl hlimit
  · refine Or.inr ⟨why, ?_⟩
    rintro s rfl program host
    rw [eval, hset]
    rfl

theorem ignoresLog_eval (s : Session) (st : Stack) (program : Node) : Hosted.IgnoresLog (s.eval st program) := by
  intro host host' hhosts
  rcases eval_cases s.limit st with ⟨hbelow, hle⟩ | ⟨why, hwhy⟩
  · rw [eval_of_limit hbelow hle, eval_of_limit hbelow hle, hhosts]
    cases Monkey.eval (s.depth st) program s.scope host'.heap with
    | ok v h => exact .ok rfl
    | error why h =>
      rcases ended_error_cases s.limit st why with ⟨-, hfails⟩ | ⟨-, hends⟩
      · rw [hfails s rfl, hfails s rfl]
        exact .error rfl
      · obtain ⟨log, hended⟩ := hends s rfl host h
        obtain ⟨log', hended'⟩ := hends s rfl host' h
        rw [hended, hended']
        exact .ok rfl
  · rw [hwhy s rfl, hwhy s rfl]
    exact .error hhosts

theorem run_of_parse_ok (hp : s.parse text host = .ok program host₁) :
    s.run st text host = s.eval st program host₁ := by
  rw [run, Hosted.bind_of_ok hp]

theorem run_of_parse_error (hp : s.parse text host = .error why host₁) : s.run st text host = .error why host₁ := by
  rw [run, Hosted.bind_of_error hp]

theorem execute_of_parse_ok (hp : s.parse text host = .ok program host₁) :
    s.execute st text host = s.render st program host₁ := by
  rw [execute, Hosted.bind_of_ok (Hosted.attempt_of_ok hp)]

/-- What is wrong with a text is shown as a listing. -/
theorem execute_of_malformed {what : Malformed} (hp : s.parse text host = .error (.malformed what) host₁) :
    s.execute st text host = .ok what.listing host₁ := by
  rw [execute, Hosted.bind_of_ok (Hosted.attempt_of_error hp)]
  rfl

/-- Any other failure to read a text is handed on. -/
theorem execute_of_parse_error (hp : s.parse text host = .error why host₁) (hwhy : ∀ what, why ≠ .malformed what) :
    s.execute st text host = .error why host₁ := by
  rw [execute, Hosted.bind_of_ok (Hosted.attempt_of_error hp)]
  cases why with
  | malformed what => exact absurd rfl (hwhy what)
  | refused | limitTooLow | limitTooLarge | limitReached | halted => rfl

theorem render_of_ok (he : s.eval st program host = .ok v host₁) :
    s.render st program host = .ok (display program v) host₁ := by
  rw [render, Hosted.bind_of_ok he]
  rfl

theorem render_of_error (he : s.eval st program host = .error why host₁) :
    s.render st program host = .error why host₁ := by
  rw [render, Hosted.bind_of_error he]

theorem ignoresLog_render (s : Session) (st : Stack) (program : Node) : Hosted.IgnoresLog (s.render st program) :=
  .bind (s.ignoresLog_eval st program) fun _ => .pure _

/-- **What a session shows for a text, and the heap that it leaves, do not depend on the log.** -/
theorem ignoresLog_execute (s : Session) (st : Stack) (text : String) : Hosted.IgnoresLog (s.execute st text) := by
  refine .bind (.attempt (s.ignoresLog_parse text)) fun r => ?_
  split
  · exact s.ignoresLog_render st _
  · exact .pure _
  · exact .throw _

end Session

end Monkey
