import Mathlib.Logic.Function.Basic
import Monkey.Proofs.Eval.Renaming
import Monkey.Proofs.Session.Steps

/-!
# Sessions of one host

Sessions of one host share its heap, so the numbers of scopes and of objects that one of them gets depend on what the
others have done. Nothing else does: as long as each has a scope of its own, what a session answers and what it has bound
is what it would be if no other session were there (`isolated`).

A call of the session itself keeps it the same, up to a renaming, as the one that is alone (`Tracks.own`), by the
simulation of evaluation. A call of another one changes no scope that stands for something (`Tracks.other`), by the
frame law.
-/

namespace Monkey

namespace Session

/-! ## Calls and answers -/

/-- A call of a session, from some place on the stack. -/
inductive Call where
  | run (st : Stack) (text : String)
  | execute (st : Stack) (text : String)

/-- What a caller sees of the end of a call. -/
inductive Answer where
  | value (tag : Tag) (text : String)
  | shown (text : String)
  | failed (why : Failure)

/-- What a caller sees of the end of some work, and the host that it leaves. -/
def seen {α : Type} (shows : α → Answer) : EStateM.Result Failure Host α → Answer × Host
  | .ok a host => (shows a, host)
  | .error why host => (.failed why, host)

/-- The answer of a session to a call. -/
def answer (s : Session) (call : Call) (host : Host) : Answer × Host :=
  match call with
  | .run st text => seen (fun v => .value v.tag v.inspect) (s.run st text host)
  | .execute st text => seen .shown (s.execute st text host)

/-- The answers of a session to one call after another. -/
def answers (s : Session) : List Call → Host → List Answer × Host
  | [], host => ([], host)
  | call :: calls, host =>
    let (a, host) := s.answer call host
    let (as, host) := s.answers calls host
    (a :: as, host)

/-- The answers of some sessions to one call after another, each of one of them. -/
def answersAmong {ι : Type} (sessions : ι → Session) : List (ι × Call) → Host → List (ι × Answer) × Host
  | [], host => ([], host)
  | (i, call) :: calls, host =>
    let (a, host) := (sessions i).answer call host
    let (as, host) := answersAmong sessions calls host
    ((i, a) :: as, host)

/-- Those calls or answers that are of one session. -/
def only {ι α : Type} [DecidableEq ι] (i : ι) (xs : List (ι × α)) : List α :=
  (xs.filter fun x => x.1 = i).map Prod.snd

/-- The names that a session has bound, each with the text of its value. -/
def bindings (s : Session) (host : Host) : List (String × String) :=
  (host.heap.bindingsOf s.scope).map (Prod.map id Value.inspect)

/-! ## A call, once its text is read -/

/-- The text that a call is about. -/
def Call.text : Call → String
  | .run _ text => text
  | .execute _ text => text

/-- The stack that a call is made on. -/
def Call.stack : Call → Stack
  | .run st _ => st
  | .execute st _ => st

/-- The answer when the text is a program that has a value. -/
def Call.onValue (call : Call) (program : Node) (v : Value) : Answer :=
  match call with
  | .run .. => .value v.tag v.inspect
  | .execute .. => .shown (display program v)

/-- The answer when the text is not a program. -/
def Call.onFailure : Call → Failure → Answer
  | .execute .., .malformed what => .shown what.listing
  | _, why => .failed why

section Calls

variable {ρ : Renaming} {s s' : Session} {st : Stack} {call : Call} {host host' host₁ : Host} {program : Node} {why : Failure}

theorem answer_of_parse_ok (hp : s.parse call.text host = .ok program host₁) :
    s.answer call host = seen (call.onValue program) (s.eval call.stack program host₁) := by
  cases call with
  | run st text =>
    rw [Call.text] at hp
    rw [answer, run_of_parse_ok hp]
    rfl
  | execute st text =>
    rw [Call.text] at hp
    rw [answer, execute_of_parse_ok hp, Call.stack]
    cases he : s.eval st program host₁ with
    | ok v host₂ =>
      rw [render_of_ok he]
      rfl
    | error why host₂ =>
      rw [render_of_error he]
      rfl

theorem answer_of_parse_error (hp : s.parse call.text host = .error why host₁) :
    s.answer call host = (call.onFailure why, host₁) := by
  cases call with
  | run st text =>
    rw [Call.text] at hp
    rw [answer, run_of_parse_error hp]
    rfl
  | execute st text =>
    rw [Call.text] at hp
    rw [answer]
    cases why with
    | malformed what =>
      rw [execute_of_malformed hp]
      rfl
    | refused | limitTooLow | limitTooLarge | limitReached | halted =>
      rw [execute_of_parse_error hp nofun]
      rfl

/-! ## One call -/

/-- A session that evaluates leaves the heap as evaluation does. If it hits the guard, the error that stands for this
may have got a number too. -/
theorem heap_seen_eval (s : Session) (st : Stack) (program : Node) (host : Host) (shows : Value → Answer) :
    (seen shows (s.eval st program host)).2.heap = host.heap ∨
      ∃ h, h = (Monkey.eval (s.depth st) program s.scope).after host.heap ∧
        ((seen shows (s.eval st program host)).2.heap = h ∨
          (seen shows (s.eval st program host)).2.heap = { h with nextObject := h.nextObject + 1 }) := by
  rcases eval_cases s.limit st with ⟨hbelow, hle⟩ | ⟨why, hwhy⟩
  · rw [eval_of_limit hbelow hle]
    unfold Eval.after
    cases Monkey.eval (s.depth st) program s.scope host.heap with
    | ok v h => exact Or.inr ⟨h, rfl, Or.inl rfl⟩
    | error why h =>
      rcases ended_error_cases s.limit st why with ⟨-, hfails⟩ | ⟨-, hends⟩
      · rw [hfails s rfl]
        exact Or.inr ⟨h, rfl, Or.inl rfl⟩
      · obtain ⟨log, hended⟩ := hends s rfl host h
        rw [hended]
        exact Or.inr ⟨h, rfl, Or.inr rfl⟩
  · rw [hwhy s rfl]
    exact Or.inl rfl

/-- A call binds in the scope of the session and in new scopes only. -/
theorem evolves_eval (s : Session) (st : Stack) (program : Node) (host : Host) (shows : Value → Answer) :
    Heap.Evolves (fun i _ => i = s.scope) host.heap (seen shows (s.eval st program host)).2.heap := by
  have hframe := ((Eval.Frames.all (s.depth st)).eval program s.scope).mono (fun _ _ hi => hi.1) host.heap
  rcases s.heap_seen_eval st program host shows with heq | ⟨h, rfl, heq | heq⟩
  · rw [heq]
    exact .refl
  · rw [heq]
    exact hframe
  · rw [heq]
    exact .number hframe

theorem evolves_answer (s : Session) (call : Call) (host : Host) :
    Heap.Evolves (fun i _ => i = s.scope) host.heap (s.answer call host).2.heap := by
  rcases s.parse_cases call.text with ⟨program, hp⟩ | ⟨why, hp⟩
  · rw [answer_of_parse_ok (hp host)]
    exact s.evolves_eval call.stack program host _
  · obtain ⟨log, hp⟩ := hp host
    rw [answer_of_parse_error hp]
    exact .refl

/-- Sessions that differ in the number of their scope only. -/
structure Renamed (ρ : Renaming) (s s' : Session) : Prop where
  file : s.file = s'.file
  limit : s.limit = s'.limit
  scope : ρ.scope s.scope s'.scope

/-- Answers are the same, and the hosts that are left are the same up to a renaming that has grown by new scopes of the
one on the right. -/
def Agrees (ρ : Renaming) (h₀ : Heap) (a a' : Answer × Host) : Prop :=
  a.1 = a'.1 ∧ ∃ ρ', ρ.Grows ρ' h₀ a'.2.heap ∧ a.2.heap.Renamed ρ' a'.2.heap

/-- What a caller sees of a value shows nothing of the numbers in it. -/
theorem Call.onValue_eq {v v' : Value} (hv : v.Renamed ρ v') (call : Call) (program : Node) :
    call.onValue program v = call.onValue program v' := by
  cases call with
  | run st text => rw [onValue, onValue, hv.tag_eq, hv.inspect_eq]
  | execute st text =>
    rw [onValue, onValue]
    unfold display
    rw [hv.isNull_eq, hv.inspect_eq]

theorem agrees_eval (hs : s.Renamed ρ s') (hh : host.heap.Renamed ρ host'.heap) (st : Stack) (call : Call)
    (program : Node) :
    Agrees ρ host'.heap (seen (call.onValue program) (s.eval st program host))
      (seen (call.onValue program) (s'.eval st program host')) := by
  rcases eval_cases s.limit st with ⟨hbelow, hle⟩ | ⟨why, hwhy⟩
  · have hdepth : s'.depth st = s.depth st := by rw [depth, depth, hs.limit]
    rw [eval_of_limit hbelow hle, eval_of_limit (hs.limit ▸ hbelow) (hs.limit ▸ hle), hdepth]
    have hout := (Renaming.Simulation.all (s.depth st)).eval program hs.scope hh
    generalize Monkey.eval (s.depth st) program s.scope host.heap = r at hout
    generalize Monkey.eval (s.depth st) program s'.scope host'.heap = r' at hout
    cases hout with
    | @ok ρ' _ _ _ _ hg hv hh' => exact ⟨call.onValue_eq hv program, ρ', hg, hh'⟩
    | @error ρ' why h h' hg hh' =>
      rcases ended_error_cases s.limit st why with ⟨-, hfails⟩ | ⟨-, hends⟩
      · rw [hfails s rfl, hfails s' hs.limit.symm]
        exact ⟨rfl, ρ', hg, hh'⟩
      · -- The error that stands for the value is one more object in each heap.
        obtain ⟨log, hended⟩ := hends s rfl host h
        obtain ⟨log', hended'⟩ := hends s' hs.limit.symm host' h'
        rw [hended, hended']
        let ρ'' := ρ'.addObject h.nextObject h'.nextObject
        have hgrows : ρ'.Grows ρ'' h' { h' with nextObject := h'.nextObject + 1 } :=
          ⟨ρ'.le_addObject _ _, Or.inl, Nat.le_refl _⟩
        have herror : (Value.error h.nextObject .tooDeep).Renamed ρ'' (.error h'.nextObject .tooDeep) :=
          .error (Or.inr ⟨rfl, rfl⟩)
        exact ⟨call.onValue_eq herror program, ρ'', hg.trans hgrows, hh'.number⟩
  · rw [hwhy s rfl, hwhy s' hs.limit.symm]
    exact ⟨rfl, ρ, .refl ρ _, hh⟩

/-- **The same call on sessions that are the same up to renaming.** -/
theorem agrees_answer (hs : s.Renamed ρ s') (hh : host.heap.Renamed ρ host'.heap) (call : Call) :
    Agrees ρ host'.heap (s.answer call host) (s'.answer call host') := by
  rcases s.parse_cases call.text with ⟨program, hp⟩ | ⟨why, hp⟩
  · rw [answer_of_parse_ok (hp host), answer_of_parse_ok (parse_congr hs.file _ ▸ hp host')]
    exact agrees_eval hs hh call.stack call program
  · obtain ⟨log, hp₁⟩ := hp host
    obtain ⟨log', hp₁'⟩ := hp host'
    rw [answer_of_parse_error hp₁, answer_of_parse_error (parse_congr hs.file _ ▸ hp₁')]
    exact ⟨rfl, ρ, .refl ρ _, hh⟩

end Calls

/-! ## One call after another -/

section Runs

variable {ι : Type} {sessions : ι → Session} {i j : ι} {s : Session} {host host' : Host} {ρ : Renaming}

/-- A session by itself has got as far as the one of number `i` has among the others, up to renaming. The scopes of the
others stand for nothing. -/
structure Tracks (sessions : ι → Session) (i : ι) (s : Session) (host host' : Host) (ρ : Renaming) : Prop where
  session : s.Renamed ρ (sessions i)
  heap : host.heap.Renamed ρ host'.heap
  apart : ∀ {j k}, ρ.scope k (sessions j).scope → j = i
  exist : ∀ j, (sessions j).scope < host'.heap.scopes.size

/-- At the start only the scopes of the two stand for each other. -/
theorem Tracks.start (hfresh : ∀ j, (sessions j).IsFresh host') (hscopes : Function.Injective fun j => (sessions j).scope)
    (hfile : s.file = (sessions i).file) (hlimit : s.limit = (sessions i).limit) (hs : s.IsFresh host) :
    Tracks sessions i s host host' (.single s.scope (sessions i).scope) where
  session := ⟨hfile, hlimit, rfl, rfl⟩
  heap := .single hs (hfresh i)
  apart h := hscopes h.2
  exist j := (Array.getElem?_eq_some_iff.1 (hfresh j)).1

/-- A call of the session itself. -/
theorem Tracks.own (ht : Tracks sessions i s host host' ρ) (call : Call) :
    (s.answer call host).1 = ((sessions i).answer call host').1 ∧
      ∃ ρ', Tracks sessions i s (s.answer call host).2 ((sessions i).answer call host').2 ρ' := by
  obtain ⟨hanswer, ρ', hg, hh⟩ := agrees_answer ht.session ht.heap call
  refine ⟨hanswer, ρ', ⟨ht.session.file, ht.session.limit, hg.le.scope ht.session.scope⟩, hh, fun {j k} hk => ?_, ?_⟩
  · rcases hg.fresh hk with hk | hle
    · exact ht.apart hk
    · exact absurd (ht.exist j) (Nat.not_lt.2 hle)
  · exact fun j => Nat.lt_of_lt_of_le (ht.exist j) hg.size_le

/-- A call of another session. -/
theorem Tracks.other (ht : Tracks sessions i s host host' ρ) (hj : j ≠ i) (call : Call) :
    Tracks sessions i s host ((sessions j).answer call host').2 ρ := by
  have hevolves := (sessions j).evolves_answer call host'
  refine ⟨ht.session, ht.heap.of_unchanged (fun {k l} hkl => ?_) hevolves.nextObject_le, ht.apart, ?_⟩
  · refine hevolves.scope_eq (ht.heap.scope_lt hkl).2 fun _ hl => ?_
    exact hj (ht.apart (hl ▸ hkl))
  · exact fun j => Nat.lt_of_lt_of_le (ht.exist j) hevolves.size_le

theorem Tracks.bindings_eq (ht : Tracks sessions i s host host' ρ) : (sessions i).bindings host' = s.bindings host :=
  (ht.heap.bindingsOf_eq ht.session.scope).symm

variable [DecidableEq ι]

theorem only_cons_self {α : Type} (i : ι) (a : α) (xs : List (ι × α)) : only i ((i, a) :: xs) = a :: only i xs := by
  simp [only]

theorem only_cons_of_ne {α : Type} (hj : j ≠ i) (a : α) (xs : List (ι × α)) : only i ((j, a) :: xs) = only i xs := by
  simp [only, hj]

/-- Whatever is called, the session by itself gives the same answers and goes on to track the other one. -/
theorem Tracks.run (calls : List (ι × Call)) (ht : Tracks sessions i s host host' ρ) :
    only i (answersAmong sessions calls host').1 = (s.answers (only i calls) host).1 ∧
      ∃ ρ', Tracks sessions i s (s.answers (only i calls) host).2 (answersAmong sessions calls host').2 ρ' := by
  induction calls generalizing host host' ρ with
  | nil => exact ⟨rfl, ρ, ht⟩
  | cons c calls ih =>
    obtain ⟨j, call⟩ := c
    rw [answersAmong]
    by_cases hj : j = i
    · subst hj
      obtain ⟨hanswer, ρ', ht'⟩ := ht.own call
      obtain ⟨hanswers, htracks⟩ := ih ht'
      rw [only_cons_self, only_cons_self, answers, ← hanswer, hanswers]
      exact ⟨rfl, htracks⟩
    · obtain ⟨hanswers, htracks⟩ := ih (ht.other hj call)
      rw [only_cons_of_ne hj, only_cons_of_ne hj, hanswers]
      exact ⟨rfl, htracks⟩

/-- **Sessions with scopes of their own do not interfere.** However their calls follow each other and however each ends,
the answers of one of them and what it has bound in the end are those of a session with the same file and limit that is
alone, on that host or another, and gets the same calls in the same order. -/
theorem isolated (hfresh : ∀ j, (sessions j).IsFresh host) (hscopes : Function.Injective fun j => (sessions j).scope)
    (calls : List (ι × Call)) (i : ι) (hfile : s.file = (sessions i).file) (hlimit : s.limit = (sessions i).limit)
    (hs : s.IsFresh host') :
    only i (answersAmong sessions calls host).1 = (s.answers (only i calls) host').1 ∧
      (sessions i).bindings (answersAmong sessions calls host).2 = s.bindings (s.answers (only i calls) host').2 := by
  obtain ⟨hanswers, ρ, ht⟩ := Tracks.run calls (Tracks.start hfresh hscopes hfile hlimit hs)
  exact ⟨hanswers, ht.bindings_eq⟩

end Runs

/-- Two sessions bind the same name. One of them runs out of depth and is given a text that is not a program. -/
theorem isolated_same_name :
    ∃ (sessions : Bool → Session) (host : Host) (calls : List (Bool × Call)),
      (∀ j, (sessions j).IsFresh host) ∧ (Function.Injective fun j => (sessions j).scope) ∧
        (sessions true).file = none ∧ (sessions true).limit = 20 ∧
        calls = [(true, .run ⟨4, 14⟩ "let x = fn() \x7b x(); \x7d; x()"), (false, .run ⟨4, 14⟩ "let x = 1;"),
          (true, .execute ⟨4, 14⟩ "let"), (false, .run ⟨5, 14⟩ "x + 1")] ∧
        only false (answersAmong sessions calls host).1 = ((sessions false).answers (only false calls) host).1 ∧
        (sessions false).bindings (answersAmong sessions calls host).2 = [("x", "1")] ∧
        (sessions true).bindings (answersAmong sessions calls host).2 = [("x", "fn() \x7b...\x7d")] := by
  let sessions : Bool → Session := fun j => ⟨j.toNat, none, if j then 20 else 50⟩
  let host : Host := ⟨⟨#[⟨none, []⟩, ⟨none, []⟩], 0, []⟩, #[]⟩
  have hfresh : ∀ j, (sessions j).IsFresh host := by
    rintro (_ | _) <;> rfl
  have hscopes : Function.Injective fun j => (sessions j).scope := by
    rintro (_ | _) (_ | _) h <;> first | rfl | exact absurd h (by decide)
  refine ⟨sessions, host, _, hfresh, hscopes, rfl, rfl, rfl, ?_, ?_, ?_⟩
  · exact (isolated hfresh hscopes _ false rfl rfl (hfresh false)).1
  · rw [(isolated hfresh hscopes _ false rfl rfl (hfresh false)).2]
    decide +kernel
  · rw [(isolated hfresh hscopes _ true rfl rfl (hfresh true)).2]
    decide +kernel

end Session

end Monkey
