import Monkey.Proofs.Token.Longest

/-!
# A supply with several takers

Tokens are asked for one by one, and any number of walks are on their way over the same supply, in any order (`Demand`).
What they get, taken together in the order of time, are the tokens of the text, each once, and end tokens behind them
(`Served.handed`). A walk gets nothing exactly if some walk has been given the end token; whoever else was given one does
not matter (`Served.step_eq_none_iff`).
-/

namespace Monkey.Supply

/-- What is asked for: the next token, a new walk, or one more step of a walk; walks are numbered as they begin. -/
inductive Demand where
  | next
  | walk
  | step (i : Nat)
deriving DecidableEq

/-- A demand and the token that was given for it, if any. -/
abbrev Event := Demand × Option Token

/-- The tokens that have been given, in the order of time. -/
def handed (es : List Event) : List Token :=
  es.filterMap Prod.snd

/-- A walk has been given the end token. -/
def WalkEnded (es : List Event) : Prop :=
  ∃ i t, (.step i, some t) ∈ es ∧ t.kind = .eof

/-- A supply and the walks over it, each with whether it is over. -/
structure Shared where
  supply : Supply
  finished : List Bool

namespace Shared

/-- The supply from which nothing has been asked yet. -/
def ofText (text : String) : Shared :=
  ⟨.ofText text, []⟩

/-- What is given for a demand, and how things stand then. A walk that gets nothing is over, and stays over. -/
def serve (s : Shared) : Demand → Option Token × Shared
  | .next => (some s.supply.next.1, { s with supply := s.supply.next.2 })
  | .walk => (none, { s with finished := s.finished ++ [false] })
  | .step i =>
    if s.finished[i]? = some false then
      (s.supply.item?.1, ⟨s.supply.item?.2, s.finished.set i s.supply.item?.1.isNone⟩)
    else (none, s)

/-- What is given for some demands, one after the other. -/
def events (s : Shared) : List Demand → List Event
  | [] => []
  | d :: ds => (d, (s.serve d).1) :: (s.serve d).2.events ds

/-- How things stand after some demands. -/
def after (s : Shared) : List Demand → Shared
  | [] => s
  | d :: ds => (s.serve d).2.after ds

end Shared

section

variable {text : String} {es : List Event} {s : Shared} {d : Demand} {o : Option Token} {i n : Nat}

theorem handed_concat (es : List Event) (d : Demand) (o : Option Token) :
    handed (es ++ [(d, o)]) = handed es ++ o.toList := by
  rw [handed, List.filterMap_append, handed]
  cases o <;> rfl

/-- Only a step of a walk that is given the end token ends all walks. -/
theorem walkEnded_concat :
    WalkEnded (es ++ [(d, o)]) ↔ WalkEnded es ∨ ∃ i t, d = .step i ∧ o = some t ∧ t.kind = .eof := by
  simp only [WalkEnded, List.mem_append, List.mem_singleton, Prod.mk.injEq, or_and_right, exists_or, and_assoc, eq_comm]

/-- Asking once more gives the next token and leaves the supply as one more call does. -/
theorem read_after (s : Supply) (n : Nat) : (s.after n).cursor.read = (s.token n, (s.after (n + 1)).cursor) := by
  induction n generalizing s with
  | zero => rfl
  | succ n ih => exact ih s.next.2

/-- How things stand after `n` tokens have been given, by whatever demands: the supply is where `n` calls would have left
it, and walks get tokens until one of them is given the end token. -/
structure Served (text : String) (es : List Event) (n : Nat) (s : Shared) : Prop where
  handed : handed es = (List.range n).map (Supply.ofText text).token
  cursor : s.supply.cursor = ((Supply.ofText text).after n).cursor
  walked : s.supply.walked ↔ WalkEnded es
  finished : ∀ {i : Nat}, s.finished[i]? = some true → s.supply.walked

namespace Served

theorem start (text : String) : Served text [] 0 (.ofText text) :=
  ⟨rfl, rfl, iff_of_false Bool.false_ne_true fun ⟨_, _, hmem, _⟩ => List.not_mem_nil hmem, nofun⟩

theorem read (h : Served text es n s) :
    s.supply.cursor.read = ((ofText text).token n, ((ofText text).after (n + 1)).cursor) := by
  rw [h.cursor, read_after]

theorem handed_concat_some (h : Served text es n s) (d : Demand) :
    Supply.handed (es ++ [(d, some ((ofText text).token n))]) = (List.range (n + 1)).map (ofText text).token := by
  rw [handed_concat, h.handed, List.range_succ, List.map_append]
  rfl

theorem handed_concat_none (h : Served text es n s) (d : Demand) :
    Supply.handed (es ++ [(d, none)]) = (List.range n).map (ofText text).token := by
  rw [handed_concat, h.handed]
  exact List.append_nil _

theorem next (h : Served text es n s) :
    Served text (es ++ [(.next, (s.serve .next).1)]) (n + 1) (s.serve .next).2 := by
  simp only [Shared.serve, Supply.next, h.read]
  refine ⟨h.handed_concat_some _, rfl, ?_, h.finished⟩
  rw [walkEnded_concat, h.walked]
  simp

theorem walk (h : Served text es n s) : Served text (es ++ [(.walk, (s.serve .walk).1)]) n (s.serve .walk).2 := by
  refine ⟨h.handed_concat_none _, h.cursor, ?_, fun {i} hi => ?_⟩
  · rw [walkEnded_concat, ← h.walked]
    simp [Shared.serve]
  · simp only [Shared.serve, List.getElem?_append, List.getElem?_singleton] at hi
    split at hi
    · exact h.finished hi
    · split at hi <;> cases hi

/-- A step of a walk that is not over, before any walk has been given the end token, gets the next token. -/
theorem serve_step (h : Served text es n s) (hi : s.finished[i]? = some false) (hended : ¬WalkEnded es) :
    s.serve (.step i) = (some ((ofText text).token n), ⟨⟨((ofText text).after (n + 1)).cursor,
      decide (((ofText text).token n).kind = .eof)⟩, s.finished.set i false⟩) := by
  have hwalked : s.supply.walked = false := Bool.eq_false_iff.2 fun hw => hended (h.walked.1 hw)
  simp [Shared.serve, hi, item?, hwalked, h.read]

/-- Once a walk has been given the end token, steps of walks get nothing and change nothing in the supply. -/
theorem serve_step_ended (h : Served text es n s) (hended : WalkEnded es) (i : Nat) :
    (s.serve (.step i)).1 = none ∧ (s.serve (.step i)).2.supply = s.supply := by
  have hwalked := h.walked.2 hended
  simp only [Shared.serve]
  split
  · simp [item?, hwalked]
  · exact ⟨rfl, rfl⟩

theorem step_given (h : Served text es n s) (hi : s.finished[i]? = some false) (hended : ¬WalkEnded es) :
    Served text (es ++ [(.step i, (s.serve (.step i)).1)]) (n + 1) (s.serve (.step i)).2 := by
  rw [h.serve_step hi hended]
  refine ⟨h.handed_concat_some _, rfl, ?_, fun {j} hj => ?_⟩
  · rw [walkEnded_concat, decide_eq_true_iff]
    simp [hended]
  · rw [List.getElem?_set] at hj
    split at hj
    · split at hj <;> cases hj
    · exact absurd (h.walked.1 (h.finished hj)) hended

theorem step (h : Served text es n s) (i : Nat) :
    ∃ m, Served text (es ++ [(.step i, (s.serve (.step i)).1)]) m (s.serve (.step i)).2 := by
  by_cases hended : WalkEnded es
  · obtain ⟨hnone, hsupply⟩ := h.serve_step_ended hended i
    have hwalked := h.walked.2 hended
    rw [hnone]
    refine ⟨n, h.handed_concat_none _, hsupply ▸ h.cursor, ?_, fun _ => hsupply ▸ hwalked⟩
    rw [hsupply, walkEnded_concat]
    exact iff_of_true hwalked (.inl hended)
  by_cases hi : s.finished[i]? = some false
  · exact ⟨n + 1, h.step_given hi hended⟩
  · have hserve : s.serve (.step i) = (none, s) := if_neg hi
    rw [hserve]
    refine ⟨n, h.handed_concat_none _, h.cursor, ?_, h.finished⟩
    rw [walkEnded_concat, h.walked]
    simp

/-- A walk that has begun is not over before a walk has been given the end token. -/
theorem finished_eq_false (h : Served text es n s) (hi : i < s.finished.length) (hended : ¬WalkEnded es) :
    s.finished[i]? = some false := by
  cases hfinished : s.finished[i] with
  | false => rw [List.getElem?_eq_getElem hi, hfinished]
  | true => exact absurd (h.walked.1 (h.finished (by rw [List.getElem?_eq_getElem hi, hfinished]))) hended

/-- **A walk gets nothing exactly if some walk has been given the end token.** -/
theorem step_eq_none_iff (h : Served text es n s) (hi : i < s.finished.length) :
    (s.serve (.step i)).1 = none ↔ WalkEnded es := by
  refine ⟨fun hnone => ?_, fun hended => (h.serve_step_ended hended i).1⟩
  by_contra hended
  rw [h.serve_step (h.finished_eq_false hi hended) hended] at hnone
  cases hnone

/-- **A walk goes on to the end token**, whoever has been given tokens before. -/
theorem events_steps (h : Served text es n s) (hi : i < s.finished.length) (hended : ¬WalkEnded es) {left : List Token}
    (hleft : (Cursor.ofText text).toEnd.1.drop n = left) :
    s.events (List.replicate (left.length + 1) (.step i)) =
      (left ++ [(Cursor.ofText text).toEnd.2.read.1]).map fun t => (.step i, some t) := by
  induction left generalizing n es s with
  | nil =>
    have hlast : (ofText text).token n = (Cursor.ofText text).toEnd.2.read.1 := by
      rw [token_eq, List.getD_eq_getElem?_getD]
      exact congrArg (Option.getD · _) (List.getElem?_eq_none (List.drop_eq_nil_iff.1 hleft))
    rw [List.replicate_succ, Shared.events, h.serve_step (h.finished_eq_false hi hended) hended, hlast]
    rfl
  | cons t left ih =>
    have hfinished := h.finished_eq_false hi hended
    have hat : (Cursor.ofText text).toEnd.1[n]? = some t := by
      rw [← Nat.add_zero n, ← List.getElem?_drop, hleft]
      rfl
    have htoken : (ofText text).token n = t := by
      rw [token_eq, List.getD_eq_getElem?_getD]
      exact congrArg (Option.getD · _) hat
    have hk : t.kind ≠ .eof := Cursor.kind_ne_eof_of_mem_toEnd (List.mem_of_getElem? hat)
    have hgiven := h.step_given hfinished hended
    rw [h.serve_step hfinished hended, htoken] at hgiven
    have hgoesOn : ¬WalkEnded (es ++ [(.step i, some t)]) := by
      rw [walkEnded_concat]
      rintro (hes | ⟨_, _, -, ⟨⟩, heof⟩)
      · exact hended hes
      · exact hk heof
    have hlater := ih hgiven (by rwa [List.length_set]) hgoesOn (by rw [← List.tail_drop, hleft, List.tail_cons])
    rw [List.length_cons, List.replicate_succ, Shared.events, h.serve_step hfinished hended, htoken, hlater]
    rfl

theorem serve (h : Served text es n s) (d : Demand) :
    ∃ m, Served text (es ++ [(d, (s.serve d).1)]) m (s.serve d).2 := by
  cases d with
  | next => exact ⟨_, h.next⟩
  | walk => exact ⟨_, h.walk⟩
  | step i => exact h.step i

/-- **How things stand is kept up by all demands.** -/
theorem after (h : Served text es n s) (ds : List Demand) : ∃ m, Served text (es ++ s.events ds) m (s.after ds) := by
  induction ds generalizing es n s with
  | nil => exact ⟨n, (List.append_nil es).symm ▸ h⟩
  | cons d ds ih =>
    obtain ⟨m, hm⟩ := h.serve d
    have hlater := ih hm
    rwa [List.append_assoc] at hlater

end Served

/-- A walk is one of those that have begun, and it is over or not. -/
theorem length_finished_after (s : Shared) (ds : List Demand) :
    (s.after ds).finished.length = s.finished.length + ds.count .walk := by
  induction ds generalizing s with
  | nil => rfl
  | cons d ds ih =>
    rw [Shared.after, ih]
    cases d with
    | next => simp [Shared.serve]
    | walk => simp [Shared.serve, Nat.add_comm, Nat.add_left_comm]
    | step i =>
      simp only [Shared.serve]
      split <;> simp

end

/-- **Each token is handed out once, however tokens are asked for.** Whatever has been asked of a lexer, by calls and by
any number of walks in any order: the tokens given, in the order of time, are those of the text up to its end token, and
then that end token again and again. A walk that has begun gets nothing any more exactly if some walk has been given the
end token; end tokens that calls have given do not count. Until then it goes on with the tokens that are left and comes to
the end token. -/
theorem handed_out_once (text : String) (demands : List Demand) :
    ∃ tokens final, (Cursor.ofText text).tokens = tokens ++ [final] ∧ final.kind = .eof ∧
      (∀ t ∈ tokens, t.kind ≠ .eof) ∧
      (let es := (Shared.ofText text).events demands
       let s := (Shared.ofText text).after demands
       handed es = (List.range (handed es).length).map (tokens.getD · final) ∧
       (s.serve .next).1 = some (tokens.getD (handed es).length final) ∧
       ∀ i < demands.count .walk, ((s.serve (.step i)).1 = none ↔ WalkEnded es) ∧
         (¬WalkEnded es →
           let left := tokens.drop (handed es).length
           s.events (List.replicate (left.length + 1) (.step i)) = (left ++ [final]).map fun t => (.step i, some t))) := by
  obtain ⟨n, hserved⟩ := (Served.start text).after demands
  rw [List.nil_append] at hserved
  have hlength : (handed ((Shared.ofText text).events demands)).length = n := by
    rw [hserved.handed, List.length_map, List.length_range]
  have htoken (k : Nat) : (ofText text).token k =
      (Cursor.ofText text).toEnd.1.getD k (Cursor.ofText text).toEnd.2.read.1 := token_eq _ k
  refine ⟨_, _, rfl, Cursor.kind_read_toEnd _, fun t => Cursor.kind_ne_eof_of_mem_toEnd, ?_, ?_, fun i hi => ?_⟩
  · rw [hlength, hserved.handed]
    exact List.map_congr_left fun k _ => htoken k
  · rw [hlength, ← htoken, Shared.serve, Supply.next, hserved.read]
  · have hbegun : i < ((Shared.ofText text).after demands).finished.length := by
      rw [length_finished_after]
      exact Nat.lt_of_lt_of_le hi (Nat.le_add_left _ _)
    refine ⟨hserved.step_eq_none_iff hbegun, fun hended => hserved.events_steps hbegun hended ?_⟩
    rw [hlength]

/-- A call takes the first token and a walk the second; a call is given the end token, and so is then another walk. The
first walk gets nothing after that. -/
theorem handed_out_once_two_walks :
    ∃ demands, demands = [.next, .walk, .walk, .step 0, .next] ∧
      ¬WalkEnded ((Shared.ofText "a b").events demands) ∧ 1 < demands.count .walk ∧
      handed ((Shared.ofText "a b").events (demands ++ [.step 1])) =
        [⟨.ident, "a", ⟨1, 1⟩⟩, ⟨.ident, "b", ⟨1, 3⟩⟩, ⟨.eof, "", ⟨1, 4⟩⟩, ⟨.eof, "", ⟨1, 4⟩⟩] ∧
      (((Shared.ofText "a b").after demands).serve (.step 1)).1 ≠ none ∧
      (((Shared.ofText "a b").after (demands ++ [.step 1])).serve (.step 0)).1 = none := by
  have hgoesOn : ¬WalkEnded ((Shared.ofText "a b").events [.next, .walk, .walk, .step 0, .next]) := by
    have hevents : (Shared.ofText "a b").events [.next, .walk, .walk, .step 0, .next] =
        [(.next, some ⟨.ident, "a", ⟨1, 1⟩⟩), (.walk, none), (.walk, none), (.step 0, some ⟨.ident, "b", ⟨1, 3⟩⟩),
          (.next, some ⟨.eof, "", ⟨1, 4⟩⟩)] := by decide
    rintro ⟨i, t, hmem, hk⟩
    rw [hevents] at hmem
    simp only [List.mem_cons, Prod.mk.injEq, reduceCtorEq, Option.some.injEq, List.not_mem_nil, false_and, and_false,
      false_or, or_false] at hmem
    obtain ⟨-, rfl⟩ := hmem
    cases hk
  obtain ⟨_, _, _, _, _, _, _, hwalks⟩ := handed_out_once "a b" [.next, .walk, .walk, .step 0, .next]
  obtain ⟨_, _, _, _, _, _, _, hwalks'⟩ := handed_out_once "a b" [.next, .walk, .walk, .step 0, .next, .step 1]
  refine ⟨_, rfl, hgoesOn, by decide, by decide, fun hnone => hgoesOn ((hwalks 1 (by decide)).1.1 hnone), ?_⟩
  exact (hwalks' 0 (by decide)).1.2 ⟨1, ⟨.eof, "", ⟨1, 4⟩⟩, by decide, rfl⟩

end Monkey.Supply
