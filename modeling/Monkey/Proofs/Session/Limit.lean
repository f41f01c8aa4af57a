import Monkey.Proofs.Eval.Deeper
import Monkey.Proofs.Session.Piecewise

/-!
# Sessions with a higher limit

The limit of a session only tells where evaluation is cut off. What has a value under one limit has it under every
higher one, and the host that is left is the same. What is cut off under one limit has made the bindings that come first
under a higher one, each in the same scope with the same value (`Session.eval_with_limit`).
-/

namespace Monkey

namespace Heap

variable {h h₁ h₂ : Heap}

/-- The bindings that one heap has recorded and an earlier one has not, in the order in which they were made. -/
def madeSince (h h₁ : Heap) : List Binding :=
  (h₁.journal.take (h₁.journal.length - h.journal.length)).reverse

theorem madeSince_eq {new : List Binding} (hnew : new ++ h.journal = h₁.journal) : h.madeSince h₁ = new.reverse := by
  have hlength : (new ++ h.journal).length - h.journal.length = new.length := by simp
  rw [madeSince, ← hnew, hlength, List.take_left]

/-- What has been recorded first was made first. -/
theorem madeSince_prefix (hfirst : h.journal <:+ h₁.journal) (hlater : h₁.journal <:+ h₂.journal) :
    h.madeSince h₁ <+: h.madeSince h₂ := by
  obtain ⟨new, hnew⟩ := hfirst
  obtain ⟨more, hmore⟩ := hlater
  have hboth : (more ++ new) ++ h.journal = h₂.journal := by rw [List.append_assoc, hnew, hmore]
  rw [madeSince_eq hnew, madeSince_eq hboth, List.reverse_append]
  exact List.prefix_append _ _

end Heap

namespace Session

variable {s : Session} {st : Stack}

/-- The bindings that a session makes for a program, in order, until the evaluation ends or is cut off. -/
def made (s : Session) (st : Stack) (program : Node) (host : Host) : List Binding :=
  host.heap.madeSince (seen showsValue (s.eval st program host)).2.heap

/-- A session that is cut off makes no more bindings. -/
theorem journal_eval (hpos : 0 < s.limit) (hle : s.limit ≤ maxDepth) (program : Node) (host : Host) :
    (seen showsValue (s.eval st program host)).2.heap.journal =
      ((Monkey.eval (s.depth st) program s.scope).after host.heap).journal := by
  by_cases hbelow : s.limit ≤ st.below
  · have hdepth : s.depth st = 0 := Int.toNat_eq_zero.2 (by omega)
    rw [eval_of_le_below hpos hle hbelow, hdepth, Monkey.eval]
    rfl
  · rw [eval_of_limit (by omega) hle]
    unfold Eval.after
    cases Monkey.eval (s.depth st) program s.scope host.heap with
    | ok v h => rfl
    | error why h =>
      rcases ended_error_cases s.limit st why with ⟨-, hfails⟩ | ⟨-, hends⟩
      · rw [hfails s rfl]
        rfl
      · obtain ⟨log, hended⟩ := hends s rfl host h
        rw [hended]
        rfl

/-- The limit does not matter for how a session takes an evaluation that does not nest too deep. -/
theorem ended_eq_of_ne {r : EStateM.Result Halt Heap Value} (hne : ∀ h, r ≠ .error .tooDeep h) (limit : Int)
    (host : Host) : ended { s with limit } st host r = s.ended st host r := by
  rcases r with _ | ⟨_ | _ | _, h⟩
  · rfl
  · rfl
  · rfl
  · exact absurd rfl (hne h)

/-- **A higher limit changes no finished answer.** Where a session does not hit the guard, it does not do so under a
higher limit either; it ends in the same way and leaves the same host. Whether it hits the guard or not, the bindings
that it makes, with their scopes, names and values, are those that it makes first under the higher limit. This is so
whatever is in use on the stack below it, be it nothing. -/
theorem eval_with_limit (s : Session) (st : Stack) (limit : Int) (hpos : 1 ≤ s.limit) (hle : s.limit ≤ limit)
    (hmax : limit ≤ maxDepth) (program : Node) (host : Host) :
    (¬s.HitsGuard st program host →
      ¬HitsGuard { s with limit } st program host ∧ eval { s with limit } st program host = s.eval st program host) ∧
      s.made st program host <+: made { s with limit } st program host := by
  have hlow : 0 < s.limit ∧ s.limit ≤ maxDepth := ⟨hpos, Int.le_trans hle hmax⟩
  have hhigh : 0 < limit ∧ limit ≤ maxDepth := ⟨Int.lt_of_lt_of_le hlow.1 hle, hmax⟩
  have hdepth : s.depth st ≤ depth { s with limit } st := Int.toNat_le_toNat (Int.sub_le_sub_right hle _)
  have hcontinues := (Eval.Deepening.all hdepth).eval program s.scope
  constructor
  · intro hguard
    have hne : ∀ h, Monkey.eval (s.depth st) program s.scope host.heap ≠ .error .tooDeep h :=
      fun h hcut => hguard ⟨hlow.1, hlow.2, h, hcut⟩
    have heq := hcontinues.eq_of_ne hne
    have hbelow : st.below < s.limit :=
      Int.not_le.1 fun hreached => hguard (hitsGuard_of_le_below hlow.1 hlow.2 hreached program host)
    constructor
    · rintro ⟨-, -, h, hcut⟩
      exact hne h (heq.trans hcut)
    · rw [eval_of_limit (s := { s with limit }) (Int.lt_of_lt_of_le hbelow hle) hhigh.2, eval_of_limit hbelow hlow.2]
      exact (congrArg (ended { s with limit } st host) heq.symm).trans (ended_eq_of_ne hne limit host)
  · have hstart := ((Eval.Frames.all (s.depth st)).eval program s.scope host.heap).journal_suffix
    have hlater : ((Monkey.eval (s.depth st) program s.scope).after host.heap).journal <:+
        ((Monkey.eval (depth { s with limit } st) program s.scope).after host.heap).journal := by
      rcases (hcontinues host.heap).2 with heq | ⟨h, hcut, hsuffix⟩
      · rw [Eval.after, heq]
        exact List.suffix_refl _
      · rw [Eval.after, hcut]
        exact hsuffix
    rw [← journal_eval hlow.1 hlow.2] at hstart hlater
    rw [← journal_eval (s := { s with limit }) hhigh.1 hhigh.2] at hlater
    exact Heap.madeSince_prefix hstart hlater

/-- A function that calls itself four times: it is cut off under a limit of 20, where one call is missing, and comes to
its end under a limit of 40, and so under the limit that sessions have if nothing else is said. -/
theorem eval_with_limit_recursion :
    ∃ (s : Session) (st : Stack) (host : Host) (p : Parse), s.limit = 20 ∧ st.below = 0 ∧
      Monkey.parse "let f = fn(n) \x7b if (n < 1) \x7b return n; \x7d f(n - 1) \x7d; f(3)" = .ok p ∧
      s.HitsGuard st p.program host ∧ ¬HitsGuard { s with limit := 40 } st p.program host ∧
      (s.made st p.program host).map Binding.name = ["f", "n", "n", "n"] ∧
      (made { s with limit := 40 } st p.program host).map Binding.name = ["f", "n", "n", "n", "n"] ∧
      s.made st p.program host <+: made { s with limit := 40 } st p.program host ∧
      ¬HitsGuard { s with limit := defaultDepth } st p.program host ∧
      eval { s with limit := defaultDepth } st p.program host = eval { s with limit := 40 } st p.program host := by
  let s : Session := ⟨0, none, 20⟩
  let st : Stack := ⟨0, 0⟩
  let host : Host := (Session.new none 20 .empty).2
  have hruns : (Monkey.parse "let f = fn(n) \x7b if (n < 1) \x7b return n; \x7d f(n - 1) \x7d; f(3)").toOption.map
      (fun p => (decide (s.HitsGuard st p.program host), decide (HitsGuard { s with limit := 40 } st p.program host),
        (s.made st p.program host).map Binding.name,
        (made { s with limit := 40 } st p.program host).map Binding.name)) =
      some (true, false, ["f", "n", "n", "n"], ["f", "n", "n", "n", "n"]) := by
    decide +kernel
  obtain ⟨p, hp, hp'⟩ := exists_of_map_parse hruns
  obtain ⟨hcut, hp'⟩ := Prod.mk.inj hp'
  obtain ⟨hends, hp'⟩ := Prod.mk.inj hp'
  obtain ⟨hfour, hfive⟩ := Prod.mk.inj hp'
  have hends : ¬HitsGuard { s with limit := 40 } st p.program host := of_decide_eq_false hends
  have hraised := (eval_with_limit { s with limit := 40 } st defaultDepth (by decide) (by decide) (by decide)
    p.program host).1 hends
  have hprefix := (eval_with_limit s st 40 (by decide) (by decide) (by decide) p.program host).2
  exact ⟨s, st, host, p, rfl, rfl, hp, of_decide_eq_true hcut, hends, hfour, hfive, hprefix, hraised⟩

end Session

end Monkey
