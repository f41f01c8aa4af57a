import Monkey.Proofs.Parse.Greedy
import Monkey.Proofs.Session.Accepted
import Monkey.Proofs.Session.Chunks

/-!
# What a dialogue does with its input

A dialogue goes through its input line by line and holds back what ends too early. All that it comes to is that the
chunks of the input are executed one after another (`Dialogue.ofText_eq_replay`), each of them once.

* `Dialogue.take` either ends the dialogue, holds back one line more, or executes what was held back with the line, and
  then nothing is held back any more.
* The induction is over the lines that are still to be read, with any lines held back before them
  (`Dialogue.Replays.all`). The log tells what is held back when, and the two differ in nothing but the log.
-/

namespace Monkey.Dialogue

variable {s : Session} {st : Stack} {line text : String} {lines held pending : List String} {interrupted : Bool}
  {host host' : Host}

/-! ## One line -/

theorem endsEarly_iff : endsEarly text ↔
    ∃ p, parse text = .ok p ∧ p.diagnostics ≠ [] ∧ Malformed.isIncomplete ⟨p.messages, none⟩ := by
  unfold endsEarly
  cases parse text with
  | error why => simp
  | ok p => simp [Malformed.isIncomplete, Parse.messages]

/-- What is wrong with a text is shown in words. -/
theorem isEmpty_listing {p : Parse} (hne : p.diagnostics ≠ []) (file : Option String) :
    (Malformed.listing ⟨p.messages, file⟩).isEmpty = false := by
  obtain ⟨d, ds, hds⟩ := List.exists_cons_of_ne_nil hne
  have hbegins : ∃ more, Malformed.listing ⟨p.messages, file⟩ = "\t" ++ more := by
    rw [Malformed.listing, Parse.messages, hds]
    cases ds with
    | nil => exact ⟨_, String.intercalate_singleton⟩
    | cons d' ds =>
      rw [List.map_cons, List.map_cons, List.map_cons, List.map_cons, String.intercalate_cons_cons,
        String.append_assoc, String.append_assoc]
      exact ⟨_, rfl⟩
  obtain ⟨more, hmore⟩ := hbegins
  rw [hmore, String.isEmpty_eq_false_iff, Ne, String.append_eq_empty_iff]
  exact fun hempty => absurd hempty.1 (by decide)

theorem take_of_farewell (hline : isFarewell line) : take ⟨s, []⟩ st line host = .ok none host := by
  unfold take
  rw [hline]
  rfl

/-- A line with which the text still ends too early is held back. -/
theorem take_of_endsEarly (s : Session) (st : Stack) (host : Host) (hstays : (pending.isEmpty && isFarewell line) = false)
    (hearly : endsEarly ("\n".intercalate (pending ++ [line]))) :
    ∃ log, take ⟨s, pending⟩ st line host = .ok (some ("", ⟨s, pending ++ [line]⟩)) { host with log } := by
  obtain ⟨p, hp, hne, hincomplete⟩ := endsEarly_iff.1 hearly
  obtain ⟨log, hparse⟩ := s.parse_of_diagnostics hp hne host
  have hincomplete : Malformed.isIncomplete ⟨p.messages, s.file⟩ := hincomplete
  unfold take
  rw [if_neg (Bool.eq_false_iff.1 hstays), Hosted.bind_of_ok (Hosted.attempt_of_error hparse)]
  dsimp only
  rw [if_pos hincomplete]
  exact ⟨_, rfl⟩

/-- Otherwise the text is executed, and nothing is held back any more. -/
theorem take_of_not_endsEarly (s : Session) (st : Stack) (host : Host) (hstays : (pending.isEmpty && isFarewell line) = false)
    (hcomplete : endsEarly ("\n".intercalate (pending ++ [line])) = false) :
    take ⟨s, pending⟩ st line host =
      match s.execute st ("\n".intercalate (pending ++ [line])) host with
      | .ok shown host₁ => .ok (some (onLine shown, ⟨s, []⟩)) host₁
      | .error why host₁ => .error why host₁ := by
  unfold take
  rw [if_neg (Bool.eq_false_iff.1 hstays)]
  dsimp only
  generalize "\n".intercalate (pending ++ [line]) = text at hcomplete
  cases hp : parse text with
  | error why =>
    have hparse : s.parse text host = .error (.refused why) host := by
      unfold Session.parse
      rw [hp]
      rfl
    rw [Hosted.bind_of_ok (Hosted.attempt_of_error hparse), Session.execute_of_parse_error hparse nofun]
    rfl
  | ok p =>
    by_cases hclean : p.diagnostics = []
    · have hparse := Session.parse_of_clean hp hclean s host
      rw [Hosted.bind_of_ok (Hosted.attempt_of_ok hparse), Session.execute_of_parse_ok hparse]
      dsimp only
      cases hrender : s.render st p.program host with
      | ok shown host₁ =>
        rw [Hosted.bind_of_ok hrender]
        rfl
      | error why host₁ => rw [Hosted.bind_of_error hrender]
    · obtain ⟨log, hparse⟩ := s.parse_of_diagnostics hp hclean host
      have hother : Malformed.isIncomplete ⟨p.messages, s.file⟩ = false := by
        rw [endsEarly, hp] at hcomplete
        exact hcomplete
      rw [Hosted.bind_of_ok (Hosted.attempt_of_error hparse), Session.execute_of_malformed hparse]
      dsimp only
      rw [hother, onLine, isEmpty_listing hclean]
      rfl

/-! ## One line after another -/

theorem Transcript.after_after (a b : String) (t : Transcript) : (t.after b).after a = t.after (a ++ b) := by
  rw [after, after, after, String.append_assoc]

theorem Transcript.after_empty (t : Transcript) : t.after "" = t := by
  rw [after, String.empty_append]

/-- The prompt before a line tells whether lines are held back. -/
theorem prompts_succ (s : Session) (held : List String) :
    prompts (held.length + 1) = prompts held.length ++ prompt ⟨s, held.map stripNewline⟩ := by
  cases held <;> rfl

theorem textOf_append_line (held : List String) (line : String) :
    textOf (held ++ [line]) = "\n".intercalate (held.map stripNewline ++ [stripNewline line]) := by
  rw [textOf, List.map_append, List.map_singleton]

/-- Only where nothing is held back a farewell is heard. -/
theorem isFarewell_eq (held : List String) (line : String) (hheld : saysFarewell held = false) :
    ((held.map stripNewline).isEmpty && isFarewell (stripNewline line)) = saysFarewell (held ++ [line]) := by
  cases held with
  | nil => rfl
  | cons first held => exact hheld.symm

/-- A farewell, where nothing is held back. -/
theorem hold_farewell (s : Session) (st : Stack) (interrupted : Bool) (hfarewell : saysFarewell (line :: lines))
    (hhosts : host.heap = host'.heap) :
    let r := hold ⟨s, []⟩ st interrupted (line :: lines) host
    let r' := conclude s st interrupted (line :: lines) host'
    r.1.after (prompts 0) = r'.1 ∧ r.2.heap = r'.2.heap := by
  have hline : isFarewell (stripNewline line) := (saysFarewell_cons line lines).symm.trans hfarewell
  dsimp only
  rw [hold, take_of_farewell hline, conclude, if_pos hfarewell]
  exact ⟨rfl, hhosts⟩

/-- A line more that is held back. -/
theorem hold_of_endsEarly (s : Session) (st : Stack) (interrupted : Bool) (lines : List String) (host : Host)
    (hheld : saysFarewell held = false) (hstays : saysFarewell (held ++ [line]) = false)
    (hearly : endsEarly (textOf (held ++ [line]))) :
    ∃ log, hold ⟨s, held.map stripNewline⟩ st interrupted (line :: lines) host =
      let r := hold ⟨s, (held ++ [line]).map stripNewline⟩ st interrupted lines { host with log }
      (r.1.after (prompt ⟨s, held.map stripNewline⟩), r.2) := by
  rw [← isFarewell_eq held line hheld] at hstays
  rw [textOf_append_line] at hearly
  obtain ⟨log, htake⟩ := take_of_endsEarly s st host hstays hearly
  refine ⟨log, ?_⟩
  rw [hold, htake, List.map_append, List.map_singleton]
  dsimp only
  rw [String.append_empty]

/-- A line more with which all that was held back is executed. -/
theorem hold_of_not_endsEarly (s : Session) (st : Stack) (interrupted : Bool) (lines : List String) (host : Host)
    (hheld : saysFarewell held = false) (hstays : saysFarewell (held ++ [line]) = false)
    (hcomplete : endsEarly (textOf (held ++ [line])) = false) :
    hold ⟨s, held.map stripNewline⟩ st interrupted (line :: lines) host =
      match s.execute st (textOf (held ++ [line])) host with
      | .ok shown host₁ =>
        let r := hold ⟨s, []⟩ st interrupted lines host₁
        (r.1.after (prompt ⟨s, held.map stripNewline⟩ ++ onLine shown), r.2)
      | .error why host₁ => (⟨prompt ⟨s, held.map stripNewline⟩, lines, .failed why⟩, host₁) := by
  rw [← isFarewell_eq held line hheld] at hstays
  rw [textOf_append_line] at hcomplete ⊢
  rw [hold, take_of_not_endsEarly s st host hstays hcomplete]
  cases s.execute st ("\n".intercalate (held.map stripNewline ++ [stripNewline line])) host <;> rfl

/-- At the end of input what is held back is executed. -/
theorem finish_of_ne_nil (hne : pending ≠ []) :
    finish ⟨s, pending⟩ st host =
      match s.execute (st.deeper 1) ("\n".intercalate pending) host with
      | .ok shown host₁ => .ok (onLine shown) host₁
      | .error why host₁ => .error why host₁ := by
  unfold finish
  rw [if_neg (by simpa using hne)]
  cases hexecute : s.execute (st.deeper 1) ("\n".intercalate pending) host with
  | ok shown host₁ =>
    rw [Hosted.bind_of_ok hexecute]
    rfl
  | error why host₁ => rw [Hosted.bind_of_error hexecute]

/-- The end of input, where some lines are held back. -/
theorem hold_nil (hheld : IsHeld held) (hhosts : host.heap = host'.heap) :
    let r := hold ⟨s, held.map stripNewline⟩ st interrupted [] host
    let r' := conclude s st interrupted held host'
    r.1.after (prompts held.length) = r'.1 ∧ r.2.heap = r'.2.heap := by
  dsimp only
  rw [conclude, hheld.stays, if_neg Bool.false_ne_true, prompts_succ s, hold]
  cases interrupted with
  | true => exact ⟨rfl, hhosts⟩
  | false =>
    rw [if_neg Bool.false_ne_true, if_neg Bool.false_ne_true]
    by_cases hnil : held = []
    · subst hnil
      exact ⟨rfl, hhosts⟩
    · rw [if_neg hnil, finish_of_ne_nil (by simpa using hnil)]
      have halike := s.ignoresLog_execute (st.deeper 1) (textOf held) hhosts
      unfold textOf at halike ⊢
      generalize s.execute (st.deeper 1) ("\n".intercalate (held.map stripNewline)) host = r at halike
      generalize s.execute (st.deeper 1) ("\n".intercalate (held.map stripNewline)) host' = r' at halike
      cases halike with
      | ok hhosts₁ | error hhosts₁ =>
        refine ⟨?_, hhosts₁⟩
        simp only [Transcript.after, String.append_assoc]

/-- With some lines held back, what a dialogue does with the lines still to be read is what comes of executing the chunks
of all these lines. -/
def Replays (s : Session) (st : Stack) (interrupted : Bool) (held lines : List String) : Prop :=
  ∀ ⦃host host' : Host⦄, host.heap = host'.heap → ∃ chunks rest, Division (held ++ lines) chunks rest ∧
    let r := hold ⟨s, held.map stripNewline⟩ st interrupted lines host
    let r' := replay s st interrupted chunks rest host'
    r.1.after (prompts held.length) = r'.1 ∧ r.2.heap = r'.2.heap

namespace Replays

/-- At the end of input. -/
theorem nil (hheld : IsHeld held) : Replays s st interrupted held [] := by
  intro host host' hhosts
  exact ⟨[], held, ⟨(List.append_nil _).symm, List.forall_mem_nil _, Or.inr hheld⟩, hold_nil hheld hhosts⟩

/-- Before a farewell. -/
theorem farewell (hheld : IsHeld held) (hfarewell : saysFarewell (held ++ [line])) :
    Replays s st interrupted held (line :: lines) := by
  intro host host' hhosts
  obtain rfl := hheld.eq_nil_of_saysFarewell hfarewell
  have hrest : saysFarewell (line :: lines) :=
    (saysFarewell_cons line lines).trans ((saysFarewell_cons line []).symm.trans hfarewell)
  refine ⟨[], line :: lines, ⟨rfl, List.forall_mem_nil _, Or.inl hrest⟩, ?_⟩
  rw [List.map_nil, List.length_nil, replay]
  exact hold_farewell s st interrupted hrest hhosts

/-- Before a line that is held back as well. -/
theorem held_line (hheld : IsHeld held) (hstays : saysFarewell (held ++ [line]) = false)
    (hearly : endsEarly (textOf (held ++ [line]))) (hlines : Replays s st interrupted (held ++ [line]) lines) :
    Replays s st interrupted held (line :: lines) := by
  intro host host' hhosts
  obtain ⟨log, hhold⟩ := hold_of_endsEarly s st interrupted lines host hheld.stays hstays hearly
  have hhosts' : Host.heap { host with log } = host'.heap := hhosts
  obtain ⟨chunks, rest, hdivision, hwritten, hheap⟩ := hlines hhosts'
  have hlength : (held ++ [line]).length = held.length + 1 := List.length_append
  rw [List.append_cons]
  refine ⟨chunks, rest, hdivision, ?_⟩
  rw [hhold]
  refine ⟨?_, hheap⟩
  dsimp only
  rw [← hwritten, hlength, prompts_succ s, Transcript.after_after]

/-- Before a line that completes a chunk. -/
theorem last_line (hheld : IsHeld held) (hstays : saysFarewell (held ++ [line]) = false)
    (hcomplete : endsEarly (textOf (held ++ [line])) = false) (hlines : Replays s st interrupted [] lines) :
    Replays s st interrupted held (line :: lines) := by
  intro host host' hhosts
  have hchunk := hheld.isChunk_append_line hstays hcomplete
  have halike := s.ignoresLog_execute st (textOf (held ++ [line])) hhosts
  have hlength : (held ++ [line]).length = held.length + 1 := List.length_append
  rw [List.append_cons, hold_of_not_endsEarly s st interrupted lines host hheld.stays hstays hcomplete]
  generalize s.execute st (textOf (held ++ [line])) host = r at halike
  generalize hr' : s.execute st (textOf (held ++ [line])) host' = r' at halike
  cases halike with
  | ok hhosts₁ =>
    obtain ⟨chunks, rest, hdivision, hwritten, hheap⟩ := hlines hhosts₁
    refine ⟨(held ++ [line]) :: chunks, rest, hdivision.cons hchunk, ?_⟩
    rw [replay, hr']
    refine ⟨?_, hheap⟩
    dsimp only
    rw [← hwritten, hlength, prompts_succ s, List.length_nil, prompts, List.map_nil, Transcript.after_after,
      Transcript.after_after, String.append_empty, String.append_assoc]
  | error hhosts₁ =>
    -- what is left unread falls into chunks as well, though none of them is executed
    obtain ⟨chunks, rest, hdivision, -⟩ := hlines (Eq.refl host.heap)
    refine ⟨(held ++ [line]) :: chunks, rest, hdivision.cons hchunk, ?_⟩
    rw [replay, hr']
    refine ⟨?_, hhosts₁⟩
    dsimp only
    rw [hdivision.lossless, hlength, prompts_succ s]
    rfl

/-- **What a dialogue does with the lines that are still to be read**, if it holds some lines back. -/
theorem all (hheld : IsHeld held) : Replays s st interrupted held lines := by
  induction lines generalizing held with
  | nil => exact .nil hheld
  | cons line lines ih =>
    cases hstays : saysFarewell (held ++ [line]) with
    | true => exact .farewell hheld hstays
    | false =>
      cases hearly : endsEarly (textOf (held ++ [line])) with
      | true => exact .held_line hheld hstays hearly (ih (hheld.append_line hstays hearly))
      | false => exact .last_line hheld hstays hearly (ih .nil)

end Replays

/-! ## A whole input -/

/-- Lines that are held back are those of a text that is read. -/
theorem parse_ok_of_endsEarly (hearly : endsEarly text) : ∃ p, parse text = .ok p :=
  let ⟨p, hp, _⟩ := endsEarly_iff.1 hearly
  ⟨p, hp⟩

/-- Where only whole values can be reached, no text that is read fails to be answered if there is room. -/
theorem conclude_ne_failed (hroom : (st.deeper 1).HasRoom s.limit) (hle : s.limit ≤ maxDepth)
    (hhost : host.heap.WholeFrom s.scope) {rest : List String} (hrest : saysFarewell rest ∨ IsHeld rest)
    (why : Failure) : (conclude s st interrupted rest host).1.ending ≠ .failed why := by
  unfold conclude
  split
  · exact nofun
  · next hstays =>
    split
    · exact nofun
    · split
      · exact nofun
      · next hne =>
        have hheld : IsHeld rest := hrest.resolve_left hstays
        obtain ⟨p, hp⟩ := parse_ok_of_endsEarly (hheld.early rest List.prefix_rfl hne)
        obtain ⟨shown, host₁, hexecute, -⟩ := Session.execute_of_wholeFrom hroom hle hhost hp
        rw [hexecute]
        exact nofun

theorem replay_ne_failed (hroom : (st.deeper 1).HasRoom s.limit) (hle : s.limit ≤ maxDepth)
    (hhost : host.heap.WholeFrom s.scope) {chunks : List (List String)} {rest : List String}
    (hchunks : ∀ c ∈ chunks, ∃ p, parse (textOf c) = .ok p) (hrest : saysFarewell rest ∨ IsHeld rest)
    (why : Failure) : (replay s st interrupted chunks rest host).1.ending ≠ .failed why := by
  induction chunks generalizing host with
  | nil =>
    rw [replay]
    exact conclude_ne_failed hroom hle hhost hrest why
  | cons c chunks ih =>
    obtain ⟨⟨p, hp⟩, hchunks⟩ := List.forall_mem_cons.1 hchunks
    obtain ⟨shown, host₁, hexecute, hhost₁⟩ := Session.execute_of_wholeFrom hroom.of_deeper hle hhost hp
    rw [replay, hexecute]
    exact ih hhost₁ hchunks

/-- **A dialogue executes its input chunk by chunk.** The lines of an input fall into chunks in one way, and what a
dialogue writes, what it leaves unread, how it ends and the heap that it leaves are what comes of executing the chunks
one after another. From where only whole values can be reached, a dialogue does not end for a failure if the limit of the
session leaves room on the stack, also for what is executed at the end of input. -/
theorem ofText_eq_replay (st : Stack) (interrupted : Bool) (host : Host)
    (hdigits : ∀ ds, ds <:+: text.toList → (∀ c ∈ ds, isDigit c) → ds.length ≤ maxDigits)
    (hle : s.limit ≤ 2 ^ 31 - 1) :
    ∃ chunks rest, Division (inputLines text) chunks rest ∧
      (∀ chunks' rest', Division (inputLines text) chunks' rest' → chunks' = chunks ∧ rest' = rest) ∧
      (ofText s st text interrupted host).1 = (replay s st interrupted chunks rest host).1 ∧
      (ofText s st text interrupted host).2.heap = (replay s st interrupted chunks rest host).2.heap ∧
      ((st.deeper 1).HasRoom s.limit → host.heap.WholeFrom s.scope →
        ∀ why, (ofText s st text interrupted host).1.ending ≠ .failed why) := by
  obtain ⟨chunks, rest, hdivision, hwritten, hheap⟩ := Replays.all .nil (Eq.refl host.heap)
  rw [List.length_nil, prompts, Transcript.after_empty] at hwritten
  change (ofText s st text interrupted host).1 = _ at hwritten
  refine ⟨chunks, rest, hdivision, fun _ _ hdivision' => hdivision'.unique hdivision, hwritten, hheap, ?_⟩
  have hchunks : ∀ c ∈ chunks, ∃ p, parse (textOf c) = .ok p := by
    intro c hc
    have hinfix := textOf_isInfix (hdivision.infix_of_mem hc)
    exact (shortNumerals_lexemesOf fun ds hds => hdigits ds (hds.trans hinfix)).parse_ok
  intro hroom hhost why
  rw [hwritten]
  exact replay_ne_failed hroom hle hhost hchunks hdivision.rest why

/-- A function on two lines, a call of it, a mistake, and a farewell before another call. -/
theorem ofText_eq_replay_farewell :
    ∃ (s : Session) (st : Stack) (host : Host), host.heap.WholeFrom s.scope ∧ s.limit ≤ 2 ^ 31 - 1 ∧
      (st.deeper 1).HasRoom s.limit ∧
      let text := "let f = fn(x) \x7b\nx + 1 \x7d\nf(1)\n)\n exit \nf(2)\n"
      (∀ ds, ds <:+: text.toList → (∀ c ∈ ds, isDigit c) → ds.length ≤ maxDigits) ∧
        Division (inputLines text) [["let f = fn(x) \x7b\n", "x + 1 \x7d\n"], ["f(1)\n"], [")\n"]]
          [" exit \n", "f(2)\n"] ∧
        (ofText s st text false host).1.written =
          ">> .. >> 2\n>> \tno prefix parse function for ) found\n>> " ∧
        (ofText s st text false host).1.unread = ["f(2)\n"] ∧
        ∃ chunks rest, Division (inputLines text) chunks rest ∧
          (∀ chunks' rest', Division (inputLines text) chunks' rest' → chunks' = chunks ∧ rest' = rest) ∧
          (ofText s st text false host).1 = (replay s st false chunks rest host).1 ∧
          (ofText s st text false host).2.heap = (replay s st false chunks rest host).2.heap ∧
          ((st.deeper 1).HasRoom s.limit → host.heap.WholeFrom s.scope →
            ∀ why, (ofText s st text false host).1.ending ≠ .failed why) := by
  let s := (Session.new none 50 .empty).1
  let st : Stack := ⟨4, 14⟩
  let host := (Session.new none 50 .empty).2
  have hhost : host.heap.WholeFrom s.scope := .of_empty rfl
  have hdigits : ∀ ds, ds <:+: "let f = fn(x) \x7b\nx + 1 \x7d\nf(1)\n)\n exit \nf(2)\n".toList →
      (∀ c ∈ ds, isDigit c) → ds.length ≤ maxDigits :=
    fun ds hds _ => Nat.le_trans hds.length_le (by decide +kernel)
  exact ⟨s, st, host, hhost, by decide, by decide, hdigits, by decide +kernel, by decide +kernel, by decide +kernel,
    ofText_eq_replay st false host hdigits (by decide)⟩

/-- **Under the limit 1 a dialogue fails at its first chunk**, wherever it is held, since a frame at least is in use
there. The chunk behind it is left unread, though there is no farewell. -/
theorem not_ofText_reads_on :
    ∃ (s : Session) (host : Host), s.limit = 1 ∧ s.IsFresh host ∧
      let line := "let f = fn() \x7b f() \x7d; f()\n"
      Division (inputLines (line ++ line)) [[line], [line]] [] ∧
        ∀ st : Stack, 1 ≤ st.below →
          (ofText s st (line ++ line) false host).1 = ⟨">> ", [line], .failed (.limitReached 1 st.below)⟩ := by
  let s := (Session.new none 1 .empty).1
  let host := (Session.new none 1 .empty).2
  refine ⟨s, host, rfl, rfl, ?_⟩
  intro line
  have hlines : inputLines (line ++ line) = [line, line] := by decide +kernel
  have haccepted : isAccepted (textOf ([] ++ [line])) := by decide +kernel
  refine ⟨by decide +kernel, fun st hst => ?_⟩
  obtain ⟨p, hp, hclean⟩ := exists_of_isAccepted haccepted
  have heval : s.eval st p.program host = .error (.limitReached 1 st.below) host :=
    Session.eval_of_le_below (by decide) (by decide) (Int.ofNat_le.2 hst) p.program host
  have hexecute : s.execute st (textOf ([] ++ [line])) host = .error (.limitReached 1 st.below) host :=
    (Session.execute_of_parse_ok (Session.parse_of_clean hp hclean s host)).trans (Session.render_of_error heval)
  have hheld : saysFarewell [] = false := rfl
  have hstays : saysFarewell ([] ++ [line]) = false := by decide +kernel
  have hcomplete : endsEarly (textOf ([] ++ [line])) = false := by decide +kernel
  have hhold := hold_of_not_endsEarly s st false [line] host hheld hstays hcomplete
  rw [hexecute] at hhold
  rw [ofText, hlines]
  exact congrArg Prod.fst hhold

end Monkey.Dialogue
