import Mathlib.Data.List.Infix
import Monkey.Session.Dialogue

/-!
# Lines in chunks

The lines of an input fall into chunks, each as few lines as make a text that does not end too early, with what is left
behind the last chunk: lines that begin with a farewell, which ends a dialogue, or lines that are still held back
(`Dialogue.Division`). There is one way at most to divide lines so (`Dialogue.Division.unique`).

`Dialogue.replay` executes the texts of the chunks one after another. Nothing in it tells what is held back when.
-/

namespace Monkey.Dialogue

/-! ## Chunks -/

/-- The text of some lines of input: the lines without what ends them, joined by newlines. -/
def textOf (lines : List String) : String :=
  "\n".intercalate (lines.map stripNewline)

/-- All that is wrong with a text is that it ends too early. -/
def endsEarly (text : String) : Bool :=
  match parse text with
  | .ok p => Malformed.isIncomplete ⟨p.messages, none⟩
  | .error _ => false

/-- The first of some lines ends a dialogue. -/
def saysFarewell (lines : List String) : Bool :=
  lines.head?.any fun line => isFarewell (stripNewline line)

/-- Lines that are held back: wherever they are broken off, their text ends too early. -/
structure IsHeld (lines : List String) : Prop where
  stays : saysFarewell lines = false
  early : ∀ ls, ls <+: lines → ls ≠ [] → endsEarly (textOf ls)

/-- Lines that are executed: the fewest from the first one on whose text does not end too early. -/
structure IsChunk (lines : List String) : Prop where
  ne_nil : lines ≠ []
  stays : saysFarewell lines = false
  early : ∀ ls, ls <+: lines → ls ≠ [] → ls ≠ lines → endsEarly (textOf ls)
  complete : endsEarly (textOf lines) = false

/-- Lines fall into chunks, and the rest is ended by a farewell or by the end of input. -/
structure Division (lines : List String) (chunks : List (List String)) (rest : List String) : Prop where
  lossless : chunks.flatten ++ rest = lines
  chunks : ∀ c ∈ chunks, IsChunk c
  rest : saysFarewell rest ∨ IsHeld rest

variable {lines c c' rest rest' : List String} {chunks chunks' : List (List String)}

theorem saysFarewell_cons (line : String) (lines : List String) :
    saysFarewell (line :: lines) = isFarewell (stripNewline line) := by
  rw [saysFarewell, List.head?_cons, Option.any_some]

/-- Whether a dialogue ends is seen from its first line. -/
theorem saysFarewell_of_isPrefix (hc : c ≠ []) (hpre : c <+: lines) : saysFarewell lines = saysFarewell c := by
  obtain ⟨more, rfl⟩ := hpre
  obtain ⟨line, c, rfl⟩ := List.exists_cons_of_ne_nil hc
  rw [List.cons_append, saysFarewell_cons, saysFarewell_cons]

theorem IsHeld.nil : IsHeld [] :=
  ⟨rfl, fun _ hpre hne => absurd (List.prefix_nil.1 hpre) hne⟩

/-- One line more, and the lines are still held back. -/
theorem IsHeld.append_line {line : String} (h : IsHeld lines) (hstays : saysFarewell (lines ++ [line]) = false)
    (hearly : endsEarly (textOf (lines ++ [line]))) : IsHeld (lines ++ [line]) where
  stays := hstays
  early ls hpre hne := by
    rcases List.prefix_concat_iff.1 hpre with rfl | hpre
    · exact hearly
    · exact h.early ls hpre hne

/-- A farewell is heard only where nothing is held back. -/
theorem IsHeld.eq_nil_of_saysFarewell {line : String} (h : IsHeld lines) (hfarewell : saysFarewell (lines ++ [line])) :
    lines = [] := by
  by_contra hne
  rw [saysFarewell_of_isPrefix hne (List.prefix_append lines [line]), h.stays] at hfarewell
  exact Bool.false_ne_true hfarewell

/-- One line more, and the lines are executed. -/
theorem IsHeld.isChunk_append_line {line : String} (h : IsHeld lines)
    (hstays : saysFarewell (lines ++ [line]) = false) (hcomplete : endsEarly (textOf (lines ++ [line])) = false) :
    IsChunk (lines ++ [line]) where
  ne_nil := List.append_ne_nil_of_right_ne_nil _ (List.cons_ne_nil _ _)
  stays := hstays
  early ls hpre hne hne' := by
    rcases List.prefix_concat_iff.1 hpre with heq | hpre
    · exact absurd heq hne'
    · exact h.early ls hpre hne
  complete := hcomplete

namespace IsChunk

/-- A chunk does not begin another one. -/
theorem eq_of_isPrefix (hc : IsChunk c) (hc' : IsChunk c') (hpre : c <+: c') : c = c' := by
  by_cases heq : c = c'
  · exact heq
  · have hearly : endsEarly (textOf c) := hc'.early c hpre hc.ne_nil heq
    exact absurd (hc.complete.symm.trans hearly) Bool.false_ne_true

/-- A chunk does not begin the rest. -/
theorem not_prefix_rest (hc : IsChunk c) (hrest : saysFarewell rest ∨ IsHeld rest) : ¬c <+: rest := by
  intro hpre
  rcases hrest with hfarewell | hheld
  · rw [saysFarewell_of_isPrefix hc.ne_nil hpre, hc.stays] at hfarewell
    exact Bool.false_ne_true hfarewell
  · exact Bool.false_ne_true (hc.complete.symm.trans (hheld.early c hpre hc.ne_nil))

end IsChunk

namespace Division

theorem cons (hc : IsChunk c) (h : Division lines chunks rest) : Division (c ++ lines) (c :: chunks) rest where
  lossless := by rw [List.flatten_cons, List.append_assoc, h.lossless]
  chunks := List.forall_mem_cons.2 ⟨hc, h.chunks⟩
  rest := h.rest

theorem isChunk_head (h : Division lines (c :: chunks) rest) : IsChunk c :=
  h.chunks c List.mem_cons_self

theorem prefix_head (h : Division lines (c :: chunks) rest) : c <+: lines := by
  rw [← h.lossless, List.flatten_cons, List.append_assoc]
  exact List.prefix_append _ _

theorem eq_rest (h : Division lines [] rest) : lines = rest :=
  h.lossless.symm

theorem tail (h : Division (c ++ lines) (c :: chunks) rest) : Division lines chunks rest where
  lossless := by
    have hlossless := h.lossless
    rw [List.flatten_cons, List.append_assoc] at hlossless
    exact List.append_cancel_left hlossless
  chunks := (List.forall_mem_cons.1 h.chunks).2
  rest := h.rest

/-- Each chunk stands among the lines. -/
theorem infix_of_mem (h : Division lines chunks rest) (hc : c ∈ chunks) : c <:+: lines := by
  rw [← h.lossless]
  exact (List.infix_of_mem_flatten hc).trans (List.prefix_append _ _).isInfix

/-- **Lines fall into chunks in one way only.** -/
theorem unique (h : Division lines chunks rest) (h' : Division lines chunks' rest') :
    chunks = chunks' ∧ rest = rest' := by
  induction chunks generalizing lines chunks' with
  | nil =>
    cases chunks' with
    | nil => exact ⟨rfl, h.eq_rest.symm.trans h'.eq_rest⟩
    | cons c' chunks' => exact absurd (h.eq_rest ▸ h'.prefix_head) (h'.isChunk_head.not_prefix_rest h.rest)
  | cons c chunks ih =>
    cases chunks' with
    | nil => exact absurd (h'.eq_rest ▸ h.prefix_head) (h.isChunk_head.not_prefix_rest h'.rest)
    | cons c' chunks' =>
      have hhead : c = c' := by
        rcases List.prefix_or_prefix_of_prefix h.prefix_head h'.prefix_head with hpre | hpre
        · exact h.isChunk_head.eq_of_isPrefix h'.isChunk_head hpre
        · exact (h'.isChunk_head.eq_of_isPrefix h.isChunk_head hpre).symm
      subst hhead
      obtain ⟨more, rfl⟩ := h.prefix_head
      obtain ⟨rfl, rfl⟩ := ih h.tail h'.tail
      exact ⟨rfl, rfl⟩

end Division

/-! Whether lines fall into chunks so can be decided. -/

instance : Decidable (IsHeld lines) :=
  decidable_of_iff (saysFarewell lines = false ∧ ∀ ls ∈ lines.inits, ls ≠ [] → endsEarly (textOf ls))
    ⟨fun h => ⟨h.1, fun ls hpre => h.2 ls ((List.mem_inits _ _).2 hpre)⟩,
      fun h => ⟨h.stays, fun ls hls => h.early ls ((List.mem_inits _ _).1 hls)⟩⟩

instance : Decidable (IsChunk lines) :=
  decidable_of_iff (lines ≠ [] ∧ saysFarewell lines = false ∧
      (∀ ls ∈ lines.inits, ls ≠ [] → ls ≠ lines → endsEarly (textOf ls)) ∧ endsEarly (textOf lines) = false)
    ⟨fun h => ⟨h.1, h.2.1, fun ls hpre => h.2.2.1 ls ((List.mem_inits _ _).2 hpre), h.2.2.2⟩,
      fun h => ⟨h.ne_nil, h.stays, fun ls hls => h.early ls ((List.mem_inits _ _).1 hls), h.complete⟩⟩

instance : Decidable (Division lines chunks rest) :=
  decidable_of_iff (chunks.flatten ++ rest = lines ∧ (∀ c ∈ chunks, IsChunk c) ∧ (saysFarewell rest ∨ IsHeld rest))
    ⟨fun h => ⟨h.1, h.2.1, h.2.2⟩, fun h => ⟨h.lossless, h.chunks, h.rest⟩⟩

/-! ## Texts of lines -/

/-- A line with the newline that ends it. -/
def IsEnded (l : List Char) : Prop :=
  ∃ cs, '\n' ∉ cs ∧ l = cs ++ ['\n']

/-- Lines of an input: each ends with a newline, and has no other, but the last one may have none. -/
structure AreLines (ls : List (List Char)) : Prop where
  ended : ls.Pairwise fun l _ => IsEnded l
  lines : ∀ l ∈ ls, '\n' ∉ l ∨ IsEnded l

/-- Cutting a text behind each newline gives its lines. -/
theorem areLines_cutLines (cs : List Char) : AreLines (cutLines (fun c _ => c = '\n') cs) := by
  induction cs with
  | nil => exact ⟨.nil, List.forall_mem_nil _⟩
  | cons c cs ih =>
    rw [cutLines]
    by_cases hc : c = '\n'
    · subst hc
      have hended : IsEnded ['\n'] := ⟨[], List.not_mem_nil, rfl⟩
      exact ⟨List.pairwise_cons.2 ⟨fun _ _ => hended, ih.ended⟩, List.forall_mem_cons.2 ⟨Or.inr hended, ih.lines⟩⟩
    · have hmem {l : List Char} (hl : '\n' ∉ l) : '\n' ∉ c :: l :=
        fun h => (List.mem_cons.1 h).elim (fun heq => hc heq.symm) hl
      have hended {l : List Char} : IsEnded l → IsEnded (c :: l) := by
        rintro ⟨l, hl, rfl⟩
        exact ⟨c :: l, hmem hl, rfl⟩
      rw [if_neg (by simpa using hc)]
      generalize cutLines (fun c _ => c = '\n') cs = ls at ih
      cases ls with
      | nil => exact ⟨List.pairwise_singleton _ _, List.forall_mem_singleton.2 (Or.inl (hmem List.not_mem_nil))⟩
      | cons l ls =>
        obtain ⟨hfirst, hrest⟩ := List.pairwise_cons.1 ih.ended
        obtain ⟨hl, hls⟩ := List.forall_mem_cons.1 ih.lines
        exact ⟨List.pairwise_cons.2 ⟨fun l' hl' => hended (hfirst l' hl'), hrest⟩,
          List.forall_mem_cons.2 ⟨hl.imp hmem hended, hls⟩⟩

namespace AreLines

variable {ls ls' : List (List Char)}

theorem of_isInfix (h : AreLines ls') (hls : ls <:+: ls') : AreLines ls :=
  ⟨h.ended.sublist hls.sublist, fun l hl => h.lines l (hls.subset hl)⟩

/-- The text of some lines is what they have in a row, but for a newline at the end. -/
theorem prefix_flatten (h : AreLines ls) :
    ['\n'].intercalate (ls.map fun l => l.filter (· ≠ '\n')) <+: ls.flatten := by
  have hfilter {l : List Char} (hl : '\n' ∉ l) : l.filter (· ≠ '\n') = l :=
    List.filter_eq_self.2 fun c hc => decide_eq_true fun heq => hl (heq ▸ hc)
  have hended {l : List Char} (hl : '\n' ∉ l) : (l ++ ['\n']).filter (· ≠ '\n') = l := by
    rw [List.filter_append, hfilter hl]
    exact List.append_nil l
  induction ls with
  | nil => exact List.prefix_rfl
  | cons l ls ih =>
    obtain ⟨hfirst, hrest⟩ := List.pairwise_cons.1 h.ended
    obtain ⟨hl, hls⟩ := List.forall_mem_cons.1 h.lines
    cases ls with
    | nil =>
      rw [List.map_singleton, List.intercalate_singleton, List.flatten_singleton]
      rcases hl with hl | ⟨cs, hcs, rfl⟩
      · rw [hfilter hl]
      · rw [hended hcs]
        exact List.prefix_append _ _
    | cons l' ls =>
      obtain ⟨cs, hcs, rfl⟩ := hfirst l' List.mem_cons_self
      rw [List.map_cons, List.map_cons, List.intercalate_cons_cons, List.flatten_cons, hended hcs,
        List.prefix_append_right_inj]
      exact ih ⟨hrest, hls⟩

end AreLines

/-- The text of lines that follow each other in an input is part of the text of the input. -/
theorem textOf_isInfix {text : String} (h : lines <:+: inputLines text) : (textOf lines).toList <:+: text.toList := by
  have hcut : lines.map String.toList <:+: cutLines (fun c _ => c = '\n') text.toList := by
    have hid : String.toList ∘ String.ofList = id := funext fun _ => String.toList_ofList
    have hmap := h.map String.toList
    rwa [inputLines, List.map_map, hid, List.map_id] at hmap
  have hpre := ((areLines_cutLines text.toList).of_isInfix hcut).prefix_flatten
  rw [List.map_map] at hpre
  have hflatten : (lines.map String.toList).flatten <:+: text.toList := by
    obtain ⟨before, after, heq⟩ := hcut
    rw [← flatten_cutLines (fun c _ => c = '\n') text.toList, ← heq, List.flatten_append, List.flatten_append]
    exact List.infix_append _ _ _
  have hstrip : String.toList ∘ stripNewline = (fun l => l.filter (· ≠ '\n')) ∘ String.toList :=
    funext fun _ => String.toList_ofList
  rw [textOf, String.toList_intercalate, List.map_map, hstrip]
  exact hpre.isInfix.trans hflatten

/-! ## What is done with chunks -/

/-- The prompts before so many lines of a chunk: one kind before the first, another before those that follow it. -/
def prompts : Nat → String
  | 0 => ""
  | n + 1 => prompts n ++ if n = 0 then ">> " else ".. "

/-- The end of a dialogue, with the lines that are left behind the last chunk. What is still held back is executed one
call further up the stack. -/
def conclude (s : Session) (st : Stack) (interrupted : Bool) (rest : List String) (host : Host) : Transcript × Host :=
  if saysFarewell rest then (⟨prompts 1, rest.tail, .closed⟩, host)
  else if interrupted then (⟨prompts (rest.length + 1), [], .interrupted⟩, host)
  else if rest = [] then (⟨prompts 1 ++ "\n", [], .closed⟩, host)
  else
    match s.execute (st.deeper 1) (textOf rest) host with
    | .ok shown host => (⟨prompts (rest.length + 1) ++ "\n" ++ onLine shown, [], .closed⟩, host)
    | .error why host => (⟨prompts (rest.length + 1) ++ "\n", [], .failed why⟩, host)

/-- Execute the texts of the chunks one after another, each after the prompts for its lines. -/
def replay (s : Session) (st : Stack) (interrupted : Bool) : List (List String) → List String → Host → Transcript × Host
  | [], rest, host => conclude s st interrupted rest host
  | c :: chunks, rest, host =>
    match s.execute st (textOf c) host with
    | .ok shown host =>
      let (t, host) := replay s st interrupted chunks rest host
      (t.after (prompts c.length ++ onLine shown), host)
    | .error why host => (⟨prompts c.length, chunks.flatten ++ rest, .failed why⟩, host)

end Monkey.Dialogue
