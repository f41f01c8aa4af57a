import Monkey.Proofs.Parse.Recovery
import Monkey.Proofs.Parse.Soundness
import Monkey.Tree.Text

/-!
# What may be missing

Whatever is wrong with a text, its tree has a text of its own, since only the children that may be missing are
(`Node.Gapped.IsProgram.hasText`). Where nothing is reported, a rule has gone on without a child only if nothing was to
be read there: an `else`, or the value of a `return` that ends at once.

* `Node.isWhole`: no child is missing but these.
* `Rule.Filling.all`: a rule that reports nothing builds a tree that is whole throughout.
* `holes_of_parse`: both together, for any text that is read at all.
-/

namespace Monkey

/-! ## Trees with nothing missing -/

/-- The kinds of tokens before which a `return` has no value. -/
def TokenKind.endsReturn (k : TokenKind) : Bool :=
  k = .semicolon || k = .rbrace || k = .eof

/-- Among the tokens there is this one with one directly behind it before which a `return` has no value. -/
def Token.endsAtOnce (ts : List Token) (t : Token) : Bool :=
  (ts.zip ts.tail).any fun (u, v) => u = t && v.kind.endsReturn

/-- A `return` with such a token directly behind it ends at once. -/
theorem Token.endsAtOnce_of_suffix {t v : Token} {rest ts : List Token} (h : t :: v :: rest <:+ ts)
    (hv : v.kind.endsReturn) : t.endsAtOnce ts := by
  obtain ⟨before, rfl⟩ := h
  refine List.any_eq_true.2 ⟨(t, v), ?_, by simp [hv]⟩
  induction before with
  | nil => exact List.mem_cons_self
  | cons u before ih => cases before <;> exact List.mem_cons_of_mem _ ih

namespace Node

/-- No child of a node is missing, but for an `else`, and for the value of a `return` that ends at once. -/
def isWhole (ts : List Token) : Node → Bool
  | .returnStatement t .hole => t.endsAtOnce ts
  | .conditional _ c b _ => !c.isHole && !b.isHole
  | n => n.children.all (!·.isHole)

/-- A node that is there, with nothing missing below it. -/
def IsFull (ts : List Token) (n : Node) : Prop :=
  n.isHole = false ∧ n.all (isWhole ts)

section

variable {ts : List Token} {n : Node}

/-- A node is whole if none of its children is missing. -/
theorem isWhole_of_children (h : ∀ c ∈ n.children, c.isHole = false) : n.isWhole ts := by
  cases n with
  | conditional t c b a =>
    rw [isWhole, h c (by simp [children]), h b (by simp [children])]
    rfl
  | returnStatement t value =>
    cases value with
    | hole => exact absurd (h .hole (by simp [children])) (by simp [isHole])
    | _ => rfl
  | _ => exact List.all_eq_true.2 fun c hc => by rw [h c hc]; rfl

/-- A node that is there is full if its children are. -/
theorem isFull_of_children (hn : n.isHole = false) (hc : ∀ c ∈ n.children, c.IsFull ts) : n.IsFull ts :=
  ⟨hn, all_of_children (isWhole_of_children fun c h => (hc c h).1) fun c h => (hc c h).2⟩

/-- An `if` without an `else` is full if its condition and its block are. -/
theorem isFull_ifThen {t : Token} {c b : Node} (hc : c.IsFull ts) (hb : b.IsFull ts) :
    (conditional t c b .hole).IsFull ts := by
  refine ⟨rfl, all_of_children ?_ ?_⟩
  · rw [isWhole, hc.1, hb.1]
    rfl
  · simp only [children, List.forall_mem_cons]
    exact ⟨hc.2, hb.2, rfl, List.forall_mem_nil _⟩

/-- A `return` without a value is full where it ends at once. -/
theorem isFull_returnNothing {t : Token} (h : t.endsAtOnce ts) : (returnStatement t .hole).IsFull ts :=
  ⟨rfl, all_of_children h (List.forall_mem_singleton.2 rfl)⟩

end

/-! ## The text of a tree with gaps -/

theorem allHaveText_eq (ns : List Node) : allHaveText ns = ns.all hasText := by
  induction ns with
  | nil => rfl
  | cons n ns ih => rw [allHaveText, List.all_cons, ih]

theorem argumentsHaveText_eq (ns : List Node) : argumentsHaveText ns = ns.all fun n => n.isHole || n.hasText := by
  induction ns with
  | nil => rfl
  | cons n ns ih => rw [argumentsHaveText, List.all_cons, ih]

/-- A tree has a text if what is below it has, unless it is known by its class alone. -/
theorem hasText_of_children {n : Node} (hn : n.isHole = false) (hcls : ∀ cls, n ≠ .unknown cls)
    (h : ∀ c ∈ n.children, c.hasText) : n.hasText := by
  cases n with
  | hole => cases hn
  | unknown cls => exact absurd rfl (hcls cls)
  | _ => simp_all [children, hasText, allHaveText_eq, argumentsHaveText_eq]

/-- An `if` without an `else` has a text if what is below it has. -/
theorem hasText_ifThen {t : Token} {c b : Node} (hc : c.hasText) (hb : b.hasText) :
    (conditional t c b .hole).hasText := by
  rw [hasText, hc, hb, Bool.or_true, Bool.or_true]
  rfl

namespace Gapped

mutual

/-- An expression with gaps has a text. -/
theorem IsExpression.hasText : ∀ {e : Node}, IsExpression e → e.hasText
  | _, .identifier | _, .integer _ _ | _, .boolean | _, .unaryGap => rfl
  | _, .unary he => hasText_of_children rfl nofun (List.forall_mem_singleton.2 he.hasText)
  | _, .binary hl hr =>
    hasText_of_children rfl nofun (List.forall_mem_cons.2 ⟨hl.hasText, List.forall_mem_singleton.2 hr.hasText⟩)
  | _, .ifThen hc hb => hasText_ifThen hc.hasText hb.hasText
  | _, .ifThenElse hc hb ha => hasText_of_children rfl nofun (List.forall_mem_cons.2 ⟨hc.hasText,
      List.forall_mem_cons.2 ⟨hb.hasText, List.forall_mem_singleton.2 ha.hasText⟩⟩)
  | _, .function hb => hasText_of_children rfl nofun (List.forall_mem_singleton.2 hb.hasText)
  | _, .call hf has =>
    hasText_of_children rfl nofun (List.forall_mem_cons.2 ⟨hf.hasText, fun a ha => (has a ha).hasText⟩)

/-- A statement with gaps has a text. -/
theorem IsStatement.hasText : ∀ {s : Node}, IsStatement s → s.hasText
  | _, .letStatement he | _, .returnStatement he | _, .expression he =>
    hasText_of_children rfl nofun (List.forall_mem_singleton.2 he.hasText)
  | _, .letGap | _, .returnGap => rfl

/-- A block with gaps has a text. -/
theorem IsBlock.hasText : ∀ {b : Node}, IsBlock b → b.hasText
  | _, .block hss => hasText_of_children rfl nofun fun s hs => (hss s hs).hasText

end

/-- **A tree with gaps has a text.** -/
theorem IsProgram.hasText {p : Node} (hp : IsProgram p) : p.hasText := by
  obtain ⟨ss, rfl, hss⟩ := hp
  exact hasText_of_children rfl nofun fun s hs => (hss s hs).hasText

end Gapped

end Node

namespace Rule

open Node

/-! ## Sequences -/

/-- Among the tokens `ts` of a text, whatever the rule builds without a report satisfies `P`. -/
def Fills {α : Type} (ts : List Token) (P : α → Prop) (x : Rule α) : Prop :=
  ∀ ⦃p : Parser⦄ ⦃a : α⦄ ⦃q : Parser⦄, p.tokens <:+ ts → Clean x p a q → P a

namespace Fills

variable {α β : Type} {ts : List Token} {P : α → Prop} {Q : β → Prop} {x y : Rule α} {f : α → Rule β}

theorem pure {a : α} (ha : P a) : Fills ts P (pure a) := by
  intro p b q _ hb
  obtain ⟨rfl, -⟩ := hb.of_pure
  exact ha

/-- In a sequence of rules, what the second one is handed satisfies what the first one ensures. -/
theorem bind [hx' : Forward x] [∀ a, Forward (f a)] (hx : Fills ts P x) (hf : ∀ a, P a → Fills ts Q (f a)) :
    Fills ts Q (x >>= f) := by
  intro p b r hp hb
  obtain ⟨a, q, ha, hb⟩ := hb.of_bind
  exact hf a (hx hp ha) ((hx'.ok ha.run).tokens.trans hp) hb

/-- A step before does not matter where nothing is asked of what it builds. -/
theorem step [Forward x] [∀ a, Forward (f a)] (hf : ∀ a, Fills ts Q (f a)) : Fills ts Q (x >>= f) :=
  bind (P := fun _ => True) (fun _ _ _ _ _ => trivial) fun a _ => hf a

theorem enter {f : Unit → Rule β} (hf : Fills ts Q (f ())) : Fills ts Q (Rule.enter >>= f) :=
  fun p _ _ hp h => hf (p := entering p) hp h.of_enter

theorem current {f : Token → Rule β} (hf : ∀ token, Fills ts Q (f token)) : Fills ts Q (Rule.current >>= f) :=
  fun _ _ _ hp h => hf _ hp h.of_current

theorem nextKind {f : TokenKind → Rule β} (hf : ∀ kind, Fills ts Q (f kind)) : Fills ts Q (Rule.nextKind >>= f) :=
  fun _ _ _ hp h => hf _ hp h.of_nextKind

theorem advance {f : Unit → Rule β} (hf : Fills ts Q (f ())) : Fills ts Q (Rule.advance >>= f) :=
  fun p _ _ hp h => hf ((Parser.Reaches.advance p).tokens.trans hp) h.of_advance

theorem expect {kind : TokenKind} {f : Unit → Rule β} (hf : Fills ts Q (f ())) :
    Fills ts Q (Rule.expect kind >>= f) :=
  fun p _ _ hp h => hf ((Parser.Reaches.advance p).tokens.trans hp) h.of_expect.2

/-- What may be missing is there where nothing is reported. -/
theorem attempt [Forward x] (hx : Fills ts P x) : Fills ts (fun o => ∃ a, o = some a ∧ P a) (attempt x) := by
  intro p o q hp ho
  obtain ⟨a, rfl, ha⟩ := ho.of_attempt
  exact ⟨a, rfl, hx hp ha⟩

theorem ite {c : Prop} [Decidable c] (hx : Fills ts P x) (hy : Fills ts P y) : Fills ts P (if c then x else y) := by
  split
  · exact hx
  · exact hy

/-- A rule that never builds anything ensures whatever is asked. -/
theorem of_ne_ok (h : ∀ {p a q}, x p ≠ .ok a q) : Fills ts P x :=
  fun _ _ _ _ hx => absurd hx.run h

end Fills

/-! ## The rules of the grammar -/

variable {ts : List Token} {n : Nat}

/-- A numeral has nothing missing. -/
theorem fills_integer : Fills ts (IsFull ts) integer := by
  refine .current fun token => ?_
  dsimp only
  refine .ite (.of_ne_ok refuse_ne_ok) (.ite (.of_ne_ok (by simp)) (.pure ?_))
  exact isFull_of_children rfl (List.forall_mem_nil _)

/-- Each rule at allowance `n` that reports nothing builds a tree that is whole throughout. -/
structure Filling (ts : List Token) (n : Nat) : Prop where
  expression : ∀ floor, Fills ts (IsFull ts) (expression n floor)
  operand : Fills ts (IsFull ts) (operand n)
  unary : ∀ op, Fills ts (IsFull ts) (unary n op)
  group : Fills ts (IsFull ts) (group n)
  conditional : Fills ts (IsFull ts) (conditional n)
  function : Fills ts (IsFull ts) (function n)
  extend : ∀ floor left, IsFull ts left → Fills ts (IsFull ts) (extend n floor left)
  application : ∀ left, IsFull ts left → Fills ts (IsFull ts) (application n left)
  arguments : Fills ts (fun as => ∀ a ∈ as, IsFull ts a) (arguments n)
  moreArguments : Fills ts (fun as => ∀ a ∈ as, IsFull ts a) (moreArguments n)
  statement : Fills ts (IsFull ts) (statement n)
  letStatement : Fills ts (IsFull ts) (letStatement n)
  returnStatement : ∀ {p s q}, p.tokens <:+ ts → p.current.kind = .returnKeyword → Clean (returnStatement n) p s q →
    IsFull ts s
  expressionStatement : Fills ts (IsFull ts) (expressionStatement n)
  block : Fills ts (IsFull ts) (block n)
  blockStatements : Fills ts (fun ss => ∀ s ∈ ss, IsFull ts s) (blockStatements n)

namespace Filling

/-- At no allowance nothing is built. -/
theorem zero : Filling ts 0 := by
  constructor
  case returnStatement => exact fun _ _ h => absurd h.run refuse_ne_ok
  all_goals intros; exact .of_ne_ok refuse_ne_ok

theorem expression_succ (h : Filling ts n) (floor : Precedence) :
    Fills ts (IsFull ts) (Rule.expression (n + 1) floor) := by
  rw [Rule.expression]
  exact .enter (.bind h.operand fun left hleft => h.extend floor left hleft)

/-- Whatever rule reads an operand, it is full. -/
theorem operand_succ (h : Filling ts n) : Fills ts (IsFull ts) (Rule.operand (n + 1)) := by
  rw [Rule.operand]
  refine .enter (.current fun token => ?_)
  split
  · exact .step fun _ => .pure (isFull_of_children rfl (List.forall_mem_nil _))
  · exact fills_integer
  · exact .pure (isFull_of_children rfl (List.forall_mem_nil _))
  · exact .pure (isFull_of_children rfl (List.forall_mem_nil _))
  · exact h.unary .not
  · exact h.unary .negate
  · exact h.group
  · exact h.conditional
  · exact h.function
  · exact .of_ne_ok (by simp)

theorem unary_succ (h : Filling ts n) (op : UnaryOp) : Fills ts (IsFull ts) (Rule.unary (n + 1) op) := by
  rw [Rule.unary]
  refine .current fun _ => .advance (.bind (.attempt (h.expression _)) ?_)
  rintro _ ⟨e, rfl, he⟩
  exact .pure (isFull_of_children rfl (List.forall_mem_singleton.2 he))

theorem group_succ (h : Filling ts n) : Fills ts (IsFull ts) (Rule.group (n + 1)) := by
  rw [Rule.group]
  exact .advance (.bind (h.expression _) fun _ hinner => .expect (.pure hinner))

set_option synthInstance.maxSize 256 in
/-- An `if` may be without an `else`, and its other parts are full. -/
theorem conditional_succ (h : Filling ts n) : Fills ts (IsFull ts) (Rule.conditional (n + 1)) := by
  rw [Rule.conditional]
  refine .current fun _ => .expect (.advance (.bind (h.expression _) fun _ hc => .expect (.expect
    (.bind h.block fun _ hb => .nextKind fun _ => .ite ?_ (.pure (isFull_ifThen hc hb))))))
  refine .advance (.expect (.bind h.block fun _ ha => .pure (isFull_of_children rfl ?_)))
  exact List.forall_mem_cons.2 ⟨hc, List.forall_mem_cons.2 ⟨hb, List.forall_mem_singleton.2 ha⟩⟩

theorem function_succ (h : Filling ts n) : Fills ts (IsFull ts) (Rule.function (n + 1)) := by
  rw [Rule.function]
  exact .current fun _ => .expect (.step fun _ => .expect (.bind h.block fun _ hb =>
    .pure (isFull_of_children rfl (List.forall_mem_singleton.2 hb))))

/-- An expression that is full stays so when it is extended. -/
theorem extend_succ (h : Filling ts n) (floor : Precedence) (left : Node) (hleft : IsFull ts left) :
    Fills ts (IsFull ts) (Rule.extend (n + 1) floor left) := by
  rw [Rule.extend]
  exact .nextKind fun _ => .ite (.advance (.bind (h.application left hleft) fun longer hlonger =>
    h.extend floor longer hlonger)) (.pure hleft)

/-- What is applied to a full expression is full with it. -/
theorem application_succ (h : Filling ts n) (left : Node) (hleft : IsFull ts left) :
    Fills ts (IsFull ts) (Rule.application (n + 1) left) := by
  rw [Rule.application]
  refine .enter (.current fun token => ?_)
  cases token.kind.binaryOp? with
  | some op =>
    exact .advance (.bind (h.expression _) fun _ hright =>
      .pure (isFull_of_children rfl (List.forall_mem_cons.2 ⟨hleft, List.forall_mem_singleton.2 hright⟩)))
  | none =>
    exact .bind h.arguments fun _ has => .pure (isFull_of_children rfl (List.forall_mem_cons.2 ⟨hleft, has⟩))

/-- Where nothing is reported, no argument is missing. -/
theorem arguments_succ (h : Filling ts n) : Fills ts (fun as => ∀ a ∈ as, IsFull ts a) (Rule.arguments (n + 1)) := by
  rw [Rule.arguments]
  refine .nextKind fun _ => .ite (.advance (.pure (List.forall_mem_nil _))) (.advance ?_)
  exact .bind (h.expression _) fun _ hfirst => .bind h.moreArguments fun _ hrest =>
    .expect (.pure (List.forall_mem_cons.2 ⟨hfirst, hrest⟩))

theorem moreArguments_succ (h : Filling ts n) :
    Fills ts (fun as => ∀ a ∈ as, IsFull ts a) (Rule.moreArguments (n + 1)) := by
  rw [Rule.moreArguments]
  refine .nextKind fun _ => .ite (.advance (.advance ?_)) (.pure (List.forall_mem_nil _))
  exact .bind (h.expression _) fun _ hfirst => .bind h.moreArguments fun _ hrest =>
    .pure (List.forall_mem_cons.2 ⟨hfirst, hrest⟩)

/-- Whatever rule reads a statement, it is full. -/
theorem statement_succ (h : Filling ts n) : Fills ts (IsFull ts) (Rule.statement (n + 1)) := by
  intro p s q hp hs
  rw [Rule.statement] at hs
  replace hs := hs.of_enter.of_current
  replace hp : (entering p).tokens <:+ ts := hp
  split at hs
  · exact h.letStatement hp hs
  · next hk => exact h.returnStatement hp hk hs
  · exact h.expressionStatement hp hs

theorem letStatement_succ (h : Filling ts n) : Fills ts (IsFull ts) (Rule.letStatement (n + 1)) := by
  rw [Rule.letStatement]
  refine .current fun _ => .expect (.step fun _ => .expect (.advance (.bind (.attempt (h.expression _)) ?_)))
  rintro _ ⟨e, rfl, he⟩
  exact .step fun _ => .pure (isFull_of_children rfl (List.forall_mem_singleton.2 he))

/-- Where nothing is reported, a `return` without a value is one that ends at once. -/
theorem returnStatement_succ (h : Filling ts n) {p q : Parser} {s : Node} (hp : p.tokens <:+ ts)
    (hk : p.current.kind = .returnKeyword) (hs : Clean (Rule.returnStatement (n + 1)) p s q) : IsFull ts s := by
  -- a `return` without a value is the current token, and the next one ends it
  have hnothing (hnext : p.next.kind.endsReturn) : IsFull ts (.returnStatement p.current .hole) := by
    obtain ⟨rest, hrest⟩ := Parser.tokens_eq_cons hs.final (by rw [hk]; decide)
    exact isFull_returnNothing (Token.endsAtOnce_of_suffix (hrest ▸ hp) hnext)
  rw [Rule.returnStatement] at hs
  replace hs := hs.of_current.of_nextKind
  split at hs
  · next hnext =>
    obtain ⟨rfl, -⟩ := hs.of_advance.of_pure
    exact hnothing (by rw [hnext]; rfl)
  · split at hs
    · next hnext =>
      obtain ⟨rfl, -⟩ := hs.of_pure
      exact hnothing (by rcases hnext with hnext | hnext <;> rw [hnext] <;> rfl)
    · have hvalue : Fills ts (IsFull ts) (advance >>= fun _ => attempt (Rule.expression n .lowest) >>= fun value =>
          skipSemicolon >>= fun _ => Pure.pure (.returnStatement p.current (value.getD .hole))) := by
        refine .advance (.bind (.attempt (h.expression _)) ?_)
        rintro _ ⟨e, rfl, he⟩
        exact .step fun _ => .pure (isFull_of_children rfl (List.forall_mem_singleton.2 he))
      exact hvalue hp hs

theorem expressionStatement_succ (h : Filling ts n) : Fills ts (IsFull ts) (Rule.expressionStatement (n + 1)) := by
  rw [Rule.expressionStatement]
  exact .current fun _ => .bind (h.expression _) fun _ he => .step fun _ =>
    .pure (isFull_of_children rfl (List.forall_mem_singleton.2 he))

theorem block_succ (h : Filling ts n) : Fills ts (IsFull ts) (Rule.block (n + 1)) := by
  rw [Rule.block]
  exact .enter (.current fun _ => .advance (.bind h.blockStatements fun _ hss => .pure (isFull_of_children rfl hss)))

/-- Every statement of a block is full. -/
theorem blockStatements_succ (h : Filling ts n) :
    Fills ts (fun ss => ∀ s ∈ ss, IsFull ts s) (Rule.blockStatements (n + 1)) := by
  rw [Rule.blockStatements]
  refine .current fun _ => .ite (.pure (List.forall_mem_nil _)) (.ite ?_ ?_)
  · exact .step fun _ => .pure (List.forall_mem_nil _)
  · refine .bind (.attempt h.statement) ?_
    rintro _ ⟨first, rfl, hfirst⟩
    exact .advance (.bind h.blockStatements fun _ hrest => .pure (List.forall_mem_cons.2 ⟨hfirst, hrest⟩))

/-- Each rule builds what is full if the rules it calls do. -/
theorem succ (h : Filling ts n) : Filling ts (n + 1) where
  expression := h.expression_succ
  operand := h.operand_succ
  unary := h.unary_succ
  group := h.group_succ
  conditional := h.conditional_succ
  function := h.function_succ
  extend := h.extend_succ
  application := h.application_succ
  arguments := h.arguments_succ
  moreArguments := h.moreArguments_succ
  statement := h.statement_succ
  letStatement := h.letStatement_succ
  returnStatement := h.returnStatement_succ
  expressionStatement := h.expressionStatement_succ
  block := h.block_succ
  blockStatements := h.blockStatements_succ

/-- **What a rule builds without a report is whole throughout.** -/
theorem all : ∀ n, Filling ts n
  | 0 => zero
  | n + 1 => (all n).succ

end Filling

/-- Every statement of a program is full. -/
theorem fills_programStatements : Fills ts (fun ss => ∀ s ∈ ss, IsFull ts s) (programStatements n) := by
  induction n with
  | zero => exact .of_ne_ok refuse_ne_ok
  | succ n ih =>
    rw [programStatements]
    refine .current fun _ => .ite (.pure (List.forall_mem_nil _)) (.bind (.attempt (Filling.all n).statement) ?_)
    rintro _ ⟨first, rfl, hfirst⟩
    exact .advance (.bind ih fun _ hrest => .pure (List.forall_mem_cons.2 ⟨hfirst, hrest⟩))

end Rule

/-! ## A whole text -/

/-- Where nothing is reported of a text, its tree is whole throughout. -/
theorem all_isWhole_of_parse {text : String} {t : Parse} (h : parse text = .ok t) (hd : t.diagnostics = []) :
    t.program.all (Node.isWhole (Cursor.ofText text).tokens) := by
  obtain ⟨ss, q, hprogram, hclean⟩ := Rule.clean_of_parse h hd
  have htokens : (Rule.entering (.ofText text)).tokens <:+ (Cursor.ofText text).tokens := List.suffix_refl _
  rw [hprogram]
  exact (Node.isFull_of_children rfl (Rule.fills_programStatements htokens hclean)).2

/-- **What is missing in a tree is confined, and announced.** Whatever is wrong with a text, a child may be missing in
its tree in three places only and beside them only an `else`, and the tree has a text. Where nothing is reported, nothing
is missing but the value of a `return` that ends at once and the `else` of an `if` that is read without one. -/
theorem holes_of_parse {text : String} {t : Parse} (h : parse text = .ok t) :
    Node.Gapped.IsProgram t.program ∧ t.program.text? = some t.program.text ∧
      (t.diagnostics = [] → t.program.all (Node.isWhole (Cursor.ofText text).tokens) ∧
        ∃ ss, t.program = .program ss ∧ Reading.Statements (lexemesOf text) ss []) := by
  have hgapped := gapped_of_parse h
  refine ⟨hgapped, ?_, fun hd => ⟨all_isWhole_of_parse h hd, reads_of_parse h hd⟩⟩
  rw [Node.text?, if_pos hgapped.hasText]

/-- A text of which nothing is reported, with a `return` that ends at once in an `if` without an `else`. -/
theorem holes_of_parse_bare_return :
    ∃ t, parse "if (x) \x7b return \x7d" = .ok t ∧ t.diagnostics = [] ∧ Node.Gapped.IsProgram t.program ∧
      t.program.text? = some t.program.text ∧
      t.program.all (Node.isWhole (Cursor.ofText "if (x) \x7b return \x7d").tokens) := by
  have haccepted : isAccepted "if (x) \x7b return \x7d" := by decide +kernel
  obtain ⟨t, h, hd⟩ := exists_of_isAccepted haccepted
  obtain ⟨hgapped, htext, hwhole⟩ := holes_of_parse h
  exact ⟨t, h, hd, hgapped, htext, (hwhole hd).1⟩

end Monkey
