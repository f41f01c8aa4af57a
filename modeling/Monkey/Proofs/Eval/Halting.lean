import Monkey.Proofs.Eval.Invariant

/-!
# Why evaluation halts

An evaluation that halts ends all that it is part of, for the same reason (`Performs.result_of_halt`). And unless it is
too deep, it halts because a node without meaning is evaluated on the way (`exists_faults_of_halt`): whatever else is
done can end with an error as the value, but not without a value.
-/

namespace Monkey

namespace Eval

section Steps

variable {α β : Type} {x : Eval α} {f : α → Eval β} {y : Eval Value} {next : Value → Eval Value}
  {each : Node → Eval Value} {stops : Value → Bool} {ns : List Node} {n : Node} {a : α} {why : Halt} {h h' h'' : Heap}

/-! ## What comes after a halt -/

/-- What halts, halts all that follows it. -/
theorem bind_of_halt (hx : x h = .error why h') : (x >>= f) h = .error why h' := by
  rw [run_bind, hx]

theorem proceed_of_halt (hy : y h = .error why h') : proceed y next h = .error why h' :=
  bind_of_halt hy

/-- Statements in a row halt where the one halts that they get to. -/
theorem GetsTo.sequence_of_halt (hn : GetsTo each Value.isSignal ns h n h') (hhalt : each n h' = .error why h'')
    (last : Value) : Eval.sequence each last ns h = .error why h'' := by
  induction hn generalizing last with
  | here => exact bind_of_halt hhalt
  | later hm hgo _ ih =>
    rw [Eval.sequence, bind_of_ok hm, hgo]
    exact ih hhalt _

/-- Arguments halt where the one halts that they get to. -/
theorem GetsTo.collect_of_halt (hn : GetsTo each Value.isError ns h n h') (hhalt : each n h' = .error why h'') :
    Eval.collect each ns h = .error why h'' := by
  induction hn with
  | here => exact bind_of_halt hhalt
  | later hm hgo _ ih =>
    rw [Eval.collect, bind_of_ok hm, hgo, if_neg Bool.false_ne_true]
    exact bind_of_halt (ih hhalt)

/-! ## What came before a halt -/

/-- Two steps in a row halt in the first, or in the second behind the first. -/
theorem halt_of_bind (hx : (x >>= f) h = .error why h'') :
    x h = .error why h'' ∨ ∃ a h', x h = .ok a h' ∧ f a h' = .error why h'' := by
  rw [run_bind] at hx
  cases hr : x h with
  | ok a h' =>
    rw [hr] at hx
    exact Or.inr ⟨a, h', rfl, hx⟩
  | error why' h' =>
    rw [hr] at hx
    cases hx
    exact Or.inl rfl

/-- Where a value is taken, it is its evaluation that halts or what is done with it. -/
theorem halt_of_proceed (hy : proceed y next h = .error why h'') :
    y h = .error why h'' ∨ ∃ v h', y h = .ok v h' ∧ v.isError = false ∧ next v h' = .error why h'' := by
  rcases halt_of_bind hy with hy | ⟨v, h', hv, hnext⟩
  · exact Or.inl hy
  · cases he : v.isError with
    | true =>
      rw [he] at hnext
      cases hnext
    | false =>
      rw [he] at hnext
      exact Or.inr ⟨v, h', hv, he, hnext⟩

/-- Where statements in a row halt, they have got to one that does. -/
theorem getsTo_of_sequence_halt {last : Value} (hss : Eval.sequence each last ns h = .error why h'') :
    ∃ n h', GetsTo each Value.isSignal ns h n h' ∧ each n h' = .error why h'' := by
  induction ns generalizing last h with
  | nil => cases hss
  | cons n ns ih =>
    rcases halt_of_bind hss with hn | ⟨v, h', hv, hrest⟩
    · exact ⟨n, h, .here, hn⟩
    · cases hgo : v.isSignal with
      | true =>
        rw [hgo] at hrest
        cases hrest
      | false =>
        rw [hgo] at hrest
        obtain ⟨m, h₁, hm, hhalt⟩ := ih hrest
        exact ⟨m, h₁, .later hv hgo hm, hhalt⟩

/-- Where arguments halt, they have got to one that does. -/
theorem getsTo_of_collect_halt (hes : Eval.collect each ns h = .error why h'') :
    ∃ n h', GetsTo each Value.isError ns h n h' ∧ each n h' = .error why h'' := by
  induction ns generalizing h with
  | nil => cases hes
  | cons n ns ih =>
    rcases halt_of_bind hes with hn | ⟨v, h', hv, hrest⟩
    · exact ⟨n, h, .here, hn⟩
    · cases hgo : v.isError with
      | true =>
        rw [hgo] at hrest
        cases hrest
      | false =>
        rw [hgo] at hrest
        rcases halt_of_bind hrest with hrest | ⟨r, h₁, -, hr⟩
        · obtain ⟨m, h₁, hm, hhalt⟩ := ih hrest
          exact ⟨m, h₁, .later hv hgo hm, hhalt⟩
        · cases r <;> cases hr

/-- Operators do not halt. -/
theorem Operates.ne_halt (hy : Operates y) : y h ≠ .error why h' := by
  intro hhalt
  obtain ⟨v, -, heq | heq⟩ := hy h
  · cases heq.symm.trans hhalt
  · cases heq.symm.trans hhalt

/-- Looking up a name does not halt, since a name that is not bound is an error. -/
theorem lookup_ne_halt {scope : ScopeId} {name : String} : lookup scope name h ≠ .error why h' := by
  intro hhalt
  cases hv : h.lookup scope name with
  | some v => cases (lookup_of_some hv).symm.trans hhalt
  | none => exact (operates_fail _).ne_halt ((lookup_of_none hv).symm.trans hhalt)

/-- Binding parameters does not halt, however many arguments there are. -/
theorem bindAll_ne_halt {scope : ScopeId} : ∀ {ps : List Identifier} {vs : List Value} {h : Heap},
    bindAll scope ps vs h ≠ .error why h'
  | [], _, _ | _ :: _, [], _ => nofun
  | p :: ps, v :: vs, h => fun hhalt =>
    bindAll_ne_halt (show bindAll scope ps vs (h.bind scope p.name v) = .error why h' from hhalt)

end Steps

end Eval

namespace Evaluation

open Eval

/-- The evaluation of a node that is not there, or of which only the class is known. -/
inductive Faults : Evaluation → Halt → Prop
  | hole {depth scope h} : Faults (.node (depth + 1) .hole scope h) .missingNode
  | unknown {depth cls scope h} : Faults (.node (depth + 1) (.unknown cls) scope h) (.unknownNode cls)

variable {a b : Evaluation} {why : Halt} {h h' : Heap} {depth : Nat} {n c e : Node} {t : Token} {ns : List Node}
  {scope : ScopeId} {f : Value} {fs : List Value}

/-! ## An evaluation that halts ends what it is part of -/

/-- A node at fault halts for the fault. -/
theorem Faults.result (ha : a.Faults why) : ∃ h, a.result = .error why h := by
  cases ha with
  | hole =>
    rw [Evaluation.result, eval]
    exact ⟨_, rfl⟩
  | unknown =>
    rw [Evaluation.result, eval]
    exact ⟨_, rfl⟩

/-- An evaluation that only hands over to another one halts with it. -/
theorem Passes.result_of_halt (hab : Passes a b) (hb : b.result = .error why h) : a.result = .error why h := by
  rw [result.eq_def] at hb
  cases hab with
  | block hs =>
    rw [result, eval, evalBlock]
    exact hs.sequence_of_halt hb _
  | expressionStatement =>
    rw [result, eval]
    exact hb
  | consequence hc he ht =>
    rw [result, eval, evalConditional_consequence hc he ht]
    exact hb
  | alternative hc he ht hne =>
    rw [result, eval, evalConditional_alternative hc he ht hne]
    exact hb

/-- A call halts with its body. -/
theorem Opens.result_of_halt (hab : Opens a b) (hb : b.result = .error why h) : a.result = .error why h := by
  rw [result.eq_def] at hb
  cases hab with
  | program hs =>
    rw [result, eval, evalProgram]
    exact bind_of_halt (hs.sequence_of_halt hb _)
  | body hlength hopen hbind =>
    rw [result, apply, if_pos hlength, bind_of_ok hopen, bind_of_ok hbind]
    exact bind_of_halt hb

/-- **An evaluation halts with each one that it starts.** -/
theorem Starts.result_of_halt (hab : Starts a b) (hb : b.result = .error why h) : a.result = .error why h := by
  cases hab with
  | passes hab => exact hab.result_of_halt hb
  | opens hab => exact hab.result_of_halt hb
  | letValue | operand | left | callee =>
    rw [result, eval]
    exact proceed_of_halt hb
  | returnValue hne =>
    rw [result, eval_returnStatement hne]
    exact proceed_of_halt hb
  | right hl hgo =>
    rw [result, eval, proceed_of_ok hl hgo]
    exact proceed_of_halt hb
  | condition =>
    rw [result, eval]
    unfold evalConditional
    exact proceed_of_halt hb
  | argument hf hgo ha =>
    rw [result, eval, proceed_of_ok hf hgo, evalArguments]
    exact bind_of_halt (ha.collect_of_halt hb)
  | call hf hgo hargs =>
    rw [result, eval, proceed_of_ok hf hgo, bind_of_ok hargs]
    exact hb

/-- **An evaluation that halts on the way halts the whole**, for the same reason. -/
theorem Performs.result_of_halt (hab : Performs a b) (hb : b.result = .error why h) : a.result = .error why h := by
  induction hab using Relation.ReflTransGen.head_induction_on with
  | refl => exact hb
  | head hstep _ ih => exact hstep.result_of_halt ih

/-! ## What an evaluation halts at -/

/-- It halts for a reason that has to do with a node: its own, or that of a part that halts so. -/
def HaltsWithin (a : Evaluation) (why : Halt) : Prop :=
  a.Faults why ∨ ∃ b h, Starts a b ∧ b.result = .error why h

/-- It is enough that an evaluation that it starts halts. -/
theorem HaltsWithin.of_starts (hab : Starts a b) (hb : b.result = .error why h) : a.HaltsWithin why :=
  Or.inr ⟨b, h, hab, hb⟩

/-- A program halts within a statement that it gets to. -/
theorem haltsWithin_program (hwhy : why ≠ .tooDeep)
    (ha : eval (depth + 1) (.program ns) scope h = .error why h') :
    HaltsWithin (.node (depth + 1) (.program ns) scope h) why := by
  rw [eval] at ha
  cases depth with
  | zero =>
    unfold evalProgram at ha
    cases ha
    exact absurd rfl hwhy
  | succ depth =>
    unfold evalProgram at ha
    rcases halt_of_bind ha with hss | ⟨v, h₁, -, hv⟩
    · obtain ⟨s, h₁, hs, hhalt⟩ := getsTo_of_sequence_halt hss
      exact .of_starts (.opens (.program hs)) hhalt
    · cases hv

/-- A block halts within a statement that it gets to. -/
theorem haltsWithin_block (hwhy : why ≠ .tooDeep) (ha : eval (depth + 1) (.block t ns) scope h = .error why h') :
    HaltsWithin (.node (depth + 1) (.block t ns) scope h) why := by
  rw [eval] at ha
  cases depth with
  | zero =>
    unfold evalBlock at ha
    cases ha
    exact absurd rfl hwhy
  | succ depth =>
    unfold evalBlock at ha
    obtain ⟨s, h₁, hs, hhalt⟩ := getsTo_of_sequence_halt ha
    exact .of_starts (.passes (.block hs)) hhalt

/-- A conditional halts within its condition or the branch that it takes. -/
theorem haltsWithin_conditional (hwhy : why ≠ .tooDeep)
    (ha : eval (depth + 1) (.conditional t c n e) scope h = .error why h') :
    HaltsWithin (.node (depth + 1) (.conditional t c n e) scope h) why := by
  rw [eval] at ha
  cases depth with
  | zero =>
    unfold evalConditional at ha
    cases ha
    exact absurd rfl hwhy
  | succ depth =>
    unfold evalConditional at ha
    rcases halt_of_proceed ha with hc | ⟨v, h₁, hv, hgo, hbranch⟩
    · exact .of_starts .condition hc
    · split at hbranch
      next ht => exact .of_starts (.passes (.consequence hv hgo ht)) hbranch
      next ht =>
        split at hbranch
        next => cases hbranch
        next hne => exact .of_starts (.passes (.alternative hv hgo (Bool.eq_false_iff.2 ht) hne)) hbranch

/-- A `return` halts within its value. -/
theorem haltsWithin_returnStatement (ha : eval (depth + 1) (.returnStatement t n) scope h = .error why h') :
    HaltsWithin (.node (depth + 1) (.returnStatement t n) scope h) why := by
  by_cases hne : n = .hole
  · subst hne
    rw [eval] at ha
    cases ha
  · rw [eval_returnStatement hne] at ha
    rcases halt_of_proceed ha with hn | ⟨v, h₁, -, -, hsignal⟩
    · exact .of_starts (.returnValue hne) hn
    · cases hsignal

/-- A call halts within its callee, an argument, or the body that is called. -/
theorem haltsWithin_call (hwhy : why ≠ .tooDeep) (ha : eval (depth + 1) (.call t n ns) scope h = .error why h') :
    HaltsWithin (.node (depth + 1) (.call t n ns) scope h) why := by
  rw [eval] at ha
  rcases halt_of_proceed ha with hf | ⟨f, h₁, hf, hgo, hrest⟩
  · exact .of_starts .callee hf
  · rcases halt_of_bind hrest with hargs | ⟨r, h₂, hargs, hcall⟩
    · cases depth with
      | zero =>
        unfold evalArguments at hargs
        cases hargs
        exact absurd rfl hwhy
      | succ depth =>
        unfold evalArguments at hargs
        obtain ⟨e, h₂, he, hhalt⟩ := getsTo_of_collect_halt hargs
        exact .of_starts (.argument hf hgo he) hhalt
    · cases r with
      | ok vs => exact .of_starts (.call hf hgo hargs) hcall
      | error err => cases hcall

/-- A function that is applied halts within its body. -/
theorem haltsWithin_apply (hwhy : why ≠ .tooDeep) (ha : apply depth f fs h = .error why h') :
    HaltsWithin (.call depth f fs h) why := by
  cases depth with
  | zero =>
    unfold apply at ha
    cases ha
    exact absurd rfl hwhy
  | succ depth =>
    unfold apply at ha
    split at ha
    next id f =>
      split at ha
      next hlength =>
        rcases halt_of_bind ha with hopen | ⟨scope, h₁, hopen, hrest⟩
        · cases hopen
        rcases halt_of_bind hrest with hbind | ⟨_, h₂, hbind, hbody⟩
        · exact absurd hbind bindAll_ne_halt
        rcases halt_of_bind hbody with hbody | ⟨v, h₃, -, hv⟩
        · exact .of_starts (.opens (.body hlength hopen hbind)) hbody
        · cases hv
      next => exact absurd ha (operates_fail _).ne_halt
    next => exact absurd ha (operates_fail _).ne_halt

/-- **A node that halts for more than its depth** is at fault itself, or one that it starts halts. -/
theorem haltsWithin_node (hwhy : why ≠ .tooDeep) (ha : eval depth n scope h = .error why h') :
    HaltsWithin (.node depth n scope h) why := by
  cases depth with
  | zero =>
    unfold eval at ha
    cases ha
    exact absurd rfl hwhy
  | succ depth =>
    cases n with
    | program ss => exact haltsWithin_program hwhy ha
    | block t ss => exact haltsWithin_block hwhy ha
    | conditional t c b e => exact haltsWithin_conditional hwhy ha
    | returnStatement t value => exact haltsWithin_returnStatement ha
    | call t callee args => exact haltsWithin_call hwhy ha
    | hole =>
      rw [eval] at ha
      cases ha
      exact Or.inl .hole
    | unknown cls =>
      rw [eval] at ha
      cases ha
      exact Or.inl .unknown
    | expressionStatement t e =>
      rw [eval] at ha
      exact .of_starts (.passes .expressionStatement) ha
    | letStatement t target value =>
      rw [eval] at ha
      rcases halt_of_proceed ha with hvalue | ⟨v, h₁, -, -, hbind⟩
      · exact .of_starts .letValue hvalue
      · cases hbind
    | unary t op operand =>
      rw [eval] at ha
      rcases halt_of_proceed ha with he | ⟨v, h₁, -, -, hop⟩
      · exact .of_starts .operand he
      · exact absurd hop (operates_unary op v).ne_halt
    | binary t left op right =>
      rw [eval] at ha
      rcases halt_of_proceed ha with hl | ⟨l, h₁, hl, hgo, hrest⟩
      · exact .of_starts .left hl
      rcases halt_of_proceed hrest with hr | ⟨r, h₂, -, -, hop⟩
      · exact .of_starts (.right hl hgo) hr
      · exact absurd hop (operates_binary op l r).ne_halt
    | identifier id =>
      rw [eval] at ha
      exact absurd ha lookup_ne_halt
    | integer | boolean | function =>
      rw [eval] at ha
      cases ha

/-- Whatever halts an evaluation is a node of its own, or halts a part of it. -/
theorem haltsWithin_of_halt (hwhy : why ≠ .tooDeep) (ha : a.result = .error why h) : a.HaltsWithin why := by
  cases a with
  | node => exact haltsWithin_node hwhy ha
  | call => exact haltsWithin_apply hwhy ha

/-- **What is not too deep halts at a node without meaning.** -/
theorem exists_faults_of_halt {a : Evaluation} {h : Heap} (hwhy : why ≠ .tooDeep) (ha : a.result = .error why h) :
    ∃ b, Performs a b ∧ b.Faults why := by
  rcases haltsWithin_of_halt hwhy ha with hfault | ⟨b, h', hab, hb⟩
  · exact ⟨a, .refl, hfault⟩
  · have : b.depth < a.depth := hab.depth_lt
    obtain ⟨c, hbc, hfault⟩ := exists_faults_of_halt hwhy hb
    exact ⟨c, .head hab hbc, hfault⟩
termination_by a.depth

end Evaluation

end Monkey
