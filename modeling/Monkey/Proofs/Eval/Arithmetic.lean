import Monkey.Proofs.Eval.Halting
import Monkey.Proofs.Heap.Lookup
import Monkey.Proofs.Word

/-!
# Arithmetic

Integers are computed with as a machine does that has signed words of 64 bits (`binary_eq_machine`). An expression may
be computed exactly as well, with whole numbers, if it consists of integers, names of integers, sums, differences,
products and negations (`Node.wholeValue?`). Its value is then the word of the exact one, whatever has wrapped on the way
(`arithmetic_of_words`).
-/

namespace Monkey

namespace Eval

/-- What an operator makes of two machine words. -/
def machine (op : BinaryOp) (x y : BitVec 64) : Eval Value :=
  match op with
  | .add => integer (x + y).toInt
  | .sub => integer (x - y).toInt
  | .mul => integer (x * y).toInt
  | .div => if y = 0 then fail .divisionByZero else integer (x.sdiv y).toInt
  | .lt => return .boolean (x.slt y)
  | .gt => return .boolean (y.slt x)
  | .eq => return .boolean (x = y)
  | .ne => return .boolean (x ≠ y)
  | .other _ => fail (.unknownBinary op .integer .integer)

section Words

variable {a b : Int} (i j : ObjectId)

/-- An operator applied to two words is the one of the machine. -/
theorem binary_eq_machine (hamin : minWord ≤ a) (hamax : a ≤ maxWord) (hbmin : minWord ≤ b) (hbmax : b ≤ maxWord)
    (op : BinaryOp) :
    binary op (.integer i a) (.integer j b) = machine op (BitVec.ofInt 64 a) (BitVec.ofInt 64 b) := by
  show integers op a b = _
  have hinj := ofInt_inj_of_word hamin hamax hbmin hbmax
  have hzero := ofInt_inj_of_word (b := 0) hbmin hbmax (by decide) (by decide)
  cases op with
  | add => rw [integers, wrap_add, machine]
  | sub => rw [integers, wrap_sub, machine]
  | mul => rw [integers, wrap_mul, machine]
  | div =>
    rw [integers, machine, quotient_eq_sdiv hamin hamax hbmin hbmax]
    exact if_congr hzero.symm rfl rfl
  | lt => rw [integers, machine, slt_ofInt_of_word hamin hamax hbmin hbmax]
  | gt => rw [integers, machine, slt_ofInt_of_word hbmin hbmax hamin hamax]
  | eq => simp only [integers, machine, hinj]
  | ne => simp only [integers, machine, ne_eq, hinj]
  | other s => rfl

theorem integer_ne_fail (n : Int) (cause : RuntimeError) : integer n ≠ fail cause := by
  intro h
  cases congrFun h .empty

/-- Division fails for zero and nothing else. -/
theorem binary_div_eq_fail_iff (a b : Int) :
    binary .div (.integer i a) (.integer j b) = fail .divisionByZero ↔ b = 0 := by
  show integers .div a b = _ ↔ _
  rw [integers]
  split
  next hb => exact iff_of_true rfl hb
  next hb => exact iff_of_false (integer_ne_fail _ _) hb

end Words

end Eval

/-! ## Exact values -/

/-- What an operator makes of two whole numbers, if it is one of sums, differences and products. -/
def BinaryOp.whole? : BinaryOp → Int → Int → Option Int
  | .add, a, b => some (a + b)
  | .sub, a, b => some (a - b)
  | .mul, a, b => some (a * b)
  | _, _, _ => none

namespace Node

/-- The exact value of an expression of integers, names, sums, differences, products and negations, where names have
the values `value`. -/
def wholeValue? (value : String → Option Int) : Node → Option Int
  | .integer _ n => some n
  | .identifier id => value id.name
  | .unary _ .negate e => (e.wholeValue? value).map fun n => -n
  | .binary _ left op right =>
    (left.wholeValue? value).bind fun a => (right.wholeValue? value).bind fun b => op.whole? a b
  | _ => none

/-- An expression with an operator. -/
def isOperation : Node → Bool
  | .unary .. => true
  | .binary .. => true
  | _ => false

end Node

/-- The integer that a name is bound to. -/
def Heap.integer? (h : Heap) (scope : ScopeId) (name : String) : Option Int :=
  match h.lookup scope name with
  | some (.integer _ n) => some n
  | _ => none

theorem Heap.integer?_eq_some_iff {h : Heap} {scope : ScopeId} {name : String} {n : Int} :
    h.integer? scope name = some n ↔ ∃ id, h.lookup scope name = some (.integer id n) := by
  unfold integer?
  split <;> simp_all

namespace Eval

/-- Evaluation gives the integer `n` if it may nest `levels` deep, and else it is cut off. It binds nothing; on a heap
like `h` it only counts the values that it makes. -/
def Computes (levels : Nat) (x : Nat → Eval Value) (h : Heap) (n : Int) : Prop :=
  ∀ depth k,
    (levels ≤ depth → ∃ id k', x depth { h with nextObject := k } = .ok (.integer id n) { h with nextObject := k' }) ∧
      (depth < levels → ∃ k', x depth { h with nextObject := k } = .error .tooDeep { h with nextObject := k' })

section Computes

variable {x y : Nat → Eval Value} {levels more : Nat} {h : Heap} {scope : ScopeId}
  {t : Token} {e left right : Node} {op : BinaryOp} {a b c n : Int}

theorem computes_integer (h : Heap) (n : Int) : Computes 0 (fun _ => integer n) h n :=
  fun _ k => ⟨fun _ => ⟨k, k + 1, rfl⟩, fun hlt => absurd hlt (Nat.not_lt_zero _)⟩

/-- One level of nesting is taken for what is computed inside. -/
theorem Computes.deeper (hx : Computes levels x h n) (hzero : y 0 = throw .tooDeep)
    (hsucc : ∀ depth, y (depth + 1) = x depth) : Computes (levels + 1) y h n := by
  intro depth k
  cases depth with
  | zero =>
    refine ⟨fun hle => absurd hle (Nat.not_succ_le_zero _), fun _ => ⟨k, ?_⟩⟩
    rw [hzero]
    rfl
  | succ depth =>
    obtain ⟨hok, hdeep⟩ := hx depth k
    rw [hsucc]
    exact ⟨fun hle => hok (by omega), fun hlt => hdeep (by omega)⟩

theorem computes_proceed (next : Nat → Value → Eval Value) (hx : Computes levels x h a)
    (hnext : ∀ id, Computes more (fun depth => next depth (.integer id a)) h b) :
    Computes (max levels more) (fun depth => proceed (x depth) (next depth)) h b := by
  intro depth k
  rcases Nat.lt_or_ge depth levels with hlt | hle
  · obtain ⟨k', hv⟩ := (hx depth k).2 hlt
    exact ⟨fun hmax => by omega, fun _ => ⟨k', proceed_of_halt hv⟩⟩
  · obtain ⟨id, k', hv⟩ := (hx depth k).1 hle
    dsimp only
    rw [proceed_of_ok hv rfl]
    obtain ⟨hok, hdeep⟩ := hnext id depth k'
    exact ⟨fun hmax => hok (by omega), fun hmax => hdeep (by omega)⟩

theorem computes_negate (he : Computes levels (fun depth => eval depth e scope) h a) :
    Computes (levels + 1) (fun depth => eval depth (.unary t .negate e) scope) h (wrap (-a)) := by
  have hoperand := computes_proceed (fun _ => unary .negate) he fun _ => computes_integer h (wrap (-a))
  rw [Nat.max_zero] at hoperand
  exact hoperand.deeper (by rw [eval]) fun depth => by rw [eval]

theorem computes_binary (hl : Computes levels (fun depth => eval depth left scope) h a)
    (hr : Computes more (fun depth => eval depth right scope) h b) (hop : op.whole? a b = some c) :
    Computes (max levels more + 1) (fun depth => eval depth (.binary t left op right) scope) h (wrap c) := by
  have happly (i j : ObjectId) : binary op (.integer i a) (.integer j b) = integer (wrap c) := by
    cases op <;> cases hop <;> rfl
  have hright (i : ObjectId) : Computes more
      (fun depth => proceed (eval depth right scope) (binary op (.integer i a))) h (wrap c) := by
    have hboth := computes_proceed (fun _ => binary op (.integer i a)) hr fun j => by
      rw [happly]
      exact computes_integer h (wrap c)
    rwa [Nat.max_zero] at hboth
  have hboth := computes_proceed (fun depth l => proceed (eval depth right scope) (binary op l)) hl hright
  exact hboth.deeper (by rw [eval]) fun depth => by rw [eval]

theorem computes_identifier {id : Identifier} (hv : h.integer? scope id.name = some n) :
    Computes 1 (fun depth => eval depth (.identifier id) scope) h n := by
  obtain ⟨i, hi⟩ := Heap.integer?_eq_some_iff.1 hv
  have hlookup : Computes 0 (fun _ => lookup scope id.name) h n := by
    refine fun _ k => ⟨fun _ => ⟨i, k, lookup_of_some ?_⟩, fun hlt => absurd hlt (Nat.not_lt_zero _)⟩
    exact Eq.trans (Heap.lookup_of_scopes (by rfl) scope id.name) hi
  exact hlookup.deeper (by rw [eval]) fun depth => by rw [eval]

/-! ## The value of an expression -/

/-- What an operator makes of operands that have wrapped is congruent to what it makes of the exact ones. -/
theorem whole?_congr {a' b' : Int} (hop : op.whole? a b = some c) (ha : a' ≡ a [ZMOD 2 ^ 64])
    (hb : b' ≡ b [ZMOD 2 ^ 64]) : ∃ c', op.whole? a' b' = some c' ∧ c' ≡ c [ZMOD 2 ^ 64] := by
  cases op <;> cases hop
  · exact ⟨_, rfl, ha.add hb⟩
  · exact ⟨_, rfl, ha.sub hb⟩
  · exact ⟨_, rfl, ha.mul hb⟩

/-- The word of a number if the number is that of an operation; an operand alone is not wrapped. -/
theorem modEq_of_isOperation (e : Node) (n : Int) : (if e.isOperation then wrap n else n) ≡ n [ZMOD 2 ^ 64] := by
  split
  · exact wrap_modEq n
  · rfl

/-- By induction on the expression: with operands congruent to the exact ones, each operator gives the word of the exact
result. -/
theorem exists_computes (he : e.wholeValue? (h.integer? scope) = some n) :
    ∃ levels, Computes levels (fun depth => eval depth e scope) h (if e.isOperation then wrap n else n) := by
  fun_induction Node.wholeValue? generalizing n with
  | case1 t m =>
    obtain rfl := Option.some.inj he
    exact ⟨1, (computes_integer h m).deeper (by rw [eval]) fun depth => by rw [eval]⟩
  | case2 id => exact ⟨1, computes_identifier he⟩
  | case3 t e ih =>
    obtain ⟨a, ha, rfl⟩ := Option.map_eq_some_iff.1 he
    obtain ⟨levels, hcomputes⟩ := ih ha
    rw [Node.isOperation, if_pos rfl, ← wrap_congr (modEq_of_isOperation e a).neg]
    exact ⟨_, computes_negate hcomputes⟩
  | case4 t left op right ihl ihr =>
    obtain ⟨a, ha, hrest⟩ := Option.bind_eq_some_iff.1 he
    obtain ⟨b, hb, hop⟩ := Option.bind_eq_some_iff.1 hrest
    obtain ⟨levels, hl⟩ := ihl ha
    obtain ⟨more, hr⟩ := ihr hb
    obtain ⟨c, hc, hmod⟩ := whole?_congr hop (modEq_of_isOperation left a) (modEq_of_isOperation right b)
    rw [Node.isOperation, if_pos rfl, ← wrap_congr hmod]
    exact ⟨_, computes_binary hl hr hc⟩
  | case5 => cases he

end Computes

/-- **Arithmetic is that of signed words of 64 bits.** On words the operators are the operations of a machine; a
quotient is that of the absolute values with the sign put back, and wraps only if the least word is divided by minus one.
The word of a number is the only one that differs from it by a multiple of `2 ^ 64`. So an expression of sums,
differences, products and negations has as its value the word of the number that it stands for, however often it wraps
on the way; a leaf may be a number of any size then, and is itself the value, a word, if it stands alone. -/
theorem arithmetic_of_words :
    (∀ a b, minWord ≤ a → a ≤ maxWord → minWord ≤ b → b ≤ maxWord → ∀ i j,
      (∀ op, binary op (.integer i a) (.integer j b) = machine op (BitVec.ofInt 64 a) (BitVec.ofInt 64 b)) ∧
      unary .negate (.integer i a) = integer (-BitVec.ofInt 64 a).toInt ∧
      (binary .div (.integer i a) (.integer j b) = fail .divisionByZero ↔ b = 0) ∧
      (b ≠ 0 → binary .div (.integer i a) (.integer j b) = integer (quotient a b)) ∧
      quotient a b = wrap (if a < 0 ↔ b < 0 then |a| / |b| else -(|a| / |b|)) ∧
      (quotient a b = a.tdiv b ↔ ¬(a = minWord ∧ b = -1))) ∧
    (∀ m n, m = wrap n ↔ minWord ≤ m ∧ m ≤ maxWord ∧ m ≡ n [ZMOD 2 ^ 64]) ∧
    ∀ e scope h n, e.wholeValue? (h.integer? scope) = some n → e.isOperation ∨ minWord ≤ n ∧ n ≤ maxWord →
      ∃ levels, Computes levels (fun depth => eval depth e scope) h (wrap n) := by
  refine ⟨fun a b hamin hamax hbmin hbmax i j => ⟨?_, ?_, ?_, ?_, ?_, ?_⟩, fun _ _ => eq_wrap_iff, ?_⟩
  · exact binary_eq_machine i j hamin hamax hbmin hbmax
  · rw [unary, wrap_neg]
  · exact binary_div_eq_fail_iff i j a b
  · intro hb
    show integers .div a b = _
    rw [integers, if_neg hb]
  · exact quotient_eq_abs a b
  · exact quotient_eq_tdiv_iff hamin hamax hbmin hbmax
  · intro e scope h n he hword
    obtain ⟨levels, hcomputes⟩ := exists_computes he
    refine ⟨levels, ?_⟩
    rcases hword with hop | ⟨hmin, hmax⟩
    · rwa [if_pos hop] at hcomputes
    · rw [wrap_eq_self hmin hmax] at hcomputes ⊢
      rwa [ite_self] at hcomputes

/-- The least word divided by minus one, and `-(x * x)` for the greatest word, which is the word of a number that takes
126 bits. -/
theorem arithmetic_of_words_ends :
    (binary .div (.integer 0 minWord) (.integer 1 (-1)) = integer minWord ∧ minWord.tdiv (-1) ≠ minWord) ∧
    ∃ (h : Heap) (e : Node), h.lookup 0 "x" = some (.integer 0 maxWord) ∧
      e = .unary .blank .negate (.binary .blank (.identifier ⟨.blank, "x"⟩) .mul (.identifier ⟨.blank, "x"⟩)) ∧
      ∃ levels, Computes levels (fun depth => eval depth e 0) h (-1) := by
  obtain ⟨hwords, -, htrees⟩ := arithmetic_of_words
  obtain ⟨-, -, -, hdiv, -, htdiv⟩ := hwords minWord (-1) (by decide) (by decide) (by decide) (by decide) 0 1
  have hwraps : quotient minWord (-1) = minWord := by decide
  refine ⟨⟨(hdiv (by decide)).trans (by rw [hwraps]), fun heq => ?_⟩,
    ⟨#[⟨none, [("x", .integer 0 maxWord)]⟩], 1, []⟩, _, rfl, rfl, ?_⟩
  · exact htdiv.1 (hwraps.trans heq.symm) ⟨rfl, rfl⟩
  · have hwrap : wrap (-(maxWord * maxWord)) = -1 := by decide
    rw [← hwrap]
    exact htrees _ _ _ _ rfl (.inl rfl)

end Eval

end Monkey
