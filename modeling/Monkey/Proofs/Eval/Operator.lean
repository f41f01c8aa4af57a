import Monkey.Eval

/-!
# What operators do

The operators look at the values they are given and give a value of their own, which holds neither another value nor a
scope; if it is an integer, it is a word of 64 bits. They leave the heap as it is, but for the number of what they give
(`Eval.Operates`).
-/

namespace Monkey

/-- A value that may be computed: it holds no other value and no scope, and if it is an integer, it is a word. -/
def Value.isComputed : Value → Bool
  | .integer _ n => minWord ≤ n && n ≤ maxWord
  | .returned .. => false
  | .function .. => false
  | _ => true

/-- Errors are among the values that an operator may compute. -/
theorem Value.isComputed_of_isError {v : Value} (hv : v.isError) : v.isComputed := by
  cases v with
  | error => rfl
  | integer | boolean | null | returned | function => exact absurd hv Bool.false_ne_true

namespace Eval

/-- A computation that gives a computed value, and does no more than to number it. -/
def Operates (x : Eval Value) : Prop :=
  ∀ h : Heap, ∃ v, v.isComputed ∧ (x h = .ok v h ∨ x h = .ok v { h with nextObject := h.nextObject + 1 })

theorem operates_pure {v : Value} (hv : v.isComputed) : Operates (pure v) :=
  fun _ => ⟨v, hv, .inl rfl⟩

/-- A value made with a new number is computed if it is one for every number. -/
theorem operates_make {value : ObjectId → Value} (hv : ∀ id, (value id).isComputed) : Operates (make value) :=
  fun h => ⟨value h.nextObject, hv _, .inr rfl⟩

theorem operates_fail (cause : RuntimeError) : Operates (fail cause) :=
  operates_make fun _ => rfl

/-- What an operator makes of a number is within the range of words. -/
theorem operates_wrap (n : Int) : Operates (integer (wrap n)) :=
  operates_make fun _ => by simp [Value.isComputed, minWord_le_wrap, wrap_le_maxWord]

/-- **An operator of one operand** computes a value, or an error, and makes at most a number for it. -/
theorem operates_unary (op : UnaryOp) (v : Value) : Operates (unary op v) := by
  unfold unary
  split
  · exact operates_pure rfl
  · exact operates_wrap _
  · exact operates_fail _

/-- On two integers an operator computes a word, a truth value, or an error. -/
theorem operates_integers (op : BinaryOp) (a b : Int) : Operates (integers op a b) := by
  cases op with
  | add | sub | mul => exact operates_wrap _
  | div =>
    rw [integers]
    split
    · exact operates_fail _
    · exact operates_wrap _
  | lt | gt | eq | ne => exact operates_pure rfl
  | other s => exact operates_fail _

/-- On values that are not two integers an operator compares them or computes an error. -/
theorem operates_objects (op : BinaryOp) (left right : Value) : Operates (objects op left right) := by
  unfold objects
  split
  · exact operates_pure rfl
  · exact operates_pure rfl
  · split
    · exact operates_fail _
    · exact operates_fail _

/-- **An operator of two operands** computes a value, or an error, and makes at most a number for it. -/
theorem operates_binary (op : BinaryOp) (left right : Value) : Operates (binary op left right) := by
  unfold binary
  split
  · exact operates_integers _ _ _
  · exact operates_objects _ _ _

end Eval

end Monkey
