import ScalarScript.Proofs.Symbolic.Turn
import ScalarScript.Proofs.Typing.Accepted
/-!
What a comparison followed by a set operation stores for the four conditions that ask for an order.
Between numbers it is that order. Where a null is compared there is no order, but the inclusive
conditions look at equality as well, and two nulls are equal.
-/
namespace ScalarScript

section Float

open Float.Model (UnpackedFloat)

theorem UnpackedFloat.compare_swap (a b : UnpackedFloat) :
    b.compare a = (a.compare b).map Ordering.swap := by
  have natural (m n : Nat) : (compare m n).swap = compare n m := Std.OrientedCmp.eq_swap.symm
  have whole (m n : Int) : (compare m n).swap = compare n m := Std.OrientedCmp.eq_swap.symm
  delta UnpackedFloat.compare
  rcases a with ⟨_ | _⟩ | _ | _ | ⟨_ | _, _, _, _⟩ <;>
    rcases b with ⟨_ | _⟩ | _ | _ | ⟨_ | _, _, _, _⟩ <;> try rfl
  case finite.negative.finite.negative =>
    dsimp only [Option.map_some]
    rw [Ordering.swap_swap, Ordering.swap_then, whole, natural]
  case finite.positive.finite.positive =>
    dsimp only [Option.map_some]
    rw [Ordering.swap_then, whole, natural]

theorem UnpackedFloat.beq_swap (a b : UnpackedFloat) : b.beq a = a.beq b := by
  unfold UnpackedFloat.beq
  rw [compare_swap a b]
  rcases a.compare b with _ | _ | _ | _ <;> rfl

theorem UnpackedFloat.le_eq (a b : UnpackedFloat) : a.le b = (a.lt b || a.beq b) := by
  unfold UnpackedFloat.le UnpackedFloat.lt UnpackedFloat.beq
  rcases a.compare b with _ | _ | _ | _ <;> rfl

theorem Float.beq_swap (x y : Float) : (y == x) = (x == y) :=
  UnpackedFloat.beq_swap x.toModel.unpack y.toModel.unpack

-- Doubles in an inclusive order are in the strict one or equal.
theorem Float.le_iff (x y : Float) : x ≤ y ↔ x < y ∨ (x == y) = true := by
  have le : decide (x.toModel ≤ y.toModel) = x.toModel.unpack.le y.toModel.unpack :=
    Bool.decide_eq_true
  have lt : decide (x.toModel < y.toModel) = x.toModel.unpack.lt y.toModel.unpack :=
    Bool.decide_eq_true
  have same : Float.le x y = (Float.lt x y || Float.beq x y) := by
    simp only [Float.le, Float.lt, le, lt, UnpackedFloat.le_eq]
    rfl
  show Float.le x y = true ↔ Float.lt x y = true ∨ Float.beq x y = true
  rw [same, Bool.or_eq_true]

end Float

-- The order of numbers that a condition asks for.
def Condition.Orders (c : Condition) (x y : Float) : Prop :=
  match c with
  | .above => x > y
  | .aboveEqual => x ≥ y
  | .below => x < y
  | .belowEqual => x ≤ y
  | .equal | .notEqual => False

-- Conditions that hold of equal operands as well.
def Condition.isInclusive : Condition → Bool
  | .aboveEqual | .belowEqual => true
  | _ => false

-- Numbers, neither of them null, in the order that a condition asks for.
inductive Value.Ordered (c : Condition) : Value → Value → Prop where
  | numbers {x y : Float} (order : c.Orders x y) : Ordered c (.double (some x)) (.double (some y))

namespace Value

theorem ordered_numbers {c : Condition} {x y : Float} :
    Ordered c (.double (some x)) (.double (some y)) ↔ c.Orders x y := by
  refine ⟨fun ordered => ?_, .numbers⟩
  cases ordered
  assumption

theorem not_ordered_of_isNull {c : Condition} {a b : Value}
    (null : a.isNull = true ∨ b.isNull = true) : ¬ Ordered c a b := by
  rintro ⟨_⟩
  rcases null with null | null <;> cases null

-- Only numbers are less than one another.
theorem of_less {a b : Value} (less : a.less b = true) :
    ∃ x y, a = .double (some x) ∧ b = .double (some y) := by
  unfold Value.less at less
  split at less
  · exact ⟨_, _, rfl, rfl⟩
  · cases less

theorem equals_of_either_isNull {a b : Value} (null : a.isNull = true ∨ b.isNull = true) :
    a.equals b = true ↔ a.isNull = true ∧ b.isNull = true := by
  rcases null with left | right
  · rw [equals_of_isNull left]
    exact ⟨fun right => ⟨left, right⟩, And.right⟩
  · rcases a with _ | (_ | _) | (_ | _) | (_ | _) <;> cases b <;> simp_all [equals, isNull]

end Value

-- The flags of a comparison give the order of numbers, and equality where the condition asks for it.
theorem Condition.holds_compared {c : Condition} (order : c.isOrder = true) (a b : Value) :
    c.holds (Core.compared a b) = true ↔
      Value.Ordered c a b ∨ c.isInclusive = true ∧ a.equals b = true := by
  by_cases numbers : ∃ x y, a = .double (some x) ∧ b = .double (some y)
  · obtain ⟨x, y, rfl, rfl⟩ := numbers
    rw [Value.ordered_numbers]
    cases c with
    | equal => cases order
    | notEqual => cases order
    | above => simp [holds, Core.compared, Value.greater, Value.less, Orders, isInclusive]
    | below => simp [holds, Core.compared, Value.less, Orders, isInclusive]
    | aboveEqual =>
      have inclusive : x ≥ y ↔ y < x ∨ (x == y) = true := by
        rw [Float.beq_swap y x]
        exact Float.le_iff y x
      simp [holds, Core.compared, Value.greater, Value.less, Value.equals, Orders, isInclusive,
        inclusive]
    | belowEqual =>
      simp [holds, Core.compared, Value.less, Value.equals, Orders, isInclusive, Float.le_iff x y]
  · have unordered : ¬ Value.Ordered c a b := by
      rintro ⟨_⟩
      exact numbers ⟨_, _, rfl, rfl⟩
    have below : a.less b = false := Bool.eq_false_iff.mpr fun less => numbers (Value.of_less less)
    have above : a.greater b = false := by
      refine Bool.eq_false_iff.mpr fun greater => ?_
      obtain ⟨y, x, right, left⟩ := Value.of_less greater
      exact numbers ⟨x, y, left, right⟩
    cases c <;> simp_all [holds, Core.compared, isInclusive, isOrder]

namespace Exec

variable {World Watch : Type}

-- A comparison, then a set operation on a register.
def judge (m : Machine World Watch) (a b : Operand) (c : Condition) (r : Register) :
    Exec World Watch Unit := do
  perform m (.binary .compare a b)
  perform m (.unary (.setIf c) (.register r))

theorem judge_ok {m : Machine World Watch} {s : RunState World Watch} {a b : Operand} {x y : Value}
    {r : Register} (c : Condition) (left : s.resolve a = .ok x) (right : s.resolve b = .ok y)
    (known : r.index < Register.count) :
    ∃ u, judge m a b c r s = .ok ⟨⟩ u ∧
      u.registers.get? r = some (.truth (c.holds (Core.compared x y))) := by
  have compares : Core.effect (.binary .compare a b) s.toCore =
      .ok { s.toCore with flags := Core.compared x y } := by
    show (do
      let x ← s.resolve a
      let y ← s.resolve b
      return { s.toCore with flags := Core.compared x y }) = _
    rw [left, right]
    rfl
  have sets (core : Core World) : Core.effect (.unary (.setIf c) (.register r)) core =
      .ok (core.setRegister r (.truth (c.holds core.flags))) := by
    show (do
      let target ← core.locate (.register r)
      core.assign target (.truth (c.holds core.flags))) = _
    simp only [Core.locate, if_pos known]
    rfl
  have first := Stateful.bind_of_ok (f := fun _ => perform m (.unary (.setIf c) (.register r)))
    (perform_of_ok (m := m) (by simp [Instruction.binary]) compares)
  exact ⟨_, first.trans (perform_of_ok (by simp [Instruction.unary]) (sets _)),
    Registers.get?_set_same known⟩

-- What the four ordering conditions store, whatever the operands hold. A null makes them false, but
-- for the inclusive ones when both operands are null.
theorem judge_ordered {m : Machine World Watch} {s : RunState World Watch} {a b : Operand}
    {x y : Value} {r : Register} {c : Condition} (order : c.isOrder = true)
    (left : s.resolve a = .ok x) (right : s.resolve b = .ok y)
    (known : r.index < Register.count) :
    ∃ u held, judge m a b c r s = .ok ⟨⟩ u ∧ u.registers.get? r = some (.truth held) ∧
      (held = true ↔ Value.Ordered c x y ∨ c.isInclusive = true ∧ x.equals y = true) ∧
      (x.isNull = true ∨ y.isNull = true →
        (held = true ↔ c.isInclusive = true ∧ x.isNull = true ∧ y.isNull = true)) := by
  obtain ⟨u, ran, stored⟩ := judge_ok c left right known
  refine ⟨u, _, ran, stored, Condition.holds_compared order x y, ?_⟩
  intro null
  rw [Condition.holds_compared order, Value.equals_of_either_isNull null]
  exact or_iff_right (Value.not_ordered_of_isNull null)

end Exec

-- A source that compares two variables which were never assigned to.
namespace Unassigned

def source : String := "double a; double b; exit a <= b;"

-- The truth value that a run of twenty steps exits with.
def answer : Option Bool :=
  match (Hostless.machine source).runFrom 20 Hostless.first with
  | some (.ok (.bool truth), _) => truth
  | _ => none

theorem computed :
    (tokenize source).isOk = true ∧
      (compileTokens ((tokenize source).toOption.getD []) [] none).error.isNone = true ∧
      (link (Hostless.program source)).isOk = true ∧ answer = some true := by
  decide +kernel

end Unassigned

-- A null is in the inclusive order of a null.
theorem Exec.judge_ordered_null :
    ∃ u held, Exec.judge (Hostless.machine Unassigned.source) .null .null .belowEqual .eax
        Hostless.first = .ok ⟨⟩ u ∧
      u.registers.get? .eax = some (.truth held) ∧ held = true := by
  obtain ⟨u, held, ran, stored, -, null⟩ := Exec.judge_ordered
    (m := Hostless.machine Unassigned.source) (s := Hostless.first) (a := .null) (b := .null)
    (r := .eax) (c := .belowEqual) rfl rfl rfl (by decide)
  exact ⟨u, held, ran, stored, (null (.inl rfl)).mpr ⟨rfl, rfl, rfl⟩⟩

theorem unassigned_in_order :
    Accepted [] Unassigned.source "" Hostless.bound none (Hostless.program Unassigned.source) ∧
      (Hostless.machine Unassigned.source).Loads Hostless.bound
        (Hostless.program Unassigned.source) ∧
      Hostless.bound.Starts Hostless.first ∧
      ∃ final : RunState Unit Unit,
        (Hostless.machine Unassigned.source).runFrom 20 Hostless.first =
          some (.ok (.truth true), final) := by
  obtain ⟨read, fine, links, answered⟩ := Unassigned.computed
  refine ⟨Hostless.accepted read fine, Hostless.loads links, Hostless.starts, ?_⟩
  unfold Unassigned.answer at answered
  split at answered
  · rename_i final ran
    rw [answered] at ran
    exact ⟨final, ran⟩
  · cases answered

end ScalarScript
