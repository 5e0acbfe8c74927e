import Mathlib.Data.Nat.ModEq
import Mathlib.Tactic.SplitIfs

/-! Positions on a ring. A position counts all steps ever taken; its slot is the remainder.
Code keeps slots only and wraps with a comparison instead of a division. -/
namespace GpuExt.Ring

variable {p q c d : Nat}

/-- One wrap is enough for a step of at most the size of the ring. -/
theorem slot_add (step : d ≤ c) :
    (p + d) % c = if c ≤ p % c + d then p % c + d - c else p % c + d := by
  rcases step.lt_or_eq with less | rfl
  · rw [Nat.add_mod_eq_ite,Nat.mod_eq_of_lt less]
  · simp

theorem slot_lt (nonempty : 0 < c) : p % c < c := Nat.mod_lt p nonempty

/-- The distance of two positions, computed from their slots. -/
theorem slot_distance (nonempty : 0 < c) (order : p ≤ q) (near : q < p + c) :
    (if c ≤ q % c + c - p % c then q % c + c - p % c - c else q % c + c - p % c) = q - p := by
  obtain ⟨d,rfl⟩ := Nat.exists_eq_add_of_le order
  rw [slot_add (by omega : d ≤ c)]
  split_ifs <;> omega

theorem slot_distance_mod (nonempty : 0 < c) (order : p ≤ q) (near : q < p + c) :
    (q % c + c - p % c) % c = q - p := by
  have distance := slot_distance nonempty order near
  split_ifs at distance with wrapped
  · rw [Nat.mod_eq_sub_mod wrapped,distance]
    exact Nat.mod_eq_of_lt (by omega)
  · rw [Nat.mod_eq_of_lt (by omega),distance]

/-- Positions less than one turn apart have different slots. -/
theorem slot_inj (order : p ≤ q) (near : q < p + c) (same : p % c = q % c) : p = q := by
  obtain ⟨d,rfl⟩ := Nat.exists_eq_add_of_le order
  rw [slot_add (by omega : d ≤ c)] at same
  split_ifs at same <;> omega

theorem slot_ne (order : p < q) (near : q < p + c) : p % c ≠ q % c :=
  fun same => order.ne (slot_inj order.le near same)

end GpuExt.Ring
