import Mathlib.Data.Nat.Bitwise
import Mathlib.Tactic.Ring

/-! Fixed-width words and power-of-two alignment. Words wrap; every lemma states
the value as a natural number, so that callers reason about carries with `omega`. -/
namespace GpuExt.Word

open BitVec

/-- Clear the bits below the alignment: `x & ~(a - 1)`. -/
def alignDown (x a : BitVec w) : BitVec w := x &&& ~~~(a - 1)

/-- Round up to the alignment: `(x + a - 1) & ~(a - 1)`, with the carry dropped. -/
def alignUp (x a : BitVec w) : BitVec w := alignDown (x + a - 1) a

theorem toNat_sub_one (a : BitVec w) (positive : 0 < a.toNat) : (a - 1).toNat = a.toNat - 1 := by
  have one : (1 : BitVec w).toNat = 1 := by
    change (BitVec.ofNat w 1).toNat = 1
    rw [BitVec.toNat_ofNat,Nat.mod_eq_of_lt (by omega)]
  rw [toNat_sub_of_le (by rw [le_def]; omega),one]

/-- Masked and unmasked parts of a word add up to it without a carry. -/
theorem toNat_and_add_and_not (x m : BitVec w) :
    (x &&& m).toNat + (x &&& ~~~m).toNat = x.toNat := by
  have apart : (x &&& m) &&& (x &&& ~~~m) = 0#w := by ext i; simp; grind
  have whole : (x &&& m) ||| (x &&& ~~~m) = x := by ext i; simp; grind
  have added := add_eq_or_of_and_eq_zero _ _ apart
  rw [whole] at added
  have noCarry := toNat_add_of_and_eq_zero apart
  rw [added] at noCarry
  exact noCarry.symm

section

variable (x a : BitVec w) (power : a.toNat.isPowerOfTwo)
include x a power

theorem alignDown_toNat : (alignDown x a).toNat = x.toNat - x.toNat % a.toNat := by
  have split := toNat_and_add_and_not x (a - 1)
  have low : (x &&& (a - 1)).toNat = x.toNat % a.toNat := by
    rw [toNat_and,toNat_sub_one a (Nat.pos_of_isPowerOfTwo power)]
    obtain ⟨k,hk⟩ := power
    rw [hk,Nat.and_two_pow_sub_one_eq_mod]
  simp only [alignDown]
  omega

theorem alignDown_dvd : a.toNat ∣ (alignDown x a).toNat := by
  rw [alignDown_toNat x a power]
  exact Nat.dvd_sub_mod x.toNat

theorem alignUp_dvd : a.toNat ∣ (alignUp x a).toNat :=
  alignDown_dvd _ a power

/-- The rounded value without a carry. -/
theorem alignUp_toNat (fits : x.toNat + (a.toNat - 1) < 2 ^ w) : (alignUp x a).toNat =
      x.toNat + (a.toNat - 1) - (x.toNat + (a.toNat - 1)) % a.toNat := by
  have regroup : x + a - 1 = x + (a - 1) := by
    rw [BitVec.sub_eq_add_neg,BitVec.add_assoc,← BitVec.sub_eq_add_neg]
  have sum : (x + a - 1).toNat = x.toNat + (a.toNat - 1) := by
    rw [regroup,toNat_add,toNat_sub_one a (Nat.pos_of_isPowerOfTwo power),Nat.mod_eq_of_lt fits]
  rw [alignUp,alignDown_toNat _ a power,sum]

/-- Without a carry the rounded value is the least multiple not below `x`. -/
theorem alignUp_least (multiple : Nat) (divides : a.toNat ∣ multiple) (above : x.toNat ≤ multiple)
    (bound : multiple < 2 ^ w) :
    x.toNat ≤ (alignUp x a).toNat ∧ (alignUp x a).toNat ≤ multiple := by
  have positive := Nat.pos_of_isPowerOfTwo power
  obtain ⟨k,hk⟩ := power
  have fits : x.toNat + (a.toNat - 1) < 2 ^ w := by
    have small : k ≤ w := (Nat.pow_lt_pow_iff_right (by omega)).mp (hk ▸ a.isLt) |>.le
    have whole : a.toNat ∣ 2 ^ w := hk ▸ pow_dvd_pow 2 small
    have gap : multiple + a.toNat ≤ 2 ^ w := by
      obtain ⟨m,rfl⟩ := divides
      obtain ⟨n,hn⟩ := whole
      rw [hn] at bound ⊢
      have := Nat.lt_of_mul_lt_mul_left bound
      calc a.toNat * m + a.toNat = a.toNat * (m + 1) := by ring
        _ ≤ a.toNat * n := Nat.mul_le_mul_left _ this
    omega
  have value := alignUp_toNat x a ⟨k,hk⟩ fits
  have remainder := Nat.mod_lt (x.toNat + (a.toNat - 1)) positive
  refine ⟨by omega, ?_⟩
  -- Both values are multiples, and the rounded one is less than one step above `x`.
  obtain ⟨m,rfl⟩ := divides
  obtain ⟨q,hq⟩ := alignUp_dvd x a ⟨k,hk⟩
  rw [hq] at value ⊢
  apply Nat.mul_le_mul_left
  by_contra far
  have step : a.toNat * (m + 1) ≤ a.toNat * q := Nat.mul_le_mul_left _ (by omega)
  have expand : a.toNat * (m + 1) = a.toNat * m + a.toNat := by ring
  omega

end

end GpuExt.Word
