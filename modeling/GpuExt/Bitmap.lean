import Mathlib.Data.List.Count
import Mathlib.Data.BitVec
import Mathlib.Algebra.BigOperators.Group.List.Basic

/-! Bitmaps stored as 64-bit words. Counts of clear bits, and of clear groups of 32
bits, are sums over the words. -/
namespace GpuExt.Bitmap

open Function List

abbrev Words := Nat → BitVec 64

def bit (words : Words) (i : Nat) : Bool := (words (i / 64)).getLsbD (i % 64)

def zeros (x : BitVec 64) : Nat := (range 64).countP fun i => !x.getLsbD i

def ones (x : BitVec 64) : Nat := (range 64).countP fun i => x.getLsbD i

/-- The two aligned groups of 32 bits in a word that are clear. -/
def clearHalves (x : BitVec 64) : Nat :=
  (if x.setWidth 32 = 0 then 1 else 0) + (if (x >>> 32).setWidth 32 = 0 then 1 else 0)

def clearGroup (words : Words) (g : Nat) : Bool :=
  (range 32).all fun j => !bit words (32 * g + j)

def sumWords (f : BitVec 64 → Nat) (words : Words) (length : Nat) : Nat :=
  ((range length).map fun i => f (words i)).sum

theorem sumWords_succ (f : BitVec 64 → Nat) (words : Words) (n : Nat) :
    sumWords f words (n + 1) = sumWords f words n + f (words n) := by
  simp [sumWords,range_succ]

/-- Replacing one word moves the sum by the change in that word. -/
theorem sumWords_update (f : BitVec 64 → Nat) (words : Words) (value : BitVec 64) (inside : i < n) :
    sumWords f (update words i value) n + f (words i) =
      sumWords f words n + f value := by
  induction n with
  | zero => omega
  | succ n ih =>
    rw [sumWords_succ,sumWords_succ]
    by_cases last : i = n
    · subst last
      have rest : sumWords f (update words i value) i = sumWords f words i := by
        simp only [sumWords]
        congr 1
        apply map_congr_left
        intro j member
        rw [update_of_ne (by have := mem_range.mp member; omega)]
      rw [update_self]
      omega
    · rw [update_of_ne (Ne.symm last)]
      omega

theorem countP_range_add (p : Nat → Bool) (m n : Nat) :
    (range (m + n)).countP p =
      (range m).countP p + (range n).countP fun j => p (m + j) := by
  rw [range_add,countP_append,countP_map]
  rfl

theorem zeros_countP (words : Words) (n : Nat) :
    (range (64 * n)).countP (fun i => !bit words i) = sumWords zeros words n := by
  induction n with
  | zero => rfl
  | succ n ih =>
    rw [Nat.mul_succ,countP_range_add,sumWords_succ]
    congr 1
    apply countP_congr
    intro j member
    have bound := mem_range.mp member
    have word : (64 * n + j) / 64 = n := by omega
    have offset : (64 * n + j) % 64 = j := by omega
    rw [bit,word,offset]

theorem setWidth_eq_zero (x : BitVec 64) : x.setWidth 32 = 0 ↔ ∀ j < 32, x.getLsbD j = false := by
  constructor
  · intro zero j bound
    have := congrArg (fun y : BitVec 32 => y.getLsbD j) zero
    simpa [bound] using this
  · intro clear
    apply BitVec.eq_of_getLsbD_eq
    intro j bound
    simp [clear j bound]

theorem clearGroup_even (words : Words) (n : Nat) :
    clearGroup words (2 * n) = true ↔ (words n).setWidth 32 = 0 := by
  rw [setWidth_eq_zero,clearGroup,all_eq_true]
  constructor
  · intro clear j bound
    have := clear j (by simpa using bound)
    have word : (32 * (2 * n) + j) / 64 = n := by omega
    have offset : (32 * (2 * n) + j) % 64 = j := by omega
    simpa [bit,word,offset] using this
  · intro clear j member
    have bound := mem_range.mp member
    have word : (32 * (2 * n) + j) / 64 = n := by omega
    have offset : (32 * (2 * n) + j) % 64 = j := by omega
    simp [bit,word,offset,clear j bound]

theorem clearGroup_odd (words : Words) (n : Nat) :
    clearGroup words (2 * n + 1) = true ↔ (words n >>> 32).setWidth 32 = 0 := by
  rw [setWidth_eq_zero,clearGroup,all_eq_true]
  constructor
  · intro clear j bound
    have := clear j (by simpa using bound)
    have word : (32 * (2 * n + 1) + j) / 64 = n := by omega
    have offset : (32 * (2 * n + 1) + j) % 64 = 32 + j := by omega
    simpa [bit,word,offset] using this
  · intro clear j member
    have bound := mem_range.mp member
    have word : (32 * (2 * n + 1) + j) / 64 = n := by omega
    have offset : (32 * (2 * n + 1) + j) % 64 = 32 + j := by omega
    simpa [bit,word,offset] using clear j bound

theorem groups_countP (words : Words) (n : Nat) :
    (range (2 * n)).countP (clearGroup words) = sumWords clearHalves words n := by
  induction n with
  | zero => rfl
  | succ n ih =>
    rw [sumWords_succ,clearHalves,Nat.mul_succ,countP_range_add]
    have pair : range 2 = [0, 1] := rfl
    simp only [pair,countP_cons,countP_nil,Nat.add_zero,clearGroup_even,clearGroup_odd]
    omega

def Subset (x y : BitVec 64) : Prop := ∀ i, x.getLsbD i = true → y.getLsbD i = true

theorem countP_disjoint {p q r : Nat → Bool} (l : List Nat)
    (split : ∀ i, (p i).toNat = (q i).toNat + (r i).toNat) :
    l.countP p = l.countP q + l.countP r := by
  induction l with
  | nil => rfl
  | cons i l ih =>
    have here := split i
    have asNat : ∀ b : Bool, (if b = true then 1 else 0) = b.toNat := by decide
    simp only [countP_cons,asNat]
    omega

/-- Setting bits of a word turns exactly the changed bits from clear to set. -/
theorem zeros_subset (sub : Subset x y) : zeros x = zeros y + ones (x ^^^ y) := by
  apply countP_disjoint
  intro i
  have := sub i
  cases hx : x.getLsbD i <;> cases hy : y.getLsbD i <;> simp_all

/-- Halves that are clear in only one of two words. -/
def changedHalves (x y : BitVec 64) : Nat :=
  (decide (y.setWidth 32 = 0) != decide (x.setWidth 32 = 0)).toNat +
    (decide ((y >>> 32).setWidth 32 = 0) != decide ((x >>> 32).setWidth 32 = 0)).toNat

theorem changedHalves_comm (x y : BitVec 64) : changedHalves x y = changedHalves y x := by
  simp only [changedHalves,bne_comm]

/-- Setting bits of a word can only end the clearness of its halves. -/
theorem clearHalves_subset (sub : Subset x y) :
    clearHalves x = clearHalves y + changedHalves x y := by
  have low : y.setWidth 32 = 0 → x.setWidth 32 = 0 := by
    rw [setWidth_eq_zero,setWidth_eq_zero]
    intro clear j bound
    have := sub j
    grind
  have high : (y >>> 32).setWidth 32 = 0 → (x >>> 32).setWidth 32 = 0 := by
    rw [setWidth_eq_zero,setWidth_eq_zero]
    intro clear j bound
    have := sub (32 + j)
    grind
  simp only [clearHalves,changedHalves]
  by_cases xl : x.setWidth 32 = 0 <;> by_cases yl : y.setWidth 32 = 0 <;>
    by_cases xh : (x >>> 32).setWidth 32 = 0 <;> by_cases yh : (y >>> 32).setWidth 32 = 0 <;>
    simp_all

section Tail

variable {words : Words} {size length : Nat}

section

variable (fits : size ≤ 64 * length)
  (padding : ∀ i, size ≤ i → i < 64 * length → bit words i = true)
include fits padding

/-- Padding bits that are set count neither as clear bits nor in clear groups. -/
theorem zeros_padded :
    (range size).countP (fun i => !bit words i) = sumWords zeros words length := by
  obtain ⟨extra, total⟩ := Nat.exists_eq_add_of_le fits
  rw [← zeros_countP,total,countP_range_add]
  have none : (range extra).countP (fun j => !bit words (size + j)) = 0 := by
    rw [countP_eq_zero]
    intro j member
    have bound := mem_range.mp member
    simp [padding (size + j) (by omega) (by omega)]
  omega

theorem groups_padded :
    (range (size / 32)).countP (clearGroup words) = sumWords clearHalves words length := by
  obtain ⟨extra, total⟩ : ∃ extra, 2 * length = size / 32 + extra :=
    Nat.exists_eq_add_of_le (by omega)
  rw [← groups_countP,total,countP_range_add]
  have none : (range extra).countP (fun j => clearGroup words (size / 32 + j)) = 0 := by
    rw [countP_eq_zero]
    intro j member clear
    have bound := mem_range.mp member
    -- The last bit of an incomplete group is padding.
    rw [clearGroup,all_eq_true] at clear
    have last := clear 31 (by simp)
    rw [padding _ (by omega) (by omega)] at last
    simp at last
  omega

end

end Tail

end GpuExt.Bitmap
