import GpuExt.Bitmap
import Mathlib.Data.Nat.Digits.Defs
import Mathlib.Data.Nat.Bitwise
import Mathlib.Tactic.Ring

/-! Counting the bits of a word in place: masks and shifts work on all of its bytes at once, as long
as nothing is carried from one byte to the next. -/
namespace GpuExt.Popcount

open List

abbrev word (width : Nat) (digits : List Nat) : Nat := Nat.ofDigits (2 ^ width) digits

variable {w s m : Nat} {digits : List Nat}

theorem word_cons (w a : Nat) (rest : List Nat) :
    word w (a :: rest) = 2 ^ w * word w rest + a := by
  rw [word,Nat.ofDigits_cons,Nat.add_comm]

theorem and_split {a b c d : Nat} (low : a < 2 ^ w) (low' : c < 2 ^ w) :
    (2 ^ w * b + a) &&& (2 ^ w * d + c) = 2 ^ w * (b &&& d) + (a &&& c) := by
  have both : (a &&& c) < 2 ^ w := Nat.and_lt_two_pow a low'
  apply Nat.eq_of_testBit_eq
  intro i
  rw [Nat.testBit_and,Nat.testBit_two_pow_mul_add _ low,Nat.testBit_two_pow_mul_add _ low',
    Nat.testBit_two_pow_mul_add _ both]
  split <;> simp

/-- A mask with the same part in every digit, and none of it in the upper `s` bits. -/
theorem word_shift_and (small : m < 2 ^ (w - s)) (shift : s ≤ w)
    (bounded : ∀ d ∈ digits,d < 2 ^ w) :
    (word w digits >>> s) &&& word w (replicate digits.length m) =
      word w (digits.map fun d => (d >>> s) &&& m) := by
  have fits : m < 2 ^ w := small.trans_le (Nat.pow_le_pow_right (by decide) (Nat.sub_le w s))
  induction digits with
  | nil => simp
  | cons a rest ih =>
    obtain ⟨low,bounded⟩ := forall_mem_cons.mp bounded
    have masked : (a >>> s) &&& m < 2 ^ w := Nat.and_lt_two_pow _ fits
    rw [length_cons,replicate_succ,map_cons,word_cons,word_cons,word_cons,← ih bounded]
    apply Nat.eq_of_testBit_eq
    intro i
    rw [Nat.testBit_and,Nat.testBit_shiftRight,Nat.testBit_two_pow_mul_add _ low,
      Nat.testBit_two_pow_mul_add _ fits,Nat.testBit_two_pow_mul_add _ masked]
    by_cases inside : i < w
    · by_cases kept : s + i < w
      · simp [inside,kept]
      · have clear : m.testBit i = false := Nat.testBit_lt_two_pow
          (small.trans_le (Nat.pow_le_pow_right (by decide) (by omega)))
        simp [inside,clear]
    · rw [if_neg inside,if_neg inside,if_neg (by omega),Nat.add_sub_assoc (by omega)]
      simp

theorem word_map_add (w : Nat) (f g : Nat → Nat) (digits : List Nat) :
    word w (digits.map fun d => f d + g d) = word w (digits.map f) + word w (digits.map g) := by
  induction digits with
  | nil => rfl
  | cons a rest ih =>
    simp only [map_cons,word_cons] at ih ⊢
    rw [ih]
    ring

/-- The halves of every byte are added in place, where no sum leaves its half. -/
theorem word_fold (bounded : ∀ d ∈ digits,d % 16 ≤ 4 ∧ d / 16 ≤ 4) :
    (word 8 digits + word 8 digits >>> 4) &&& word 8 (replicate digits.length 15) =
      word 8 (digits.map fun d => d % 16 + d / 16) := by
  induction digits with
  | nil => rfl
  | cons a rest ih =>
    obtain ⟨low,bounded⟩ := forall_mem_cons.mp bounded
    have next : word 8 rest % 16 ≤ 4 := by
      cases rest with
      | nil => exact Nat.zero_le 4
      | cons b rest =>
        have := (bounded b mem_cons_self).1
        rw [word_cons]
        omega
    have ih := ih bounded
    rw [length_cons,replicate_succ,map_cons,word_cons,word_cons,word_cons]
    generalize word 8 rest = r at *
    have shape : 2 ^ 8 * r + a + (2 ^ 8 * r + a) >>> 4 =
        2 ^ 8 * (r + r >>> 4) + (a + a / 16 + 16 * (r % 16)) := by
      omega
    rw [shape,and_split (by omega) (by decide),Nat.and_two_pow_sub_one_eq_mod _ 4]
    omega

/-- The last step collects eight bytes into the highest one. -/
theorem byte_sum (bytes : List Nat) (length : bytes.length = 8) (bounded : ∀ d ∈ bytes, d ≤ 8) :
    (word 8 bytes * 0x0101010101010101) % 2 ^ 64 / 2 ^ 56 = bytes.sum := by
  match bytes, length with
  | [b0,b1,b2,b3,b4,b5,b6,b7], _ =>
    simp only [mem_cons,forall_eq_or_imp] at bounded
    simp only [Nat.ofDigits_cons,Nat.ofDigits_nil,sum_cons,sum_nil]
    -- Below the highest byte no partial sum carries; above it everything is cut off.
    obtain ⟨low,high,small,product⟩ : ∃ low high, low < 2 ^ 56 ∧
        (b0 + 2 ^ 8 * (b1 + 2 ^ 8 * (b2 + 2 ^ 8 * (b3 + 2 ^ 8 * (b4 + 2 ^ 8 * (b5 + 2 ^ 8 * (b6 +
          2 ^ 8 * (b7 + 2 ^ 8 * 0)))))))) * 0x0101010101010101 =
        low + 2 ^ 56 * (b0 + b1 + b2 + b3 + b4 + b5 + b6 + b7) + 2 ^ 64 * high :=
      ⟨b0 + 256 * (b0 + b1) + 256 ^ 2 * (b0 + b1 + b2) + 256 ^ 3 * (b0 + b1 + b2 + b3) +
          256 ^ 4 * (b0 + b1 + b2 + b3 + b4) + 256 ^ 5 * (b0 + b1 + b2 + b3 + b4 + b5) +
          256 ^ 6 * (b0 + b1 + b2 + b3 + b4 + b5 + b6),
        (b1 + b2 + b3 + b4 + b5 + b6 + b7) + 256 * (b2 + b3 + b4 + b5 + b6 + b7) +
          256 ^ 2 * (b3 + b4 + b5 + b6 + b7) + 256 ^ 3 * (b4 + b5 + b6 + b7) +
          256 ^ 4 * (b5 + b6 + b7) + 256 ^ 5 * (b6 + b7) + 256 ^ 6 * b7,by omega,by ring⟩
    rw [product]
    clear product
    omega

def bytes (x : Nat) : List Nat := (range 8).map fun k => x / 2 ^ (8 * k) % 2 ^ 8

theorem word_bytes {x : Nat} (small : x < 2 ^ 64) : word 8 (bytes x) = x := by
  have eight : range 8 = [0,1,2,3,4,5,6,7] := rfl
  simp only [bytes,eight,map_cons,map_nil,Nat.ofDigits_cons,Nat.ofDigits_nil]
  omega

theorem count_bytes (x n : Nat) : (range (8 * n)).countP x.testBit =
    ((range n).map fun k => (range 8).countP (x / 2 ^ (8 * k) % 2 ^ 8).testBit).sum := by
  induction n with
  | zero => rfl
  | succ n ih =>
    rw [Nat.mul_succ,Bitmap.countP_range_add,range_succ (n := n),map_append,sum_append]
    congr 1
    apply countP_congr
    intro j member
    rw [Nat.testBit_mod_two_pow,Nat.testBit_div_two_pow,Nat.add_comm,
      decide_eq_true (mem_range.mp member),Bool.true_and]

/-- The three steps on one byte: its bits as sums of pairs, of four, and of all eight. -/
def pairs (d : Nat) : Nat := d - ((d >>> 1) &&& 0x55)
def fours (d : Nat) : Nat := (pairs d &&& 0x33) + ((pairs d >>> 2) &&& 0x33)

theorem byte_steps : ∀ d < 2 ^ 8,(d >>> 1) &&& 0x55 ≤ d ∧ fours d % 16 ≤ 4 ∧ fours d / 16 ≤ 4 ∧
    fours d % 16 + fours d / 16 = (range 8).countP d.testBit ∧ pairs d < 2 ^ 8 := by
  decide +kernel

theorem word_pairs (bounded : ∀ d ∈ digits,d < 2 ^ 8) :
    word 8 digits - ((word 8 digits >>> 1) &&& word 8 (replicate digits.length 0x55)) =
      word 8 (digits.map pairs) := by
  rw [word_shift_and (by decide) (by decide) bounded]
  apply Nat.sub_eq_of_eq_add
  rw [← word_map_add]
  congr 1
  exact (map_id' _).symm.trans (map_congr_left fun d member =>
    (Nat.sub_add_cancel (byte_steps d (bounded d member)).1).symm)

theorem word_fours (bounded : ∀ d ∈ digits,d < 2 ^ 8) :
    (word 8 (digits.map pairs) &&& word 8 (replicate digits.length 0x33)) +
      ((word 8 (digits.map pairs) >>> 2) &&& word 8 (replicate digits.length 0x33)) =
      word 8 (digits.map fours) := by
  have small : ∀ d ∈ digits.map pairs,d < 2 ^ 8 := by
    simp only [forall_mem_map]
    exact fun d member => (byte_steps d (bounded d member)).2.2.2.2
  have plain := word_shift_and (w := 8) (s := 0) (m := 0x33) (by decide) (by decide) small
  have shifted := word_shift_and (w := 8) (s := 2) (m := 0x33) (by decide) (by decide) small
  rw [length_map] at plain shifted
  rw [← Nat.shiftRight_zero (n := word 8 _),plain,Nat.shiftRight_zero,shifted,
    ← word_map_add,map_map]
  rfl

theorem count_word {x t u : Nat} (small : x < 2 ^ 64)
    (first : t = x - ((x >>> 1) &&& 0x5555555555555555))
    (second : u = (t &&& 0x3333333333333333) + ((t >>> 2) &&& 0x3333333333333333)) :
    ((u + u >>> 4) &&& 0x0F0F0F0F0F0F0F0F) * 0x0101010101010101 % 2 ^ 64 / 2 ^ 56 =
      (range 64).countP x.testBit := by
  have bounded : ∀ d ∈ bytes x,d < 2 ^ 8 := by
    simp only [bytes,forall_mem_map]
    exact fun k _ => Nat.mod_lt _ (by decide)
  have steps := fun d member => byte_steps d (bounded d member)
  have length : (bytes x).length = 8 := by simp [bytes]
  have fold := @word_fold ((bytes x).map fours)
    (by simpa using fun d member => ⟨(steps d member).2.1,(steps d member).2.2.1⟩)
  rw [← word_fours bounded,← word_pairs bounded,word_bytes small,length_map,length] at fold
  have total := byte_sum (((bytes x).map fours).map fun d => d % 16 + d / 16) (by simp [length])
    (by simpa using fun d member => (Nat.add_le_add (steps d member).2.1 (steps d member).2.2.1))
  rw [← fold] at total
  subst first second
  refine total.trans ?_
  have each : (bytes x).map ((fun d => d % 16 + d / 16) ∘ fours) =
      (bytes x).map fun d => (range 8).countP d.testBit :=
    map_congr_left fun d member => (steps d member).2.2.2.1
  rw [map_map,each,count_bytes x 8]
  rfl

end GpuExt.Popcount
