import Mathlib.Data.Finset.Basic
import Mathlib.Order.Interval.Finset.Nat

/-! Page masks as finite sets of page indices, the bit searches over them, and the maximal
contiguous subregions that `for_each_va_block_subregion_in_mask` visits. -/
namespace GpuExt.PageMask

structure Region where
  first : Nat
  outer : Nat
  deriving DecidableEq, Repr

def Region.pages (region : Region) : Finset Nat := Finset.Ico region.first region.outer

@[simp] theorem Region.mem_pages (region : Region) (page : Nat) :
    page ∈ region.pages ↔ region.first ≤ page ∧ page < region.outer := Finset.mem_Ico

/-- The first index from `start` on where `test` holds, looking at `fuel` indices. -/
def search (test : Nat → Bool) : Nat → Nat → Nat
  | 0, start => start
  | fuel + 1, start => if test start then start else search test fuel (start + 1)

def findNextBit (mask : Finset Nat) (size start : Nat) : Nat :=
  if size ≤ start then size else search (· ∈ mask) (size - start) start

def findNextZeroBit (mask : Finset Nat) (size start : Nat) : Nat :=
  if size ≤ start then size else search (· ∉ mask) (size - start) start

variable {test : Nat → Bool} {mask : Finset Nat} {size start page : Nat}

/-- `found` is the first index from `start` on where `test` holds, or `size`. -/
structure Found (test : Nat → Bool) (size start found : Nat) : Prop where
  ge : min start size ≤ found
  le : found ≤ size
  holds : found < size → test found = true
  skipped : ∀ page, start ≤ page → page < found → test page = false

theorem search_found (fuel : Nat) : Found test (start + fuel) start (search test fuel start) := by
  induction fuel generalizing start with
  | zero => exact ⟨by simp [search],le_rfl,by simp [search],by simp only [search]; omega⟩
  | succ fuel ih =>
    obtain ⟨ge,le,holds,skipped⟩ := @ih _
    simp only [search]
    split
    next here => exact ⟨by omega,by omega,fun _ => here,by omega⟩
    next missing =>
      refine ⟨by omega,by omega,fun inside => holds (by omega),fun page low high => ?_⟩
      rcases low.eq_or_lt with rfl | low
      · simpa using missing
      · exact skipped page low high

theorem ite_search_found (test : Nat → Bool) (size start : Nat) :
    Found test size start (if size ≤ start then size else search test (size - start) start) := by
  split
  · exact ⟨by omega,le_rfl,by omega,by omega⟩
  · have found := @search_found test start (size - start)
    rwa [Nat.add_sub_of_le (by omega)] at found

theorem findNextBit_found (mask : Finset Nat) (size start : Nat) :
    Found (· ∈ mask) size start (findNextBit mask size start) := ite_search_found _ size start

theorem findNextZeroBit_found (mask : Finset Nat) (size start : Nat) :
    Found (· ∉ mask) size start (findNextZeroBit mask size start) := ite_search_found _ size start

/-- The subregions from `start` on; the loop ends when no bit is found below `outer`. -/
def subregionsFrom (mask : Finset Nat) (outer : Nat) : Nat → Nat → List Region
  | 0, _ => []
  | fuel + 1, start =>
    let first := findNextBit mask outer start
    if first = outer then []
    else
      let last := findNextZeroBit mask outer (first + 1)
      ⟨first,last⟩ :: subregionsFrom mask outer fuel (last + 1)

/-- The subregions of the pages `0 … outer - 1` that the mask selects. -/
def subregions (mask : Finset Nat) (outer : Nat) : List Region :=
  subregionsFrom mask outer outer 0

variable {outer : Nat} {region : Region}

/-- A subregion is not empty, and neither it nor the next one begins below `start`. -/
theorem subregion_bounds (some : findNextBit mask outer start ≠ outer) :
    start ≤ findNextBit mask outer start ∧ findNextBit mask outer start < outer ∧
      findNextBit mask outer start <
        findNextZeroBit mask outer (findNextBit mask outer start + 1) := by
  have first := findNextBit_found mask outer start
  have last := findNextZeroBit_found mask outer (findNextBit mask outer start + 1)
  have low := first.ge
  have high := first.le
  have later := last.ge
  omega

theorem subregionsFrom_low (fuel : Nat) (member : region ∈ subregionsFrom mask outer fuel start) :
    start ≤ region.first := by
  induction fuel generalizing start with
  | zero => simp [subregionsFrom] at member
  | succ fuel ih =>
    simp only [subregionsFrom] at member
    split at member
    · simp at member
    next some =>
      obtain ⟨firstLow,-,lastLow⟩ := subregion_bounds some
      rcases List.mem_cons.mp member with rfl | later
      · exact firstLow
      · have := ih later
        omega

/-- Up to the end of a subregion, that subregion holds exactly the pages of the mask. -/
theorem mem_subregion {first : Nat} (found : findNextBit mask outer start = first)
    (some : first < outer) (low : start ≤ page) (bound : page < outer)
    (high : page ≤ findNextZeroBit mask outer (first + 1)) :
    first ≤ page ∧ page < findNextZeroBit mask outer (first + 1) ↔ page ∈ mask := by
  have bit := found ▸ findNextBit_found mask outer start
  have zeroBit := findNextZeroBit_found mask outer (first + 1)
  constructor
  · rintro ⟨fromFirst,beforeLast⟩
    rcases fromFirst.eq_or_lt with rfl | after
    · simpa using bit.holds some
    · simpa using zeroBit.skipped page after beforeLast
  · intro member
    constructor
    · by_contra before
      simpa [member] using bit.skipped page low (by omega)
    · by_contra after
      have same : findNextZeroBit mask outer (first + 1) = page := by omega
      simpa [same,member] using zeroBit.holds (same ▸ bound)

theorem mem_subregionsFrom (fuel : Nat) (enough : outer ≤ start + fuel) (low : start ≤ page)
    (bound : page < outer) :
    (∃ region ∈ subregionsFrom mask outer fuel start, page ∈ region.pages) ↔ page ∈ mask := by
  induction fuel generalizing start with
  | zero => omega
  | succ fuel ih =>
    simp only [subregionsFrom]
    split
    next none =>
      have absent : page ∉ mask := by
        simpa using (findNextBit_found mask outer start).skipped page low (by omega)
      simp [absent]
    next some =>
      obtain ⟨firstLow,firstBound,lastLow⟩ := subregion_bounds some
      simp only [List.exists_mem_cons_iff,Region.mem_pages]
      by_cases here : page ≤ findNextZeroBit mask outer (findNextBit mask outer start + 1)
      · rw [mem_subregion rfl firstBound low bound here,or_iff_left]
        rintro ⟨region,later,inside⟩
        have := subregionsFrom_low fuel later
        omega
      · rw [or_iff_right (by omega)]
        simpa using ih (by omega) (by omega)

/-- The visited subregions hold exactly the pages of the mask. -/
theorem mem_subregions (bound : page < outer) :
    (∃ region ∈ subregions mask outer, page ∈ region.pages) ↔ page ∈ mask :=
  mem_subregionsFrom outer (by omega) (Nat.zero_le _) bound

theorem subregionsFrom_outer (fuel : Nat) (member : region ∈ subregionsFrom mask outer fuel start) :
    region.outer ≤ outer := by
  induction fuel generalizing start with
  | zero => simp [subregionsFrom] at member
  | succ fuel ih =>
    simp only [subregionsFrom] at member
    split at member
    · simp at member
    · rcases List.mem_cons.mp member with rfl | later
      · exact (findNextZeroBit_found mask outer _).le
      · exact ih later

theorem subregions_outer (member : region ∈ subregions mask outer) :
    region.outer ≤ outer := subregionsFrom_outer outer member

end GpuExt.PageMask
