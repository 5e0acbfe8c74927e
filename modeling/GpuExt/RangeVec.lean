import GpuExt.NvTypes
import GpuExt.Word

/-! Vectors of page table ranges (`uvm_page_table_range_vec_t`): one range for each page table
that the pages of an address range lie in. -/
namespace GpuExt.RangeVec

open BitVec List

/-- A page tree, for one of its page sizes. -/
structure PageTree where
  pageShift : Nat
  indexBits : Nat
  numVaBits : Nat
  covered : pageShift + indexBits ≤ numVaBits
  fits : numVaBits < 64

def PageTree.pageSize (t : PageTree) : NvU64 := 1#64 <<< t.pageShift

def PageTree.pdeCoverage (t : PageTree) : NvU64 := 1#64 <<< t.indexBits * t.pageSize

structure Range where
  table : Nat
  startIndex : Nat
  entryCount : Nat
  deriving DecidableEq, Repr, Inhabited

structure Vec where
  start : NvU64
  size : NvU64
  rangeCount : Nat
  ranges : List Range
  deriving DecidableEq, Repr

variable (t : PageTree)

section

variable (start size : NvU64)

def calcRangeCount : Nat :=
  let alignedStart := Word.alignDown start t.pdeCoverage
  let alignedEnd := Word.alignUp (start + size) t.pdeCoverage
  ((alignedEnd - alignedStart) / t.pdeCoverage).toNat

def calcRangeStart (i : Nat) : NvU64 :=
  let alignedStart := Word.alignDown start t.pdeCoverage
  let rangeStart := alignedStart + BitVec.ofNat 64 i * t.pdeCoverage
  if start ≤ rangeStart then rangeStart else start

def calcRangeEnd (i : Nat) : NvU64 :=
  let maxRangeEnd := Word.alignUp (calcRangeStart t start i + 1) t.pdeCoverage
  if start + size ≤ maxRangeEnd then start + size else maxRangeEnd

def calcRangeSize (i : Nat) : NvU64 := calcRangeEnd t start size i - calcRangeStart t start i

def calcRangeIndex (addr : NvU64) : Nat :=
  let alignedStart := Word.alignDown start t.pdeCoverage
  let alignedAddr := Word.alignDown addr t.pdeCoverage
  ((alignedAddr - alignedStart) / t.pdeCoverage).toNat

end

/-- `uvm_page_tree_get_ptes_async` for addresses of one table; `table` gives the table of each
entry of the directories above. -/
def getPtes (table : Nat → Nat) (start size : NvU64) : Range :=
  let startIndex := (start / t.pageSize).toNat % 2 ^ t.indexBits
  let endIndex := ((start + size - 1) / t.pageSize).toNat % 2 ^ t.indexBits
  ⟨table (start / t.pdeCoverage).toNat,startIndex,1 + endIndex - startIndex⟩

/-- Nothing after a failure, when the ranges are put again. -/
def init (table : Nat → Nat) (memory : Bool) (fails : Nat → Bool) (start size : NvU64) :
    Option Vec :=
  let rangeCount := calcRangeCount t start size
  if memory && (range rangeCount).all fun i => !fails i then
    some ⟨start,size,rangeCount,(range rangeCount).map fun i =>
      getPtes t table (calcRangeStart t start i) (calcRangeSize t start size i)⟩
  else none

/-- `uvm_page_table_range_get_upper`, with the references to the tables. -/
def getUpper (existing : Range) (numUpperPages : Nat) (refCount : Nat → Nat) :
    Range × (Nat → Nat) :=
  let upperStartIndex := existing.startIndex + (existing.entryCount - numUpperPages)
  let upperEndIndex := upperStartIndex + numUpperPages - 1
  let entryCount := 1 + upperEndIndex - upperStartIndex
  (⟨existing.table,upperStartIndex,entryCount⟩,
    Function.update refCount existing.table (refCount existing.table + entryCount))

/-- `uvm_page_table_range_shrink`, to a page or more. -/
def shrink (range : Range) (newPageCount : Nat) (refCount : Nat → Nat) : Range × (Nat → Nat) :=
  ({ range with entryCount := newPageCount },Function.update refCount range.table
      (refCount range.table - (range.entryCount - newPageCount)))

/-- Both vectors, the references to the tables, and whether there was memory. -/
structure Split where
  ok : Bool
  vec : Vec
  newVec : Vec
  refCount : Nat → Nat

/-- If the old ranges cannot be reallocated the array keeps its length. -/
def splitUpper (v : Vec) (newEnd : NvU64) (refCount : Nat → Nat) (memory reallocated : Bool) :
    Split :=
  let newStart := newEnd + 1
  let rangeBaseVa := Word.alignDown newStart t.pdeCoverage
  let splitIndex := calcRangeIndex t v.start newStart
  let range := v.ranges.getD splitIndex default
  let numRemainingPages := if v.start > rangeBaseVa then
      ((newStart - v.start) / t.pageSize).toNat
    else ((newStart - rangeBaseVa) / t.pageSize).toNat
  let newSize := v.size - (newStart - v.start)
  let newCount := v.rangeCount - splitIndex
  if memory then
    let shared := if numRemainingPages = 0 then 0 else 1
    let rest := (v.ranges.drop (splitIndex + shared)).take (newCount - shared)
    let rangeCount := v.rangeCount - (newCount - shared)
    let cut (ranges : List Range) := if reallocated then ranges.take rangeCount else ranges
    let size := v.size - newSize
    if numRemainingPages = 0 then
      ⟨true,⟨v.start,size,rangeCount,cut v.ranges⟩,⟨newStart,newSize,newCount,rest⟩,refCount⟩
    else
      let (upper,refCount) := getUpper range (range.entryCount - numRemainingPages) refCount
      let (range,refCount) := shrink range numRemainingPages refCount
      ⟨true,⟨v.start,size,rangeCount,cut (v.ranges.set splitIndex range)⟩,
        ⟨newStart,newSize,newCount,upper :: rest⟩,refCount⟩
  else ⟨false,v,⟨newStart,newSize,newCount,[]⟩,refCount⟩

/-! Page numbers. A table has `c` entries, and table `d` the pages from `d * c` on. -/

section Pages

variable {c first last d : Nat}

def lo (c first d : Nat) : Nat := max first (d * c)

def hi (c last d : Nat) : Nat := min last ((d + 1) * c)

/-- Table `d` is one of those that the pages lie in. -/
structure Touched (c first last d : Nat) : Prop where
  positive : 0 < c
  ordered : first < last
  low : first / c ≤ d
  high : d ≤ (last - 1) / c

theorem Touched.bounds (touched : Touched c first last d) : first < (d + 1) * c ∧ d * c < last := by
  obtain ⟨positive,ordered,low,high⟩ := touched
  have above := (Nat.le_div_iff_mul_le positive).mp high
  exact ⟨(Nat.div_lt_iff_lt_mul positive).mp (Nat.lt_succ_of_le low),by omega⟩

theorem Touched.lo_lt_hi (touched : Touched c first last d) : lo c first d < hi c last d := by
  obtain ⟨below,above⟩ := touched.bounds
  have := touched.positive
  have := touched.ordered
  have next : (d + 1) * c = d * c + c := Nat.succ_mul d c
  simp only [lo,hi]
  omega

theorem div_of_mem {page : Nat} (low : lo c first d ≤ page) (high : page < hi c last d) :
    page / c = d ∧ page % c = page - d * c := by
  have least : d * c ≤ page := Nat.le_trans (Nat.le_max_right _ _) low
  have most : page < (d + 1) * c := Nat.lt_of_lt_of_le high (Nat.min_le_right _ _)
  have quotient := Nat.div_eq_of_lt_le least most
  have split := Nat.div_add_mod page c
  rw [quotient,Nat.mul_comm] at split
  exact ⟨quotient,by omega⟩

theorem hi_eq_lo (touched : Touched c first last d) (next : d + 1 ≤ (last - 1) / c) :
    hi c last d = lo c first (d + 1) := by
  have below := touched.bounds.1
  have above := (Nat.le_div_iff_mul_le touched.positive).mp next
  simp only [hi,lo]
  omega

/-- Pages below `page` lie in the lower tables as before, pages from it on in the upper ones. -/
theorem hi_below {page : Nat} (less : d < page / c) (most : page < last) :
    hi c page d = hi c last d := by
  rcases Nat.eq_zero_or_pos c with rfl | positive
  · exact absurd less (by simp)
  · have next : d + 1 ≤ page / c := less
    have := (Nat.le_div_iff_mul_le positive).mp next
    simp only [hi]
    omega

theorem lo_above {page : Nat} (positive : 0 < c) (more : page / c < d) (least : first < page) :
    lo c page d = lo c first d := by
  have := (Nat.div_lt_iff_lt_mul positive).mp more
  simp only [lo]
  omega

end Pages

variable {t} {start size : NvU64} {first last : Nat}

/-- The entries of one table. -/
abbrev PageTree.entries (t : PageTree) : Nat := 2 ^ t.indexBits

theorem pageSize_toNat : t.pageSize.toNat = 2 ^ t.pageShift := by
  have small : 2 ^ t.pageShift < 2 ^ 64 := Nat.pow_lt_pow_right (by decide)
    (by have := t.covered; have := t.fits; omega)
  rw [PageTree.pageSize,toNat_shiftLeft,Nat.shiftLeft_eq]
  simpa using Nat.mod_eq_of_lt small

theorem pdeCoverage_toNat : t.pdeCoverage.toNat = 2 ^ t.pageShift * t.entries := by
  have small : 2 ^ (t.indexBits + t.pageShift) < 2 ^ 64 := Nat.pow_lt_pow_right (by decide)
    (by have := t.covered; have := t.fits; omega)
  have part : t.entries < 2 ^ 64 := Nat.lt_of_le_of_lt
    (Nat.pow_le_pow_right (by decide) (Nat.le_add_right _ _)) small
  rw [PageTree.pdeCoverage,toNat_mul,pageSize_toNat,toNat_shiftLeft,Nat.shiftLeft_eq,
    toNat_ofNat,Nat.one_mul,
    Nat.mod_eq_of_lt part,← Nat.pow_add,Nat.mod_eq_of_lt small,Nat.add_comm,Nat.pow_add]

theorem pdeCoverage_power : t.pdeCoverage.toNat.isPowerOfTwo :=
  ⟨t.pageShift + t.indexBits,by rw [pdeCoverage_toNat,Nat.pow_add]⟩

theorem toNat_ite_max (x y : NvU64) : (if x ≤ y then y else x).toNat = max x.toNat y.toNat := by
  simp only [le_def]
  split <;> omega

theorem toNat_ite_min (x y : NvU64) : (if x ≤ y then x else y).toNat = min x.toNat y.toNat := by
  simp only [le_def]
  split <;> omega

theorem last_page (shift : Nat) {k : Nat} (positive : 0 < k) :
    (2 ^ shift * k - 1) / 2 ^ shift = k - 1 := by
  have one := Nat.two_pow_pos shift
  obtain ⟨k,rfl⟩ : ∃ j,k = j + 1 := ⟨k - 1,by omega⟩
  rw [Nat.mul_succ,Nat.add_sub_assoc one,Nat.mul_add_div one,Nat.div_eq_of_lt (by omega),
    Nat.add_zero,Nat.add_sub_cancel]

theorem coverage_le : t.pdeCoverage.toNat ≤ 2 ^ t.numVaBits := by
  rw [pdeCoverage_toNat,← Nat.pow_add]
  exact Nat.pow_le_pow_right (by decide) t.covered

theorem space_le : 2 * 2 ^ t.numVaBits ≤ 2 ^ 64 := by
  rw [← Nat.pow_succ']
  exact Nat.pow_le_pow_right (by decide) t.fits

/-- The table of an address. -/
theorem coverage_div (x : NvU64) :
    (x / t.pdeCoverage).toNat = x.toNat / 2 ^ t.pageShift / t.entries := by
  rw [toNat_udiv,pdeCoverage_toNat,Nat.div_div_eq_div_mul]

theorem alignDown_coverage (x : NvU64) : (Word.alignDown x t.pdeCoverage).toNat =
    t.pdeCoverage.toNat * (x / t.pdeCoverage).toNat := by
  have split := Nat.div_add_mod x.toNat t.pdeCoverage.toNat
  rw [Word.alignDown_toNat _ _ pdeCoverage_power,toNat_udiv]
  omega

/-- Rounding an address up that is not 0. -/
theorem alignUp_coverage (x : NvU64) (positive : 0 < x.toNat) (bound : x.toNat ≤ 2 ^ t.numVaBits) :
    (Word.alignUp x t.pdeCoverage).toNat =
      t.pdeCoverage.toNat * ((x.toNat - 1) / t.pdeCoverage.toNat + 1) := by
  have one := Nat.pos_of_isPowerOfTwo (pdeCoverage_power (t := t))
  have small := coverage_le (t := t)
  have space := space_le (t := t)
  rw [Word.alignUp_toNat _ _ pdeCoverage_power (by omega)]
  have shift : x.toNat + (t.pdeCoverage.toNat - 1) = x.toNat - 1 + t.pdeCoverage.toNat := by omega
  have split := Nat.div_add_mod (x.toNat - 1 + t.pdeCoverage.toNat) t.pdeCoverage.toNat
  rw [Nat.add_div_right _ one] at split
  rw [shift]
  omega

/-- Pages `first` to `last` are the address range. -/
structure Pages (t : PageTree) (start size : NvU64) (first last : Nat) : Prop where
  low : start.toNat = 2 ^ t.pageShift * first
  stop : (start + size).toNat = 2 ^ t.pageShift * last
  whole : start.toNat + size.toNat = (start + size).toNat
  ordered : first < last
  bound : 2 ^ t.pageShift * last ≤ 2 ^ t.numVaBits

namespace Pages

variable (pages : Pages t start size first last)
include pages

theorem start_lt : start.toNat < (start + size).toNat := by
  rw [pages.low,pages.stop]
  exact Nat.mul_lt_mul_of_pos_left pages.ordered (Nat.two_pow_pos _)

theorem start_div : (start / t.pdeCoverage).toNat = first / t.entries := by
  rw [coverage_div,pages.low,Nat.mul_div_cancel_left _ (Nat.two_pow_pos _)]

theorem stop_div : ((start + size).toNat - 1) / t.pdeCoverage.toNat = (last - 1) / t.entries := by
  have positive : 0 < last := Nat.zero_lt_of_lt pages.ordered
  rw [pages.stop,pdeCoverage_toNat,← Nat.div_div_eq_div_mul,last_page _ positive]

theorem count : calcRangeCount t start size = (last - 1) / t.entries + 1 - first / t.entries := by
  have less := pages.start_lt
  have bound := pages.stop ▸ pages.bound
  have up := alignUp_coverage (t := t) _ (by omega) bound
  have down := alignDown_coverage (t := t) start
  rw [pages.stop_div] at up
  rw [pages.start_div] at down
  have order : first / t.entries ≤ (last - 1) / t.entries :=
    Nat.div_le_div_right (by have := pages.ordered; omega)
  have below : Word.alignDown start t.pdeCoverage ≤ Word.alignUp (start + size) t.pdeCoverage := by
    rw [le_def,up,down]
    exact Nat.mul_le_mul_left _ (by omega)
  rw [calcRangeCount,toNat_udiv,toNat_sub_of_le below,up,down,← Nat.mul_sub,
    Nat.mul_div_cancel_left _ (Nat.pos_of_isPowerOfTwo pdeCoverage_power)]

theorem touched {i : Nat} (inside : i < calcRangeCount t start size) :
    Touched t.entries first last (first / t.entries + i) := by
  rw [pages.count] at inside
  exact ⟨Nat.two_pow_pos _,pages.ordered,Nat.le_add_right _ _,by omega⟩

theorem rangeStart {i : Nat} (inside : i < calcRangeCount t start size) :
    (calcRangeStart t start i).toNat =
      2 ^ t.pageShift * lo t.entries first (first / t.entries + i) := by
  have above := (pages.touched inside).bounds.2
  have space := space_le (t := t)
  have fits : 2 ^ t.pageShift * ((first / t.entries + i) * t.entries) < 2 ^ 64 :=
    calc _ < 2 ^ t.pageShift * last := Nat.mul_lt_mul_of_pos_left above (Nat.two_pow_pos _)
      _ ≤ 2 ^ 64 := Nat.le_trans pages.bound (by omega)
  have value : (Word.alignDown start t.pdeCoverage + BitVec.ofNat 64 i * t.pdeCoverage).toNat =
      2 ^ t.pageShift * ((first / t.entries + i) * t.entries) := by
    rw [toNat_add,toNat_mul,toNat_ofNat,Nat.mod_mul_mod,Nat.add_mod_mod,
      alignDown_coverage,pages.start_div,pdeCoverage_toNat]
    rw [← Nat.mod_eq_of_lt fits]
    congr 1
    ring
  rw [calcRangeStart,toNat_ite_max,value,pages.low,Nat.mul_max_mul_left,lo]

theorem rangeEnd {i : Nat} (inside : i < calcRangeCount t start size) :
    (calcRangeEnd t start size i).toNat =
      2 ^ t.pageShift * hi t.entries last (first / t.entries + i) := by
  have touched := pages.touched inside
  have from_start := pages.rangeStart inside
  have less : lo t.entries first (first / t.entries + i) < last :=
    Nat.lt_of_lt_of_le touched.lo_lt_hi (Nat.min_le_left _ _)
  have bound : (calcRangeStart t start i).toNat < 2 ^ t.numVaBits := by
    rw [from_start]
    exact Nat.lt_of_lt_of_le (Nat.mul_lt_mul_of_pos_left less (Nat.two_pow_pos _)) pages.bound
  have space := space_le (t := t)
  have one : (calcRangeStart t start i + 1).toNat = (calcRangeStart t start i).toNat + 1 :=
    toNat_add_of_lt (by simp; omega)
  have value : (Word.alignUp (calcRangeStart t start i + 1) t.pdeCoverage).toNat =
      2 ^ t.pageShift * ((first / t.entries + i + 1) * t.entries) := by
    rw [alignUp_coverage _ (by omega) (by omega),one,Nat.add_sub_cancel,from_start,
      pdeCoverage_toNat,← Nat.div_div_eq_div_mul,Nat.mul_div_cancel_left _ (Nat.two_pow_pos _),
      (div_of_mem (Nat.le_refl _) touched.lo_lt_hi).1,Nat.mul_assoc,Nat.mul_comm t.entries]
  rw [calcRangeEnd,toNat_ite_min,value,pages.stop,Nat.mul_min_mul_left,hi]

theorem rangeIndex {addr : NvU64} (low : start ≤ addr) : calcRangeIndex t start addr =
      addr.toNat / 2 ^ t.pageShift / t.entries - first / t.entries := by
  have order : (start / t.pdeCoverage).toNat ≤ (addr / t.pdeCoverage).toNat := by
    exact Nat.div_le_div_right (le_def.mp low)
  have below : Word.alignDown start t.pdeCoverage ≤ Word.alignDown addr t.pdeCoverage := by
    rw [le_def,alignDown_coverage,alignDown_coverage]
    exact Nat.mul_le_mul_left _ order
  rw [calcRangeIndex,toNat_udiv,toNat_sub_of_le below,alignDown_coverage,
    alignDown_coverage,← Nat.mul_sub,
    Nat.mul_div_cancel_left _ (Nat.pos_of_isPowerOfTwo pdeCoverage_power),pages.start_div,
    coverage_div]

end Pages

/-- What a vector holds of one table. -/
def piece (t : PageTree) (table : Nat → Nat) (first last d : Nat) : Range :=
  ⟨table d,lo (2 ^ t.indexBits) first d - d * 2 ^ t.indexBits,
    hi (2 ^ t.indexBits) last d - lo (2 ^ t.indexBits) first d⟩

theorem piece_eq (table : Nat → Nat) (first last d : Nat) : piece t table first last d =
    ⟨table d,lo t.entries first d - d * t.entries,hi t.entries last d - lo t.entries first d⟩ := rfl

theorem Pages.getPtes_eq (pages : Pages t start size first last) (table : Nat → Nat) {i : Nat}
    (inside : i < calcRangeCount t start size) :
    getPtes t table (calcRangeStart t start i) (calcRangeSize t start size i) =
      piece t table first last (first / t.entries + i) := by
  have touched := pages.touched inside
  have less := touched.lo_lt_hi
  have positive := Nat.two_pow_pos t.pageShift
  have whole : calcRangeStart t start i + calcRangeSize t start size i - 1 =
      calcRangeEnd t start size i - 1 := by
    rw [calcRangeSize,BitVec.add_comm,BitVec.sub_add_cancel]
  have final : ((calcRangeEnd t start size i - 1) / t.pageSize).toNat =
      hi t.entries last (first / t.entries + i) - 1 := by
    have some_page : 0 < hi t.entries last (first / t.entries + i) := Nat.zero_lt_of_lt less
    have some_byte : 0 < (calcRangeEnd t start size i).toNat := by
      rw [pages.rangeEnd inside]
      exact Nat.mul_pos positive some_page
    rw [toNat_udiv,Word.toNat_sub_one _ some_byte,pages.rangeEnd inside,pageSize_toNat,
      last_page _ some_page]
  have last_mod := div_of_mem (c := t.entries) (d := first / t.entries + i)
    (Nat.le_sub_one_of_lt less) (Nat.sub_one_lt (Nat.ne_zero_of_lt less))
  rw [getPtes,whole,final,coverage_div,toNat_udiv,pageSize_toNat,pages.rangeStart inside,
    Nat.mul_div_cancel_left _ positive,(div_of_mem (Nat.le_refl _) less).1,
    (div_of_mem (Nat.le_refl _) less).2,last_mod.2,piece_eq]
  congr 1
  simp only [lo] at less ⊢
  omega

/-! Lawful vectors. -/

/-- Whole pages of the address space, at least one. -/
structure Fits (t : PageTree) (start size : NvU64) : Prop where
  start_aligned : t.pageSize.toNat ∣ start.toNat
  size_aligned : t.pageSize.toNat ∣ size.toNat
  nonempty : 0 < size.toNat
  inside : start.toNat + size.toNat ≤ 2 ^ t.numVaBits

theorem Fits.pages (fits : Fits t start size) : ∃ first last,Pages t start size first last := by
  obtain ⟨first,low⟩ := fits.start_aligned
  obtain ⟨pages,number⟩ := fits.size_aligned
  have nonempty := fits.nonempty
  have inside := fits.inside
  have space := space_le (t := t)
  rw [pageSize_toNat] at low number
  have whole : (start + size).toNat = start.toNat + size.toNat := toNat_add_of_lt (by omega)
  have total : start.toNat + size.toNat = 2 ^ t.pageShift * (first + pages) := by
    rw [low,number,Nat.mul_add]
  refine ⟨first,first + pages,low,whole.trans total,whole.symm,?_,total ▸ inside⟩
  have := Nat.pos_of_mul_pos_left (number ▸ nonempty)
  omega

theorem Pages.fits (pages : Pages t start size first last) : Fits t start size := by
  have less := pages.start_lt
  have whole := pages.whole
  refine ⟨⟨first,pageSize_toNat ▸ pages.low⟩,?_,by omega,?_⟩
  · rw [pageSize_toNat,(by omega : size.toNat = (start + size).toNat - start.toNat),pages.stop,
      pages.low]
    exact Nat.dvd_sub (Nat.dvd_mul_right _ _) (Nat.dvd_mul_right _ _)
  · rw [whole,pages.stop]
    exact pages.bound

/-- The vector has the ranges that it would be initialized with. -/
structure Lawful (t : PageTree) (table : Nat → Nat) (v : Vec) : Prop where
  fits : Fits t v.start v.size
  count : v.rangeCount = calcRangeCount t v.start v.size
  ranges : ∀ i < v.rangeCount,v.ranges[i]? = some (getPtes t table
    (calcRangeStart t v.start i) (calcRangeSize t v.start v.size i))

theorem init_lawful {table : Nat → Nat} {memory : Bool} {fails : Nat → Bool} {v : Vec}
    (fits : Fits t start size) (done : init t table memory fails start size = some v) :
    Lawful t table v ∧ v.start = start ∧ v.size = size := by
  unfold init at done
  dsimp only at done
  split at done
  · rw [← Option.some.inj done]
    exact ⟨⟨fits,rfl,fun i inside => by simp [inside]⟩,rfl,rfl⟩
  · exact nomatch done

theorem lawful_iff {table : Nat → Nat} {v : Vec} (pages : Pages t v.start v.size first last) :
    Lawful t table v ↔
      v.rangeCount = (last - 1) / t.entries + 1 - first / t.entries ∧
      ∀ i < v.rangeCount,
        v.ranges[i]? = some (piece t table first last (first / t.entries + i)) := by
  constructor
  · rintro ⟨_,count,ranges⟩
    refine ⟨count.trans pages.count,fun i inside => ?_⟩
    rw [ranges i inside,pages.getPtes_eq table (count ▸ inside)]
  · rintro ⟨count,ranges⟩
    have count := count.trans pages.count.symm
    refine ⟨pages.fits,count,fun i inside => ?_⟩
    rw [ranges i inside,pages.getPtes_eq table (count ▸ inside)]

/-! Splitting. -/

section Split

variable {table : Nat → Nat} {v : Vec} {newEnd newStart : NvU64} {n : Nat}

/-- Page `n` is inside the range, not the first. -/
structure Interior (t : PageTree) (newStart : NvU64) (first last n : Nat) : Prop where
  address : newStart.toNat = 2 ^ t.pageShift * n
  above : first < n
  below : n < last

section

variable (pages : Pages t start size first last) (interior : Interior t newStart first last n)
include pages interior

theorem Pages.halves : Pages t start (size - (size - (newStart - start))) first n ∧
      Pages t newStart (size - (newStart - start)) n last := by
  obtain ⟨address,above,below⟩ := interior
  have lower : start + (size - (size - (newStart - start))) = newStart := by bv_omega
  have upper : newStart + (size - (newStart - start)) = start + size := by bv_omega
  have order := Nat.mul_lt_mul_of_pos_left above (Nat.two_pow_pos t.pageShift)
  have order' := Nat.mul_lt_mul_of_pos_left below (Nat.two_pow_pos t.pageShift)
  have low := pages.low
  have stop := pages.stop
  have bound := pages.bound
  refine ⟨⟨low,by rw [lower,address],?_,above,by omega⟩,⟨address,by rw [upper,stop],?_,below,bound⟩⟩
  · bv_omega
  · bv_omega

theorem Pages.splitIndex : calcRangeIndex t start newStart = n / t.entries - first / t.entries := by
  have low : start ≤ newStart := by
    rw [le_def,pages.low,interior.address]
    exact Nat.mul_le_mul_left _ (Nat.le_of_lt interior.above)
  rw [pages.rangeIndex low,interior.address,Nat.mul_div_cancel_left _ (Nat.two_pow_pos _)]

theorem Pages.remaining : (if start > Word.alignDown newStart t.pdeCoverage then
        ((newStart - start) / t.pageSize).toNat
      else ((newStart - Word.alignDown newStart t.pdeCoverage) / t.pageSize).toNat) =
      n - lo t.entries first (n / t.entries) := by
  have positive := Nat.two_pow_pos t.pageShift
  have base : (Word.alignDown newStart t.pdeCoverage).toNat =
      2 ^ t.pageShift * (n / t.entries * t.entries) := by
    rw [alignDown_coverage,coverage_div,interior.address,Nat.mul_div_cancel_left _ positive,
      pdeCoverage_toNat,Nat.mul_assoc,Nat.mul_comm t.entries]
  have distance : ∀ {x : NvU64} {k : Nat},x.toNat = 2 ^ t.pageShift * k → k ≤ n →
      ((newStart - x) / t.pageSize).toNat = n - k := by
    intro x k value order
    have less : x ≤ newStart := by
      rw [le_def,value,interior.address]
      exact Nat.mul_le_mul_left _ order
    rw [toNat_udiv,toNat_sub_of_le less,value,interior.address,pageSize_toNat,
      ← Nat.mul_sub,Nat.mul_div_cancel_left _ positive]
  split
  next more =>
    rw [gt_iff_lt,lt_def,base,pages.low] at more
    rw [distance pages.low (Nat.le_of_lt interior.above),lo,
      Nat.max_eq_left (Nat.le_of_lt (Nat.lt_of_mul_lt_mul_left more))]
  next least =>
    rw [BitVec.not_lt,BitVec.le_def,base,pages.low] at least
    rw [distance base (Nat.div_mul_le_self _ _),lo,
      Nat.max_eq_right (Nat.le_of_mul_le_mul_left least positive)]

end

/-- How many tables lie below page `n`, with the one it shares. -/
theorem lower_tables {c : Nat} (above : first < n) :
    (n - 1) / c + 1 = n / c + if n - lo c first (n / c) = 0 then 0 else 1 := by
  obtain ⟨m,rfl⟩ : ∃ m,n = m + 1 := ⟨n - 1,by omega⟩
  have whole := Nat.div_add_mod (m + 1) c
  rw [Nat.mul_comm] at whole
  have quotient := Nat.succ_div (a := m) (b := c)
  rw [Nat.add_sub_cancel]
  split at quotient <;> split <;> simp only [lo] at * <;> omega

/-- The entries that a vector holds on a table. -/
def held (v : Vec) (table : Nat) : Nat :=
  ((v.ranges.take v.rangeCount).map fun range =>
    if range.table = table then range.entryCount else 0).sum

theorem piece_lower {d : Nat} (less : d < n / t.entries) (below : n < last) :
    piece t table first n d = piece t table first last d := by
  rw [piece,piece,hi_below less below]

theorem piece_upper {d : Nat} (more : n / t.entries < d) (above : first < n) :
    piece t table n last d = piece t table first last d := by
  rw [piece,piece,lo_above (Nat.two_pow_pos _) more above]

theorem getElem?_cut (cut : Bool) (l : List Range) {m i : Nat} (less : i < m) :
    (if cut = true then l.take m else l)[i]? = l[i]? := by
  split
  · exact getElem?_take_of_lt less
  · rfl

theorem take_cut (cut : Bool) (l : List Range) (m : Nat) :
    (if cut = true then l.take m else l).take m = l.take m := by
  split
  · rw [take_take,Nat.min_self]
  · rfl

variable (pages : Pages t v.start v.size first last)
  (interior : Interior t (newEnd + 1) first last n) (lawful : Lawful t table v)

include pages interior lawful

/-- Where the split is, and the range there. -/
theorem split_place : ∃ k < v.rangeCount,calcRangeIndex t v.start (newEnd + 1) = k ∧
    first / t.entries + k = n / t.entries ∧
    v.rangeCount - k = (last - 1) / t.entries + 1 - n / t.entries ∧
    v.ranges[k]? = some (piece t table first last (n / t.entries)) := by
  obtain ⟨count,ranges⟩ := (lawful_iff pages).mp lawful
  have order : first / t.entries ≤ n / t.entries :=
    Nat.div_le_div_right (Nat.le_of_lt interior.above)
  have order' : n / t.entries ≤ (last - 1) / t.entries :=
    Nat.div_le_div_right (Nat.le_sub_one_of_lt interior.below)
  refine ⟨_,?_,pages.splitIndex interior,?_,?_,?_⟩
  iterate 3 omega
  rw [ranges _ (by omega),Nat.add_sub_cancel' order]

/-- The split is between two tables. -/
theorem split_between (refCount : Nat → Nat) (reallocated : Bool)
    (zero : n - lo t.entries first (n / t.entries) = 0) :
    let split := splitUpper t v newEnd refCount true reallocated
    Lawful t table split.vec ∧ Lawful t table split.newVec ∧ split.refCount = refCount ∧
      ∀ table,held split.vec table + held split.newVec table = held v table := by
  obtain ⟨lower,upper⟩ := pages.halves interior
  obtain ⟨_,ranges⟩ := (lawful_iff pages).mp lawful
  obtain ⟨k,less,index,place,rest,_⟩ := split_place pages interior lawful
  have tables := lower_tables (c := t.entries) interior.above
  rw [if_pos zero] at tables
  have start : lo t.entries n (n / t.entries) =
      lo t.entries first (n / t.entries) := by
    have := interior.above
    simp only [lo] at zero ⊢
    omega
  have same : ∀ d,n / t.entries ≤ d → piece t table n last d = piece t table first last d := by
    intro d least
    rcases Nat.eq_or_lt_of_le least with rfl | more
    · rw [piece,piece,start]
    · exact piece_upper more interior.above
  dsimp only [splitUpper]
  rw [pages.remaining interior,index,if_pos rfl,if_pos zero,if_pos zero]
  refine ⟨(lawful_iff lower).mpr ⟨?_,fun i inside => ?_⟩,(lawful_iff upper).mpr ⟨rest,
    fun i inside => ?_⟩,rfl,fun table => ?_⟩
  · dsimp only
    omega
  · dsimp only at inside ⊢
    rw [getElem?_cut _ _ inside,ranges i (by omega),piece_lower (by omega) interior.below]
  · dsimp only at inside ⊢
    rw [Nat.sub_zero,Nat.add_zero,getElem?_take_of_lt inside,getElem?_drop,
      ranges _ (by omega),same _ (by omega),← Nat.add_assoc,place]
  · simp only [held]
    rw [take_cut,Nat.add_zero,Nat.sub_zero,take_take,Nat.min_self,
      (by omega : v.rangeCount - (v.rangeCount - k) = k),← sum_append,← map_append,
      ← take_add,(by omega : k + (v.rangeCount - k) = v.rangeCount)]

/-- The split is inside a table, which both vectors then hold entries of. -/
theorem split_within (refCount : Nat → Nat) (reallocated : Bool)
    (shared : n - lo t.entries first (n / t.entries) ≠ 0) :
    let split := splitUpper t v newEnd refCount true reallocated
    Lawful t table split.vec ∧ Lawful t table split.newVec ∧ split.refCount = refCount ∧
      ∀ table,held split.vec table + held split.newVec table = held v table := by
  obtain ⟨lower,upper⟩ := pages.halves interior
  obtain ⟨_,ranges⟩ := (lawful_iff pages).mp lawful
  obtain ⟨k,bound,index,place,rest,own⟩ := split_place pages interior lawful
  have long : k < v.ranges.length := (List.getElem?_eq_some_iff.mp own).1
  have tables := lower_tables (c := t.entries) interior.above
  rw [if_neg shared] at tables
  have low := Nat.div_mul_le_self n t.entries
  have high : n < (n / t.entries + 1) * t.entries :=
    (Nat.div_lt_iff_lt_mul (Nat.two_pow_pos _)).mp (Nat.lt_succ_self _)
  have above := interior.above
  have below := interior.below
  have stop : hi t.entries n (n / t.entries) = n := Nat.min_eq_left (by omega)
  have base : lo t.entries n (n / t.entries) = n := Nat.max_eq_left low
  have inside : n < hi t.entries last (n / t.entries) := Nat.lt_min.mpr ⟨below,high⟩
  have least : n / t.entries * t.entries ≤
      lo t.entries first (n / t.entries) := Nat.le_max_right _ _
  dsimp only [splitUpper]
  rw [pages.remaining interior,index,if_pos rfl,if_neg shared,if_neg shared]
  simp only [getD_eq_getElem?_getD,own,Option.getD_some,getUpper,shrink]
  refine ⟨(lawful_iff lower).mpr ⟨?_,fun i inside => ?_⟩,(lawful_iff upper).mpr ⟨rest,
    fun i inside => ?_⟩,?_,fun table => ?_⟩
  · dsimp only
    omega
  · dsimp only at inside ⊢
    rw [getElem?_cut _ _ inside,getElem?_set]
    split
    next here => rw [← here,place,piece,piece,stop]
    next other => rw [ranges i (by omega),piece_lower (by omega) below]
  · dsimp only at inside ⊢
    cases i with
    | zero =>
      simp only [getElem?_cons_zero,piece_eq,Nat.add_zero,Option.some.injEq,Range.mk.injEq,true_and]
      omega
    | succ i =>
      rw [getElem?_cons_succ,getElem?_take_of_lt (by omega),getElem?_drop,
        ranges _ (by omega),piece_upper (by omega) above]
      congr 2
      omega
  · funext other
    by_cases same : other = (piece t table first last (n / t.entries)).table
    · subst same
      simp only [Function.update_self,piece_eq]
      omega
    · rw [Function.update_of_ne same,Function.update_of_ne same]
  · obtain ⟨m,number⟩ : ∃ m,v.rangeCount = k + 1 + m := ⟨v.rangeCount - k - 1,by omega⟩
    simp only [held]
    rw [take_cut,(by omega : v.rangeCount - (v.rangeCount - k - 1) = k + 1),
      (by omega : v.rangeCount - k = m + 1),Nat.add_sub_cancel,take_succ_cons,
      take_take,Nat.min_self,take_add_one,take_set_of_le (Nat.le_refl k),
      getElem?_set_self long,number,take_add,take_add_one,own]
    simp only [map_append,sum_append,map_cons,sum_cons,Option.toList_some,piece_eq]
    split <;> omega

end Split

/-- The sub-ranges of an address range. -/
structure Tiled (t : PageTree) (start size : NvU64) : Prop where
  some : 0 < calcRangeCount t start size
  first : calcRangeStart t start 0 = start
  last : calcRangeEnd t start size (calcRangeCount t start size - 1) = start + size
  nonempty : ∀ i < calcRangeCount t start size,
    calcRangeStart t start i < calcRangeEnd t start size i
  next : ∀ i,i + 1 < calcRangeCount t start size →
    calcRangeEnd t start size i = calcRangeStart t start (i + 1)
  table : ∀ i < calcRangeCount t start size,∀ addr,calcRangeStart t start i ≤ addr →
    addr < calcRangeEnd t start size i →
    addr / t.pdeCoverage = calcRangeStart t start i / t.pdeCoverage
  index : ∀ addr,start ≤ addr → addr < start + size →
    calcRangeIndex t start addr < calcRangeCount t start size ∧
    calcRangeStart t start (calcRangeIndex t start addr) ≤ addr ∧
    addr < calcRangeEnd t start size (calcRangeIndex t start addr)

theorem Fits.tiled (fits : Fits t start size) : Tiled t start size := by
  obtain ⟨first,last,pages⟩ := fits.pages
  have positive := Nat.two_pow_pos t.pageShift
  have entries : 0 < t.entries := Nat.two_pow_pos _
  have ordered := pages.ordered
  have count := pages.count
  have order : first / t.entries ≤ (last - 1) / t.entries := Nat.div_le_div_right (by omega)
  have some : 0 < calcRangeCount t start size := by omega
  have page : ∀ {i : Nat},i < calcRangeCount t start size → ∀ {addr : NvU64},
      (calcRangeStart t start i ≤ addr ↔ lo t.entries first
        (first / t.entries + i) ≤ addr.toNat / 2 ^ t.pageShift) ∧
      (addr < calcRangeEnd t start size i ↔ addr.toNat / 2 ^ t.pageShift <
        hi t.entries last (first / t.entries + i)) := by
    intro i inside addr
    rw [le_def,lt_def,pages.rangeStart inside,pages.rangeEnd inside,
      Nat.le_div_iff_mul_le positive,Nat.div_lt_iff_lt_mul positive,Nat.mul_comm,
      Nat.mul_comm (2 ^ t.pageShift)]
    exact ⟨Iff.rfl,Iff.rfl⟩
  refine ⟨some,?_,?_,fun i inside => ?_,fun i inside => ?_,fun i inside addr low high => ?_,
    fun addr low high => ?_⟩
  · apply eq_of_toNat_eq
    have := Nat.div_mul_le_self first t.entries
    rw [pages.rangeStart some,pages.low,lo,Nat.add_zero,Nat.max_eq_left this]
  · apply eq_of_toNat_eq
    have final : first / t.entries + (calcRangeCount t start size - 1) =
        (last - 1) / t.entries := by omega
    have above := (Nat.div_lt_iff_lt_mul entries).mp (Nat.lt_succ_self ((last - 1) / t.entries))
    rw [pages.rangeEnd (by omega),pages.stop,final,hi,Nat.min_eq_left]
    rw [Nat.succ_eq_add_one] at above
    omega
  · rw [lt_def,pages.rangeStart inside,pages.rangeEnd inside]
    exact Nat.mul_lt_mul_of_pos_left (pages.touched inside).lo_lt_hi positive
  · apply eq_of_toNat_eq
    rw [pages.rangeEnd (by omega),pages.rangeStart inside,
      hi_eq_lo (pages.touched (by omega)) (by omega),Nat.add_assoc]
  · apply eq_of_toNat_eq
    have mine := div_of_mem ((page inside).1.mp low) ((page inside).2.mp high)
    have head := div_of_mem (Nat.le_refl _) (pages.touched inside).lo_lt_hi
    rw [coverage_div,coverage_div,pages.rangeStart inside,Nat.mul_div_cancel_left _ positive,
      mine.1,head.1]
  · have least : first ≤ addr.toNat / 2 ^ t.pageShift := by
      rw [Nat.le_div_iff_mul_le positive,Nat.mul_comm,← pages.low]
      exact le_def.mp low
    have most : addr.toNat / 2 ^ t.pageShift < last := by
      rw [Nat.div_lt_iff_lt_mul positive,Nat.mul_comm,← pages.stop]
      exact lt_def.mp high
    have index := pages.rangeIndex low
    have bound : addr.toNat / 2 ^ t.pageShift / t.entries ≤ (last - 1) / t.entries :=
      Nat.div_le_div_right (by omega)
    have order := Nat.div_le_div_right (c := t.entries) least
    have inside : calcRangeIndex t start addr < calcRangeCount t start size := by omega
    refine ⟨inside,(page inside).1.mpr ?_,(page inside).2.mpr ?_⟩
    · rw [index,Nat.add_sub_cancel' order]
      exact Nat.max_le.mpr ⟨least,Nat.div_mul_le_self _ _⟩
    · rw [index,Nat.add_sub_cancel' order]
      exact Nat.lt_min.mpr ⟨most,(Nat.div_lt_iff_lt_mul entries).mp (Nat.lt_succ_self _)⟩

theorem range_vec_laws (t : PageTree) (table : Nat → Nat) :
    (∀ start size,Fits t start size → Tiled t start size ∧ ∀ memory fails v,
      init t table memory fails start size = some v →
      Lawful t table v ∧ v.start = start ∧ v.size = size) ∧
    ∀ v newEnd refCount memory reallocated,Lawful t table v →
      t.pageSize.toNat ∣ (newEnd + 1).toNat → v.start < newEnd + 1 →
      newEnd + 1 < v.start + v.size →
      let split := splitUpper t v newEnd refCount memory reallocated
      split.ok = memory ∧
      (memory = false → split.vec = v ∧ split.refCount = refCount) ∧
      (memory = true → Lawful t table split.vec ∧ Lawful t table split.newVec ∧
        split.vec.start = v.start ∧ split.vec.start + split.vec.size = newEnd + 1 ∧
        split.newVec.start = newEnd + 1 ∧
        split.newVec.start + split.newVec.size = v.start + v.size ∧
        split.refCount = refCount ∧
        ∀ table,held split.vec table + held split.newVec table = held v table) := by
  refine ⟨fun start size fits => ⟨fits.tiled,fun _ _ _ => init_lawful fits⟩,?_⟩
  intro v newEnd refCount memory reallocated lawful aligned above below
  cases memory with
  | false => exact ⟨rfl,fun _ => ⟨rfl,rfl⟩,nofun⟩
  | true =>
    obtain ⟨first,last,pages⟩ := lawful.fits.pages
    obtain ⟨n,address⟩ := aligned
    rw [pageSize_toNat] at address
    rw [lt_def,address,pages.low] at above
    rw [lt_def,address,pages.stop] at below
    have interior : Interior t (newEnd + 1) first last n :=
      ⟨address,Nat.lt_of_mul_lt_mul_left above,Nat.lt_of_mul_lt_mul_left below⟩
    obtain ⟨lower,upper,refs,sums⟩ := (Decidable.em _).elim
      (split_between pages interior lawful refCount reallocated)
      (split_within pages interior lawful refCount reallocated)
    have shape : let split := splitUpper t v newEnd refCount true reallocated
        split.ok = true ∧ split.vec.start = v.start ∧
        split.vec.size = v.size - (v.size - (newEnd + 1 - v.start)) ∧
        split.newVec.start = newEnd + 1 ∧ split.newVec.size = v.size - (newEnd + 1 - v.start) := by
      simp only [splitUpper,if_true]
      generalize (if v.start > _ then _ else _) = remaining
      split <;> exact ⟨rfl,rfl,rfl,rfl,rfl⟩
    obtain ⟨ok,start,size,newStart,newSize⟩ := shape
    refine ⟨ok,nofun,fun _ => ⟨lower,upper,start,?_,newStart,?_,refs,sums⟩⟩
    · bv_omega
    · bv_omega

/-- Pages of 64 KB, with 512 of them in a table. -/
def sampleTree : PageTree := ⟨16,9,49,by decide,by decide⟩

/-- From the last page of one table to the first of another, split behind the first page. -/
theorem range_vec_laws_split :
    ∃ v,init sampleTree id true (fun _ => false) 0x1FF0000#64 0x2020000#64 = some v ∧
      (splitUpper sampleTree v 0x1FFFFFF#64 (fun _ => 0) true false).vec.ranges.length = 3 ∧
      Lawful sampleTree id
        (splitUpper sampleTree v 0x1FFFFFF#64 (fun _ => 0) true false).newVec := by
  have fits : Fits sampleTree 0x1FF0000#64 0x2020000#64 := ⟨by decide,by decide,by decide,by decide⟩
  obtain ⟨ranges,splits⟩ := range_vec_laws sampleTree id
  refine ⟨_,rfl,by decide +kernel,?_⟩
  have lawful := ((ranges _ _ fits).2 true (fun _ => false) _ rfl).1
  exact ((splits _ 0x1FFFFFF#64 (fun _ => 0) true false lawful (by decide) (by decide)
    (by decide)).2.2 rfl).2.1

end GpuExt.RangeVec
