import GpuExt.Prefetch
import Mathlib.Data.Nat.Log
import Mathlib.Data.List.Count
import Mathlib.Data.Finset.Union
import Mathlib.Order.Interval.Finset.Nat

/-! The driver's own prefetch region: the largest ancestor of the faulted page in the bitmap tree
that is dense enough. The tree starts at a big page, so that its ranges may begin below the
region; such a range is refused, not clamped. -/
namespace GpuExt.Prefetch

open List BitVec

/-! The shape of the tree; its pages are any. -/

/-- `range_big_page_region_all` in pages, from the page number of the block's start. -/
def bigPageRegionSubset (blockStart pagesPerBigPage : Nat) (region : Region) : Nat × Nat :=
  let start := blockStart + region.first.toNat
  let outer := blockStart + region.outer.toNat
  let firstAddr := (start + pagesPerBigPage - 1) / pagesPerBigPage * pagesPerBigPage
  let outerAddr := outer / pagesPerBigPage * pagesPerBigPage
  if outerAddr ≤ firstAddr then (0,0)
  else (firstAddr - start + region.first.toNat,outerAddr - start + region.first.toNat)

def levelCountOf (leafCount : NvU16) : Nat := Nat.clog 2 leafCount.toNat + 1

def initBitmapTreeFromRegion (maxRegion : Region) (pages : Nat → Bool) : BitmapTree :=
  let leafCount := maxRegion.outer - maxRegion.first
  ⟨pages,0,leafCount,levelCountOf leafCount⟩

def updateBitmapTreeFromVaBlock (blockStart pagesPerBigPage : Nat) (maxRegion : Region)
    (tree : BitmapTree) (pages : Nat → Bool) : BitmapTree :=
  let big := bigPageRegionSubset blockStart pagesPerBigPage maxRegion
  if big.1 > maxRegion.first.toNat then
    let offset := BitVec.ofNat 16 (pagesPerBigPage - (big.1 - maxRegion.first.toNat))
    let leafCount := maxRegion.outer - maxRegion.first + offset
    ⟨pages,offset,leafCount,levelCountOf leafCount⟩
  else { tree with pages }

/-- The region lies in a block, which lies in 512 aligned pages. -/
structure InBlock (blockStart pagesPerBigPage : Nat) (maxRegion : Region) : Prop where
  order : maxRegion.first < maxRegion.outer
  block : blockStart % 512 + maxRegion.outer.toNat ≤ 512
  bigPage : pagesPerBigPage ∣ 512

/-- What the functions above make of the tree. -/
structure Shape (pagesPerBigPage : Nat) (maxRegion : Region) (tree : BitmapTree) : Prop where
  order : maxRegion.first.toNat < maxRegion.outer.toNat
  outer : maxRegion.outer.toNat ≤ 512
  offset : tree.offset.toNat < pagesPerBigPage
  leafCount : tree.leafCount.toNat =
    maxRegion.outer.toNat - maxRegion.first.toNat + tree.offset.toNat
  small : tree.leafCount.toNat ≤ 512
  levelCount : tree.levelCount = Nat.clog 2 tree.leafCount.toNat + 1

section

variable {blockStart pagesPerBigPage : Nat} {region : Region} (positive : 0 < pagesPerBigPage)
include positive

/-- The big pages by their numbers, from `a` up to `b`. -/
theorem bigPageRegionSubset_eq : ∃ a b,
    (∀ m, a ≤ m ↔ blockStart + region.first.toNat ≤ pagesPerBigPage * m) ∧
    (∀ m, m ≤ b ↔ pagesPerBigPage * m ≤ blockStart + region.outer.toNat) ∧
    bigPageRegionSubset blockStart pagesPerBigPage region =
      if b ≤ a then (0,0) else (pagesPerBigPage * a - blockStart,pagesPerBigPage * b - blockStart) := by
  have up : ∀ m, (blockStart + region.first.toNat + pagesPerBigPage - 1) / pagesPerBigPage ≤ m ↔
      blockStart + region.first.toNat ≤ pagesPerBigPage * m := by
    intro m
    rw [Nat.div_le_iff_le_mul_add_pred positive]
    omega
  refine ⟨_,(blockStart + region.outer.toNat) / pagesPerBigPage,up,fun m => ?_,?_⟩
  · rw [Nat.le_div_iff_mul_le positive,Nat.mul_comm]
  · have start := (up _).mp (Nat.le_refl _)
    simp only [bigPageRegionSubset,Nat.mul_comm _ pagesPerBigPage,Nat.mul_le_mul_left_iff positive]
    split
    next => rfl
    next some =>
      have order := Nat.mul_le_mul_left pagesPerBigPage (Nat.le_of_not_le some)
      exact Prod.ext (by dsimp only; omega) (by dsimp only; omega)

/-- If big pages begin above the region, the region begins inside a big page. -/
theorem bigPageRegionSubset_gap
    (above : (bigPageRegionSubset blockStart pagesPerBigPage region).1 > region.first.toNat) :
    pagesPerBigPage -
        ((bigPageRegionSubset blockStart pagesPerBigPage region).1 - region.first.toNat) =
      (blockStart + region.first.toNat) % pagesPerBigPage := by
  obtain ⟨a,b,up,_,shape⟩ := @bigPageRegionSubset_eq blockStart _ region positive
  rw [shape] at above ⊢
  split at above
  next => exact absurd above (Nat.not_lt_zero _)
  next some =>
    rw [if_neg some]
    cases a with
    | zero => omega
    | succ a =>
      have below := (not_congr (up a)).mp (Nat.not_succ_le_self a)
      rw [Nat.mul_succ] at above ⊢
      obtain ⟨r,start⟩ := Nat.exists_eq_add_of_le (Nat.le_of_not_le below)
      rw [start,Nat.mul_add_mod,Nat.mod_eq_of_lt (by omega)]
      omega

end

theorem InBlock.shape {blockStart pagesPerBigPage : Nat} {maxRegion : Region}
    (inBlock : InBlock blockStart pagesPerBigPage maxRegion) (before pages : Nat → Bool) :
    Shape pagesPerBigPage maxRegion (updateBitmapTreeFromVaBlock blockStart pagesPerBigPage maxRegion
      (initBitmapTreeFromRegion maxRegion before) pages) := by
  obtain ⟨order,block,bigPage⟩ := inBlock
  rw [lt_def] at order
  have positive : 0 < pagesPerBigPage := Nat.pos_of_dvd_of_pos bigPage (by decide)
  have width : (maxRegion.outer - maxRegion.first).toNat =
      maxRegion.outer.toNat - maxRegion.first.toNat :=
    toNat_sub_of_le (le_def.mpr (Nat.le_of_lt order))
  unfold updateBitmapTreeFromVaBlock
  dsimp only
  split
  next above =>
    rw [bigPageRegionSubset_gap positive above]
    have below := Nat.mod_lt (blockStart + maxRegion.first.toNat) positive
    -- The offset is at most the distance of the region from the aligned pages.
    have near : (blockStart + maxRegion.first.toNat) % pagesPerBigPage ≤
        blockStart % 512 + maxRegion.first.toNat := by
      rw [Nat.add_mod,← Nat.mod_mod_of_dvd blockStart bigPage,← Nat.add_mod]
      exact Nat.mod_le _ _
    generalize (blockStart + maxRegion.first.toNat) % pagesPerBigPage = remainder at below near
    have offset : (BitVec.ofNat 16 remainder).toNat = remainder := by
      exact Nat.mod_eq_of_lt (by omega)
    have leafCount : (maxRegion.outer - maxRegion.first + BitVec.ofNat 16 remainder).toNat =
        maxRegion.outer.toNat - maxRegion.first.toNat + remainder := by
      rw [toNat_add,width,offset]
      exact Nat.mod_eq_of_lt (by omega)
    exact ⟨order,by omega,offset.symm ▸ below,offset.symm ▸ leafCount,by rw [leafCount]; omega,rfl⟩
  · exact ⟨order,by omega,positive,width,width.symm ▸ by omega,rfl⟩

/-! The ancestors of a leaf, by their height. -/

section Ancestors

variable (tree : BitmapTree) (threshold leaf height : Nat)

def ancestorFirst : Nat := leaf / 2 ^ height * 2 ^ height

def ancestorOuter : Nat := min (ancestorFirst leaf height + 2 ^ height) tree.leafCount.toNat

def occupied : Nat :=
  (range' (ancestorFirst leaf height)
    (ancestorOuter tree leaf height - ancestorFirst leaf height)).countP tree.pages

def Dense : Prop := occupied tree leaf height * 100 >
  (ancestorOuter tree leaf height - ancestorFirst leaf height) * threshold

/-- The largest of the dense ancestors. -/
structure Largest : Prop where
  inside : height < tree.levelCount
  dense : Dense tree threshold leaf height
  larger : ∀ above,height < above → above < tree.levelCount → ¬ Dense tree threshold leaf above

end Ancestors

section Ranges

variable {pagesPerBigPage : Nat} {maxRegion : Region} {tree : BitmapTree} {leaf : NvU16} {height : Nat}

section

variable (shape : Shape pagesPerBigPage maxRegion tree) (inside : height < tree.levelCount)
include shape inside

theorem Shape.height_le : height ≤ 9 := by
  have levels : Nat.clog 2 tree.leafCount.toNat ≤ 9 := Nat.clog_le_of_le_pow shape.small
  rw [shape.levelCount] at inside
  omega

theorem iterGetRange_toNat (small : leaf.toNat < tree.leafCount.toNat) :
    (iterGetRange tree (tree.levelCount - 1 - height) leaf).first.toNat =
      ancestorFirst leaf.toNat height ∧
    (iterGetRange tree (tree.levelCount - 1 - height) leaf).outer.toNat =
      ancestorOuter tree leaf.toNat height ∧
    ancestorFirst leaf.toNat height ≤ leaf.toNat ∧ leaf.toNat < ancestorOuter tree leaf.toNat height := by
  have low := shape.height_le inside
  have limit := shape.small
  have power : (2 : Nat) ^ height ≤ 512 := Nat.pow_le_pow_right (by decide) low
  have distance : tree.levelCount - 1 - (tree.levelCount - 1 - height) = height := by omega
  generalize tree.levelCount - 1 - height = level at *
  have leaves : (iterMaxLeaves tree level).toNat = 2 ^ height := by
    rw [iterMaxLeaves,distance,Nat.one_shiftLeft]
    exact (toNat_ofNat _ _).trans (Nat.mod_eq_of_lt (by omega))
  have split := Nat.div_add_mod leaf.toNat (2 ^ height)
  rw [Nat.mul_comm] at split
  have first : (iterLeafRangeStart tree level leaf).toNat = ancestorFirst leaf.toNat height := by
    rw [iterLeafRangeStart,Word.alignDown_toNat _ _ (leaves ▸ ⟨height,rfl⟩),leaves,ancestorFirst]
    omega
  have start : ancestorFirst leaf.toNat height ≤ leaf.toNat := Nat.div_mul_le_self _ _
  have beyond : leaf.toNat < ancestorFirst leaf.toNat height + 2 ^ height := by
    rw [ancestorFirst]
    omega
  have endMax : (iterLeafRangeStart tree level leaf + iterMaxLeaves tree level).toNat =
      ancestorFirst leaf.toNat height + 2 ^ height := by
    rw [toNat_add,first,leaves]
    exact Nat.mod_eq_of_lt (by omega)
  have outer : (iterGetRange tree level leaf).outer.toNat = ancestorOuter tree leaf.toNat height := by
    simp only [iterGetRange,iterLeafRange]
    rw [add_comm,sub_add_cancel,ancestorOuter,← endMax]
    split
    next before => exact (Nat.min_eq_left (Nat.le_of_lt (lt_def.mp before))).symm
    next after => exact (Nat.min_eq_right (Nat.not_lt.mp fun lt => after (lt_def.mpr lt))).symm
  exact ⟨first,outer,start,lt_min beyond small⟩

/-- The counters are those of the ranges. -/
theorem iterGetCount_toNat (small : leaf.toNat < tree.leafCount.toNat) :
    (iterGetCount tree (tree.levelCount - 1 - height) leaf).toNat = occupied tree leaf.toNat height := by
  obtain ⟨first,outer,low,high⟩ := iterGetRange_toNat shape inside small
  have limit : ancestorOuter tree leaf.toNat height ≤ 512 := (min_le_right _ _).trans shape.small
  simp only [iterGetCount,regionWeight,toNat_setWidth,toNat_sub,toNat_ofNat,first,outer,occupied]
  generalize ancestorFirst leaf.toNat height = first at low
  generalize ancestorOuter tree leaf.toNat height = outer at high limit
  have split : range outer = range first ++ range' first (outer - first) := by
    have joined := @range'_append_1 0 first (outer - first)
    rw [Nat.zero_add,Nat.add_sub_of_le (low.trans (Nat.le_of_lt high))] at joined
    rw [range_eq_range',range_eq_range',joined]
  have whole := congrArg (countP tree.pages) split
  rw [countP_append] at whole
  have bounded : (range outer).countP tree.pages ≤ 512 := by
    refine countP_le_length.trans ?_
    rw [length_range]
    exact limit
  omega

end

/-- The test of the loop. -/
def Exceeds (tree : BitmapTree) (threshold : Nat) (leaf : NvU16) (level : Nat) : Prop :=
  (iterGetCount tree level leaf).toNat * 100 >
    ((iterGetRange tree level leaf).outer - (iterGetRange tree level leaf).first).toNat * threshold

theorem exceeds_iff (shape : Shape pagesPerBigPage maxRegion tree) {threshold : Nat}
    (inside : height < tree.levelCount) (small : leaf.toNat < tree.leafCount.toNat) :
    Exceeds tree threshold leaf (tree.levelCount - 1 - height) ↔
      Dense tree threshold leaf.toNat height := by
  obtain ⟨first,outer,low,high⟩ := iterGetRange_toNat shape inside small
  have pages : ((iterGetRange tree (tree.levelCount - 1 - height) leaf).outer -
      (iterGetRange tree (tree.levelCount - 1 - height) leaf).first).toNat =
        ancestorOuter tree leaf.toNat height - ancestorFirst leaf.toNat height := by
    rw [toNat_sub_of_le (le_def.mpr (by omega)),first,outer]
  rw [Exceeds,Dense,pages,iterGetCount_toNat shape inside small]

variable (tree) in
/-- The loop ends with the range nearest to the root that passes the test. -/
theorem nativeLevels_cases (threshold : Nat) (leaf : NvU16) (levels : Nat) (relative : Region) :
    (∃ level < levels,nativeLevels tree threshold leaf levels relative = iterGetRange tree level leaf ∧
      Exceeds tree threshold leaf level ∧ ∀ above < level,¬ Exceeds tree threshold leaf above) ∨
    (nativeLevels tree threshold leaf levels relative = relative ∧
      ∀ level < levels,¬ Exceeds tree threshold leaf level) := by
  induction levels generalizing relative with
  | zero => exact .inr ⟨rfl,fun _ lt => absurd lt (Nat.not_lt_zero _)⟩
  | succ levels ih =>
    by_cases exceeds : Exceeds tree threshold leaf levels
    · have step : nativeLevels tree threshold leaf (levels + 1) relative =
          nativeLevels tree threshold leaf levels (iterGetRange tree levels leaf) :=
        congrArg (nativeLevels tree threshold leaf levels) (if_pos exceeds)
      rw [step]
      rcases ih _ with ⟨level,lt,found⟩ | ⟨same,none⟩
      · exact .inl ⟨level,Nat.lt_succ_of_lt lt,found⟩
      · exact .inl ⟨levels,Nat.lt_succ_self levels,same,exceeds,none⟩
    · have step : nativeLevels tree threshold leaf (levels + 1) relative =
          nativeLevels tree threshold leaf levels relative :=
        congrArg (nativeLevels tree threshold leaf levels) (if_neg exceeds)
      rw [step]
      rcases ih relative with ⟨level,lt,found⟩ | ⟨same,none⟩
      · exact .inl ⟨level,Nat.lt_succ_of_lt lt,found⟩
      · refine .inr ⟨same,fun level lt => ?_⟩
        rcases Nat.lt_succ_iff_lt_or_eq.mp lt with before | rfl
        · exact none level before
        · exact exceeds

/-- The largest dense ancestor, or nothing. -/
theorem nativeLevels_largest (shape : Shape pagesPerBigPage maxRegion tree) (threshold : Nat)
    (small : leaf.toNat < tree.leafCount.toNat) :
    (∃ height,Largest tree threshold leaf.toNat height ∧
      nativeLevels tree threshold leaf tree.levelCount ⟨0,0⟩ =
        iterGetRange tree (tree.levelCount - 1 - height) leaf) ∨
    (nativeLevels tree threshold leaf tree.levelCount ⟨0,0⟩ = ⟨0,0⟩ ∧
      ∀ height < tree.levelCount,¬ Dense tree threshold leaf.toNat height) := by
  rcases nativeLevels_cases tree threshold leaf tree.levelCount ⟨0,0⟩ with
    ⟨level,lt,found,exceeds,none⟩ | ⟨empty,none⟩
  · obtain ⟨height,inside,rfl⟩ : ∃ height < tree.levelCount,level = tree.levelCount - 1 - height :=
      ⟨tree.levelCount - 1 - level,by omega,by omega⟩
    refine .inl ⟨height,⟨inside,(exceeds_iff shape inside small).mp exceeds,fun above higher low => ?_⟩,
      found⟩
    rw [← exceeds_iff shape low small]
    exact none _ (by omega)
  · refine .inr ⟨empty,fun height inside => ?_⟩
    rw [← exceeds_iff shape inside small]
    exact none _ (by omega)

theorem Largest.unique {threshold leaf h h' : Nat} (first : Largest tree threshold leaf h)
    (second : Largest tree threshold leaf h') : h = h' := by
  rcases Nat.lt_trichotomy h h' with lt | same | gt
  · exact absurd second.dense (first.larger h' lt second.inside)
  · exact same
  · exact absurd first.dense (second.larger h gt first.inside)

end Ranges

/-! The region of a page. -/

section Region

variable {pagesPerBigPage : Nat} {maxRegion : Region} {tree : BitmapTree}

theorem translateEndpoint_apply (shape : Shape pagesPerBigPage maxRegion tree) {relative : NvU16}
    (above : tree.offset.toNat ≤ relative.toNat) (below : relative.toNat ≤ tree.leafCount.toNat) :
    ∃ endpoint,translateEndpoint (maxRegion.first.setWidth 64) (relative.setWidth 64)
      (tree.offset.setWidth 64) (maxRegion.outer.setWidth 64) pagesPerVaBlock typeOuter =
        (.apply,endpoint) ∧
      endpoint.toNat = maxRegion.first.toNat + (relative.toNat - tree.offset.toNat) := by
  obtain ⟨order,outer,_,leafCount,_,_⟩ := shape
  have wide (x : NvU16) : (x.setWidth 64).toNat = x.toNat := setWidth_toNat x
  have words := And.intro (wide maxRegion.first) (And.intro (wide relative)
    (And.intro (wide tree.offset) (wide maxRegion.outer)))
  generalize maxRegion.first.setWidth 64 = first, relative.setWidth 64 = index,
    tree.offset.setWidth 64 = offset, maxRegion.outer.setWidth 64 = last at words ⊢
  refine ⟨first + index - offset,?_,by bv_omega⟩
  have carries : ¬index > ~~~first := by bv_omega
  have covered : ¬first + index < offset := by bv_omega
  have inside : ¬(first + index - offset < first ∨ first + index - offset > last ∨
      first + index - offset > pagesPerVaBlock ∨ first + index - offset > typeOuter) := by
    have block : pagesPerVaBlock.toNat = 512 := rfl
    have type : typeOuter.toNat = 65535 := rfl
    bv_omega
  simp only [translateEndpoint,if_neg carries,if_neg covered,if_neg inside]

/-- A range that does not begin below the region is shifted to it. -/
theorem translate_commit (shape : Shape pagesPerBigPage maxRegion tree) {relative : Region}
    (above : tree.offset.toNat ≤ relative.first.toNat) (order : relative.first < relative.outer)
    (below : relative.outer.toNat ≤ tree.leafCount.toNat) :
    (translate tree maxRegion relative).1 = .apply ∧
    (commit (translate tree maxRegion relative).2).region.first.toNat =
      maxRegion.first.toNat + (relative.first.toNat - tree.offset.toNat) ∧
    (commit (translate tree maxRegion relative).2).region.outer.toNat =
      maxRegion.first.toNat + (relative.outer.toNat - tree.offset.toNat) := by
  rw [lt_def] at order
  obtain ⟨first,lower,firstNat⟩ := translateEndpoint_apply shape above (by omega)
  obtain ⟨outer,upper,outerNat⟩ := translateEndpoint_apply shape (by omega) below
  have ordered : ¬ first ≥ outer := by
    rw [ge_iff_le,le_def]
    omega
  have result : translate tree maxRegion relative = (.apply,⟨first,outer⟩) := by
    rw [translate,translateRegion,lower,upper]
    exact if_neg ordered
  have leaves := shape.leafCount
  rw [result]
  refine ⟨rfl,?_,?_⟩ <;> simp [commit] <;> omega

variable (tree maxRegion) in
/-- Without a policy. -/
theorem computePrefetchRegion_absent (threshold : Nat) (pageIndex : NvU16) :
    computePrefetchRegion tree maxRegion threshold .absent (fun _ => .absent) pageIndex =
      let relative := nativeLevels tree threshold (pageIndex - maxRegion.first + tree.offset)
        tree.levelCount ⟨0,0⟩
      if relative.outer ≠ 0 then
        if (translate tree maxRegion relative).1 = .apply then
          commit (translate tree maxRegion relative).2
        else .empty
      else .empty := by
  simp only [computePrefetchRegion,absent_native]

theorem Shape.leaf (shape : Shape pagesPerBigPage maxRegion tree) {page : NvU16}
    (low : maxRegion.first.toNat ≤ page.toNat) (high : page.toNat < maxRegion.outer.toNat) :
    (page - maxRegion.first + tree.offset).toNat =
        page.toNat - maxRegion.first.toNat + tree.offset.toNat ∧
      (page - maxRegion.first + tree.offset).toNat < tree.leafCount.toNat := by
  have leafCount := shape.leafCount
  rw [toNat_add,toNat_sub_of_le (le_def.mpr low)]
  omega

/-- A range that begins below the region is refused. -/
theorem translate_refused {relative : Region} (below : relative.first.toNat < tree.offset.toNat) :
    (translate tree maxRegion relative).1 ≠ .apply := by
  have refused : (translateEndpoint (maxRegion.first.setWidth 64) (relative.first.setWidth 64)
      (tree.offset.setWidth 64) (maxRegion.outer.setWidth 64) pagesPerVaBlock typeOuter).1 =
        .rejectRange := by
    have wide (x : NvU16) : (x.setWidth 64).toNat = x.toNat := setWidth_toNat x
    have words := And.intro (wide maxRegion.first) (And.intro (wide relative.first)
      (wide tree.offset))
    have narrow := And.intro maxRegion.first.isLt relative.first.isLt
    generalize maxRegion.first.setWidth 64 = first, relative.first.setWidth 64 = index,
      tree.offset.setWidth 64 = offset at words ⊢
    simp only [translateEndpoint]
    split
    · rfl
    · split
      · rfl
      · rw [if_pos (.inl (by bv_omega))]
  rw [translate,translateRegion]
  generalize translateEndpoint _ (relative.first.setWidth 64) _ _ _ _ = first at refused
  obtain ⟨result,endpoint⟩ := first
  cases refused
  exact nofun

/-- The largest dense ancestor shifted to the region and cut off at its start, or nothing. The
ranges of the tree do not go over the region's end. -/
structure NativeRegion (tree : BitmapTree) (maxRegion : Region) (threshold : Nat)
    (pageIndex : NvU16) (leaf : Nat) (region : Region) : Prop where
  none : (∀ height < tree.levelCount,¬ Dense tree threshold leaf height) → region = ⟨0,0⟩
  some : ∀ height,Largest tree threshold leaf height →
    region.first.toNat = maxRegion.first.toNat + (ancestorFirst leaf height - tree.offset.toNat) ∧
    region.outer.toNat =
      maxRegion.first.toNat + (ancestorOuter tree leaf height - tree.offset.toNat) ∧
    region.first ≤ pageIndex ∧ pageIndex < region.outer ∧
    maxRegion.first ≤ region.first ∧ region.outer ≤ maxRegion.outer

/-- The driver prefetches the largest dense ancestor just when it does not begin below the
region. -/
theorem native_prefetch (threshold : Nat) {blockStart : Nat} {before pages : Nat → Bool}
    {pageIndex : NvU16} (inBlock : InBlock blockStart pagesPerBigPage maxRegion)
    (built : tree = updateBitmapTreeFromVaBlock blockStart pagesPerBigPage maxRegion
      (initBitmapTreeFromRegion maxRegion before) pages)
    (page : maxRegion.first ≤ pageIndex ∧ pageIndex < maxRegion.outer) :
    let leaf := pageIndex.toNat - maxRegion.first.toNat + tree.offset.toNat
    NativeRegion tree maxRegion threshold pageIndex leaf (computePrefetchRegion tree maxRegion
      threshold .absent (fun _ => .absent) pageIndex).region ↔
    ∀ height,Largest tree threshold leaf height → tree.offset.toNat ≤ ancestorFirst leaf height := by
  have shape := built ▸ inBlock.shape before pages
  simp only [lt_def,le_def] at page
  have leafCount := shape.leafCount
  obtain ⟨leafNat,inside⟩ := shape.leaf page.1 page.2
  rw [← leafNat,computePrefetchRegion_absent]
  generalize pageIndex - maxRegion.first + tree.offset = leaf at leafNat inside
  rcases nativeLevels_largest shape threshold inside with ⟨h,largest,found⟩ | ⟨empty,none⟩
  · obtain ⟨first,last,low,high⟩ := iterGetRange_toNat shape largest.inside inside
    have limit : ancestorOuter tree leaf.toNat h ≤ tree.leafCount.toNat := min_le_right _ _
    rw [found]
    generalize iterGetRange tree _ leaf = range at first last
    have filled : range.outer ≠ 0 := fun zero => by
      rw [zero] at last
      exact absurd (last ▸ high) (Nat.not_lt_zero _)
    rw [if_pos filled]
    refine ⟨fun native height other => ?_,fun above => ⟨fun none => ?_,fun height other => ?_⟩⟩
    · obtain rfl := other.unique largest
      by_contra below
      have some := (native.some height largest).2.2.2.1
      rw [if_neg (translate_refused (first ▸ Nat.lt_of_not_le below))] at some
      exact Nat.not_lt_zero _ (lt_def.mp some)
    · exact absurd largest.dense (none h largest.inside)
    · obtain rfl := other.unique largest
      obtain ⟨apply,shiftedFirst,shiftedOuter⟩ := translate_commit shape
        (first ▸ above height largest) (lt_def.mpr (by omega)) (last ▸ limit)
      have above := above height largest
      rw [if_pos apply]
      simp only [lt_def,le_def]
      omega
  · have nothing : ∀ height,¬ Largest tree threshold leaf.toNat height := fun height largest =>
      none height largest.inside largest.dense
    refine ⟨fun _ height largest => absurd largest (nothing height),fun _ => ⟨fun _ => ?_,
      fun height largest => absurd largest (nothing height)⟩⟩
    rw [empty]
    rfl

end Region

/-! The mask of a batch of faults. -/

section Mask

variable {pagesPerBigPage : Nat} {maxRegion : Region} {tree : BitmapTree}

theorem ancestorFirst_same {leaf later height above : Nat} (order : leaf ≤ later)
    (inside : later < ancestorFirst leaf height + 2 ^ height) (higher : height ≤ above) :
    ancestorFirst later above = ancestorFirst leaf above := by
  have block : later / 2 ^ height = leaf / 2 ^ height :=
    Nat.div_eq_of_lt_le ((Nat.div_mul_le_self ..).trans order) (by rw [Nat.succ_mul]; exact inside)
  obtain ⟨more,rfl⟩ := Nat.exists_eq_add_of_le higher
  rw [ancestorFirst,ancestorFirst,Nat.pow_add,← Nat.div_div_eq_div_mul,← Nat.div_div_eq_div_mul,block]

/-- The region of a page without a policy. -/
def nativeRegion (tree : BitmapTree) (maxRegion : Region) (threshold : Nat) (page : NvU16) : Region :=
  (computePrefetchRegion tree maxRegion threshold .absent (fun _ => .absent) page).region

/-- A region that reaches the end is that of every later page, too. -/
theorem nativeRegion_later (shape : Shape pagesPerBigPage maxRegion tree) {threshold : Nat}
    {page later : NvU16} (low : maxRegion.first.toNat ≤ page.toNat) (order : page.toNat ≤ later.toNat)
    (high : later.toNat < maxRegion.outer.toNat)
    (reaches : (nativeRegion tree maxRegion threshold page).outer = maxRegion.outer) :
    nativeRegion tree maxRegion threshold later = nativeRegion tree maxRegion threshold page := by
  have nonempty : (0 : NvU16) ≠ maxRegion.outer := fun zero =>
    absurd (zero ▸ high) (Nat.not_lt_zero _)
  obtain ⟨leafPage,small⟩ := shape.leaf low (order.trans_lt high)
  obtain ⟨leafLater,small'⟩ := shape.leaf (low.trans order) high
  unfold nativeRegion at reaches ⊢
  rw [computePrefetchRegion_absent] at reaches ⊢
  rw [computePrefetchRegion_absent]
  generalize page - maxRegion.first + tree.offset = leaf at *
  generalize later - maxRegion.first + tree.offset = next at *
  dsimp only at reaches ⊢
  rcases nativeLevels_largest shape threshold small with ⟨h,largest,found⟩ | ⟨empty,_⟩
  · obtain ⟨first,last,start,stop⟩ := iterGetRange_toNat shape largest.inside small
    rw [found] at reaches
    split_ifs at reaches with filled applied
    · -- The end of the range is the last leaf.
      have joined : translate tree maxRegion _ = (.apply,_) := Prod.ext applied rfl
      obtain ⟨_,upper,_⟩ := joinEndpoints_apply joined
      have bound : ancestorOuter tree leaf.toNat h ≤ tree.leafCount.toNat := min_le_right _ _
      have above : tree.offset.toNat ≤ ancestorOuter tree leaf.toNat h := by omega
      rw [← last] at bound above
      obtain ⟨endpoint,shifted,endNat⟩ := translateEndpoint_apply shape above bound
      rw [shifted,Prod.mk.injEq] at upper
      have same := congrArg BitVec.toNat reaches
      simp only [commit,toNat_setWidth,← upper.2] at same
      have whole : ancestorOuter tree leaf.toNat h ≤ ancestorFirst leaf.toNat h + 2 ^ h :=
        min_le_left _ _
      have firsts (k : Nat) (higher : h ≤ k) : ancestorFirst next.toNat k = ancestorFirst leaf.toNat k :=
        ancestorFirst_same (by omega) (by omega) higher
      have dense (k : Nat) (higher : h ≤ k) : Dense tree threshold next.toNat k ↔
          Dense tree threshold leaf.toNat k := by
        rw [Dense,Dense,occupied,occupied,ancestorOuter,ancestorOuter,firsts k higher]
      have again : Largest tree threshold next.toNat h :=
        ⟨largest.inside,(dense h le_rfl).mpr largest.dense,fun k higher inside =>
          (dense k higher.le).not.mpr (largest.larger k higher inside)⟩
      obtain ⟨first',last',_⟩ := iterGetRange_toNat shape largest.inside small'
      rcases nativeLevels_largest shape threshold small' with ⟨h',largest',found'⟩ | ⟨_,none⟩
      · obtain rfl := largest'.unique again
        rw [firsts h' le_rfl,← first] at first'
        rw [ancestorOuter,firsts h' le_rfl,← ancestorOuter,← last] at last'
        rw [found,found',show iterGetRange tree _ next = _ from
          congrArg₂ Region.mk (eq_of_toNat_eq first') (eq_of_toNat_eq last')]
      · exact absurd again.dense (none h largest.inside)
    all_goals exact absurd reaches nonempty
  · rw [empty] at reaches
    exact absurd reaches nonempty

def regionPages (region : Region) : Finset Nat := Finset.Ico region.first.toNat region.outer.toNat

/-- The faulted pages that are left. -/
def maskLoop (tree : BitmapTree) (maxRegion : Region) (threshold : Nat) :
    List Nat → Finset Nat → Finset Nat
  | [],mask => mask
  | page :: rest,mask =>
    let region := nativeRegion tree maxRegion threshold (.ofNat 16 page)
    let mask := mask ∪ regionPages region
    if region.outer = maxRegion.outer then mask else maskLoop tree maxRegion threshold rest mask

def computePrefetchMask (faultedRegion maxRegion : Region) (tree : BitmapTree)
    (faultedPages : Finset Nat) (threshold : Nat) : Finset Nat :=
  maskLoop tree maxRegion threshold
    ((range' faultedRegion.first.toNat
      (faultedRegion.outer.toNat - faultedRegion.first.toNat)).filter (· ∈ faultedPages)) ∅

theorem Shape.maskLoop (shape : Shape pagesPerBigPage maxRegion tree) {threshold : Nat}
    {faulted : List Nat} (ascending : faulted.Pairwise (· < ·))
    (inside : ∀ page ∈ faulted,maxRegion.first.toNat ≤ page ∧ page < maxRegion.outer.toNat)
    (mask : Finset Nat) : maskLoop tree maxRegion threshold faulted mask =
      mask ∪ faulted.toFinset.biUnion fun page =>
        regionPages (nativeRegion tree maxRegion threshold (.ofNat 16 page)) := by
  induction faulted generalizing mask with
  | nil => simp [Prefetch.maskLoop]
  | cons page rest ih =>
    obtain ⟨first,ascending⟩ := pairwise_cons.mp ascending
    rw [Prefetch.maskLoop,toFinset_cons,Finset.biUnion_insert,← Finset.union_assoc]
    split
    next reaches =>
      -- The remaining pages add what is there.
      refine (Finset.union_eq_left.mpr (Finset.biUnion_subset.mpr fun later member => ?_)).symm
      rw [mem_toFinset] at member
      have word (n : Nat) (member : n ∈ page :: rest) : (BitVec.ofNat 16 n).toNat = n := by
        have := (inside n member).2
        rw [toNat_ofNat]
        omega
      have here := word page (by simp)
      have there := word later (by simp [member])
      have low := (inside page (by simp)).1
      have high := (inside later (by simp [member])).2
      have order := first later member
      rw [nativeRegion_later shape (by omega) (by omega) (by omega) reaches]
      exact Finset.subset_union_right
    next => exact ih ascending (fun later member => inside later (by simp [member])) _

/-- The early exit loses nothing. -/
theorem prefetchMask_union (threshold : Nat) {blockStart : Nat} {before pages : Nat → Bool}
    {faultedRegion : Region} (faultedPages : Finset Nat)
    (inBlock : InBlock blockStart pagesPerBigPage maxRegion)
    (built : tree = updateBitmapTreeFromVaBlock blockStart pagesPerBigPage maxRegion
      (initBitmapTreeFromRegion maxRegion before) pages)
    (within : maxRegion.first ≤ faultedRegion.first ∧ faultedRegion.outer ≤ maxRegion.outer) :
    computePrefetchMask faultedRegion maxRegion tree faultedPages threshold =
      (regionPages faultedRegion ∩ faultedPages).biUnion fun page =>
        regionPages (nativeRegion tree maxRegion threshold (.ofNat 16 page)) := by
  have shape := built ▸ inBlock.shape before pages
  rw [computePrefetchMask,shape.maskLoop ((pairwise_lt_range' ..).filter _),Finset.empty_union]
  · congr 1
    ext page
    simp only [mem_toFinset,mem_filter,mem_range'_1,decide_eq_true_eq,Finset.mem_inter,regionPages,
      Finset.mem_Ico]
    exact and_congr_left fun _ => by omega
  · intro page member
    simp only [mem_filter,mem_range'_1] at member
    simp only [le_def] at within
    omega

end Mask

/-- All pages of a region are set. With a block that starts in the middle of a big page, the
tree begins with eight pages that are not in the region. -/
def fullTree (blockStart : Nat) (maxRegion : Region) : BitmapTree :=
  updateBitmapTreeFromVaBlock blockStart 16 maxRegion
    (initBitmapTreeFromRegion maxRegion fun _ => true) fun page => blockStart ≤ page

theorem fullTree_largest (blockStart : Nat) (maxRegion : Region) (leaf : Nat)
    (levels : (fullTree blockStart maxRegion).levelCount = 6)
    (dense : occupied (fullTree blockStart maxRegion) leaf 5 * 100 >
      (ancestorOuter (fullTree blockStart maxRegion) leaf 5 - ancestorFirst leaf 5) * 51) :
    Largest (fullTree blockStart maxRegion) 51 leaf 5 :=
  ⟨levels ▸ by decide,dense,fun above higher low => absurd low (by omega)⟩

theorem prefetchMask_union_full :
    computePrefetchMask ⟨2,32⟩ ⟨0,32⟩ (fullTree 0 ⟨0,32⟩) {3,20} 51 = Finset.Ico 0 32 := by
  have inBlock : InBlock 0 16 ⟨0,32⟩ := ⟨by decide,by decide,by decide⟩
  exact (prefetchMask_union 51 {3,20} inBlock rfl (by decide)).trans (by decide +kernel)

theorem native_prefetch_aligned :
    (computePrefetchRegion (fullTree 0 ⟨0,32⟩) ⟨0,32⟩ 51 .absent (fun _ => .absent) 3).region.outer.toNat =
      32 := by
  have inBlock : InBlock 0 16 ⟨0,32⟩ := ⟨by decide,by decide,by decide⟩
  have built : fullTree 0 ⟨0,32⟩ = updateBitmapTreeFromVaBlock 0 16 ⟨0,32⟩
    (initBitmapTreeFromRegion ⟨0,32⟩ fun _ => true) fun page => 0 ≤ page := rfl
  have page : (0 : NvU16) ≤ 3 ∧ (3 : NvU16) < 32 := by decide
  have largest := fullTree_largest 0 ⟨0,32⟩ 3 (by decide) (by decide)
  have native := (native_prefetch 51 inBlock built page).mpr fun height other => by
    obtain rfl := other.unique largest
    decide
  exact (native.some 5 largest).2.1

/-- The whole tree is dense, but it begins below the region, and nothing is prefetched. -/
theorem prefetch_refused : InBlock 8 16 ⟨0,24⟩ ∧ Largest (fullTree 8 ⟨0,24⟩) 51 (3 + 8) 5 ∧
    (fullTree 8 ⟨0,24⟩).offset = 8 ∧
    (computePrefetchRegion (fullTree 8 ⟨0,24⟩) ⟨0,24⟩ 51 .absent (fun _ => .absent) 3).region =
      ⟨0,0⟩ :=
  ⟨⟨by decide,by decide,by decide⟩,fullTree_largest 8 ⟨0,24⟩ _ (by decide) (by decide),by decide,
    by decide⟩

end GpuExt.Prefetch
