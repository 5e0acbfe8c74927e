import GpuExt.NativePrefetch

/-! The pages of the bitmap tree. Resident and faulted pages are set; a part of the region (a big
page, or what is left before or behind the big pages) is set as a whole if one of its pages faulted
and none thrashes. -/
namespace GpuExt.Prefetch

open List

abbrev Mask := Nat → Bool

section

variable (mask : Mask) (n first outer : Nat)

def shiftRight : Mask := fun i => i + n < 512 && mask (i + n)

def shiftLeft : Mask := fun i => i < 512 && n ≤ i && mask (i - n)

def regionFill : Mask := fun i => mask i || first ≤ i && i < outer

def regionEmpty : Bool := (range' first (outer - first)).all (!mask ·)

end

section

variable (faulted : Mask) (thrashing resident : Option Mask) (maxRegion : Region)
  (blockStart pagesPerBigPage : Nat)

/-- The mask of `init_bitmap_tree_from_region`. -/
def initialPages : Mask :=
  let pages := match resident with
    | some resident => fun i => resident i || faulted i
    | none => faulted
  shiftRight pages maxRegion.first.toNat

def growFaultGranularityIfNoThrashing (offset : Nat) (pages : Mask) (first outer : Nat) : Mask :=
  if !regionEmpty faulted first outer && thrashing.all (regionEmpty · first outer) then
    regionFill pages (first - maxRegion.first.toNat + offset)
      (outer - maxRegion.first.toNat + offset)
  else pages

def growFaultGranularity (big : Nat × Nat) (offset : Nat) (pages : Mask) : Mask :=
  let first := maxRegion.first.toNat
  let outer := maxRegion.outer.toNat
  let grow := growFaultGranularityIfNoThrashing faulted thrashing maxRegion offset
  if big.2 = 0 then grow pages first outer
  else
    let pages := if first < big.1 then grow pages first big.1 else pages
    let turns := (big.2 - big.1 + pagesPerBigPage - 1) / pagesPerBigPage
    let pages := (range' big.1 turns pagesPerBigPage).foldl
      (fun pages page => grow pages page (page + pagesPerBigPage)) pages
    if big.2 < outer then grow pages big.2 outer else pages

/-- The tree with its pages, after both functions. -/
def bitmapTree : BitmapTree :=
  let big := bigPageRegionSubset blockStart pagesPerBigPage maxRegion
  let tree := initBitmapTreeFromRegion maxRegion (initialPages faulted resident maxRegion)
  let update := updateBitmapTreeFromVaBlock blockStart pagesPerBigPage maxRegion tree
  let offset := (update tree.pages).offset.toNat
  let pages := if big.1 > maxRegion.first.toNat then shiftLeft tree.pages offset else tree.pages
  update (growFaultGranularity faulted thrashing maxRegion pagesPerBigPage big offset pages)

/-! What the tree is to show. -/

structure BigPage (first : Nat) : Prop where
  aligned : pagesPerBigPage ∣ blockStart + first
  low : maxRegion.first.toNat ≤ first
  high : first + pagesPerBigPage ≤ maxRegion.outer.toNat

/-- A part of the region by its first page and the page behind it. -/
inductive Part : Nat → Nat → Prop
  | bigPage {first : Nat} (big : BigPage maxRegion blockStart pagesPerBigPage first) :
    Part first (first + pagesPerBigPage)
  | before {first : Nat} (big : BigPage maxRegion blockStart pagesPerBigPage first)
    (least : ∀ other, BigPage maxRegion blockStart pagesPerBigPage other → first ≤ other) :
    Part maxRegion.first.toNat first
  | behind {first : Nat} (big : BigPage maxRegion blockStart pagesPerBigPage first)
    (greatest : ∀ other, BigPage maxRegion blockStart pagesPerBigPage other → other ≤ first) :
    Part (first + pagesPerBigPage) maxRegion.outer.toNat
  | whole (none : ∀ first, ¬BigPage maxRegion blockStart pagesPerBigPage first) :
    Part maxRegion.first.toNat maxRegion.outer.toNat

/-- The page lies in a range that has a faulted page and no page that thrashes. -/
structure Covered (page first outer : Nat) : Prop where
  low : first ≤ page
  high : page < outer
  faulted : ∃ other, first ≤ other ∧ other < outer ∧ faulted other = true
  calm : ∀ mask ∈ thrashing, ∀ other, first ≤ other → other < outer → mask other = false

def Chosen (page : Nat) : Prop :=
  (∃ mask ∈ resident, mask page = true) ∨ faulted page = true ∨ ∃ first outer,
    Part maxRegion blockStart pagesPerBigPage first outer ∧
    Covered faulted thrashing page first outer

end

variable {faulted pages : Mask} {thrashing resident : Option Mask} {maxRegion : Region}
  {blockStart width offset i : Nat}

/-- The big pages follow each other. -/
theorem bigPageRegionSubset_cases (positive : 0 < width) :
    (bigPageRegionSubset blockStart width maxRegion = (0,0) ∧
      ∀ page, ¬BigPage maxRegion blockStart width page) ∨
    ∃ first turns, bigPageRegionSubset blockStart width maxRegion =
        (first,first + width * (turns + 1)) ∧
      ∀ page, BigPage maxRegion blockStart width page ↔ ∃ k < turns + 1, page = first + width * k := by
  obtain ⟨a,b,up,down,shape⟩ := @bigPageRegionSubset_eq blockStart _ maxRegion positive
  have start := (up a).mp (Nat.le_refl _)
  have inside : ∀ page, BigPage maxRegion blockStart width page ↔
      ∃ m, blockStart + page = width * m ∧ a ≤ m ∧ m < b := by
    intro page
    constructor
    · rintro ⟨⟨m,aligned⟩,low,high⟩
      refine ⟨m,aligned,(up m).mpr (by omega),(down _).mpr ?_⟩
      rw [Nat.mul_succ]
      omega
    · rintro ⟨m,aligned,low,high⟩
      have low := (up m).mp low
      have high := (down _).mp high
      rw [Nat.mul_succ] at high
      exact ⟨⟨m,aligned⟩,by omega,by omega⟩
  rw [shape]
  split
  next none =>
    refine .inl ⟨rfl,fun page big => ?_⟩
    obtain ⟨m,_,low,high⟩ := (inside page).mp big
    omega
  next some =>
    obtain ⟨turns,rfl⟩ := Nat.exists_eq_add_of_lt (Nat.lt_of_not_le some)
    refine .inr ⟨_,turns,Prod.ext rfl ?_,fun page => ?_⟩
    · rw [Nat.add_assoc a,Nat.mul_add]
      omega
    · rw [inside]
      constructor
      · rintro ⟨m,aligned,low,high⟩
        obtain ⟨k,rfl⟩ := Nat.exists_eq_add_of_le low
        rw [Nat.mul_add] at aligned
        exact ⟨k,by omega,by omega⟩
      · rintro ⟨k,less,rfl⟩
        refine ⟨a + k,?_,by omega,by omega⟩
        rw [Nat.mul_add]
        omega

theorem regionEmpty_iff {mask : Mask} {first outer : Nat} : regionEmpty mask first outer = true ↔
    ∀ page, first ≤ page → page < outer → mask page = false := by
  simp only [regionEmpty,all_eq_true,mem_range'_1,Bool.not_eq_true',and_imp]
  refine forall₂_congr fun page low => imp_congr_left ?_
  omega

/-- One call sets the leaves of a covered range. -/
theorem grow_iff {first outer : Nat} (low : maxRegion.first.toNat ≤ first) :
    growFaultGranularityIfNoThrashing faulted thrashing maxRegion offset pages first outer i = true ↔
      pages i = true ∨ offset ≤ i ∧
        Covered faulted thrashing (maxRegion.first.toNat + (i - offset)) first outer := by
  have choice : (!regionEmpty faulted first outer &&
        thrashing.all (regionEmpty · first outer)) = true ↔
      (∃ other, first ≤ other ∧ other < outer ∧ faulted other = true) ∧
      ∀ mask ∈ thrashing, ∀ other, first ≤ other → other < outer → mask other = false := by
    rw [Bool.and_eq_true,Bool.not_eq_true',← Bool.not_eq_true]
    cases thrashing <;> simp [regionEmpty_iff]
  unfold growFaultGranularityIfNoThrashing
  split
  next grown =>
    obtain ⟨faulted,calm⟩ := choice.mp grown
    simp only [regionFill,Bool.or_eq_true,Bool.and_eq_true,decide_eq_true_eq]
    refine or_congr_right ⟨fun _ => ⟨by omega,by omega,by omega,faulted,calm⟩,fun ⟨least,covered⟩ => ?_⟩
    have := covered.low
    have := covered.high
    omega
  next kept =>
    refine (or_iff_left fun ⟨_,covered⟩ => kept ?_).symm
    exact choice.mpr ⟨covered.faulted,covered.calm⟩

/-- A range without pages sets nothing. -/
theorem growSome_eq {first outer : Nat} :
    (if first < outer then
      growFaultGranularityIfNoThrashing faulted thrashing maxRegion offset pages first outer
      else pages) =
    growFaultGranularityIfNoThrashing faulted thrashing maxRegion offset pages first outer := by
  split
  next => rfl
  next none =>
    have : outer - first = 0 := by omega
    simp [growFaultGranularityIfNoThrashing,regionEmpty,this]

theorem growAll_iff {firsts : List Nat} (low : ∀ first ∈ firsts, maxRegion.first.toNat ≤ first) :
    firsts.foldl (fun pages page => growFaultGranularityIfNoThrashing faulted thrashing maxRegion
        offset pages page (page + width)) pages i = true ↔
      pages i = true ∨ offset ≤ i ∧ ∃ first ∈ firsts,
        Covered faulted thrashing (maxRegion.first.toNat + (i - offset)) first (first + width) := by
  induction firsts generalizing pages with
  | nil => simp
  | cons first firsts ih =>
    have here := low first mem_cons_self
    rw [foldl_cons,ih fun other member => low other (mem_cons_of_mem _ member),grow_iff here,
      exists_mem_cons_iff,or_assoc,← and_or_left]

theorem growFaultGranularity_iff (positive : 0 < width) :
    growFaultGranularity faulted thrashing maxRegion width
        (bigPageRegionSubset blockStart width maxRegion) offset pages i = true ↔
      pages i = true ∨ offset ≤ i ∧ ∃ first outer, Part maxRegion blockStart width first outer ∧
        Covered faulted thrashing (maxRegion.first.toNat + (i - offset)) first outer := by
  simp only [growFaultGranularity,growSome_eq]
  rcases bigPageRegionSubset_cases positive with
    ⟨zero,none⟩ | ⟨first,turns,shape,bigPages⟩
  · rw [zero,if_pos rfl,grow_iff (Nat.le_refl _)]
    refine or_congr_right (and_congr_right fun _ => ⟨fun covered => ⟨_,_,.whole none,covered⟩,?_⟩)
    rintro ⟨_,_,part,covered⟩
    cases part with
    | whole => exact covered
    | bigPage big | before big | behind big => exact absurd big (none _)
  · have number : (first + width * (turns + 1) - first + width - 1) / width = turns + 1 := by
      rw [Nat.add_sub_cancel_left,Nat.add_sub_assoc positive,Nat.mul_add_div positive,
        Nat.div_eq_of_lt (Nat.sub_lt positive Nat.one_pos)]
    have least := (bigPages first).mpr ⟨0,Nat.succ_pos _,rfl⟩
    have greatest := (bigPages _).mpr ⟨turns,Nat.lt_succ_self _,rfl⟩
    have between : ∀ page, BigPage maxRegion blockStart width page →
        first ≤ page ∧ page ≤ first + width * turns := by
      intro page big
      obtain ⟨k,less,rfl⟩ := (bigPages page).mp big
      exact ⟨Nat.le_add_right _ _,
        Nat.add_le_add_left (Nat.mul_le_mul_left _ (Nat.le_of_lt_succ less)) _⟩
    have members : ∀ page, page ∈ range' first (turns + 1) width ↔
        BigPage maxRegion blockStart width page := fun page => mem_range'.trans (bigPages page).symm
    rw [shape,if_neg (by dsimp only; rw [Nat.mul_succ]; omega),number,Nat.mul_succ,← Nat.add_assoc,
      grow_iff (Nat.le_trans greatest.low (Nat.le_add_right _ _)),
      growAll_iff fun page member => ((members page).mp member).low,
      grow_iff (Nat.le_refl _),or_assoc,or_assoc,← and_or_left,← and_or_left]
    refine or_congr_right (and_congr_right fun _ => ⟨?_,?_⟩)
    · rintro (covered | ⟨page,member,covered⟩ | covered)
      · exact ⟨_,_,.before least fun page big => (between page big).1,covered⟩
      · exact ⟨_,_,.bigPage ((members page).mp member),covered⟩
      · exact ⟨_,_,.behind greatest fun page big => (between page big).2,covered⟩
    · rintro ⟨_,_,part,covered⟩
      cases part with
      | bigPage big => exact .inr (.inl ⟨_,(members _).mpr big,covered⟩)
      | before big smaller =>
        exact .inl (Nat.le_antisymm (smaller _ least) (between _ big).1 ▸ covered)
      | behind big larger =>
        exact .inr (.inr (Nat.le_antisymm (between _ big).2 (larger _ greatest) ▸ covered))
      | whole none => exact absurd least (none _)

/-- The update replaces the pages; nothing else of it depends on them. -/
theorem update_pages (tree : BitmapTree) (pages : Mask) :
    updateBitmapTreeFromVaBlock blockStart width maxRegion tree pages =
      { updateBitmapTreeFromVaBlock blockStart width maxRegion tree tree.pages with pages } := by
  unfold updateBitmapTreeFromVaBlock
  dsimp only
  split <;> rfl

theorem initialPages_iff {n : Nat} (small : maxRegion.first.toNat + n < 512) :
    initialPages faulted resident maxRegion n = true ↔
      (∃ mask ∈ resident, mask (maxRegion.first.toNat + n) = true) ∨
        faulted (maxRegion.first.toNat + n) = true := by
  rw [Nat.add_comm] at small
  cases resident <;> simp [initialPages,shiftRight,small,Nat.add_comm]

theorem prefetch_tree_built (inBlock : InBlock blockStart width maxRegion) {tree : BitmapTree}
    (built : bitmapTree faulted thrashing resident maxRegion blockStart width = tree) :
    Shape width maxRegion tree ∧ ∀ i < tree.leafCount.toNat,
      (tree.pages i = true ↔ tree.offset.toNat ≤ i ∧ Chosen faulted thrashing resident maxRegion
        blockStart width (maxRegion.first.toNat + (i - tree.offset.toNat))) := by
  have positive := Nat.pos_of_dvd_of_pos inBlock.bigPage (by decide)
  have shape := inBlock.shape (initialPages faulted resident maxRegion)
    (initBitmapTreeFromRegion maxRegion (initialPages faulted resident maxRegion)).pages
  simp only [bitmapTree] at built
  rw [update_pages] at built
  generalize updated : updateBitmapTreeFromVaBlock blockStart width maxRegion
    (initBitmapTreeFromRegion maxRegion (initialPages faulted resident maxRegion))
    (initBitmapTreeFromRegion maxRegion (initialPages faulted resident maxRegion)).pages = base
    at built shape
  subst built
  refine ⟨⟨shape.order,shape.outer,shape.offset,shape.leafCount,shape.small,shape.levelCount⟩,
    fun i inside => ?_⟩
  have small : base.offset.toNat ≤ i → maxRegion.first.toNat + (i - base.offset.toNat) < 512 := by
    have := shape.outer
    have := shape.leafCount
    dsimp only at inside
    omega
  rw [growFaultGranularity_iff positive,Chosen,← or_assoc,and_or_left]
  refine or_congr_left ?_
  split
  next above =>
    have wide : i < 512 := Nat.lt_of_lt_of_le inside shape.small
    simp only [shiftLeft,wide,decide_true,Bool.true_and,Bool.and_eq_true,decide_eq_true_eq]
    exact and_congr_right fun least => initialPages_iff (small least)
  next flat =>
    have none : base.offset.toNat = 0 := by
      rw [← updated]
      simp only [updateBitmapTreeFromVaBlock,if_neg flat]
      rfl
    simp only [none,Nat.zero_le,true_and] at small ⊢
    exact initialPages_iff (small trivial)

/-- Page 3 faulted, so leaf 8 is set, which stands for page 0. -/
theorem prefetch_tree_built_before : InBlock 8 16 ⟨0,24⟩ ∧
    Chosen (· == 3) none none ⟨0,24⟩ 8 16 0 := by
  have inBlock : InBlock 8 16 ⟨0,24⟩ := ⟨by decide,by decide,by decide⟩
  have leaves := (@prefetch_tree_built (· == 3) none none _ _ _ inBlock _ rfl).2
  exact ⟨inBlock,((leaves 8 (by decide)).mp (by decide)).2⟩

end GpuExt.Prefetch
