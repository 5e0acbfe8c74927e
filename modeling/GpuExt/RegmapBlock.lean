import GpuExt.Popcount
import GpuExt.Regmap
import Mathlib.Tactic.IntervalCases

/-! What a block change writes. Its masks select exactly the frames of the block, and in
every word the two deltas are the change of its free frames and free 2 MB pages. -/
namespace GpuExt.Regmap

open Function List

section PopCount

theorem nvPopCount64_toNat (x : NvU64) : (nvPopCount64 x).toNat = Bitmap.ones x := by
  have below : ((x >>> 1) &&& 0x5555555555555555) ≤ x := by
    exact Nat.and_le_left.trans (Nat.shiftRight_le _ _)
  have first := BitVec.toNat_sub_of_le below
  simp only [nvPopCount64]
  generalize x - ((x >>> 1) &&& 0x5555555555555555) = t at first ⊢
  have second : ((t &&& (0x3333333333333333 : NvU64)) +
      ((t >>> 2) &&& (0x3333333333333333 : NvU64))).toNat =
      (t.toNat &&& 0x3333333333333333) + ((t.toNat >>> 2) &&& 0x3333333333333333) :=
    Nat.mod_eq_of_lt ((Nat.add_le_add Nat.and_le_right Nat.and_le_right).trans_lt (by decide))
  generalize (t &&& (0x3333333333333333 : NvU64)) +
    ((t >>> 2) &&& (0x3333333333333333 : NvU64)) = u at second ⊢
  have count := Popcount.count_word x.isLt first second
  have half : u.toNat ≤ 0x6666666666666666 :=
    second.trans_le (Nat.add_le_add Nat.and_le_right Nat.and_le_right)
  have whole : (u + u >>> 4).toNat = u.toNat + u.toNat >>> 4 := Nat.mod_eq_of_lt
    ((Nat.add_le_add half ((Nat.shiftRight_le _ _).trans half)).trans_lt (by decide))
  rw [BitVec.toNat_setWidth,BitVec.toNat_ushiftRight,BitVec.toNat_mul,BitVec.toNat_and,whole,
    Nat.shiftRight_eq_div_pow]
  refine (Nat.mod_eq_of_lt ?_).trans count
  omega

end PopCount

section Block

theorem pageMapIdx_toNat (n : NvU64) : (pageMapIdx n).toNat = n.toNat / 64 := by
  simp [pageMapIdx,Nat.shiftRight_eq_div_pow]

theorem pageBitIdx_toNat (n : NvU64) : (pageBitIdx n).toNat = n.toNat % 64 := by
  exact Nat.and_two_pow_sub_one_eq_mod n.toNat 6

theorem initialMask_bit (offset : Nat) (bound : j < 64) :
    (BitVec.allOnes 64 <<< offset).getLsbD j = decide (offset ≤ j) := by
  simp only [BitVec.getLsbD_shiftLeft,BitVec.getLsbD_allOnes]
  grind

theorem lastMask_bit {offset : Nat} (small : offset < 64) :
    (BitVec.allOnes 64 >>> (63 - offset)).getLsbD j = decide (j ≤ offset) := by
  simp only [BitVec.getLsbD_ushiftRight,BitVec.getLsbD_allOnes]
  grind

theorem finalMask_bit (offset : NvU64) (small : offset.toNat < 64) :
    (BitVec.allOnes 64 >>> (63 - offset).toNat).getLsbD j = decide (j ≤ offset.toNat) := by
  have difference : (63 - offset).toNat = 63 - offset.toNat := by bv_omega
  rw [difference,lastMask_bit small]

/-- The word updates that one block change makes, in order. -/
def blockWrites (frame len : NvU64) : List (Nat × NvU64) :=
  let initialIdx := pageMapIdx frame
  let finalIdx := pageMapIdx (frame + len - 1)
  let initialOffs := pageBitIdx frame
  let finalOffs := pageBitIdx (frame + len - 1)
  let initialMask := BitVec.allOnes 64 <<< initialOffs.toNat
  let finalMask := BitVec.allOnes 64 >>> (63 - finalOffs).toNat
  if initialIdx = finalIdx then [(initialIdx.toNat,initialMask &&& finalMask)]
  else
    let first := if initialOffs ≠ 0 then initialIdx + 1 else initialIdx
    let last := if finalOffs ≠ 63 then finalIdx - 1 else finalIdx
    (if initialOffs ≠ 0 then [(initialIdx.toNat,initialMask)] else []) ++
    (if finalOffs ≠ 63 then [(finalIdx.toNat,finalMask)] else []) ++
    (range' first.toNat (last.toNat + 1 - first.toNat)).map fun i => (i,BitVec.allOnes 64)

variable {newState writeMask : PageStatus}

def runWrites (newState writeMask : PageStatus) (p : Progress) (writes : List (Nat × NvU64)) :
    Progress :=
  writes.foldl (fun p write => doSingleStateChange newState writeMask p write.1 write.2) p

theorem changeState_eq (map : Planes) (frame len : NvU64) :
    changeState newState writeMask map (pageMapIdx frame) (pageMapIdx (frame + len - 1))
      (pageBitIdx frame) (pageBitIdx (frame + len - 1))
      (BitVec.allOnes 64 <<< (pageBitIdx frame).toNat)
      (BitVec.allOnes 64 >>> (63 - pageBitIdx (frame + len - 1)).toNat) =
    runWrites newState writeMask ⟨map,0,0⟩ (blockWrites frame len) := by
  simp only [changeState,blockWrites,runWrites]
  split
  · rfl
  · split <;> split <;> simp [foldl_map]

theorem wholeWords_covers (bound : j < 64) :
    (∃ write ∈ (range' first n).map (fun i => (i,BitVec.allOnes 64)),
      write.1 = idx ∧ write.2.getLsbD j = true) ↔ first ≤ idx ∧ idx < first + n := by
  constructor
  · rintro ⟨write,member,rfl,_⟩
    obtain ⟨i,inside,rfl⟩ := mem_map.mp member
    exact mem_range'_1.mp inside
  · intro inside
    exact ⟨(idx,BitVec.allOnes 64),mem_map.mpr ⟨idx,mem_range'_1.mpr inside,rfl⟩,rfl,
      by rw [BitVec.getLsbD_allOnes]; exact decide_eq_true bound⟩

/-- The writes for the frames from `a` to `b`, as numbers. -/
theorem blockWrites_eq {a b : Nat} (first : frame.toNat = a) (last : (frame + len - 1).toNat = b)
    (order : a ≤ b + 1) : blockWrites frame len =
      if a / 64 = b / 64 then
        [(a / 64,(BitVec.allOnes 64 <<< (a % 64)) &&& (BitVec.allOnes 64 >>> (63 - b % 64)))]
      else (if a % 64 ≠ 0 then [(a / 64,BitVec.allOnes 64 <<< (a % 64))] else []) ++
        (if b % 64 ≠ 63 then [(b / 64,BitVec.allOnes 64 >>> (63 - b % 64))] else []) ++
        (range' ((a + 63) / 64) ((b + 1) / 64 - (a + 63) / 64)).map fun i => (i,BitVec.allOnes 64) := by
  have initialIdx := pageMapIdx_toNat frame
  have finalIdx := pageMapIdx_toNat (frame + len - 1)
  have initialOffs := pageBitIdx_toNat frame
  have finalOffs := pageBitIdx_toNat (frame + len - 1)
  have small := (frame + len - 1).isLt
  rw [first] at initialIdx initialOffs
  rw [last] at finalIdx finalOffs small
  simp only [blockWrites]
  clear first last
  generalize pageMapIdx frame = x,pageMapIdx (frame + len - 1) = y,pageBitIdx frame = u,
    pageBitIdx (frame + len - 1) = v at *
  have zero : u ≠ 0 ↔ a % 64 ≠ 0 := by bv_omega
  have full : v ≠ 63 ↔ b % 64 ≠ 63 := by bv_omega
  have same : x = y ↔ a / 64 = b / 64 := by rw [← initialIdx,← finalIdx,BitVec.toNat_inj]
  have shift : (63 - v).toNat = 63 - b % 64 := by bv_omega
  simp only [zero,full,same,shift,initialIdx,finalIdx,initialOffs]
  split
  · rfl
  have after : (if a % 64 ≠ 0 then x + 1 else x).toNat = (a + 63) / 64 := by
    split <;> bv_omega
  have before : (if b % 64 ≠ 63 then y - 1 else y).toNat + 1 = (b + 1) / 64 := by
    split <;> bv_omega
  rw [after,before]

/-- Together the masks select exactly the frames of the block. -/
theorem blockWrites_covers (positive : 0 < frame.toNat + len.toNat)
    (small : frame.toNat + len.toNat < 2 ^ 64) (f : Nat) :
    (∃ write ∈ blockWrites frame len, write.1 = f / 64 ∧ write.2.getLsbD (f % 64) = true) ↔
      frame.toNat ≤ f ∧ f < frame.toNat + len.toNat := by
  have last : (frame + len - 1).toNat = frame.toNat + len.toNat - 1 := by bv_omega
  have bound (n : Nat) : n % 64 < 64 := Nat.mod_lt _ (by decide)
  rw [blockWrites_eq rfl last (by omega)]
  split
  · simp only [mem_singleton,exists_eq_left,BitVec.getLsbD_and,Bool.and_eq_true,
      initialMask_bit _ (bound f),lastMask_bit (bound _),decide_eq_true_eq]
    omega
  · -- A partial first or last word, then the whole words between.
    simp only [mem_append,or_and_right,exists_or,wholeWords_covers (bound f)]
    split <;> split <;>
      simp only [mem_singleton,not_mem_nil,exists_eq_left,false_and,exists_false,or_false,false_or,
        initialMask_bit _ (bound f),lastMask_bit (bound _),decide_eq_true_eq] <;>
      omega

theorem blockWrites_bounded (positive : 0 < frame.toNat + len.toNat)
    (small : frame.toNat + len.toNat < 2 ^ 64) :
    ∀ write ∈ blockWrites frame len, write.1 ≤ (frame.toNat + len.toNat - 1) / 64 := by
  have last : (frame + len - 1).toNat = frame.toNat + len.toNat - 1 := by bv_omega
  rw [blockWrites_eq rfl last (by omega)]
  intro write member
  split at member
  next one =>
    rw [mem_singleton.mp member]
    exact one.le
  · rw [mem_append,mem_append] at member
    rcases member with (member | member) | member
    · split at member
      · rw [mem_singleton.mp member]
        omega
      · cases member
    · split at member
      · rw [mem_singleton.mp member]
      · cases member
    · obtain ⟨i,inside,rfl⟩ := mem_map.mp member
      rw [mem_range'_1] at inside
      omega

end Block

section Single

variable {newState writeMask : PageStatus} {p : Progress} {idx : Nat} {mask : NvU64}

/-- Words of frames that are pinned or unpinned, thus not free. -/
def occupied (map : Planes) : Bitmap.Words := fun i => map .allocPin i ||| map .allocUnpin i

theorem single_plane (k : MapIdx) (i : Nat) :
    (doSingleStateChange newState writeMask p idx mask).map k i =
      if i = idx ∧ k ∈ statePlanes then planeOut newState writeMask k (p.map k i) mask
      else p.map k i := by
  cases k
  all_goals
    simp only [doSingleStateChange,Planes.write,statePlanes]
    by_cases here : i = idx
    · subst here
      simp
    · simp [here]

theorem planeOut_getLsbD (k : MapIdx) (bits : NvU64) (bound : j < 64) :
    (planeOut newState writeMask k bits mask).getLsbD j =
      if mask.getLsbD j = true ∧ writeMask.has k = true then newState.has k
      else bits.getLsbD j := by
  simp only [planeOut]
  cases writeMask.has k <;> cases newState.has k <;> cases inside : mask.getLsbD j <;>
    simp only [if_true,BitVec.getLsbD_or,BitVec.getLsbD_and,BitVec.getLsbD_not,inside,bound,
      Bool.false_eq_true] <;> simp

theorem single_getLsbD (k : MapIdx) (bound : j < 64) :
    ((doSingleStateChange newState writeMask p idx mask).map k idx).getLsbD j =
      if mask.getLsbD j = true ∧ k ∈ statePlanes ∧ writeMask.has k = true then newState.has k
      else (p.map k idx).getLsbD j := by
  rw [single_plane]
  by_cases state : k ∈ statePlanes
  · simp [state,planeOut_getLsbD k _ bound]
  · simp [state]

theorem single_bit (k : MapIdx) (f : Nat) :
    Bitmap.bit ((doSingleStateChange newState writeMask p idx mask).map k) f =
      if (idx = f / 64 ∧ mask.getLsbD (f % 64) = true) ∧ k ∈ statePlanes ∧ writeMask.has k = true
      then newState.has k else Bitmap.bit (p.map k) f := by
  have bound : f % 64 < 64 := Nat.mod_lt _ (by decide)
  by_cases here : idx = f / 64
  · subst here
    simp [Bitmap.bit,single_getLsbD k bound]
  · simp [Bitmap.bit,single_plane,here,Ne.symm here]

theorem runWrites_bit (writes : List (Nat × NvU64)) (p : Progress) (k : MapIdx) (f : Nat) :
    Bitmap.bit ((runWrites newState writeMask p writes).map k) f =
      if (∃ write ∈ writes, write.1 = f / 64 ∧ write.2.getLsbD (f % 64) = true) ∧
        k ∈ statePlanes ∧ writeMask.has k = true
      then newState.has k else Bitmap.bit (p.map k) f := by
  induction writes generalizing p with
  | nil => simp [runWrites]
  | cons write writes ih =>
    have rest := ih (doSingleStateChange newState writeMask p write.1 write.2)
    rw [single_bit] at rest
    simp only [mem_cons,exists_eq_or_imp]
    refine rest.trans ?_
    by_cases later : ∃ write ∈ writes, write.1 = f / 64 ∧ write.2.getLsbD (f % 64) = true
    · simp only [later,true_and]
      split <;> simp [*]
    · simp [later]

theorem single_occupied : occupied (doSingleStateChange newState writeMask p idx mask).map =
    update (occupied p.map) idx
      (occupied (doSingleStateChange newState writeMask p idx mask).map idx) := by
  funext i
  by_cases here : i = idx
  · subst here
    rw [update_self]
  · simp [occupied,single_plane,here]

theorem single_final : occupied (doSingleStateChange newState writeMask p idx mask).map idx =
    planeOut newState writeMask .allocPin (p.map .allocPin idx) mask |||
      planeOut newState writeMask .allocUnpin (p.map .allocUnpin idx) mask := by
  simp [occupied,single_plane,statePlanes]

theorem single_delta64k : (doSingleStateChange newState writeMask p idx mask).delta64k =
    p.delta64k + BitVec.ofNat 64 (Bitmap.ones (occupied p.map idx ^^^
      occupied (doSingleStateChange newState writeMask p idx mask).map idx)) := by
  have wide (x : NvU32) : BitVec.ofNat 64 x.toNat = x.setWidth 64 := by
    simp
  rw [← nvPopCount64_toNat,wide,single_final]
  rfl

theorem single_delta2m : (doSingleStateChange newState writeMask p idx mask).delta2m =
    p.delta2m + BitVec.ofNat 64 (Bitmap.changedHalves (occupied p.map idx)
      (occupied (doSingleStateChange newState writeMask p idx mask).map idx)) := by
  rw [single_final]
  rfl

/-- The sign of the counter update tells whether the change writes a set state bit. -/
theorem occupies_iff : newState &&& writeMask &&& stateMask ≠ 0 ↔
    ∃ k ∈ statePlanes, newState.has k = true ∧ writeMask.has k = true := by
  have planes : ∀ i < 32, stateMask.getLsbD i = decide (i < 2) := by decide
  constructor
  · intro nonzero
    by_contra none
    apply nonzero
    apply BitVec.eq_of_getLsbD_eq
    intro i bound
    rw [BitVec.getLsbD_and,planes i bound]
    by_cases state : i < 2
    · have := fun k member => not_exists.mp none k ∘ And.intro member
      have unpin := this .allocUnpin (by decide)
      have pin := this .allocPin (by decide)
      simp only [PageStatus.has,MapIdx.bit] at unpin pin
      interval_cases i <;> simp_all
    · simp [state]
  · rintro ⟨k,member,new,write⟩ zero
    have set := congrArg (fun x : PageStatus => x.getLsbD k.bit) zero
    simp only [PageStatus.has] at new write
    have state : stateMask.getLsbD k.bit = true := by cases k <;> revert member <;> decide
    simp [new,write,state] at set

variable (newState writeMask p idx mask) in
theorem single_occupies (occupies : newState &&& writeMask &&& stateMask ≠ 0) :
    Bitmap.Subset (occupied p.map idx)
      (occupied (doSingleStateChange newState writeMask p idx mask).map idx) := by
  obtain ⟨k,member,new,write⟩ := occupies_iff.mp occupies
  intro j set
  have bound : j < 64 := BitVec.lt_of_getLsbD set
  simp only [occupied,BitVec.getLsbD_or,single_getLsbD _ bound] at set ⊢
  cases k <;> simp_all [statePlanes] <;> grind

variable (newState writeMask p idx mask) in
theorem single_releases (releases : newState &&& writeMask &&& stateMask = 0) :
    Bitmap.Subset (occupied (doSingleStateChange newState writeMask p idx mask).map idx)
      (occupied p.map idx) := by
  have clear : ∀ k ∈ statePlanes, writeMask.has k = true → newState.has k = false := by
    intro k member write
    by_contra new
    exact occupies_iff.mpr ⟨k,member,by simpa using new,write⟩ releases
  intro j set
  have bound : j < 64 := BitVec.lt_of_getLsbD set
  simp only [occupied,BitVec.getLsbD_or,single_getLsbD _ bound] at set ⊢
  grind

/-- Free frames and free 2 MB pages in the words of the region. -/
def freeFrameWords (n : Nat) (map : Planes) : NvU64 :=
  BitVec.ofNat 64 (Bitmap.sumWords Bitmap.zeros (occupied map) n)

def free2mbWords (n : Nat) (map : Planes) : NvU64 :=
  BitVec.ofNat 64 (Bitmap.sumWords Bitmap.clearHalves (occupied map) n)

variable (newState writeMask) in
/-- Frames that a change occupies are subtracted, others added. -/
def signed (delta : NvU64) : NvU64 :=
  if newState &&& writeMask &&& stateMask ≠ 0 then -delta else delta

theorem signed_counts {f : NvU64 → Nat} {words : Bitmap.Words} (delta : NvU64) (inside : idx < n)
    (falls : newState &&& writeMask &&& stateMask ≠ 0 → f (words idx) = f value + changed)
    (rises : newState &&& writeMask &&& stateMask = 0 → f value = f (words idx) + changed) :
    BitVec.ofNat 64 (Bitmap.sumWords f (update words idx value) n) +
        signed newState writeMask delta =
      BitVec.ofNat 64 (Bitmap.sumWords f words n) +
        signed newState writeMask (delta + BitVec.ofNat 64 changed) := by
  have moved := Bitmap.sumWords_update f words value inside
  unfold signed
  split
  next occupies =>
    have total : Bitmap.sumWords f words n =
        Bitmap.sumWords f (update words idx value) n + changed := by
      have := falls occupies
      omega
    rw [total,BitVec.ofNat_add]
    bv_omega
  next releases =>
    have total : Bitmap.sumWords f (update words idx value) n =
        Bitmap.sumWords f words n + changed := by
      have := rises (not_not.mp releases)
      omega
    rw [total,BitVec.ofNat_add]
    ac_rfl

variable (newState writeMask p mask) in
theorem single_counts (inside : idx < n) :
    let p' := doSingleStateChange newState writeMask p idx mask
    freeFrameWords n p'.map + signed newState writeMask p.delta64k =
      freeFrameWords n p.map + signed newState writeMask p'.delta64k ∧
    free2mbWords n p'.map + signed newState writeMask p.delta2m =
      free2mbWords n p.map + signed newState writeMask p'.delta2m := by
  have falls := single_occupies newState writeMask p idx mask
  have rises := single_releases newState writeMask p idx mask
  dsimp only [freeFrameWords,free2mbWords]
  rw [single_delta64k,single_delta2m,single_occupied]
  simp only [update_self]
  constructor
  · refine signed_counts _ inside (fun occupies => Bitmap.zeros_subset (falls occupies))
      fun releases => ?_
    rw [BitVec.xor_comm]
    exact Bitmap.zeros_subset (rises releases)
  · refine signed_counts _ inside (fun occupies => Bitmap.clearHalves_subset (falls occupies))
      fun releases => ?_
    rw [Bitmap.changedHalves_comm]
    exact Bitmap.clearHalves_subset (rises releases)

variable (newState writeMask) in
theorem run_counts (writes : List (Nat × NvU64)) (inside : ∀ write ∈ writes, write.1 < n)
    (p : Progress) :
    let p' := runWrites newState writeMask p writes
    freeFrameWords n p'.map + signed newState writeMask p.delta64k =
      freeFrameWords n p.map + signed newState writeMask p'.delta64k ∧
    free2mbWords n p'.map + signed newState writeMask p.delta2m =
      free2mbWords n p.map + signed newState writeMask p'.delta2m := by
  induction writes generalizing p with
  | nil => exact ⟨rfl,rfl⟩
  | cons write writes ih =>
    have head := single_counts newState writeMask p write.2 (inside write (by simp))
    have tail := ih (fun later member => inside later (by simp [member]))
      (doSingleStateChange newState writeMask p write.1 write.2)
    simp only [runWrites,foldl_cons] at tail ⊢
    constructor
    · bv_omega
    · bv_omega

end Single

end GpuExt.Regmap
