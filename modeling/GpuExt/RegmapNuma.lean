import GpuExt.RegmapBlock
import GpuExt.Word

/-! The last frame of a range that keeps it from being evicted on a NUMA system. The loop goes down
over the words of the unpin plane with an unsigned index. -/
namespace GpuExt.Regmap

open BitVec List

def checkOne (bits : Nat → NvU64) (start stop : NvU64) : Option NvU64 :=
  let startMapIdx := pageMapIdx start
  let startBitIdx := pageBitIdx start
  let endMapIdx := pageMapIdx stop
  let endBitIdx := pageBitIdx stop
  let startMask := allOnes 64 <<< startBitIdx.toNat
  let endMask := allOnes 64 >>> (63 - endBitIdx).toNat
  if startMapIdx < endMapIdx then
    match (range' (startMapIdx.toNat + 1) (endMapIdx.toNat - startMapIdx.toNat - 1)).find?
      fun i => bits i ≠ 0 with
    | some mapIdx => some ((BitVec.ofNat 64 mapIdx <<< 6) + (bits mapIdx).ctz)
    | none =>
      if bits endMapIdx.toNat &&& endMask = 0 then
        if bits startMapIdx.toNat &&& startMask = 0 then none
        else some (start - startBitIdx + (bits startMapIdx.toNat &&& startMask).ctz)
      else some (stop - endBitIdx + (bits endMapIdx.toNat &&& endMask).ctz)
  else
    let handle := bits startMapIdx.toNat &&& (startMask &&& endMask)
    if handle = 0 then none else some (start - startBitIdx + handle.ctz)

section

variable (r : PmaRegmap) (frameBegin frameEnd : NvU64)

def numaMask (mapIter : NvU64) : NvU64 :=
  let mask := if mapIter = pageMapIdx frameEnd then
      allOnes 64 >>> (63 - pageBitIdx frameEnd).toNat
    else allOnes 64
  if mapIter = pageMapIdx frameBegin then
    mask &&& ~~~((1#64 <<< (pageBitIdx frameBegin).toNat) - 1)
  else mask

/-- The frames of the range in one word that are unpinned. -/
def unpinnedBits (mapIter : NvU64) : NvU64 :=
  r.map .allocUnpin mapIter.toNat &&& numaMask frameBegin frameEnd mapIter

def unevictableBits (mapIter : NvU64) : NvU64 :=
  ~~~r.map .allocUnpin mapIter.toNat &&& numaMask frameBegin frameEnd mapIter

/-- The loop with a bound on its turns, and the words that it reads. Nothing after a read outside
of the map. -/
def unpinLoop : Nat → NvU64 → Option (Option NvU64 × List NvU64)
  | 0,_ => none
  | fuel + 1,mapIter =>
    if pageMapIdx frameBegin ≤ mapIter then
      if mapIter < r.mapLength then
        if unpinnedBits r frameBegin frameEnd mapIter = numaMask frameBegin frameEnd mapIter then
          (unpinLoop fuel (mapIter - 1)).map fun (frame,words) => (frame,mapIter :: words)
        else if unpinnedBits r frameBegin frameEnd mapIter = 0 then
          some (some (if mapIter = pageMapIdx frameEnd then frameEnd else (mapIter <<< 6) + 63),
            [mapIter])
        else
          let unevictableIndex := 63 - (unevictableBits r frameBegin frameEnd mapIter).clz
          some (some ((mapIter <<< 6) + unevictableIndex),[mapIter])
      else none
    else some (none,[])

def scanNumaUnevictable (frameEvictionsInProcess : NvU64) (fuel : Nat) :
    Option (Option NvU64 × List NvU64) :=
  (unpinLoop r frameBegin frameEnd fuel (pageMapIdx frameEnd)).map fun (frame,words) =>
    match frame with
    | some frame => (some frame,words)
    | none => (if frameEvictionsInProcess ≠ 0 then checkOne (r.map .evicting) frameBegin frameEnd
        else none,words)

end

/-- Attributes with which a frame is not evicted. -/
def blockingPlanes : List MapIdx := [.evicting,.scrubbing,.persistent,.blacklist]

def Unpinned (r : PmaRegmap) (f : Nat) : Prop := Bitmap.bit (r.map .allocUnpin) f = true

def Evictable (r : PmaRegmap) (f : Nat) : Prop :=
  Unpinned r f ∧ ∀ k ∈ blockingPlanes,Bitmap.bit (r.map k) f = false

/-- The last frame of a range where `p` does not hold, or none. -/
def IsLast (p : Nat → Prop) (low high : NvU64) : Option NvU64 → Prop
  | none => ∀ f,low.toNat ≤ f → f ≤ high.toNat → p f
  | some frame => low ≤ frame ∧ frame ≤ high ∧ ¬p frame.toNat ∧
    ∀ f,frame.toNat < f → f ≤ high.toNat → p f

variable {r : PmaRegmap} {low high mapIter : NvU64} {bits : Nat → NvU64} {f : Nat}

/-! One word of a plane, with a mask for the frames of the range. -/

section Masked

variable {w : Nat} {mask : NvU64}
  (covers : ∀ f,f / 64 = w → (mask.getLsbD (f % 64) = true ↔ low.toNat ≤ f ∧ f ≤ high.toNat))
include covers

theorem masked_frame (word : f / 64 = w) :
    (bits w &&& mask).getLsbD (f % 64) = true ↔
      Bitmap.bit bits f = true ∧ low.toNat ≤ f ∧ f ≤ high.toNat := by
  rw [getLsbD_and,Bool.and_eq_true,covers f word,Bitmap.bit,word]

theorem masked_clear (zero : bits w &&& mask = 0) (word : f / 64 = w) (start : low.toNat ≤ f)
    (stop : f ≤ high.toNat) : Bitmap.bit bits f = false := by
  have bit : (bits w &&& mask).getLsbD _ = true ↔ _ := masked_frame covers word
  rw [zero,ofNat_eq_ofNat,getLsbD_zero] at bit
  exact Bool.eq_false_iff.mpr fun set => Bool.false_ne_true (bit.mpr ⟨set,start,stop⟩)

theorem masked_first (nonzero : bits w &&& mask ≠ 0) {frame : NvU64}
    (value : frame.toNat = 64 * w + (bits w &&& mask).ctz.toNat) :
    frame.toNat / 64 = w ∧ low.toNat ≤ frame.toNat ∧ frame.toNat ≤ high.toNat ∧
      Bitmap.bit bits frame.toNat = true ∧
      ∀ f,f / 64 = w → low.toNat ≤ f → f ≤ high.toNat → Bitmap.bit bits f = true →
        frame.toNat ≤ f := by
  have small : (bits w &&& mask).ctz.toNat < 64 := by
    simpa using lt_def.mp (ctz_lt_iff_ne_zero.mpr nonzero)
  have word : frame.toNat / 64 = w := by omega
  have offset : frame.toNat % 64 = (bits w &&& mask).ctz.toNat := by omega
  obtain ⟨set,start,stop⟩ := (masked_frame covers word).mp
    (offset ▸ getLsbD_true_ctz_of_ne_zero nonzero)
  refine ⟨word,start,stop,set,fun f here start stop set => ?_⟩
  by_contra less
  have before : f % 64 < (bits w &&& mask).ctz.toNat := by omega
  have bit := (masked_frame covers here).mpr ⟨set,start,stop⟩
  exact Bool.false_ne_true ((getLsbD_false_of_lt_ctz before).symm.trans bit)

end Masked

/-- What `checkOne` finds: a frame that is the first one of its word. The words are gone through
from the second one on, and the first word comes last. -/
structure FirstSet (bits : Nat → NvU64) (low high frame : NvU64) : Prop where
  start : low.toNat ≤ frame.toNat
  stop : frame.toNat ≤ high.toNat
  set : Bitmap.bit bits frame.toNat = true
  word : ∀ f,f / 64 = frame.toNat / 64 → low.toNat ≤ f → f ≤ high.toNat →
    Bitmap.bit bits f = true → frame.toNat ≤ f
  before : ∀ f,f / 64 < frame.toNat / 64 → low.toNat ≤ f → Bitmap.bit bits f = true →
    f / 64 = low.toNat / 64
  last : frame.toNat / 64 = low.toNat / 64 → ∀ f,low.toNat ≤ f → f ≤ high.toNat →
    Bitmap.bit bits f = true → f / 64 = frame.toNat / 64

def Found (bits : Nat → NvU64) (low high : NvU64) : Option NvU64 → Prop
  | none => ∀ f,low.toNat ≤ f → f ≤ high.toNat → Bitmap.bit bits f = false
  | some frame => FirstSet bits low high frame

theorem add_ctz {n x : NvU64} {w : Nat} (nonzero : x ≠ 0) (value : n.toNat = 64 * w) :
    (n + x.ctz).toNat = 64 * w + x.ctz.toNat := by
  have less := lt_def.mp (ctz_lt_iff_ne_zero.mpr nonzero)
  rw [toNat_add,value,Nat.mod_eq_of_lt]
  simp at less
  omega

/-- The frames of the range in the first word, in the last one and in those between. -/
theorem firstMask_covers (less : low.toNat / 64 < high.toNat / 64) (word : f / 64 = low.toNat / 64) :
    (allOnes 64 <<< (pageBitIdx low).toNat).getLsbD (f % 64) = true ↔
      low.toNat ≤ f ∧ f ≤ high.toNat := by
  rw [initialMask_bit _ (Nat.mod_lt f (by decide)),decide_eq_true_eq,pageBitIdx_toNat]
  omega

theorem lastMask_covers (less : low.toNat / 64 < high.toNat / 64) (word : f / 64 = high.toNat / 64) :
    (allOnes 64 >>> (63 - pageBitIdx high).toNat).getLsbD (f % 64) = true ↔
      low.toNat ≤ f ∧ f ≤ high.toNat := by
  have offset := pageBitIdx_toNat high
  rw [finalMask_bit _ (by omega),decide_eq_true_eq]
  omega

theorem bothMasks_covers (same : low.toNat / 64 = high.toNat / 64) (word : f / 64 = low.toNat / 64) :
    (allOnes 64 <<< (pageBitIdx low).toNat &&&
      allOnes 64 >>> (63 - pageBitIdx high).toNat).getLsbD (f % 64) = true ↔
      low.toNat ≤ f ∧ f ≤ high.toNat := by
  have offset := pageBitIdx_toNat high
  rw [getLsbD_and,initialMask_bit _ (Nat.mod_lt f (by decide)),finalMask_bit _ (by omega),
    Bool.and_eq_true,decide_eq_true_eq,decide_eq_true_eq,pageBitIdx_toNat]
  omega

section Middle

variable {w : Nat} (place : low.toNat / 64 < w ∧ w < high.toNat / 64)
include place

theorem middle_covers (word : f / 64 = w) :
    (allOnes 64).getLsbD (f % 64) = true ↔ low.toNat ≤ f ∧ f ≤ high.toNat := by
  rw [getLsbD_allOnes,decide_eq_true_eq]
  omega

theorem middle_clear (zero : bits w = 0) (word : f / 64 = w) : Bitmap.bit bits f = false :=
  masked_clear (fun _ => middle_covers place) (by rw [and_allOnes]; exact zero) word (by omega)
    (by omega)

theorem middle_found (nonzero : bits w ≠ 0)
    (clear : ∀ v,low.toNat / 64 < v → v < w → bits v = 0) :
    FirstSet bits low high ((BitVec.ofNat 64 w <<< 6) + (bits w).ctz) := by
  rw [← and_allOnes (x := bits w)] at nonzero ⊢
  have start : (BitVec.ofNat 64 w <<< 6).toNat = 64 * w := by
    rw [toNat_shiftLeft,toNat_ofNat]
    omega
  obtain ⟨word,start,stop,set,least⟩ := masked_first (fun _ => middle_covers place) nonzero
    (add_ctz nonzero start)
  refine ⟨start,stop,set,fun f here => least f (here.trans word),fun f less start set => ?_,
    fun here => by omega⟩
  by_contra other
  have between : low.toNat / 64 < f / 64 ∧ f / 64 < high.toNat / 64 := by omega
  have unset := middle_clear between (clear (f / 64) between.1 (word ▸ less)) rfl
  exact Bool.false_ne_true (unset.symm.trans set)

end Middle

theorem checkOne_found (order : low.toNat ≤ high.toNat) :
    Found bits low high (checkOne bits low high) := by
  have index := pageMapIdx_toNat low
  have index' := pageMapIdx_toNat high
  have base : (low - pageBitIdx low).toNat = 64 * (low.toNat / 64) := by
    have := pageBitIdx_toNat low
    bv_omega
  have base' : (high - pageBitIdx high).toNat = 64 * (high.toNat / 64) := by
    have := pageBitIdx_toNat high
    bv_omega
  simp only [checkOne,lt_def,index,index']
  split
  next less =>
    split
    next w found =>
      obtain ⟨nonzero,member,clear⟩ := find?_range'_eq_some.mp found
      rw [mem_range'_1] at member
      exact middle_found (by omega) (by simpa using nonzero) fun v more less => by
        simpa using clear v more less
    next none =>
      have clear (f : Nat) (place : low.toNat / 64 < f / 64 ∧ f / 64 < high.toNat / 64) :
          Bitmap.bit bits f = false := by
        have zero := find?_eq_none.mp none (f / 64) (by rw [mem_range'_1]; omega)
        exact middle_clear place (by simpa using zero) rfl
      have only (f : Nat) (start : low.toNat ≤ f) (stop : f ≤ high.toNat)
          (set : Bitmap.bit bits f = true) :
          f / 64 = low.toNat / 64 ∨ f / 64 = high.toNat / 64 := by
        by_contra outside
        exact Bool.false_ne_true ((clear f (by omega)).symm.trans set)
      split
      next zero =>
        have behind (f : Nat) (start : low.toNat ≤ f) (stop : f ≤ high.toNat)
            (set : Bitmap.bit bits f = true) : f / 64 = low.toNat / 64 :=
          (only f start stop set).resolve_right fun word => Bool.false_ne_true
            ((masked_clear (fun _ => lastMask_covers less) zero word start stop).symm.trans set)
        split
        next zero =>
          refine fun f start stop => Bool.eq_false_iff.mpr fun set => ?_
          exact Bool.false_ne_true ((masked_clear (fun _ => firstMask_covers less) zero
            (behind f start stop set) start stop).symm.trans set)
        next nonzero =>
          obtain ⟨word,start,stop,set,least⟩ := masked_first (fun _ => firstMask_covers less)
            nonzero (add_ctz nonzero base)
          exact ⟨start,stop,set,fun f here => least f (here.trans word),
            fun f less start => by omega,
            fun _ f start stop set => (behind f start stop set).trans word.symm⟩
      next nonzero =>
        obtain ⟨word,start,stop,set,least⟩ := masked_first (fun _ => lastMask_covers less) nonzero
          (add_ctz nonzero base')
        exact ⟨start,stop,set,fun f here => least f (here.trans word),
          fun f less start set => (only f start (by omega) set).resolve_right (by omega),
          fun here => by omega⟩
  next least =>
    have covers := fun f => @bothMasks_covers low high f (by omega)
    split
    next zero => exact fun f start stop => masked_clear covers zero (by omega) start stop
    next nonzero =>
      obtain ⟨word,start,stop,set,least⟩ := masked_first covers nonzero
        (add_ctz nonzero base)
      exact ⟨start,stop,set,fun f here => least f (here.trans word),fun f less start => by omega,
        fun _ f start stop _ => by omega⟩

theorem clz_last {x : NvU64} (nonzero : x ≠ 0) : ∃ i < 64,(63 - x.clz).toNat = i ∧
    x.getLsbD i = true ∧ ∀ j,i < j → x.getLsbD j = false := by
  have less : x.clz.toNat < 64 := by
    simpa using lt_def.mp (clz_lt_iff_ne_zero.mpr nonzero)
  refine ⟨63 - x.clz.toNat,by omega,by bv_omega,
    getLsbD_true_clz_of_ne_zero (by decide) nonzero,fun j more => ?_⟩
  refine Nat.testBit_lt_two_pow (Nat.lt_of_lt_of_le toNat_lt_two_pow_sub_clz ?_)
  exact Nat.pow_le_pow_right (by decide) (by omega)

/-- The last frame of a word, if those behind the word are unpinned. -/
theorem isLast_word {frame : NvU64}
    (above : ∀ f ≤ high.toNat,mapIter.toNat < f / 64 → Unpinned r f)
    (word : frame.toNat / 64 = mapIter.toNat) (start : low.toNat ≤ frame.toNat)
    (stop : frame.toNat ≤ high.toNat) (pinned : ¬Unpinned r frame.toNat)
    (rest : ∀ f,frame.toNat < f → f ≤ high.toNat → f / 64 = mapIter.toNat → Unpinned r f) :
    IsLast (Unpinned r) low high (some frame) := by
  refine ⟨le_def.mpr start,le_def.mpr stop,pinned,fun f more stop => ?_⟩
  by_cases here : f / 64 = mapIter.toNat
  · exact rest f more stop here
  · exact above f stop (by omega)

section Word

variable (least : low.toNat / 64 ≤ mapIter.toNat) (most : mapIter.toNat ≤ high.toNat / 64)
include least most

theorem numaMask_bit (word : f / 64 = mapIter.toNat) :
    (numaMask low high mapIter).getLsbD (f % 64) = true ↔ low.toNat ≤ f ∧ f ≤ high.toNat := by
  have same : ∀ n : NvU64,mapIter = pageMapIdx n ↔ mapIter.toNat = n.toNat / 64 := fun n => by
    rw [← pageMapIdx_toNat,toNat_inj]
  have bound := Nat.mod_lt f (by decide : 64 > 0)
  have offset := pageBitIdx_toNat low
  have offset' := pageBitIdx_toNat high
  have first : (~~~((1#64 <<< (pageBitIdx low).toNat) - 1)).getLsbD (f % 64) = true ↔
      (pageBitIdx low).toNat ≤ f % 64 := by
    have value : (1#64 <<< (pageBitIdx low).toNat) - 1 =
        BitVec.ofNat 64 (2 ^ (pageBitIdx low).toNat - 1) := by
      have := Nat.two_pow_pos (pageBitIdx low).toNat
      apply eq_of_toNat_eq
      simp
      omega
    rw [value,getLsbD_not,getLsbD_ofNat]
    simp [bound]
  have last := finalMask_bit (j := f % 64) (pageBitIdx high) (by omega)
  simp only [numaMask,same]
  split <;> split <;>
    simp only [getLsbD_and,Bool.and_eq_true,first,last,decide_eq_true_eq,getLsbD_allOnes] <;> omega

variable (above : ∀ f ≤ high.toNat,mapIter.toNat < f / 64 → Unpinned r f)

theorem word_unpinned (unpinned : ∀ f,low.toNat ≤ f → f ≤ high.toNat → Unpinned r f) :
    unpinnedBits r low high mapIter = numaMask low high mapIter := by
  apply eq_of_getLsbD_eq
  intro j bound
  obtain ⟨word,offset⟩ : (64 * mapIter.toNat + j) / 64 = mapIter.toNat ∧
      (64 * mapIter.toNat + j) % 64 = j := by omega
  have bit := unpinned (64 * mapIter.toNat + j)
  have mask := numaMask_bit least most word
  rw [Unpinned,Bitmap.bit,word,offset] at bit
  rw [offset] at mask
  rw [unpinnedBits,getLsbD_and]
  cases inside : (numaMask low high mapIter).getLsbD j with
  | false => exact Bool.and_false _
  | true =>
    obtain ⟨start,stop⟩ := mask.mp inside
    rw [bit start stop,Bool.true_and]

/-- All frames of the word are unpinned. -/
theorem word_full (full : unpinnedBits r low high mapIter = numaMask low high mapIter)
    (word : f / 64 = mapIter.toNat) (start : low.toNat ≤ f) (stop : f ≤ high.toNat) :
    Unpinned r f := by
  have mask := (numaMask_bit least most word).mpr ⟨start,stop⟩
  have bit := congrArg (getLsbD · (f % 64)) full
  rw [unpinnedBits,getLsbD_and,mask,Bool.and_true,← word] at bit
  exact bit

include above

/-- No frame of the word is unpinned: the last one is found. -/
theorem word_empty (order : low.toNat ≤ high.toNat)
    (empty : unpinnedBits r low high mapIter = 0) : IsLast (Unpinned r) low high
      (some (if mapIter = pageMapIdx high then high else (mapIter <<< 6) + 63)) := by
  have pinned (f : Nat) (word : f / 64 = mapIter.toNat) (start : low.toNat ≤ f)
      (stop : f ≤ high.toNat) : ¬Unpinned r f := by
    have mask := (numaMask_bit least most word).mpr ⟨start,stop⟩
    have bit := congrArg (getLsbD · (f % 64)) empty
    rw [unpinnedBits,getLsbD_and,mask,Bool.and_true,← word,ofNat_eq_ofNat,getLsbD_zero] at bit
    exact Bool.eq_false_iff.mp bit
  have index := pageMapIdx_toNat high
  split
  next last =>
    rw [← last] at index
    exact isLast_word above index.symm order (Nat.le_refl _)
      (pinned _ index.symm order (Nat.le_refl _)) fun f more stop => by omega
  next inner =>
    have inner : mapIter.toNat ≠ high.toNat / 64 := by rwa [← index,ne_eq,toNat_inj]
    have value : ((mapIter <<< 6) + 63).toNat = 64 * mapIter.toNat + 63 := by
      simp
      omega
    exact isLast_word above (by omega) (by omega) (by omega)
      (pinned _ (by omega) (by omega) (by omega)) fun f more stop => by omega

theorem word_mixed (full : unpinnedBits r low high mapIter ≠ numaMask low high mapIter) :
    IsLast (Unpinned r) low high
      (some ((mapIter <<< 6) + (63 - (unevictableBits r low high mapIter).clz))) := by
  have bit (f : Nat) (word : f / 64 = mapIter.toNat) :
      (unevictableBits r low high mapIter).getLsbD (f % 64) = true ↔
        ¬Unpinned r f ∧ low.toNat ≤ f ∧ f ≤ high.toNat := by
    rw [unevictableBits,getLsbD_and,Bool.and_eq_true,numaMask_bit least most word,Unpinned,
      Bitmap.bit,word]
    simp [Nat.mod_lt]
  have nonzero : unevictableBits r low high mapIter ≠ 0 := by
    intro zero
    apply full
    apply eq_of_getLsbD_eq
    intro j bound
    have unset := congrArg (getLsbD · j) zero
    simp [unpinnedBits,unevictableBits] at unset ⊢
    grind
  obtain ⟨i,small,index,set,final⟩ := clz_last nonzero
  have value : ((mapIter <<< 6) + (63 - (unevictableBits r low high mapIter).clz)).toNat =
      64 * mapIter.toNat + i := by
    rw [toNat_add,toNat_shiftLeft]
    omega
  obtain ⟨pinned,start,stop⟩ := (bit (64 * mapIter.toNat + i) (by omega)).mp
    (by rwa [Nat.mul_add_mod,Nat.mod_eq_of_lt small])
  refine isLast_word above (by omega) (by omega) (by omega) (value ▸ pinned)
    fun f more stop word => ?_
  by_contra pinned
  have found := (bit f word).mpr ⟨pinned,by omega,stop⟩
  exact Bool.false_ne_true ((final _ (by omega)).symm.trans found)

end Word

section Loop

variable (order : low.toNat ≤ high.toNat) (inside : high.toNat / 64 < r.mapLength.toNat)
  (ends : 64 ≤ low.toNat ∨ ∃ f,low.toNat ≤ f ∧ f ≤ high.toNat ∧ ¬Unpinned r f)
include order inside ends

/-- The loop ends, unless the range begins in the first word and all of its frames are unpinned. -/
theorem unpinLoop_spec {mapIter : NvU64} {n fuel : Nat} (enough : n + 2 ≤ fuel)
    (place : mapIter.toNat = low.toNat / 64 + n) (most : mapIter.toNat ≤ high.toNat / 64)
    (above : ∀ f ≤ high.toNat,mapIter.toNat < f / 64 → Unpinned r f) :
    ∃ frame words,unpinLoop r low high fuel mapIter = some (frame,words) ∧
      IsLast (Unpinned r) low high frame ∧
      ∀ w ∈ words,pageMapIdx low ≤ w ∧ w ≤ pageMapIdx high := by
  obtain ⟨fuel,rfl⟩ : ∃ k,fuel = k + 1 := ⟨fuel - 1,by omega⟩
  have least : low.toNat / 64 ≤ mapIter.toNat := by omega
  have entered : pageMapIdx low ≤ mapIter := by rwa [le_def,pageMapIdx_toNat]
  have below : mapIter ≤ pageMapIdx high := by rwa [le_def,pageMapIdx_toNat]
  have alone : ∀ w ∈ [mapIter],pageMapIdx low ≤ w ∧ w ≤ pageMapIdx high := by simp [entered,below]
  have read : mapIter < r.mapLength := lt_def.mpr (by omega)
  rw [unpinLoop,if_pos entered,if_pos read]
  split
  next full =>
    have above : ∀ f,low.toNat ≤ f → f ≤ high.toNat → mapIter.toNat ≤ f / 64 → Unpinned r f := by
      intro f start stop least'
      rcases Nat.eq_or_lt_of_le least' with word | more
      · exact word_full least most full word.symm start stop
      · exact above f stop more
    cases n with
    | zero =>
      have first : 64 ≤ low.toNat := ends.resolve_right fun ⟨f,start,stop,pinned⟩ =>
        pinned (above f start stop (by omega))
      have before : (mapIter - 1).toNat = mapIter.toNat - 1 := Word.toNat_sub_one _ (by omega)
      have left : ¬pageMapIdx low ≤ mapIter - 1 := by
        rw [le_def,pageMapIdx_toNat]
        omega
      obtain ⟨fuel,rfl⟩ : ∃ k,fuel = k + 1 := ⟨fuel - 1,by omega⟩
      rw [unpinLoop,if_neg left]
      exact ⟨none,[mapIter],rfl,fun f start stop => above f start stop (by omega),alone⟩
    | succ n =>
      have before : (mapIter - 1).toNat = mapIter.toNat - 1 := Word.toNat_sub_one _ (by omega)
      have place : (mapIter - 1).toNat = low.toNat / 64 + n := by omega
      obtain ⟨frame,words,run,last,visited⟩ := unpinLoop_spec (by omega : n + 2 ≤ fuel) place
        (by omega) (fun f stop more => above f (by omega) stop (by omega))
      exact ⟨frame,mapIter :: words,by rw [run]; rfl,last,
        forall_mem_cons.mpr ⟨⟨entered,below⟩,visited⟩⟩
  next full =>
    split
    next empty => exact ⟨_,[mapIter],rfl,word_empty least most above order empty,alone⟩
    next => exact ⟨_,[mapIter],rfl,word_mixed least most above full,alone⟩

end Loop

/-- Without a frame that is not unpinned, a range in the first word makes the index wrap. -/
theorem unpinLoop_wraps (first : low.toNat < 64)
    (unpinned : ∀ f,low.toNat ≤ f → f ≤ high.toNat → Unpinned r f) :
    ∀ (fuel : Nat) {mapIter : NvU64},mapIter.toNat ≤ high.toNat / 64 →
      unpinLoop r low high fuel mapIter = none
  | 0,_,_ => rfl
  | fuel + 1,mapIter,most => by
    have least : low.toNat / 64 ≤ mapIter.toNat := by omega
    have start : pageMapIdx low = 0 := eq_of_toNat_eq (by rw [pageMapIdx_toNat]; simp; omega)
    rw [unpinLoop,start,if_pos (le_def.mpr (Nat.zero_le _)),
      if_pos (word_unpinned least most unpinned)]
    split
    · rw [Option.map_eq_none_iff]
      by_cases zero : mapIter = 0
      · -- The index is now the largest one, and no map is that long.
        subst zero
        cases fuel with
        | zero => rfl
        | succ fuel =>
          have outside : ¬(0 : NvU64) - 1 < r.mapLength := by
            have := r.mapLength.isLt
            rw [lt_def]
            simp
            omega
          rw [unpinLoop,start,if_pos (le_def.mpr (Nat.zero_le _)),if_neg outside]
      · have positive : mapIter.toNat ≠ 0 := fun none => zero (eq_of_toNat_eq none)
        have before : (mapIter - 1).toNat = mapIter.toNat - 1 := Word.toNat_sub_one _ (by omega)
        exact unpinLoop_wraps first unpinned fuel (by omega)
    · rfl

/-- A frame in eviction that `checkOne` finds: it is the only one, or the only one behind the first
word. -/
def OnlyEvicting (r : PmaRegmap) (low high frame : NvU64) : Prop :=
  low ≤ frame ∧ frame ≤ high ∧ Bitmap.bit (r.map .evicting) frame.toNat = true ∧
    ∀ f,low.toNat ≤ f → f ≤ high.toNat → Bitmap.bit (r.map .evicting) f = true →
      f = frame.toNat ∨ f / 64 = low.toNat / 64 ∧ frame.toNat / 64 ≠ low.toNat / 64

theorem evicting_not_evictable (evicting : Bitmap.bit (r.map .evicting) f = true) :
    ¬Evictable r f :=
  fun evictable => Bool.false_ne_true ((evictable.2 .evicting (by decide)).symm.trans evicting)

/-- `checkOne` looks at the frames in eviction only. -/
theorem checkOne_last (order : low.toNat ≤ high.toNat) :
    IsLast (Evictable r) low high (checkOne (r.map .evicting) low high) ↔
      (∀ f,low.toNat ≤ f → f ≤ high.toNat → Evictable r f) ∨
        ∃ frame,OnlyEvicting r low high frame ∧
          ∀ f,frame.toNat < f → f ≤ high.toNat → Evictable r f := by
  have found : Found (r.map .evicting) low high _ := checkOne_found order
  cases result : checkOne (r.map .evicting) low high with
  | none =>
    rw [result] at found
    refine ⟨.inl,?_⟩
    rintro (evictable | ⟨frame,⟨start,stop,evicting,-⟩,-⟩)
    · exact evictable
    · exact absurd (found _ (le_def.mp start) (le_def.mp stop)) (by rw [evicting]; nofun)
  | some frame =>
    rw [result] at found
    constructor
    · rintro ⟨start,stop,-,above⟩
      refine .inr ⟨frame,⟨start,stop,found.set,fun f first final set => ?_⟩,above⟩
      have most : f ≤ frame.toNat := by
        by_contra more
        exact evicting_not_evictable set (above f (by omega) final)
      by_cases word : f / 64 = frame.toNat / 64
      · exact .inl (Nat.le_antisymm most (found.word f word first final set))
      · have := found.before f (by omega) first set
        exact .inr ⟨this,by omega⟩
    · rintro (evictable | ⟨other,⟨start,stop,evicting,only⟩,above⟩)
      · exact absurd (evictable _ found.start found.stop) (evicting_not_evictable found.set)
      · have same : frame = other := by
          rcases only _ found.start found.stop found.set with same | ⟨here,there⟩
          · exact eq_of_toNat_eq same
          · have := found.last here _ (le_def.mp start) (le_def.mp stop) evicting
            omega
        subst same
        exact ⟨start,stop,evicting_not_evictable evicting,above⟩

/-- The last frame that is not evictable is not unpinned; or all frames are unpinned, the range
does not begin in the first word, and the last one in eviction is found. -/
def Scanned (r : PmaRegmap) (low high frameEvictionsInProcess : NvU64) : Prop :=
  (∃ frame,low ≤ frame ∧ frame ≤ high ∧ ¬Unpinned r frame.toNat ∧
      ∀ f,frame.toNat < f → f ≤ high.toNat → Evictable r f) ∨
    64 ≤ low.toNat ∧ (∀ f,low.toNat ≤ f → f ≤ high.toNat → Unpinned r f) ∧
      ((∀ f,low.toNat ≤ f → f ≤ high.toNat → Evictable r f) ∨ frameEvictionsInProcess ≠ 0 ∧
        ∃ frame,OnlyEvicting r low high frame ∧
          ∀ f,frame.toNat < f → f ≤ high.toNat → Evictable r f)

section

variable (order : low.toNat ≤ high.toNat) (frameEvictionsInProcess : NvU64)
include order

/-- What is left to say once the loop has found the last frame that is not unpinned. -/
theorem scanned_iff {frame : Option NvU64} (last : IsLast (Unpinned r) low high frame)
    (ends : 64 ≤ low.toNat ∨ ∃ f,low.toNat ≤ f ∧ f ≤ high.toNat ∧ ¬Unpinned r f) :
    IsLast (Evictable r) low high (frame <|>
        if frameEvictionsInProcess ≠ 0 then checkOne (r.map .evicting) low high else none) ↔
      Scanned r low high frameEvictionsInProcess := by
  cases frame with
  | some frame =>
    obtain ⟨start,stop,pinned,above⟩ := last
    constructor
    · exact fun ⟨_,_,_,evictable⟩ => .inl ⟨frame,start,stop,pinned,evictable⟩
    · rintro (⟨other,start',stop',pinned',evictable⟩ | ⟨-,unpinned,-⟩)
      · have same : frame = other := by
          apply eq_of_toNat_eq
          rcases Nat.lt_trichotomy frame.toNat other.toNat with less | same | more
          · exact absurd (above _ less (le_def.mp stop')) pinned'
          · exact same
          · exact absurd (evictable _ more (le_def.mp stop)).1 pinned
        subst same
        exact ⟨start,stop,fun evicted => pinned evicted.1,evictable⟩
      · exact absurd (unpinned _ (le_def.mp start) (le_def.mp stop)) pinned
  | none =>
    have far : 64 ≤ low.toNat := ends.resolve_right fun ⟨f,start,stop,pinned⟩ =>
      pinned (last f start stop)
    have none_pinned : ¬∃ frame,low ≤ frame ∧ frame ≤ high ∧ ¬Unpinned r frame.toNat ∧
        ∀ f,frame.toNat < f → f ≤ high.toNat → Evictable r f :=
      fun ⟨_,start,stop,pinned,_⟩ => pinned (last _ (le_def.mp start) (le_def.mp stop))
    unfold Scanned
    rw [or_iff_right none_pinned,and_iff_right far,
      and_iff_right (show ∀ f,low.toNat ≤ f → f ≤ high.toNat → Unpinned r f from last)]
    show IsLast (Evictable r) low high (if frameEvictionsInProcess ≠ 0 then _ else none) ↔ _
    by_cases process : frameEvictionsInProcess = 0
    · simp only [process,ne_eq,not_true_eq_false,if_false,false_and,or_false]
      rfl
    · simp only [process,ne_eq,not_false_eq_true,if_true,true_and]
      exact checkOne_last order

/-- The scan ends, reads only words of the range and finds the last frame that is not evictable just
when `Scanned`. -/
theorem numa_unevictable_last (inside : high.toNat / 64 < r.mapLength.toNat) :
    (∃ enough,∀ fuel ≥ enough,∃ frame words,
      scanNumaUnevictable r low high frameEvictionsInProcess fuel = some (frame,words) ∧
      IsLast (Evictable r) low high frame ∧
      ∀ w ∈ words,pageMapIdx low ≤ w ∧ w ≤ pageMapIdx high) ↔
    Scanned r low high frameEvictionsInProcess := by
  have top := pageMapIdx_toNat high
  by_cases ends : 64 ≤ low.toNat ∨ ∃ f,low.toNat ≤ f ∧ f ≤ high.toNat ∧ ¬Unpinned r f
  · have run (fuel : Nat) (enough : high.toNat / 64 - low.toNat / 64 + 2 ≤ fuel) :=
      unpinLoop_spec order inside ends enough (top.trans (by omega)) (by omega)
        (fun f stop more => by omega)
    constructor
    · rintro ⟨enough,scans⟩
      obtain ⟨frame,words,found,last,-⟩ :=
        scans (enough + (high.toNat / 64 - low.toNat / 64 + 2)) (by omega)
      obtain ⟨unpinned,words',ran,least,-⟩ :=
        run (enough + (high.toNat / 64 - low.toNat / 64 + 2)) (by omega)
      refine (scanned_iff order _ least ends).mp ?_
      rw [scanNumaUnevictable,ran] at found
      cases unpinned <;> cases found <;> exact last
    · refine fun scanned => ⟨high.toNat / 64 - low.toNat / 64 + 2,fun fuel enough => ?_⟩
      obtain ⟨unpinned,words,ran,least,visited⟩ := run fuel enough
      have last := (scanned_iff order frameEvictionsInProcess least ends).mpr scanned
      rw [scanNumaUnevictable,ran]
      cases unpinned with
      | none => exact ⟨_,words,rfl,last,visited⟩
      | some => exact ⟨_,words,rfl,last,visited⟩
  · obtain ⟨first,unpinned⟩ := not_or.mp ends
    have unpinned : ∀ f,low.toNat ≤ f → f ≤ high.toNat → Unpinned r f := fun f start stop =>
      by_contra fun pinned => unpinned ⟨f,start,stop,pinned⟩
    constructor
    · rintro ⟨enough,scans⟩
      obtain ⟨frame,words,found,-⟩ := scans enough (Nat.le_refl _)
      rw [scanNumaUnevictable,unpinLoop_wraps (by omega) unpinned enough (by omega)] at found
      exact nomatch found
    · rintro (⟨frame,start,stop,pinned,-⟩ | ⟨far,-⟩)
      · exact absurd (unpinned _ (le_def.mp start) (le_def.mp stop)) pinned
      · exact absurd far first

end

/-- Frames that are unpinned, or pinned in the same places of each word. -/
def unpinnedMap (words pinned : NvU64) : PmaRegmap where
  totalFrames := 64 * words
  mapLength := words
  map := fun k _ => match k with
    | .allocUnpin => ~~~pinned
    | .allocPin => pinned
    | _ => 0
  bProtected := false

theorem unpinnedMap_clear {words pinned : NvU64} (f : Nat) (k : MapIdx)
    (blocking : k ∈ blockingPlanes) : Bitmap.bit ((unpinnedMap words pinned).map k) f = false := by
  simp only [blockingPlanes,mem_cons,not_mem_nil,or_false] at blocking
  rcases blocking with rfl | rfl | rfl | rfl <;> simp [unpinnedMap,Bitmap.bit]

theorem numa_unevictable_last_pinned : ∃ enough,∀ fuel ≥ enough,∃ frame words,
    scanNumaUnevictable (unpinnedMap 2 0xF00) 3 11 1 fuel = some (frame,words) ∧
    IsLast (Evictable (unpinnedMap 2 0xF00)) 3 11 frame ∧
    ∀ w ∈ words,pageMapIdx 3 ≤ w ∧ w ≤ pageMapIdx 11 :=
  (numa_unevictable_last (by decide) 1 (by decide)).mpr (.inl ⟨11,by decide,by decide,
    by simp [Unpinned,Bitmap.bit,unpinnedMap],fun f more stop => absurd (more.trans_le stop) (Nat.lt_irrefl _)⟩)

/-- All frames of the first word are unpinned: the index of the loop wraps. -/
theorem numa_scan_wraps : (∀ f,Evictable (unpinnedMap 1 0) f) ∧
    ∀ fuel,scanNumaUnevictable (unpinnedMap 1 0) 0 63 0 fuel = none := by
  constructor
  · refine fun f => ⟨?_,unpinnedMap_clear f⟩
    show (allOnes 64).getLsbD (f % 64) = true
    rw [getLsbD_allOnes,decide_eq_true (Nat.mod_lt f (by decide))]
  · intro fuel
    match fuel with
    | 0 => rfl
    | 1 => rfl
    | fuel + 2 => rfl

end GpuExt.Regmap
