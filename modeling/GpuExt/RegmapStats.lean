import GpuExt.RegmapBlock

/-! The counters of the region maps are exact. A state change moves every frame of its
block in one direction, so the changed bits of each word are the change of its counts. -/
namespace GpuExt.Regmap

open List BitVec

section Region

/-- The state bits of a frame read as free. -/
def frameFree (r : PmaRegmap) (f : Nat) : Bool :=
  pmaRegmapRead r (BitVec.ofNat 64 f) false = stateFree

def freeFrames (r : PmaRegmap) : Nat := (range r.totalFrames.toNat).countP (frameFree r)

/-- Aligned groups of 32 frames inside the region, all free. -/
def free2mbPages (r : PmaRegmap) : Nat :=
  (range (r.totalFrames.toNat / 32)).countP fun g =>
    (range 32).all fun j => frameFree r (32 * g + j)

theorem masked_bit (x : NvU64) (bound : j < 64) :
    (x &&& (1#64 <<< j)) >>> j = if x.getLsbD j then 1#64 else 0#64 := by
  apply eq_of_getLsbD_eq
  intro i small
  rw [getLsbD_ushiftRight,getLsbD_and]
  by_cases first : i = 0
  · subst first
    cases x.getLsbD j <;> simp [bound]
  · cases x.getLsbD j <;> simp [first]

/-- Reading only the state planes tells whether the frame is occupied. -/
theorem frameFree_eq (r : PmaRegmap) (bound : f < 2 ^ 64) :
    frameFree r f = !Bitmap.bit (occupied r.map) f := by
  have index : (pageMapIdx (BitVec.ofNat 64 f)).toNat = f / 64 := by
    rw [pageMapIdx_toNat,BitVec.toNat_ofNat,Nat.mod_eq_of_lt bound]
  have offset : (pageBitIdx (BitVec.ofNat 64 f)).toNat = f % 64 := by
    rw [pageBitIdx_toNat,BitVec.toNat_ofNat,Nat.mod_eq_of_lt bound]
  have small : f % 64 < 64 := Nat.mod_lt _ (by decide)
  simp [frameFree,pmaRegmapRead,statePlanes,index,offset,masked_bit _ small,Bitmap.bit,occupied]
  cases (r.map .allocUnpin _).getLsbD _ <;>
    cases (r.map .allocPin _).getLsbD _ <;> rfl

/-- Bits past the last frame are pinned, so that they never count as free. -/
structure WellFormed (r : PmaRegmap) : Prop where
  length : 0 < r.totalFrames.toNat → r.mapLength.toNat = (r.totalFrames.toNat - 1) / 64 + 1
  padding : 0 < r.totalFrames.toNat → ∀ f, r.totalFrames.toNat ≤ f → f < 64 * r.mapLength.toNat →
    Bitmap.bit (occupied r.map) f = true

theorem freeFrames_words (valid : WellFormed r) (positive : 0 < r.totalFrames.toNat) :
    BitVec.ofNat 64 (freeFrames r) = freeFrameWords r.mapLength.toNat r.map := by
  have length := valid.length positive
  rw [freeFrameWords,← Bitmap.zeros_padded (by omega) (valid.padding positive)]
  congr 1
  apply countP_congr
  intro f member
  have bound := mem_range.mp member
  rw [frameFree_eq r (by omega)]

theorem free2mbPages_words (valid : WellFormed r) (positive : 0 < r.totalFrames.toNat) :
    BitVec.ofNat 64 (free2mbPages r) = free2mbWords r.mapLength.toNat r.map := by
  have length := valid.length positive
  rw [free2mbWords,← Bitmap.groups_padded (by omega) (valid.padding positive)]
  congr 1
  apply countP_congr
  intro g member
  have bound := mem_range.mp member
  simp only [Bitmap.clearGroup,all_eq_true]
  apply forall₂_congr
  intro j inside
  have small := mem_range.mp inside
  rw [frameFree_eq r (by omega)]

/-- A count restricted to protected regions. -/
def ifProtected (count : PmaRegmap → Nat) (r : PmaRegmap) : Nat :=
  if r.bProtected then count r else 0

theorem ofNat_ifProtected (count : PmaRegmap → Nat) (same : r.bProtected = b) :
    BitVec.ofNat 64 (ifProtected count r) = if b then BitVec.ofNat 64 (count r) else 0 := by
  subst same
  cases h : r.bProtected <;> simp [ifProtected,h]

/-- How far the four counters move when one region changes. -/
structure Adjusted (stats stats' : Stats) (r r' : PmaRegmap) : Prop where
  protection : r'.bProtected = r.bProtected
  frames : stats'.numFreeFrames + BitVec.ofNat 64 (freeFrames r) =
    stats.numFreeFrames + BitVec.ofNat 64 (freeFrames r')
  pages : stats'.numFree2mbPages + BitVec.ofNat 64 (free2mbPages r) =
    stats.numFree2mbPages + BitVec.ofNat 64 (free2mbPages r')
  framesProtected :
    stats'.numFreeFramesProtected + BitVec.ofNat 64 (ifProtected freeFrames r) =
      stats.numFreeFramesProtected + BitVec.ofNat 64 (ifProtected freeFrames r')
  pagesProtected :
    stats'.numFree2mbPagesProtected + BitVec.ofNat 64 (ifProtected free2mbPages r) =
      stats.numFree2mbPagesProtected + BitVec.ofNat 64 (ifProtected free2mbPages r')

variable {newState writeMask : PageStatus}

variable (newState writeMask) in
/-- Every state or attribute bit of a frame in the block, and no other, takes the new value. -/
theorem change_bit (r : PmaRegmap) (stats : Stats) (bounded : InBounds r frame len) (k : MapIdx)
    (state : k ∈ statePlanes) (f : Nat) :
    Bitmap.bit ((pmaRegmapChangeBlockStateAttrib newState writeMask r stats frame len).1.map k) f =
      if (frame.toNat ≤ f ∧ f < frame.toNat + len.toNat) ∧ writeMask.has k = true
      then newState.has k else Bitmap.bit (r.map k) f := by
  obtain ⟨positive,inside⟩ := bounded
  have notAttrib : k ∉ attribPlanes := by revert state; cases k <;> decide
  simp only [pmaRegmapChangeBlockStateAttrib]
  split
  next untouched =>
    have unwritten : writeMask.has k = false := by
      have bits := congrArg (fun x : PageStatus => x.getLsbD k.bit) untouched
      have mask : stateMask.getLsbD k.bit = true := by revert state; cases k <;> decide
      simpa [mask,PageStatus.has] using bits
    simp [unwritten]
  · have covers := blockWrites_covers positive (show _ < 2 ^ 64 by omega) f
    rw [changeState_eq,runWrites_bit]
    simp [covers,notAttrib,state]

theorem occupied_bit (map : Planes) (f : Nat) : Bitmap.bit (occupied map) f =
    (Bitmap.bit (map .allocPin) f || Bitmap.bit (map .allocUnpin) f) := by
  simp [Bitmap.bit,occupied]

variable (newState writeMask) in
theorem change_shape (r : PmaRegmap) (stats : Stats) (frame len : NvU64) :
    let r' := (pmaRegmapChangeBlockStateAttrib newState writeMask r stats frame len).1
    r'.totalFrames = r.totalFrames ∧ r'.mapLength = r.mapLength ∧ r'.bProtected = r.bProtected := by
  simp only [pmaRegmapChangeBlockStateAttrib]
  split <;> exact ⟨rfl,rfl,rfl⟩

variable (newState writeMask) in
theorem change_wellFormed (stats : Stats) (valid : WellFormed r) (bounded : InBounds r frame len) :
    WellFormed (pmaRegmapChangeBlockStateAttrib newState writeMask r stats frame len).1 := by
  obtain ⟨frames,words,_⟩ := change_shape newState writeMask r stats frame len
  have untouched (k : MapIdx) (state : k ∈ statePlanes) (f : Nat)
      (past : r.totalFrames.toNat ≤ f) : Bitmap.bit
        ((pmaRegmapChangeBlockStateAttrib newState writeMask r stats frame len).1.map k) f =
        Bitmap.bit (r.map k) f := by
    have bit := change_bit newState writeMask r stats bounded k state f
    obtain ⟨_,inside⟩ := bounded
    rw [if_neg (by omega)] at bit
    exact bit
  constructor
  · rw [frames,words]
    exact valid.length
  · rw [frames,words]
    intro positive f past within
    have padded := valid.padding positive f past within
    rw [occupied_bit] at padded ⊢
    rw [untouched .allocPin (by decide) f past,untouched .allocUnpin (by decide) f past]
    exact padded

variable (newState writeMask) in
/-- The map that the state planes start from after the attribute planes are written. -/
theorem change_cases (r : PmaRegmap) (stats : Stats) (frame len : NvU64) :
    let result := pmaRegmapChangeBlockStateAttrib newState writeMask r stats frame len
    (occupied result.1.map = occupied r.map ∧ result.2 = stats) ∨
    ∃ map, occupied map = occupied r.map ∧
      let p := runWrites newState writeMask ⟨map,0,0⟩ (blockWrites frame len)
      result.1.map = p.map ∧
      result.2 = stats.update newState writeMask r.bProtected p.delta2m p.delta64k := by
  have planes (map : Planes) (pin : map .allocPin = r.map .allocPin)
      (unpin : map .allocUnpin = r.map .allocUnpin) : occupied map = occupied r.map := by
    funext i
    simp only [occupied]
    rw [pin,unpin]
  have pin : ¬(MapIdx.allocPin ∈ attribPlanes ∧ writeMask.has .allocPin = true) :=
    fun h => absurd h.1 (by decide)
  have unpin : ¬(MapIdx.allocUnpin ∈ attribPlanes ∧ writeMask.has .allocUnpin = true) :=
    fun h => absurd h.1 (by decide)
  simp only [pmaRegmapChangeBlockStateAttrib]
  split
  · refine Or.inl ⟨planes _ ?_ ?_,rfl⟩
    · simp only [if_neg pin]
    · simp only [if_neg unpin]
  · rw [changeState_eq]
    refine Or.inr ⟨_,planes _ ?_ ?_,rfl,rfl⟩
    · simp only [if_neg pin]
    · simp only [if_neg unpin]

variable {counter delta before after : NvU64}

theorem counter_moves (moves : after = before + delta) :
    counter + delta + before = counter + after := by
  rw [moves]
  ac_rfl

theorem counter_moves_if (b : Bool) (moves : after = before + delta) :
    counter + (if b then delta else 0) + (if b then before else 0) =
      counter + (if b then after else 0) := by
  cases b
  · simp
  · exact counter_moves moves

variable (newState writeMask) in
/-- The words of the map and the counters move by the same amounts. -/
theorem change_moves (r : PmaRegmap) (stats : Stats)
    (indices : ∀ write ∈ blockWrites frame len, write.1 < n) :
    let result := pmaRegmapChangeBlockStateAttrib newState writeMask r stats frame len
    ∃ frames pages, freeFrameWords n result.1.map = freeFrameWords n r.map + frames ∧
      free2mbWords n result.1.map = free2mbWords n r.map + pages ∧
      result.2.numFreeFrames = stats.numFreeFrames + frames ∧
      result.2.numFree2mbPages = stats.numFree2mbPages + pages ∧
      result.2.numFreeFramesProtected =
        stats.numFreeFramesProtected + (if r.bProtected then frames else 0) ∧
      result.2.numFree2mbPagesProtected =
        stats.numFree2mbPagesProtected + (if r.bProtected then pages else 0) := by
  rcases change_cases newState writeMask r stats frame len with
    ⟨same,unchanged⟩ | ⟨map,same,moved,updated⟩
  · simp [freeFrameWords,free2mbWords,same,unchanged]
  · have moves := run_counts newState writeMask _ indices ⟨map,0,0⟩
    have start (x : NvU64) : x + signed newState writeMask 0 = x := by simp [signed]
    simp only [freeFrameWords,free2mbWords,same,start] at moves
    simp only [moved,updated]
    refine ⟨_,_,moves.1,moves.2,?_⟩
    simp only [Stats.update,and_comm writeMask newState,signed]
    by_cases occupies : newState &&& writeMask &&& stateMask ≠ 0
    · simp only [if_pos occupies,sub_eq_add_neg]
      cases r.bProtected <;> simp
    · simp only [if_neg occupies]
      cases r.bProtected <;> simp

/-- The counters move exactly as the free frames and pages of the region do. -/
theorem change_adjusts (stats : Stats) (valid : WellFormed r) (bounded : InBounds r frame len) :
    Adjusted stats (pmaRegmapChangeBlockStateAttrib newState writeMask r stats frame len).2 r
      (pmaRegmapChangeBlockStateAttrib newState writeMask r stats frame len).1 := by
  have valid' := change_wellFormed newState writeMask stats valid bounded
  obtain ⟨total,words,protection⟩ := change_shape newState writeMask r stats frame len
  obtain ⟨positive,inside⟩ := bounded
  have nonempty : 0 < r.totalFrames.toNat := by omega
  have length := valid.length nonempty
  have indices : ∀ write ∈ blockWrites frame len, write.1 < r.mapLength.toNat := by
    intro write member
    have := blockWrites_bounded positive (by omega) write member
    omega
  obtain ⟨_,_,frames,pages,uFrames,uPages,uFramesProtected,uPagesProtected⟩ :=
    change_moves newState writeMask r stats indices
  generalize pmaRegmapChangeBlockStateAttrib newState writeMask r stats frame len = result at *
  have nonempty' : 0 < result.1.totalFrames.toNat := by rwa [total]
  rw [← freeFrames_words valid nonempty,← words,← freeFrames_words valid' nonempty'] at frames
  rw [← free2mbPages_words valid nonempty,← words,← free2mbPages_words valid' nonempty'] at pages
  refine ⟨protection,?_,?_,?_,?_⟩
  · rw [uFrames]
    exact counter_moves frames
  · rw [uPages]
    exact counter_moves pages
  · rw [uFramesProtected,ofNat_ifProtected freeFrames rfl,ofNat_ifProtected freeFrames protection]
    exact counter_moves_if _ frames
  · rw [uPagesProtected,ofNat_ifProtected free2mbPages rfl,ofNat_ifProtected free2mbPages protection]
    exact counter_moves_if _ pages

end Region

section Init

theorem endMask_bit (endBit : NvU64) (small : endBit.toNat < 64) (bound : j < 64) :
    (if endBit = 63 then 0#64 else ~~~(allOnes 64 >>> (63 - endBit).toNat)).getLsbD j =
      decide (endBit.toNat < j) := by
  split
  next last =>
    have : endBit.toNat = 63 := by rw [last]; rfl
    rw [getLsbD_zero]
    exact (decide_eq_false (by omega)).symm
  · rw [getLsbD_not,finalMask_bit _ small]
    grind

/-- Only the padding of the last word starts out occupied. -/
theorem initialPlanes_bit (positive : 0 < numFrames.toNat) (f : Nat) :
    Bitmap.bit (occupied (initialPlanes numFrames)) f =
      decide (f / 64 = (numFrames.toNat - 1) / 64 ∧ numFrames.toNat ≤ f) := by
  have last : (numFrames - 1).toNat = numFrames.toNat - 1 := by bv_omega
  have bound : f % 64 < 64 := Nat.mod_lt _ (by decide)
  have index : ((numFrames - 1) >>> 6).toNat = (numFrames.toNat - 1) / 64 := by
    rw [← last]
    exact pageMapIdx_toNat _
  have offset : ((numFrames - 1) &&& 63).toNat = (numFrames.toNat - 1) % 64 := by
    rw [← last]
    exact pageBitIdx_toNat _
  have small : ((numFrames - 1) &&& 63).toNat < 64 := by
    rw [offset]
    exact Nat.mod_lt _ (by decide)
  have mask := endMask_bit _ small bound
  rw [offset] at mask
  rw [occupied_bit]
  simp only [Bitmap.bit,initialPlanes,index,if_true]
  by_cases here : f / 64 = (numFrames.toNat - 1) / 64
  · have word (x : NvU64) : (0 : NvU64) ||| x = x := zero_or
    rw [here,Function.update_self,word]
    refine (congrArg (· || _) mask).trans ?_
    simp
    omega
  · simp [here]

theorem initial_wellFormed (numFrames : NvU64) (bProtected : Bool) :
    WellFormed ⟨numFrames,pageMapIdx (numFrames - 1) + 1,initialPlanes numFrames,bProtected⟩ := by
  have length (positive : 0 < numFrames.toNat) :
      (pageMapIdx (numFrames - 1) + 1).toNat = (numFrames.toNat - 1) / 64 + 1 := by
    have index := pageMapIdx_toNat (numFrames - 1)
    bv_omega
  refine ⟨length,fun positive f past within => ?_⟩
  dsimp only at positive past within ⊢
  rw [initialPlanes_bit positive,decide_eq_true_eq]
  omega

theorem initial_frameFree (bProtected : Bool) (inside : f < numFrames.toNat) :
    frameFree ⟨numFrames,pageMapIdx (numFrames - 1) + 1,initialPlanes numFrames,bProtected⟩ f =
      true := by
  rw [frameFree_eq _ (by omega),initialPlanes_bit (by omega)]
  simp
  omega

theorem initial_freeFrames (numFrames : NvU64) (bProtected : Bool) :
    freeFrames ⟨numFrames,pageMapIdx (numFrames - 1) + 1,initialPlanes numFrames,bProtected⟩ =
      numFrames.toNat := by
  refine (countP_eq_length.mpr fun f member => ?_).trans (length_range)
  exact initial_frameFree bProtected (mem_range.mp member)

theorem initial_free2mbPages (numFrames : NvU64) (bProtected : Bool) :
    free2mbPages ⟨numFrames,pageMapIdx (numFrames - 1) + 1,initialPlanes numFrames,bProtected⟩ =
      numFrames.toNat / 32 := by
  refine (countP_eq_length.mpr fun g member => ?_).trans (length_range)
  have bound := mem_range.mp member
  rw [all_eq_true]
  intro j inside
  have small := mem_range.mp inside
  dsimp only at bound
  exact initial_frameFree bProtected (by omega)

end Init

section System

/-- The counters agree with the frames of all regions. -/
structure Exact (s : Pma) : Prop where
  regions : ∀ r ∈ s.regions, WellFormed r
  frames : s.stats.numFreeFrames = BitVec.ofNat 64 (s.regions.map freeFrames).sum
  pages : s.stats.numFree2mbPages = BitVec.ofNat 64 (s.regions.map free2mbPages).sum
  framesProtected : s.stats.numFreeFramesProtected =
    BitVec.ofNat 64 (s.regions.map (ifProtected freeFrames)).sum
  pagesProtected : s.stats.numFree2mbPagesProtected =
    BitVec.ofNat 64 (s.regions.map (ifProtected free2mbPages)).sum

variable {regions : List PmaRegmap} {counter : NvU64}

theorem sum_set (weight : PmaRegmap → Nat) (r' : PmaRegmap) (located : regions[k]? = some r) :
    ((regions.set k r').map weight).sum + weight r = (regions.map weight).sum + weight r' := by
  induction regions generalizing k with
  | nil => simp at located
  | cons first regions ih =>
    cases k with
    | zero =>
      obtain rfl : first = r := by simpa using located
      simp only [set_cons_zero,map_cons,sum_cons]
      omega
    | succ k =>
      have tail := ih (k := k) (by simpa using located)
      simp only [set_cons_succ,map_cons,sum_cons]
      omega

/-- A counter that moves with one region's weight stays the sum of all weights. -/
theorem counter_sum (weight : PmaRegmap → Nat) {counter' : NvU64} (located : regions[k]? = some r)
    (moved : counter' + BitVec.ofNat 64 (weight r) = counter + BitVec.ofNat 64 (weight r'))
    (exact : counter = BitVec.ofNat 64 (regions.map weight).sum) :
    counter' = BitVec.ofNat 64 ((regions.set k r').map weight).sum := by
  have sums := congrArg (BitVec.ofNat 64) (sum_set weight r' located)
  rw [BitVec.ofNat_add,BitVec.ofNat_add,← exact,← moved] at sums
  exact (add_left_inj _).mp sums.symm

theorem withRegion_exact (valid : Exact s)
    (change : PmaRegmap → Stats → PmaRegmap × Stats)
    (step : ∀ r ∈ s.regions, InBounds r frame len →
      WellFormed (change r s.stats).1 ∧ Adjusted s.stats (change r s.stats).2 r (change r s.stats).1)
    (applied : s.withRegion region frame len change = some s') : Exact s' := by
  simp only [Pma.withRegion] at applied
  split at applied
  · simp at applied
  next r located =>
    split at applied
    next bounded =>
      obtain ⟨wellFormed,adjusted⟩ := step r (mem_of_getElem? located) bounded
      obtain rfl := Option.some.inj applied
      refine ⟨?_,counter_sum freeFrames located adjusted.frames valid.frames,
        counter_sum free2mbPages located adjusted.pages valid.pages,
        counter_sum _ located adjusted.framesProtected valid.framesProtected,
        counter_sum _ located adjusted.pagesProtected valid.pagesProtected⟩
      intro other member
      rcases mem_or_eq_of_mem_set member with kept | rfl
      · exact valid.regions other kept
      · exact wellFormed
    · simp at applied

theorem init_exact (valid : Exact s)
    (applied : Call.apply s (.init numFrames bProtected newMap newPlane) = some s') : Exact s' := by
  have pages : numFrames / framesPer2mb = BitVec.ofNat 64 (numFrames.toNat / 32) := by
    apply BitVec.eq_of_toNat_eq
    change numFrames.toNat / 32 = numFrames.toNat / 32 % 2 ^ 64
    omega
  have frames : numFrames = BitVec.ofNat 64 numFrames.toNat := by simp
  have cancel (x y : NvU64) : x + y - y = x := BitVec.add_sub_cancel x y
  have grown {x y : NvU64} {total n : Nat} (counted : x = BitVec.ofNat 64 total)
      (more : y = BitVec.ofNat 64 n) : x + y = BitVec.ofNat 64 (total + n) := by
    rw [counted,more,BitVec.ofNat_add]
  cases newMap with
  | false =>
    obtain rfl := Option.some.inj applied
    exact valid
  | true =>
    by_cases planes : (statePlanes ++ attribPlanes).all newPlane = true
    · simp only [Call.apply,pmaRegmapInit,if_pos planes] at applied
      obtain rfl := Option.some.inj applied
      refine ⟨?_,?_,?_,?_,?_⟩
      · intro r member
        rcases mem_append.mp member with kept | fresh
        · exact valid.regions r kept
        · rw [mem_singleton.mp fresh]
          exact initial_wellFormed numFrames bProtected
      all_goals
        simp only [map_append,map_cons,sum_append,ifProtected,initial_freeFrames,initial_free2mbPages]
        cases bProtected
      · exact grown valid.frames frames
      · exact grown valid.frames frames
      · exact grown valid.pages pages
      · exact grown valid.pages pages
      · exact valid.framesProtected
      · exact grown valid.framesProtected frames
      · exact valid.pagesProtected
      · exact grown valid.pagesProtected pages
    · simp only [Call.apply,pmaRegmapInit,if_neg planes] at applied
      obtain rfl := Option.some.inj applied
      refine ⟨valid.regions,?_,?_,?_,?_⟩
      all_goals
        cases bProtected
        all_goals simp [Stats.destroy]
      all_goals first
        | exact valid.frames
        | exact valid.pages
        | exact valid.framesProtected
        | exact valid.pagesProtected

theorem changeBlock_exact (valid : Exact s)
    (applied : s.withRegion region frame len (fun r stats =>
      pmaRegmapChangeBlockStateAttrib newState writeMask r stats frame len) = some s') :
    Exact s' :=
  withRegion_exact valid _ (fun r member bounded =>
    ⟨change_wellFormed _ _ s.stats (valid.regions r member) bounded,
      change_adjusts s.stats (valid.regions r member) bounded⟩) applied

theorem apply_exact (valid : Exact s) (call : Call) (applied : call.apply s = some s') :
    Exact s' := by
  cases call with
  | init numFrames bProtected newMap newPlane => exact init_exact valid applied
  | changeBlock | changeState | changePage => exact changeBlock_exact valid applied

theorem execute_exact (calls : List Call) (valid : Exact s) (run : execute calls s = some s') :
    Exact s' := by
  induction calls generalizing s with
  | nil =>
    obtain rfl := Option.some.inj run
    exact valid
  | cons call calls ih =>
    obtain ⟨next,applied,rest⟩ := Option.bind_eq_some_iff.mp run
    exact ih (apply_exact valid call applied) rest

def Pma.empty : Pma := ⟨[],⟨0,0,0,0,0,0⟩⟩

theorem empty_exact : Exact Pma.empty := ⟨by simp [Pma.empty],rfl,rfl,rfl,rfl⟩

theorem sum_le (regions : List PmaRegmap) (count bound : PmaRegmap → Nat)
    (small : ∀ r, count r ≤ bound r) : (regions.map count).sum ≤ (regions.map bound).sum := by
  induction regions with
  | nil => rfl
  | cons r regions ih =>
    have := small r
    simp only [map_cons,sum_cons]
    omega

theorem freeFrames_le (r : PmaRegmap) : freeFrames r ≤ r.totalFrames.toNat := by
  exact countP_le_length.trans (by rw [length_range])

theorem free2mbPages_le (r : PmaRegmap) : free2mbPages r ≤ r.totalFrames.toNat := by
  exact countP_le_length.trans (by rw [length_range]; exact Nat.div_le_self _ _)

theorem ifProtected_le (count : PmaRegmap → Nat) (small : ∀ r, count r ≤ r.totalFrames.toNat)
    (r : PmaRegmap) : ifProtected count r ≤ r.totalFrames.toNat := by
  rw [ifProtected]
  split
  · exact small r
  · exact Nat.zero_le _

theorem sum_ifProtected (count : PmaRegmap → Nat) (regions : List PmaRegmap) :
    (regions.map (ifProtected count)).sum =
      ((regions.filter (·.bProtected)).map count).sum := by
  induction regions with
  | nil => rfl
  | cons r regions ih => cases h : r.bProtected <;> simp [ifProtected,h,ih]

theorem counter_toNat {count : PmaRegmap → Nat}
    (total : (regions.map fun r => r.totalFrames.toNat).sum < 2 ^ 64)
    (small : ∀ r, count r ≤ r.totalFrames.toNat)
    (counted : counter = BitVec.ofNat 64 (regions.map count).sum) :
    counter.toNat = (regions.map count).sum := by
  rw [counted]
  exact Nat.mod_eq_of_lt (Nat.lt_of_le_of_lt (sum_le _ _ _ small) total)

/-- After any registrations and in-bounds changes the four 64-bit counters hold the number
of free frames and of free aligned groups of 32 frames, over all and over the protected
regions. With fewer than `2 ^ 64` frames in all regions together nothing is cut off. -/
theorem regmap_counters_exact (calls : List Call) (s : Pma)
    (run : execute calls Pma.empty = some s) :
    (s.stats.numFreeFrames = BitVec.ofNat 64 (s.regions.map freeFrames).sum ∧
      s.stats.numFree2mbPages = BitVec.ofNat 64 (s.regions.map free2mbPages).sum ∧
      s.stats.numFreeFramesProtected =
        BitVec.ofNat 64 ((s.regions.filter (·.bProtected)).map freeFrames).sum ∧
      s.stats.numFree2mbPagesProtected =
        BitVec.ofNat 64 ((s.regions.filter (·.bProtected)).map free2mbPages).sum) ∧
    ((s.regions.map fun r => r.totalFrames.toNat).sum < 2 ^ 64 →
      s.stats.numFreeFrames.toNat = (s.regions.map freeFrames).sum ∧
      s.stats.numFree2mbPages.toNat = (s.regions.map free2mbPages).sum ∧
      s.stats.numFreeFramesProtected.toNat =
        ((s.regions.filter (·.bProtected)).map freeFrames).sum ∧
      s.stats.numFree2mbPagesProtected.toNat =
        ((s.regions.filter (·.bProtected)).map free2mbPages).sum) := by
  have valid := execute_exact calls empty_exact run
  simp only [← sum_ifProtected]
  exact ⟨⟨valid.frames,valid.pages,valid.framesProtected,valid.pagesProtected⟩,fun total =>
    ⟨counter_toNat total freeFrames_le valid.frames,counter_toNat total free2mbPages_le valid.pages,
      counter_toNat total (ifProtected_le _ freeFrames_le) valid.framesProtected,
      counter_toNat total (ifProtected_le _ free2mbPages_le) valid.pagesProtected⟩⟩

/-- A protected region with an incomplete last page and a plain one, with changes that
start and end inside words. -/
def sampleCalls : List Call := [
  .init 1000 true true fun _ => true, .init 64 false true fun _ => true,
  .changeBlock 0 30 700 statePin stateMask, .changePage 1 32 0x200000 stateUnpin stateUnpin,
  .changeState 0 999 stateUnpin stateMask, .changeBlock 0 64 100 stateFree statePin,
  .init 5 false true fun k => k = .allocPin]

theorem sample_completes : (execute sampleCalls Pma.empty).isSome := by decide +kernel

theorem regmap_counters_exact_sample :
    ∃ s, execute sampleCalls Pma.empty = some s ∧
      s.stats.numFreeFrames = BitVec.ofNat 64 (s.regions.map freeFrames).sum ∧
      s.stats.numFree2mbPagesProtected =
        BitVec.ofNat 64 ((s.regions.filter (·.bProtected)).map free2mbPages).sum := by
  obtain ⟨s,run⟩ := Option.isSome_iff_exists.mp sample_completes
  have exact := (regmap_counters_exact sampleCalls s run).1
  exact ⟨s,run,exact.1,exact.2.2.2⟩

end System

end GpuExt.Regmap
