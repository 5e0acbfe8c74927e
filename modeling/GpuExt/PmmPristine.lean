import GpuExt.PmmSequential

/-! Roots that PMA owns. Every way back to PMA leaves them as they were before their first
use, except the one that follows a successful eviction: it never takes back the list state. -/
namespace GpuExt.Pmm

variable {cfg : Config} {s s' : State} {c x p : ChunkId} {q : ChunkState} {r : RootId} {hook : Hook}

def Chunk.mapping (chunk : Chunk) : ChunkState × Option VaBlock × Nat :=
  (chunk.state,chunk.vaBlock,chunk.vaBlockPageIndex)

@[simp] theorem mapping_count (chunk : Chunk) (f : Suballoc → Suballoc) :
    (chunk.count f).mapping = chunk.mapping := rfl

section

variable (s) (c x)

@[simp] theorem mapping_modifySuballoc (f : Suballoc → Suballoc) :
    ((s.modifySuballoc c f).chunk x).mapping = (s.chunk x).mapping := by
  rw [modifySuballoc_chunk,mapping_count]

@[simp] theorem mapping_modifyParent (f : Suballoc → Suballoc) :
    ((s.modifyParent c f).chunk x).mapping = (s.chunk x).mapping := by
  unfold State.modifyParent
  split <;> simp

theorem mapping_modify (f : Chunk → Chunk) :
    ((s.modify c f).chunk x).mapping = if x = c then (f (s.chunk c)).mapping else (s.chunk x).mapping := by
  by_cases here : x = c
  · simp [here]
  · simp [here]

theorem mapping_chunkPin : ((chunkPin s c).chunk x).mapping =
    if x = c then (.tempPinned,(s.chunk c).mapping.2) else (s.chunk x).mapping := by
  unfold chunkPin
  dsimp only
  split
  · rw [mapping_modify]
    rfl
  · rw [mapping_modifySuballoc,mapping_modify]
    rfl

theorem mapping_chunkUnpin (q : ChunkState) :
    ((chunkUnpin s c q).chunk x).mapping =
      if x = c then (q,(s.chunk c).mapping.2) else (s.chunk x).mapping := by
  unfold chunkUnpin
  dsimp only
  split
  · rw [mapping_modify]
    rfl
  · rw [mapping_modifySuballoc,mapping_modify]
    rfl

end

@[simp] theorem chunkUpdateListsLocked_chunk (hook : Hook) (s : State) (c : ChunkId) :
    (chunkUpdateListsLocked cfg hook s c).chunk = s.chunk := by
  rw [chunkUpdateListsLocked_eq]
  have leaf (s : State) : (updateLeafList cfg s c).chunk = s.chunk := by
    unfold updateLeafList
    split <;> simp
  rw [leaf]
  unfold updateRootList
  split
  · split
    · simp
    · split
      · rw [(bpfCallGpuBlockActivate_reordered hook).chunk_eq]
        simp
      · rfl
  · rfl

/-- What the list state of a root may be changed by. -/
theorem rootListUpdateLocked_other (s : State) {operation : ListOp} {list : ListState}
    (other : r ≠ c.root) : (rootListUpdateLocked s c list operation).root r = s.root r := by
  unfold rootListUpdateLocked
  dsimp only
  split
  · exact Function.update_of_ne other _ _
  · rfl

theorem Reordered.other (reordered : Reordered s c s') (different : r ≠ c.root) :
    s'.root r = s.root r := by
  cases reordered with
  | same => rfl
  | moved => exact rootListUpdateLocked_other s different

theorem chunkUpdateListsLocked_other (hook : Hook) (s : State) (other : r ≠ c.root) :
    (chunkUpdateListsLocked cfg hook s c).root r = s.root r := by
  rw [chunkUpdateListsLocked_eq]
  have leaf (s : State) : (updateLeafList cfg s c).root r = s.root r := by
    unfold updateLeafList
    split
    · exact rootListUpdateLocked_other s other
    · exact rootListUpdateLocked_other s other
    · rfl
  have top : r ≠ (rootChunk c).root := other
  rw [leaf]
  unfold updateRootList
  split
  · split
    · exact rootListUpdateLocked_other s top
    · split
      · rw [(bpfCallGpuBlockActivate_reordered hook).other top]
        exact rootListUpdateLocked_other s top
      · rfl
  · rfl

/-- A chunk that is not mapped says so; the page index of unused memory does not matter. -/
def Tidy (x : ChunkId) (mapping : ChunkState × Option VaBlock × Nat) : Prop :=
  mapping.1 ≠ .allocated → mapping.2.1 = none ∧
    (mapping.1 ≠ .pmaOwned ∨ x.path = [] → mapping.2.2 = pagesPerVaBlock)

structure Clean (s : State) : Prop where
  tidy : ∀ x, Tidy x (s.chunk x).mapping
  returned : ∀ r, (s.chunk (.ofRoot r)).state = .pmaOwned → (s.root r).listState ≠ .eviction

/-- Sections that change the mapping of one chunk and the list state of its root. -/
structure Local (s s' : State) (c : ChunkId) : Prop where
  chunk : ∀ x, x ≠ c → (s'.chunk x).mapping = (s.chunk x).mapping
  root : ∀ r, r ≠ c.root → (s'.root r).listState = (s.root r).listState

theorem Clean.after (clean : Clean s) (near : Local s s' c) (tidy : Tidy c (s'.chunk c).mapping)
    (returned : (s'.chunk (.ofRoot c.root)).state = .pmaOwned → (s'.root c.root).listState ≠ .eviction) :
    Clean s' := by
  refine ⟨fun x => ?_,fun r state => ?_⟩
  · by_cases here : x = c
    · exact here ▸ tidy
    · rw [near.chunk x here]
      exact clean.tidy x
  · by_cases here : r = c.root
    · subst here
      exact returned state
    · have other : ChunkId.ofRoot r ≠ c := fun same => here (congrArg ChunkId.root same)
      have same := congrArg Prod.fst (near.chunk _ other)
      rw [near.root r here]
      exact clean.returned r (same.symm.trans state)

variable {rest : Option VaBlock × Nat}

/-- A used chunk that is not mapped stays tidy in any other state. -/
theorem Tidy.recolor {state : ChunkState} (tidy : Tidy x (state,rest))
    (used : state ≠ .pmaOwned ∨ x.path = []) (unmapped : state ≠ .allocated) : Tidy x (q,rest) := by
  obtain ⟨none,page⟩ := tidy unmapped
  exact fun _ => ⟨none,fun _ => page used⟩

theorem tidy_allocated : Tidy x (.allocated,rest) :=
  fun mapped => absurd rfl mapped

theorem tidy_reset : Tidy x (q,none,pagesPerVaBlock) := fun _ => ⟨rfl,fun _ => rfl⟩

/-! The sections. -/

theorem root_used (sound : Sound cfg s') (used : (s'.chunk c).state ≠ .pmaOwned) :
    (s'.chunk (.ofRoot c.root)).state ≠ .pmaOwned := sound.shaped.used_above c.root_under used

section Sections

variable (clean : Clean s)

include clean in
/-- The chunk is used afterwards, so its root is not PMA's. -/
theorem Clean.section (done : Section cfg s s' c q) (used : q ≠ .pmaOwned) (near : Local s s' c)
    (tidy : Tidy c (s'.chunk c).mapping) : Clean s' := by
  refine clean.after near tidy fun state => absurd state (root_used done.sound ?_)
  rw [done.state,if_pos rfl]
  exact used

include clean in
theorem Clean.shuffled (shuffled : Shuffled cfg s s')
    (root : ∀ r, (s.chunk (.ofRoot r)).state = .pmaOwned → (s'.root r).listState = (s.root r).listState) :
    Clean s' := by
  refine ⟨fun x => ?_,fun r state => ?_⟩
  · rw [shuffled.chunk]
    exact clean.tidy x
  · rw [shuffled.chunk] at state
    rw [root r state]
    exact clean.returned r state

theorem claimChunk_mapping (s : State) : ((claimChunk cfg hook s c).chunk x).mapping =
    if x = c then (.tempPinned,(s.chunk c).mapping.2) else (s.chunk x).mapping := by
  simp [claimChunk,mapping_chunkPin]

theorem chunkPin_root (s : State) (c : ChunkId) : (chunkPin s c).root = s.root := by
  unfold chunkPin
  dsimp only
  split <;> rfl

theorem chunkUnpin_root (s : State) (c : ChunkId) (q : ChunkState) : (chunkUnpin s c q).root = s.root := by
  unfold chunkUnpin
  dsimp only
  split <;> rfl

theorem modifyParent_frame (s : State) (c : ChunkId) (f : Suballoc → Suballoc) :
    (s.modifyParent c f).root = s.root := by
  unfold State.modifyParent
  split <;> rfl

theorem claimChunk_local (s : State) (c : ChunkId) : Local s (claimChunk cfg hook s c) c := by
  refine ⟨fun x other => ?_,fun r other => ?_⟩
  · rw [claimChunk_mapping,if_neg other]
  · rw [claimChunk,chunkUpdateListsLocked_other hook _ other,chunkPin_root,modifyParent_frame]

variable {elevated : RootId → Bool} {entries : List ChunkId} {found : Option ChunkId}
  {type : MemoryType}

theorem findFreeChunkLocked_root (run : findFreeChunkLocked elevated s entries = (s',found))
    (outside : ∀ c ∈ entries, c.root ≠ r) : s'.root r = s.root r := by
  induction entries generalizing s with
  | nil =>
    cases run
    rfl
  | cons c rest ih =>
    have restOutside (d : ChunkId) (member : d ∈ rest) : d.root ≠ r := outside d (by simp [member])
    unfold findFreeChunkLocked at run
    split at run
    · rw [ih run restOutside,rootListUpdateLocked_other s (Ne.symm (outside c (by simp)))]
    · split at run
      · exact ih run restOutside
      · cases run
        rfl

theorem Clean.walk (clean : Clean s) (sound : Sound cfg s)
    (free : ∀ c ∈ entries, (s.chunk c).state = .free)
    (run : findFreeChunkLocked elevated s entries = (s',found)) : Clean s' := by
  refine clean.shuffled (findFreeChunkLocked_spec sound free run).1 fun r state => ?_
  rw [findFreeChunkLocked_root run fun c member root => ?_]
  refine root_used sound (c := c) ?_ (root ▸ state)
  rw [free c member]
  decide

theorem claimFreeChunk_clean (clean : Clean s) {size fuel : Nat} (sound : Sound cfg s)
    (run : claimFreeChunk cfg hook elevated fuel s type size = some (s',found)) : Clean s' := by
  obtain ⟨⟨s₁,choice⟩,search,result⟩ := Option.map_eq_some_iff.mp run
  obtain ⟨shuffled,claims⟩ := findFreeChunk_spec sound search
  have clean₁ : Clean s₁ := by
    obtain ⟨zeroed,first,search⟩ := Option.bind_eq_some_iff.mp search
    have free := sound.entries_free first
    split at search
    next s₂ c found =>
      cases search
      exact clean.walk sound free found
    next s₂ found =>
      obtain ⟨others,second,search⟩ := Option.map_eq_some_iff.mp search
      have sound₂ := (findFreeChunkLocked_spec sound free found).1.sound
      exact (clean.walk sound free found).walk sound₂ (sound₂.entries_free second) search
  cases choice with
  | none =>
    cases result
    exact clean₁
  | some c =>
    cases result
    obtain ⟨state,quiet⟩ := claims c rfl
    have state₁ : (s₁.chunk c).state = .free := by rw [shuffled.chunk,state]
    have quiet₁ : chunkIsInEviction s₁ c = false := by
      unfold chunkIsInEviction
      rwa [shuffled.chunk]
    refine clean₁.section (claimChunk_section shuffled.sound state₁ quiet₁).1 (by decide)
      (claimChunk_local s₁ c) ?_
    rw [claimChunk_mapping,if_pos rfl]
    exact (clean₁.tidy c).recolor (by simp [state₁]) (by simp [state₁])

/-- Afterwards the chunk is mapped, so nothing is asked of it. -/
theorem Clean.map (clean : Clean s) (done : Section cfg s s' c .allocated) (near : Local s s' c) :
    Clean s' := by
  refine clean.section done (by decide) near ?_
  have state : (s'.chunk c).state = .allocated := by rw [done.state,if_pos rfl]
  exact fun mapped => absurd state mapped

theorem gpuUnpinTemp_local (s : State) (c : ChunkId) (vaBlock : VaBlock) (pageIndex : Nat)
    (isReferenced : Bool) : Local s (gpuUnpinTemp cfg hook s c vaBlock pageIndex isReferenced) c := by
  refine ⟨fun x other => ?_,fun r other => ?_⟩
  · simp [gpuUnpinTemp,if_neg other,mapping_chunkUnpin]
  · simp only [gpuUnpinTemp]
    rw [chunkUpdateListsLocked_other hook _ other]
    change ((chunkUnpin _ c .allocated).root r).listState = _
    rw [chunkUnpin_root,rootListUpdateLocked_other _ other]
    rfl

theorem unpinKernel_local (s : State) (c : ChunkId) : Local s (unpinKernel s c) c := by
  refine ⟨fun x other => ?_,fun r other => ?_⟩
  · simp [unpinKernel,if_neg other,mapping_chunkUnpin]
  · change ((chunkUnpin s c .allocated).root r).listState = _
    rw [chunkUnpin_root]

theorem chunkFreeLocked_local (s : State) (c : ChunkId) : Local s (chunkFreeLocked cfg hook s c) c := by
  refine ⟨fun x other => ?_,fun r other => ?_⟩
  · unfold chunkFreeLocked
    split
    · simp [mapping_chunkPin,if_neg other]
    · dsimp only
      split <;> simp [if_neg other,mapping_chunkUnpin]
  · unfold chunkFreeLocked
    split
    · rw [chunkPin_root]
      rfl
    · rw [chunkUpdateListsLocked_other hook _ other]
      split
      · change ((chunkUnpin _ c .free).root r).listState = _
        rw [chunkUnpin_root,modifyParent_frame]
      · change ((s.modifyParent c _).root r).listState = _
        rw [modifyParent_frame]

theorem chunkFreeLocked_tidy (tidy : Tidy c (s.chunk c).mapping) :
    Tidy c ((chunkFreeLocked cfg hook s c).chunk c).mapping := by
  unfold chunkFreeLocked
  split
  · rw [mapping_chunkPin,if_pos rfl,mapping_modify,if_pos rfl]
    exact tidy_reset
  · have parent := mapping_modifyParent s c c fun a => { a with allocated := a.allocated - 1 }
    dsimp only
    split
    next pinned =>
      have same := mapping_chunkUnpin
        (s.modifyParent c fun a => { a with allocated := a.allocated - 1 }) c c .free
      rw [if_pos rfl,parent] at same
      rw [chunkUpdateListsLocked_chunk,mapping_modify,if_pos rfl]
      -- The chunk was pinned, so it is mapped nowhere.
      have state : (s.chunk c).state = .tempPinned := by
        have first := congrArg Prod.fst parent
        exact first.symm.trans pinned
      have unmapped : (s.chunk c).vaBlock = none := (tidy (by simp [Chunk.mapping,state])).1
      have vaBlock := congrArg (·.2.1) same
      exact fun _ => ⟨vaBlock.trans unmapped,fun _ => rfl⟩
    next =>
      rw [chunkUpdateListsLocked_chunk,mapping_modify,if_pos rfl]
      exact fun _ => ⟨by simp [Chunk.mapping],fun _ => rfl⟩

theorem chunkFreeLocked_clean (clean : Clean s) (done : Section cfg s (chunkFreeLocked cfg hook s c) c q)
    (used : q ≠ .pmaOwned) : Clean (chunkFreeLocked cfg hook s c) :=
  clean.section done used (chunkFreeLocked_local s c) (chunkFreeLocked_tidy (clean.tidy c))

/-- Sections that change the tree but no list. -/
theorem Clean.reshape (clean : Clean s) (tidy : ∀ x, Tidy x (s'.chunk x).mapping) (root : s'.root = s.root)
    (state : ∀ r, (s'.chunk (.ofRoot r)).state = .pmaOwned → (s.chunk (.ofRoot r)).state = .pmaOwned) :
    Clean s' :=
  ⟨tidy,fun r gone => root ▸ clean.returned r (state r gone)⟩

section

variable (clean : Clean s) (sound : Sound cfg s)
include clean sound

theorem divideChunk_clean {k : Nat} (able : Splittable cfg s c k) : Clean (divideChunk s c k) := by
  have isRoot := sound.shaped.isRoot_iff fun _ => able.used
  refine clean.reshape (fun x => ?_) (divideChunk_frame s c k).1 fun r gone => ?_
  · rw [divideChunk_chunk isRoot able.state rfl]
    split
    · intro unmapped
      have state : (s.chunk c).state ≠ .allocated := unmapped
      simp [Chunk.mapping,subchunkOf,state]
    · split
      next here =>
        subst here
        rcases able.state with state | state
        · obtain ⟨none,page⟩ := clean.tidy x (by simp [Chunk.mapping,state])
          exact fun _ => ⟨by simpa [Chunk.mapping,state] using none,
            fun _ => by simpa [Chunk.mapping,state] using page (.inl (by simp [Chunk.mapping,state]))⟩
        · simp [Tidy,Chunk.mapping,state]
      · exact clean.tidy x
  · rw [(divideChunk_reshaped sound able).1.state,splitStates] at gone
    split at gone
    · cases gone
    · rwa [if_neg not_isSubchunk_root] at gone

theorem mergeGpuChunk_clean (able : Mergeable s c q) : Clean (mergeGpuChunk s c) := by
  refine clean.reshape (fun x => ?_) (sameLists_mergeGpuChunk s c).root fun r gone => ?_
  · rw [mergeGpuChunk_chunk able rfl]
    split
    next sub =>
      obtain ⟨i,_,rfl⟩ := isSubchunk_iff.mp sub
      exact fun _ => ⟨rfl,fun used => by simp [Chunk.mapping,Chunk.zeroed,ChunkId.child] at used⟩
    · split
      next here =>
        subst here
        rcases able.state with rfl | rfl
        · obtain ⟨none,page⟩ := clean.tidy x (by simp [Chunk.mapping,able.split])
          exact fun _ => ⟨by simpa [Chunk.mapping] using none,
            fun _ => by simpa [Chunk.mapping] using page (.inl (by simp [Chunk.mapping,able.split]))⟩
        · exact tidy_allocated
      · exact clean.tidy x
  · rw [(mergeGpuChunk_reshaped sound able).1.state,mergeStates] at gone
    split at gone
    next here =>
      rcases able.state with rfl | rfl <;> cases gone
    · rwa [if_neg not_isSubchunk_root] at gone

theorem prepareMerge_clean (free : ∀ i < numSubchunks s p, (s.chunk (p.child i)).state = .free) :
    Clean (prepareMerge s p) := by
  obtain ⟨done,root⟩ := prepareMerge_reshaped sound free
  refine clean.reshape (fun x => ?_) root fun r gone => ?_
  · rw [prepareMerge,mapping_modifySuballoc,mapping_modifySuballoc,pinSubchunks_chunk]
    split
    next sub =>
      have state := subchunks_free free sub
      exact (clean.tidy x).recolor (by simp [state]) (by simp [state])
    · exact clean.tidy x
  · rwa [done.state,preparedStates,if_neg not_isSubchunk_root] at gone

theorem freeOrPrepareForMerge_clean
    (state : (s.chunk c).state = .tempPinned ∨ (s.chunk c).state = .allocated)
    (mapped : chunkIsInEviction s c = true → (s.chunk c).state = .allocated)
    (safe : ¬(chunkIsInEviction s c = true ∧ chunkIsLastAllocatedChild s c = true)) :
    Clean (freeOrPrepareForMerge cfg hook s c).1 := by
  have freed : Clean (chunkFreeLocked cfg hook s c) := by
    cases flag : chunkIsInEviction s c with
    | true =>
      exact chunkFreeLocked_clean clean (chunkFreeLocked_evicting sound flag (mapped flag)) (by decide)
    | false => exact chunkFreeLocked_clean clean (chunkFreeLocked_section sound flag state).1 (by decide)
  rcases freeOrPrepareForMerge_cases cfg hook s c with result | ⟨p,i,rfl,last,result⟩
  · rwa [result]
  · have quiet : chunkIsInEviction s (p.child i) = false :=
      Bool.eq_false_iff.mpr fun flag => safe ⟨flag,last⟩
    have done : Section cfg s (chunkFreeLocked cfg hook s (p.child i)) (p.child i) .free :=
      (chunkFreeLocked_section sound quiet state).1
    have free := (last_freed sound done (by rcases state with state | state <;> simp [state])
      (by rcases state with state | state <;> simp [state]) last).2.2
    rw [result]
    exact prepareMerge_clean freed done.sound free

theorem freeAll_clean {indices : List Nat} (distinct : indices.Nodup)
    (quiet : chunkIsInEviction s p = false)
    (pinned : ∀ i ∈ indices, (s.chunk (p.child i)).state = .tempPinned) :
    Clean (indices.foldl (fun s i => chunkFreeLocked cfg hook s (p.child i)) s) := by
  induction indices generalizing s with
  | nil => exact clean
  | cons i rest ih =>
    obtain ⟨absent,distinct⟩ := List.nodup_cons.mp distinct
    have done : Section cfg s (chunkFreeLocked cfg hook s (p.child i)) (p.child i) .free :=
      (chunkFreeLocked_section (c := p.child i) sound quiet (.inl (pinned i (by simp)))).1
    refine ih (chunkFreeLocked_clean clean done (by decide)) done.sound distinct
      ((done.inEviction p.root).trans quiet) fun j member => ?_
    have other : p.child j ≠ p.child i := fun same => absent ((ChunkId.child_inj.mp same).2 ▸ member)
    rw [done.state,if_neg other]
    exact pinned j (by simp [member])

theorem freeSiblings_clean (quiet : chunkIsInEviction s p = false)
    (pinned : ∀ i < numSubchunks s p, (s.chunk (p.child i)).state = .tempPinned) :
    Clean (freeSiblings cfg hook s p) := by
  refine freeAll_clean clean sound List.nodup_range' quiet fun i member => pinned i ?_
  obtain ⟨low,high⟩ := List.mem_range'_1.mp member
  omega

theorem initRootChunk_clean {isZero : Bool} (state : (s.chunk (.ofRoot r)).state = .pmaOwned)
    (initial : q = .tempPinned ∨ q = .free) : Clean (initRootChunk cfg hook s type r q isZero) := by
  refine clean.section (initRootChunk_section sound state initial)
    (by rcases initial with rfl | rfl <;> decide) ⟨fun x other => ?_,fun i other => ?_⟩ ?_
  · rw [initRootChunk,chunkUpdateListsLocked_chunk,mapping_modify,if_neg other]
  · rw [initRootChunk,chunkUpdateListsLocked_other hook _ other]
    rfl
  · rw [initRootChunk,chunkUpdateListsLocked_chunk,mapping_modify,if_pos rfl]
    exact (clean.tidy _).recolor (.inr rfl) (by simp [state])

end

/-- A root without a list state of an eviction goes back to PMA. -/
theorem freeRootChunk_clean (clean : Clean s) (state : (s.chunk (.ofRoot r)).state = .tempPinned)
    (ready : (s.root r).listState ≠ .eviction) : Clean (freeRootChunk s r) := by
  have root : (freeRootChunk s r).root = s.root := chunkUnpin_root s _ _
  refine clean.after (c := .ofRoot r) ⟨fun x other => ?_,fun i _ => by rw [root]⟩ ?_ fun _ => ?_
  · rw [freeRootChunk,mapping_chunkUnpin,if_neg other]
  · rw [freeRootChunk,mapping_chunkUnpin,if_pos rfl]
    exact (clean.tidy _).recolor (.inr rfl) (by simp [state])
  · rw [root]
    exact ready

/-- Pinning a free chunk, after it has left its list. -/
theorem pinListed_clean (list : ListState) (operation : ListOp) (clean : Clean s)
    (done : Section cfg s s' c .tempPinned) (state : (s.chunk c).state = .free)
    (chunk : ∀ x, (s'.chunk x).mapping =
      ((chunkPin (rootListUpdateLocked s c list operation) c).chunk x).mapping)
    (root : s'.root = (chunkPin (rootListUpdateLocked s c list operation) c).root) : Clean s' := by
  refine clean.section done (by decide) ⟨fun x other => ?_,fun i other => ?_⟩ ?_
  · rw [chunk,mapping_chunkPin,if_neg other,rootListUpdateLocked_chunk]
  · rw [root,chunkPin_root,rootListUpdateLocked_other s other]
  · rw [chunk,mapping_chunkPin,if_pos rfl,rootListUpdateLocked_chunk]
    exact (clean.tidy c).recolor (by simp [state]) (by simp [state])

theorem popFreeRootChunk_clean (clean : Clean s) (sound : Sound cfg s)
    (run : popFreeRootChunk cfg s type = some (s',r)) :
    Clean s' ∧ (s'.root r).listState ≠ .eviction := by
  have done := (popFreeRootChunk_section sound run).2.2
  obtain ⟨state,_,rfl⟩ := popFreeRootChunk_eq sound run
  refine ⟨pinListed_clean .none .delInit clean done state (fun _ => rfl) rfl,?_⟩
  rw [chunkPin_root,rootListUpdateLocked_self (sound.shaped.root_isRoot r)]
  decide

theorem pinFreeChunksFunc_clean (clean : Clean s) (sound : Sound cfg s)
    (evicting : chunkIsInEviction s c = true) : Clean (pinFreeChunksFunc s c) := by
  by_cases state : (s.chunk c).state = .free
  · refine pinListed_clean .eviction .delInit clean
      (pinFreeChunksFunc_section sound evicting state) state (fun x => ?_) ?_
    · rw [pinFreeChunksFunc,if_pos state,mapping_modifyParent]
    · rw [pinFreeChunksFunc,if_pos state,modifyParent_frame]
  · rwa [pinFreeChunksFunc,if_neg state]

theorem markChunkEvicted_clean (clean : Clean s) (sound : Sound cfg s)
    (evicting : chunkIsInEviction s c = true) (state : (s.chunk c).state = .allocated) :
    Clean (markChunkEvicted s c) := by
  refine clean.section (markChunkEvicted_section sound evicting state) (by decide)
    ⟨fun x other => ?_,fun i _ => by rw [markChunkEvicted,chunkPin_root]; rfl⟩ ?_
  · rw [markChunkEvicted,mapping_chunkPin,if_neg other,mapping_modify,if_neg other]
  · rw [markChunkEvicted,mapping_chunkPin,if_pos rfl,mapping_modify,if_pos rfl]
    exact tidy_reset

/-- Sections that touch only flags and the list of a root that is in use. -/
theorem Clean.flags (clean : Clean s) (mapping : ∀ x, (s'.chunk x).mapping = (s.chunk x).mapping)
    (used : (s.chunk (.ofRoot r)).state ≠ .pmaOwned)
    (root : ∀ i, i ≠ r → (s'.root i).listState = (s.root i).listState) : Clean s' := by
  refine ⟨fun x => mapping x ▸ clean.tidy x,fun i gone => ?_⟩
  have same : (s'.chunk (.ofRoot i)).state = (s.chunk (.ofRoot i)).state := congrArg Prod.fst (mapping _)
  rw [same] at gone
  by_cases here : i = r
  · exact absurd (here ▸ gone) used
  · rw [root i here]
    exact clean.returned i gone

theorem setFlags_mapping {f : Chunk → Chunk} (same : ∀ chunk, (f chunk).mapping = chunk.mapping)
    (s : State) (c x : ChunkId) : ((s.modify c f).chunk x).mapping = (s.chunk x).mapping := by
  rw [mapping_modify]
  split
  next here => rw [here,same]
  next => rfl

theorem chunkStartEviction_clean (clean : Clean s) (used : (s.chunk (.ofRoot c.root)).state ≠ .pmaOwned) :
    Clean (chunkStartEviction s c) := by
  refine clean.flags (r := c.root) (fun x => ?_) used fun i other => ?_
  · unfold chunkStartEviction setInEviction
    refine (setFlags_mapping ?_ _ _ _).trans (by simp)
    exact fun _ => rfl
  · have same : (rootListUpdateLocked s (rootChunk c) .eviction .delInit).root i = s.root i :=
      rootListUpdateLocked_other s other
    exact congrArg Root.listState same

section

variable (clean : Clean s) (used : (s.chunk (.ofRoot r)).state ≠ .pmaOwned)
include clean used

theorem finishEviction_clean : Clean (finishEviction s r) := by
  refine clean.flags (r := r) (fun x => ?_) used fun i _ => rfl
  refine (setFlags_mapping ?_ _ _ _).trans (setFlags_mapping ?_ _ _ _)
  · exact fun _ => rfl
  · exact fun _ => rfl

theorem abandonEviction_clean : Clean (abandonEviction cfg hook s r) := by
  refine clean.flags (r := r) (fun x => ?_) used fun i other => ?_
  · rw [abandonEviction,chunkUpdateListsLocked_chunk]
    refine setFlags_mapping ?_ _ _ _
    exact fun _ => rfl
  · rw [abandonEviction,chunkUpdateListsLocked_other hook _ other]
    rfl

theorem setKernel_clean :
    Clean (s.modify (.ofRoot r) fun chunk => { chunk with type := .kernel }) := by
  refine clean.flags (r := r) (fun x => setFlags_mapping ?_ s _ x) used fun _ _ => rfl
  exact fun _ => rfl

theorem rootChunkUpdateEvictionList_clean {list : ListId} {state : ListState} {invoke : Bool} :
    Clean (rootChunkUpdateEvictionList hook s (.ofRoot r) list state invoke) := by
  unfold rootChunkUpdateEvictionList
  split
  · have reordered : Reordered s (.ofRoot r)
        (if invoke then bpfCallGpuBlockAccess hook s (.ofRoot r) else (.native,s)).2 := by
      split
      · exact bpfCallGpuBlockAccess_reordered hook
      · exact .same
    generalize (if invoke then bpfCallGpuBlockAccess hook s _ else (.native,s)) = outcome
      at reordered ⊢
    obtain ⟨effect,s₁⟩ := outcome
    have clean₁ : Clean s₁ := clean.flags (r := r) (fun x => by rw [reordered.chunk_eq]) used
      fun i other => by rw [reordered.other other]
    dsimp only
    split
    · refine clean₁.flags (r := r) (fun x => by simp) ?_ fun i other => ?_
      · rwa [reordered.chunk_eq]
      · rw [rootListUpdateLocked_other s₁ other]
    · exact clean₁
  · exact clean

end

end Sections

end GpuExt.Pmm
