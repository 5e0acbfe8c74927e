import GpuExt.PmmLeaf

/-! The sections of an eviction, and the moves of roots between the lists that eviction
picks from. -/
namespace GpuExt.Pmm

open ListHead

variable {cfg : Config} {s s' : State} {c x : ChunkId} {q : ChunkState} {r : RootId} {hook : Hook}

/-! Pins. -/

theorem pinFreeChunksFunc_section (sound : Sound cfg s) (evicting : chunkIsInEviction s c = true)
    (state : (s.chunk c).state = .free) : Section cfg s (pinFreeChunksFunc s c) c .tempPinned := by
  have used : (s.chunk c).state ≠ .pmaOwned := by simp [state]
  have shuffled : Shuffled cfg s (rootListUpdateLocked s c .eviction .delInit) :=
    sound.delInit used (.inr rfl) fun _ _ => rfl
  have state' : ((rootListUpdateLocked s c .eviction .delInit).chunk c).state = .free := by
    rw [shuffled.chunk,state]
  obtain ⟨isRoot,leaf⟩ := shuffled.sound.shaped.leaf_facts (by rw [state']; decide)
    (by rw [state']; decide)
  unfold pinFreeChunksFunc
  rw [if_pos state]
  refine pinListed_section shuffled (offFree_delInit sound.listed)
    (pinFree_recolored isRoot leaf state')
    ((sameLists_chunkPin _ _).trans (sameLists_modifyParent _ _ _)) state ?_ fun top _ => ?_
  · rw [rootListUpdateLocked_listState (sound.shaped.isRoot_iff fun _ => used)]
    split
    · simp
    · exact sound.evicting_idle evicting
  · have user := (sound.evicting c.root evicting).1
    rw [← ChunkId.eq_ofRoot top] at user
    rw [modifyParent_self,chunkPin_chunk isRoot,if_pos rfl,shuffled.chunk]
    exact user

theorem markChunkEvicted_section (sound : Sound cfg s) (evicting : chunkIsInEviction s c = true)
    (state : (s.chunk c).state = .allocated) : Section cfg s (markChunkEvicted s c) c .tempPinned :=
  evictLeaf_section (.of fun _ => rfl) sound evicting state

/-! Flags of a root. -/

/-- A root's record without the two flags that eviction writes. -/
structure FlagsOnly (f : Chunk → Chunk) : Prop where
  state : ∀ x, (f x).state = x.state
  size : ∀ x, (f x).log2Size = x.log2Size
  address : ∀ x, (f x).address = x.address
  type : ∀ x, (f x).type = x.type
  suballoc : ∀ x, (f x).suballoc = x.suballoc

section Flags

variable {f : Chunk → Chunk} (flags : FlagsOnly f)

include flags

theorem FlagsOnly.fields (x : ChunkId) :
    ((s.modify c f).chunk x).state = (s.chunk x).state ∧
      ((s.modify c f).chunk x).log2Size = (s.chunk x).log2Size ∧
      ((s.modify c f).chunk x).address = (s.chunk x).address ∧
      ((s.modify c f).chunk x).type = (s.chunk x).type ∧
      ((s.modify c f).chunk x).suballoc = (s.chunk x).suballoc := by
  rw [modify_chunk]
  split
  next here =>
    subst here
    exact ⟨flags.state _,flags.size _,flags.address _,flags.type _,flags.suballoc _⟩
  next => exact ⟨rfl,rfl,rfl,rfl,rfl⟩

theorem FlagsOnly.shaped (shaped : Shaped cfg s) : Shaped cfg (s.modify (.ofRoot r) f) := by
  have fields := flags.fields (s := s) (c := .ofRoot r)
  have child (x : ChunkId) (i : Nat) :
      (s.modify (.ofRoot r) f).chunk (x.child i) = s.chunk (x.child i) := by
    rw [modify_chunk,if_neg]
    intro same
    cases same
  refine ⟨fun i => ?_,fun x i leaf => ?_,fun x split => ?_,fun x => ?_,fun i => ?_⟩
  · rw [(fields _).2.1,(fields _).2.2.1]
    exact shaped.root i
  · rw [(fields x).1] at leaf
    rw [child]
    exact shaped.leaf x i leaf
  · rw [(fields x).1] at split
    obtain ⟨k,size,fits⟩ := shaped.split x split
    rw [(fields x).2.1,(fields x).2.2.2.1]
    refine ⟨k,size,fun i => ⟨fun bound => ?_,fun above => ?_⟩⟩
    · have inner := (fits i).1 bound
      rw [child]
      refine ⟨inner.exist,inner.size,?_,?_⟩
      · rw [inner.address,(fields x).2.2.1]
      · rw [inner.type,(fields x).2.2.2.1]
    · rw [child]
      exact (fits i).2 above
  · rw [(fields x).1,(fields x).2.2.2.2]
    exact shaped.suballoc x
  · apply (shaped.finite i).subset
    rintro x ⟨sameRoot,used⟩
    rw [(fields x).1] at used
    exact ⟨sameRoot,used⟩

theorem FlagsOnly.counted (counted : Counted s) : Counted (s.modify (.ofRoot r) f) := by
  have fields := flags.fields (s := s) (c := .ofRoot r)
  constructor
  · intro x a found
    rw [(fields x).2.2.2.2] at found
    rw [counted.allocated x a found]
    simp only [busySubchunks,numSubchunks,(fields _).1,(fields _).2.1]
  · intro i a found
    rw [(fields _).2.2.2.2] at found
    rw [counted.pinned i a found]
    simp only [pinnedLeaves,(fields _).1]

theorem FlagsOnly.listed (listed : Listed cfg s ∅)
    (zero : OffFree s (.ofRoot r) ∨ ∀ x, (f x).isZero = x.isZero) :
    Listed cfg (s.modify (.ofRoot r) f) ∅ := by
  obtain ⟨lists,valid⟩ := listed
  have fields := flags.fields (s := s) (c := .ofRoot r)
  refine ⟨lists,valid.stay rfl rfl fun x type idx zeroed member =>
    ⟨(fields x).2.2.2.1,(fields x).2.1,?_,(fields x).1⟩⟩
  rw [modify_chunk]
  split
  next here =>
    subst here
    rcases zero with off | same
    · exact absurd member (off lists valid.rep type idx zeroed)
    · exact same _
  next => rfl

end Flags

/-- Nothing but lists and the eviction flag of `r`, which is `b` now, has changed. -/
structure Flagged (cfg : Config) (s s' : State) (r : RootId) (b : Bool) : Prop where
  sound : Sound cfg s'
  state : ∀ x, (s'.chunk x).state = (s.chunk x).state
  flag : (s'.chunk (.ofRoot r)).inEviction = b
  inEviction : ∀ i, i ≠ r → (s'.chunk (.ofRoot i)).inEviction = (s.chunk (.ofRoot i)).inEviction
  quiet : ∀ i, Quiet s i → Quiet s' i

theorem Quiet.congr (quiet : Quiet s r) (listState : (s'.root r).listState = (s.root r).listState)
    (state : ∀ x, (s'.chunk x).state = (s.chunk x).state) : Quiet s' r := by
  intro inUse
  rw [listState] at inUse
  have empty := quiet inUse
  unfold pinnedLeaves at empty ⊢
  simpa only [state] using empty

theorem setFlags_flagged {f : Chunk → Chunk} {b : Bool} (flags : FlagsOnly f)
    (sound : Sound cfg s) (zero : OffFree s (.ofRoot r) ∨ ∀ x, (f x).isZero = x.isZero)
    (flag : ∀ x, (f x).inEviction = b)
    (evicting : b = true → (s.chunk (.ofRoot r)).type = .user ∧
      (s.chunk (.ofRoot r)).state ≠ .pmaOwned ∧ (s.root r).listState = .eviction) :
    Flagged cfg s (s.modify (.ofRoot r) f) r b := by
  have fields := flags.fields (s := s) (c := .ofRoot r)
  have other (i : RootId) (apart : i ≠ r) :
      (s.modify (.ofRoot r) f).chunk (.ofRoot i) = s.chunk (.ofRoot i) := by
    rw [modify_chunk,if_neg]
    intro same
    cases same
    exact apart rfl
  refine ⟨⟨flags.shaped sound.shaped,flags.counted sound.counted,flags.listed sound.listed zero,
    sound.logged.frame rfl rfl,?_,?_⟩,fun x => (fields x).1,?_,fun i apart => by rw [other i apart],
    fun i quiet => quiet.congr rfl fun x => (fields x).1⟩
  · intro i inUse
    rw [(fields _).1,(fields _).2.2.2.1]
    exact sound.placed i inUse
  · intro i inEviction
    rw [(fields _).1,(fields _).2.2.2.1]
    by_cases here : i = r
    · subst here
      rw [modify_chunk,if_pos rfl,flag] at inEviction
      exact evicting inEviction
    · rw [other i here] at inEviction
      exact sound.evicting i inEviction
  · rw [modify_chunk,if_pos rfl,flag]

section

variable (sound : Sound cfg s)
include sound

theorem Sound.unpinned (notPinned : chunkIsRootChunkPinned s c = false) :
    pinnedLeaves s c.root = ∅ := by
  rwa [← Bool.not_eq_true,chunkIsRootChunkPinned_iff sound.shaped sound.counted,not_not] at notPinned

theorem chunkStartEviction_flagged (used : (s.chunk (.ofRoot r)).state ≠ .pmaOwned)
    (user : (s.chunk (.ofRoot r)).type = .user) :
    Flagged cfg s (chunkStartEviction s (.ofRoot r)) r true := by
  have shuffled : Shuffled cfg s (rootListUpdateLocked s (.ofRoot r) .eviction .delInit) :=
    sound.delInit used (.inr rfl) fun _ _ => rfl
  have listState : ((rootListUpdateLocked s (.ofRoot r) .eviction .delInit).root r).listState =
      .eviction := rootListUpdateLocked_self (sound.shaped.root_isRoot r)
  have flags : FlagsOnly fun chunk => { chunk with inEviction := true } :=
    ⟨fun _ => rfl,fun _ => rfl,fun _ => rfl,fun _ => rfl,fun _ => rfl⟩
  have flagged : Flagged cfg (rootListUpdateLocked s (.ofRoot r) .eviction .delInit)
      (chunkStartEviction s (.ofRoot r)) r true :=
    setFlags_flagged flags shuffled.sound (.inr fun _ => rfl) (fun _ => rfl) fun _ => by
        rw [shuffled.chunk]
        exact ⟨user,used,listState⟩
  refine ⟨flagged.sound,fun x => ?_,flagged.flag,fun i other => ?_,
    fun i quiet => flagged.quiet i (shuffled.quiet i quiet)⟩
  · rw [flagged.state,shuffled.chunk]
  · rw [flagged.inEviction i other,shuffled.chunk]

theorem Sound.first_inUse {list : ListId} (either : list = .vaBlockUsed ∨ list = .vaBlockUnused)
    (first : listFirstChunk s list = some c) :
    c = .ofRoot c.root ∧ (s.root c.root).listState.InUse := by
  obtain ⟨lists,valid⟩ := sound.listed
  have member := listFirstChunk_mem valid.rep first
  by_cases top : c.path = []
  · have atRoot := ChunkId.eq_ofRoot top
    refine ⟨atRoot,?_⟩
    rw [atRoot,valid.root] at member
    revert member
    rcases either with rfl | rfl <;>
      cases (s.root c.root).listState <;>
        simp [findFreeListChunk,findFreeList]
  · have home := valid.sub c list top member
    rcases either with rfl | rfl <;> cases home

/-- A picked root is user memory without pinned chunks. -/
theorem pickRootChunkToEvict_flagged (run : pickRootChunkToEvict cfg s = some (s',r)) :
    Flagged cfg s s' r true ∧ (s.chunk (.ofRoot r)).inEviction = false ∧
      (Quiet s r → pinnedLeaves s r = ∅) := by
  obtain ⟨c,first,result⟩ := Option.bind_eq_some_iff.mp run
  cases result
  have picked : c = .ofRoot c.root ∧ ((s.root c.root).listState.InUse ∨
      (s.chunk c).state = .free ∧ (s.root c.root).listState = .free ∧ (s.chunk c).type = .user) := by
    simp only [Option.orElse_eq_or,Option.or_eq_some_iff] at first
    rcases first with listed | ⟨-,listed | ⟨-,listed | ⟨-,listed⟩⟩⟩
    · exact (sound.first_root listed).imp_right .inr
    · exact (sound.first_root listed).imp_right .inr
    · exact (sound.first_inUse (.inr rfl) listed).imp_right .inl
    · exact (sound.first_inUse (.inl rfl) listed).imp_right .inl
  obtain ⟨atRoot,picked⟩ := picked
  have facts : (s.chunk (.ofRoot c.root)).type = .user ∧
      (s.chunk (.ofRoot c.root)).state ≠ .pmaOwned ∧ (s.root c.root).listState ≠ .eviction ∧
      (Quiet s c.root → pinnedLeaves s c.root = ∅) := by
    rcases picked with inUse | ⟨state,listState,user⟩
    · have placed := sound.placed c.root inUse
      refine ⟨placed.1,placed.2.2,?_,fun quiet => quiet inUse⟩
      rcases inUse with state | state <;> simp [state]
    · rw [atRoot] at state user
      exact ⟨user,by simp [state],by simp [listState],
        fun _ => sound.shaped.pinned_empty (by simp [state]) (by simp [state])⟩
  obtain ⟨user,used,notEvicting,quiet⟩ := facts
  refine ⟨?_,?_,quiet⟩
  · exact chunkStartEviction_flagged sound used user
  · by_contra evicting
    exact notEvicting (sound.evicting c.root (by simpa using evicting)).2.2

theorem startRangeEviction_flagged (user : (s.chunk (.ofRoot r)).type = .user)
    (run : startRangeEviction s r = some s') :
    Flagged cfg s s' r true ∧ (s.chunk (.ofRoot r)).inEviction = false ∧ pinnedLeaves s r = ∅ := by
  unfold startRangeEviction at run
  split at run
  next evictable =>
    cases run
    obtain ⟨used,evictable⟩ := evictable
    simp only [chunkIsEvictable,Bool.and_eq_true,Bool.not_eq_true'] at evictable
    obtain ⟨⟨_,notPinned⟩,quiet⟩ := evictable
    exact ⟨chunkStartEviction_flagged sound used user,quiet,sound.unpinned notPinned⟩
  next => cases run

theorem finishEviction_flagged (state : (s.chunk (.ofRoot r)).state = .tempPinned) :
    Flagged cfg s (finishEviction s r) r false := by
  have merged : finishEviction s r =
      s.modify (.ofRoot r) fun chunk => { chunk with inEviction := false, isZero := false } := by
    simp [finishEviction,setInEviction,State.modify]
  rw [merged]
  exact setFlags_flagged ⟨fun _ => rfl,fun _ => rfl,fun _ => rfl,fun _ => rfl,fun _ => rfl⟩ sound
    (.inl (sound.listed.offFree (by simp [state]))) (fun _ => rfl) (by simp)

theorem abandonEviction_flagged (evicting : (s.chunk (.ofRoot r)).inEviction = true) :
    Flagged cfg s (abandonEviction cfg hook s r) r false ∧
      Quiet (abandonEviction cfg hook s r) r := by
  obtain ⟨_,used,listState⟩ := sound.evicting r evicting
  have flagged : Flagged cfg s (setInEviction s (.ofRoot r) false) r false :=
    setFlags_flagged ⟨fun _ => rfl,fun _ => rfl,fun _ => rfl,fun _ => rfl,fun _ => rfl⟩ sound
      (.inr fun _ => rfl) (fun _ => rfl) (by simp)
  have sound' := flagged.sound
  have pending : Pending cfg (setInEviction s (.ofRoot r) false) (.ofRoot r) := by
    refine ⟨sound'.shaped,sound'.counted,sound'.logged,?_,⟨∅,sound'.listed,fun _ none => none.elim⟩,
      fun i _ => sound'.placed i,fun inUse => ?_,sound'.evicting,flagged.flag⟩
    · rw [flagged.state]
      exact used
    · have idle : (s.root r).listState.InUse := inUse
      rw [listState] at idle
      simp at idle
  obtain ⟨sound'',relisted,settled⟩ := chunkUpdateListsLocked_sound hook pending
  refine ⟨⟨sound'',fun x => ?_,?_,fun i other => ?_,fun i quiet => ?_⟩,settled⟩
  · rw [← flagged.state x,← relisted.chunk]
    rfl
  · rw [← flagged.flag,← relisted.chunk]
    rfl
  · rw [← flagged.inEviction i other,← relisted.chunk]
    rfl
  · by_cases here : i = r
    · exact here ▸ settled
    · exact (flagged.quiet i quiet).congr (relisted.listState i here) fun x =>
        congrArg (fun chunk => (chunk x).state) relisted.chunk

end

/-! Moves between the lists of roots that can be evicted. -/

theorem Reordered.shuffled (reordered : Reordered s (.ofRoot r) s') (sound : Sound cfg s) :
    Shuffled cfg s s' := by
  have isRoot := sound.shaped.root_isRoot r
  have relisted := reordered.relisted isRoot
  have inUse (i : RootId) : (s'.root i).listState.InUse ↔ (s.root i).listState.InUse := by
    by_cases here : i = r
    · exact here ▸ reordered.inUse isRoot
    · rw [relisted.listState i here]
  refine ⟨⟨sound.shaped.congr relisted.chunk,sound.counted.congr relisted.chunk,
    reordered.listed isRoot sound.listed,reordered.logged sound.logged,fun i after => ?_,
    fun i evicting => ?_⟩,relisted.chunk,fun i quiet after => ?_⟩
  · rw [relisted.chunk]
    exact sound.placed i ((inUse i).mp after)
  · rw [relisted.chunk] at evicting ⊢
    obtain ⟨user,used,listState⟩ := sound.evicting i evicting
    refine ⟨user,used,?_⟩
    by_cases here : i = r
    · subst here
      cases reordered with
      | same => exact listState
      | moved _ _ _ _ before =>
        have before : (s.root i).listState.InUse := before
        rw [listState] at before
        simp at before
    · rw [relisted.listState i here,listState]
  · have empty := quiet ((inUse i).mp after)
    unfold pinnedLeaves at empty ⊢
    rwa [relisted.chunk]

/-- An unpinned user root goes to the list of used or unused roots. -/
theorem Sound.moveRoot {p : ListState} {list : ListId} {operation : ListOp} (sound : Sound cfg s)
    (named : p = .vaBlockUsed ∧ list = .vaBlockUsed ∨ p = .vaBlockUnused ∧ list = .vaBlockUnused)
    (moves : operation = .moveHead list ∨ operation = .moveTail list)
    (user : (s.chunk (.ofRoot r)).type = .user) (busy : (s.chunk (.ofRoot r)).state ≠ .free)
    (used : (s.chunk (.ofRoot r)).state ≠ .pmaOwned)
    (quiet : (s.chunk (.ofRoot r)).inEviction = false) (empty : pinnedLeaves s r = ∅) :
    Shuffled cfg s (rootListUpdateLocked s (.ofRoot r) p operation) := by
  have isRoot := sound.shaped.root_isRoot r
  have relisted : Relisted s (rootListUpdateLocked s (.ofRoot r) p operation) r :=
    rootListUpdateLocked_relisted (iff_of_true isRoot rfl)
  refine ⟨⟨sound.shaped.congr relisted.chunk,sound.counted.congr relisted.chunk,
    sound.listed.moveRoot isRoot named moves fun _ none => none.elim,sound.logged.update,
    fun i after => ?_,fun i evicting => ?_⟩,relisted.chunk,fun i before after => ?_⟩
  · rw [relisted.chunk]
    by_cases here : i = r
    · exact here ▸ ⟨user,busy,used⟩
    · rw [relisted.listState i here] at after
      exact sound.placed i after
  · rw [relisted.chunk] at evicting ⊢
    have here : i ≠ r := by
      rintro rfl
      rw [evicting] at quiet
      cases quiet
    rw [relisted.listState i here]
    exact sound.evicting i evicting
  · unfold pinnedLeaves at empty ⊢
    rw [relisted.chunk]
    by_cases here : i = r
    · exact here ▸ empty
    · rw [relisted.listState i here] at after
      exact before after

theorem rootChunkUpdateEvictionList_shuffled {list : ListId} {p : ListState} {invoke : Bool}
    (sound : Sound cfg s)
    (named : p = .vaBlockUsed ∧ list = .vaBlockUsed ∨ p = .vaBlockUnused ∧ list = .vaBlockUnused)
    (user : (s.chunk (.ofRoot r)).type = .user) (busy : (s.chunk (.ofRoot r)).state ≠ .free)
    (used : (s.chunk (.ofRoot r)).state ≠ .pmaOwned) :
    Shuffled cfg s (rootChunkUpdateEvictionList hook s (.ofRoot r) list p invoke) := by
  unfold rootChunkUpdateEvictionList
  split
  next evictable =>
    simp only [Bool.and_eq_true,Bool.not_eq_true'] at evictable
    obtain ⟨notPinned,quiet⟩ := evictable
    have empty : pinnedLeaves s r = ∅ := sound.unpinned notPinned
    have first : Shuffled cfg s
        (if invoke then bpfCallGpuBlockAccess hook s (.ofRoot r) else (.native,s)).2 := by
      cases invoke with
      | true => exact (bpfCallGpuBlockAccess_reordered hook).shuffled sound
      | false => exact .refl sound
    generalize (if invoke then bpfCallGpuBlockAccess hook s _ else (.native,s)) = result at first ⊢
    dsimp only at first ⊢
    split
    · refine first.trans (first.sound.moveRoot named (.inr rfl) ?_ ?_ ?_ ?_ ?_)
      · rw [first.chunk,user]
      · rw [first.chunk]
        exact busy
      · rw [first.chunk]
        exact used
      · rw [first.chunk]
        exact quiet
      · unfold pinnedLeaves at empty ⊢
        rwa [first.chunk]
    · exact first
  next => exact .refl sound

/-- A pinned root changes hands as kernel memory. -/
theorem setKernel_section (sound : Sound cfg s)
    (state : (s.chunk (.ofRoot r)).state = .tempPinned)
    (quiet : (s.chunk (.ofRoot r)).inEviction = false) (idle : ¬(s.root r).listState.InUse) :
    Section cfg s (s.modify (.ofRoot r) fun chunk => { chunk with type := .kernel }) (.ofRoot r)
      .tempPinned := by
  obtain ⟨_,leaf⟩ := sound.shaped.leaf_facts (c := .ofRoot r) (by simp [state]) (by simp [state])
  have recolored : Recolored s
      (s.modify (.ofRoot r) fun chunk => { chunk with type := .kernel }) _ .tempPinned :=
    root_recolored leaf state (fun _ => rfl) (fun _ => rfl) (fun _ => rfl) fun _ => rfl
  refine recolored.unlisted sound ⟨by simp [state],by simp,fun sub => absurd rfl sub⟩
    (sameLists_modify _ _ _) (sound.listed.offFree (by simp [state])) idle fun _ evicting => ?_
  rw [evicting] at quiet
  cases quiet

end GpuExt.Pmm
