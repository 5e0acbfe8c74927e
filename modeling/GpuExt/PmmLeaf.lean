import GpuExt.PmmSections

/-! The sections that change the state of one leaf: claim, unpin, free, init and return of
a root, and the pins of an eviction. -/
namespace GpuExt.Pmm

open ListHead

variable {cfg : Config} {s s' : State} {c x : ChunkId} {q : ChunkState} {r : RootId} {hook : Hook}

/-! Frames. -/

theorem SameLists.refl (s : State) : SameLists s s := ⟨rfl,rfl,rfl⟩

variable {s'' : State} {p : ListState} {operation : ListOp} {elevated : RootId → Bool}
  {entries : List ChunkId} {found : Option ChunkId} {type : MemoryType} {size : Nat} {zero : Bool}
  {f : Chunk → Chunk}

theorem SameLists.trans (first : SameLists s s') (second : SameLists s' s'') : SameLists s s'' :=
  ⟨second.links.trans first.links,second.root.trans first.root,second.updates.trans first.updates⟩

section

variable (s) (c)

theorem sameLists_modify (f : Chunk → Chunk) : SameLists s (s.modify c f) := ⟨rfl,rfl,rfl⟩

theorem sameLists_modifyParent (f : Suballoc → Suballoc) : SameLists s (s.modifyParent c f) := by
  unfold State.modifyParent
  split
  · exact .refl s
  · exact sameLists_modify s _ _

theorem sameLists_chunkPin : SameLists s (chunkPin s c) := by
  unfold chunkPin
  dsimp only
  split <;> exact ⟨rfl,rfl,rfl⟩

theorem sameLists_chunkUnpin (q : ChunkState) : SameLists s (chunkUnpin s c q) := by
  unfold chunkUnpin
  dsimp only
  split <;> exact ⟨rfl,rfl,rfl⟩

@[simp] theorem modifyParent_self (f : Suballoc → Suballoc) :
    (s.modifyParent c f).chunk c = s.chunk c := by
  rw [modifyParent_chunk,if_neg c.parent_ne,Chunk.count_id]

end

/-- A used leaf, as the lemmas about single sections need it. -/
theorem Shaped.leaf_facts (shaped : Shaped cfg s) (used : (s.chunk c).state ≠ .pmaOwned)
    (leaf : (s.chunk c).state ≠ .isSplit) :
    (chunkIsRootChunk s c = true ↔ c.path = []) ∧ (s.chunk c).suballoc = none := by
  refine ⟨shaped.isRoot_iff fun _ => used,?_⟩
  rw [← Option.not_isSome_iff_eq_none,shaped.suballoc]
  exact leaf

/-! Claiming. -/

/-- Only the lists have changed, and they are still in order. -/
structure Shuffled (cfg : Config) (s s' : State) : Prop where
  sound : Sound cfg s'
  chunk : s'.chunk = s.chunk
  quiet : ∀ r, Quiet s r → Quiet s' r

theorem Shuffled.refl (sound : Sound cfg s) : Shuffled cfg s s := ⟨sound,rfl,fun _ => id⟩

theorem Shuffled.trans (first : Shuffled cfg s s') (second : Shuffled cfg s' s'') :
    Shuffled cfg s s'' :=
  ⟨second.sound,second.chunk.trans first.chunk,fun r quiet => second.quiet r (first.quiet r quiet)⟩

section

variable (sound : Sound cfg s) (used : (s.chunk c).state ≠ .pmaOwned)
  (none : p = .none ∨ p = .eviction)
include sound used none

/-- A chunk leaves its list, or its unused links are initialised again. -/
theorem unlist_shuffled (listed : Listed cfg (rootListUpdateLocked s c p operation) ∅)
    (evicting : c.path = [] → (s.chunk c).inEviction = true → p = .eviction) :
    Shuffled cfg s (rootListUpdateLocked s c p operation) := by
  have chunk := rootListUpdateLocked_chunk s c p operation
  have listState (r : RootId) : ((rootListUpdateLocked s c p operation).root r).listState =
      if .ofRoot r = c then p else (s.root r).listState :=
    rootListUpdateLocked_listState (sound.shaped.isRoot_iff fun _ => used) r
  have stays (r : RootId)
      (inUse : ((rootListUpdateLocked s c p operation).root r).listState.InUse) :
      (s.root r).listState.InUse := by
    rw [listState] at inUse
    split at inUse
    · rcases none with rfl | rfl <;> simp at inUse
    · exact inUse
  refine ⟨⟨sound.shaped.congr chunk,sound.counted.congr chunk,listed,sound.logged.update,?_,?_⟩,
    chunk,?_⟩
  · intro r inUse
    rw [chunk]
    exact sound.placed r (stays r inUse)
  · intro r inEviction
    rw [chunk] at inEviction ⊢
    obtain ⟨user,notPma,state⟩ := sound.evicting r inEviction
    refine ⟨user,notPma,?_⟩
    rw [listState]
    split
    next here =>
      subst here
      exact evicting rfl inEviction
    next => exact state
  · intro r quiet inUse
    have empty := quiet (stays r inUse)
    unfold pinnedLeaves at empty ⊢
    rwa [chunk]

theorem Sound.delInit (evicting : c.path = [] → (s.chunk c).inEviction = true → p = .eviction) :
    Shuffled cfg s (rootListUpdateLocked s c p .delInit) :=
  unlist_shuffled sound used none (sound.listed.delInit (sound.shaped.isRoot_iff fun _ => used) none
    fun _ none => none.elim) evicting

end

section

variable (sound : Sound cfg s)
include sound

theorem findFreeChunkLocked_spec (free : ∀ c ∈ entries, (s.chunk c).state = .free)
    (run : findFreeChunkLocked elevated s entries = (s',found)) :
    Shuffled cfg s s' ∧ ∀ c, found = some c → c ∈ entries ∧ chunkIsInEviction s c = false := by
  induction entries generalizing s with
  | nil =>
    cases run
    exact ⟨.refl sound,fun c absent => by cases absent⟩
  | cons c rest ih =>
    unfold findFreeChunkLocked at run
    split at run
    next =>
      have dropped : Shuffled cfg s (rootListUpdateLocked s c .eviction .delInit) :=
        sound.delInit (by simp [free c]) (.inr rfl) fun _ _ => rfl
      have tail := ih dropped.sound
        (fun x member => by rw [dropped.chunk]; exact free x (by simp [member])) run
      refine ⟨dropped.trans tail.1,fun x here => ?_⟩
      obtain ⟨member,quiet⟩ := tail.2 x here
      refine ⟨by simp [member],?_⟩
      unfold chunkIsInEviction at quiet ⊢
      rwa [dropped.chunk] at quiet
    next quiet =>
      split at run
      next =>
        obtain ⟨shuffled,claims⟩ := ih sound (fun x member => free x (by simp [member])) run
        exact ⟨shuffled,fun x here => ⟨by simp [(claims x here).1],(claims x here).2⟩⟩
      next =>
        cases run
        refine ⟨.refl sound,fun x here => ?_⟩
        cases here
        exact ⟨by simp,by simpa using quiet⟩

theorem Sound.entries_free {fuel : Nat} (found : ListHead.entries s.links (findFreeList cfg type size zero) fuel = some entries) :
    ∀ c ∈ entries, (s.chunk c).state = .free := by
  obtain ⟨lists,valid⟩ := sound.listed
  intro c member
  rw [valid.rep.entries found] at member
  exact (valid.free c _ _ _ member).resolve_left id

theorem findFreeChunk_spec {fuel : Nat} (run : findFreeChunk cfg elevated fuel s type size = some (s',found)) :
    Shuffled cfg s s' ∧ ∀ c, found = some c →
      (s.chunk c).state = .free ∧ chunkIsInEviction s c = false := by
  obtain ⟨zeroed,first,run⟩ := Option.bind_eq_some_iff.mp run
  have free := sound.entries_free first
  split at run
  next s₁ c result =>
    cases run
    obtain ⟨shuffled,claims⟩ := findFreeChunkLocked_spec sound free result
    exact ⟨shuffled,fun x here => ⟨free x (claims x here).1,(claims x here).2⟩⟩
  next s₁ result =>
    obtain ⟨others,second,run⟩ := Option.map_eq_some_iff.mp run
    obtain ⟨shuffled,_⟩ := findFreeChunkLocked_spec sound free result
    have free' := shuffled.sound.entries_free second
    obtain ⟨shuffled',claims⟩ := findFreeChunkLocked_spec shuffled.sound free' run
    refine ⟨shuffled.trans shuffled',fun x here => ?_⟩
    obtain ⟨member,quiet⟩ := claims x here
    unfold chunkIsInEviction at quiet ⊢
    rw [shuffled.chunk] at quiet free'
    exact ⟨free' x member,quiet⟩

theorem claimChunk_section (state : (s.chunk c).state = .free)
    (quiet : chunkIsInEviction s c = false) :
    Section cfg s (claimChunk cfg hook s c) c .tempPinned ∧
      Quiet (claimChunk cfg hook s c) c.root := by
  have used : (s.chunk c).state ≠ .pmaOwned := by simp [state]
  obtain ⟨isRoot,leaf⟩ := sound.shaped.leaf_facts used (by simp [state])
  have chunk := chunkPin_chunk
    (modifyParent_root isRoot fun a => { a with allocated := a.allocated + 1 }) c
  rw [if_pos rfl,modifyParent_self] at chunk
  refine (claim_recolored isRoot leaf state).listed sound
    ⟨by simp [state],by simp,fun _ => ⟨used,by simp⟩⟩
    ((sameLists_modifyParent s c _).trans (sameLists_chunkPin _ c)) (by simp) (.inr ⟨rfl,?_,?_⟩)
    (.inr ?_) quiet hook
  iterate 3 rw [chunk]

omit sound in
theorem Shuffled.section (shuffled : Shuffled cfg s s') (next : Section cfg s' s'' c q) :
    Section cfg s s'' c q :=
  ⟨next.sound,fun x => by rw [next.state,shuffled.chunk],fun r => by rw [next.inEviction,shuffled.chunk],
    fun r quiet => next.quiet r (shuffled.quiet r quiet)⟩

theorem claimFreeChunk_spec {fuel : Nat} (run : claimFreeChunk cfg hook elevated fuel s type size = some (s',found)) :
    (found = none ∧ Shuffled cfg s s') ∨ ∃ c, found = some c ∧ (s.chunk c).state = .free ∧
      chunkIsInEviction s c = false ∧ Section cfg s s' c .tempPinned := by
  obtain ⟨⟨s₁,choice⟩,search,result⟩ := Option.map_eq_some_iff.mp run
  obtain ⟨shuffled,claims⟩ := findFreeChunk_spec sound search
  cases choice with
  | none =>
    cases result
    exact .inl ⟨rfl,shuffled⟩
  | some c =>
    cases result
    obtain ⟨state,quiet⟩ := claims c rfl
    refine .inr ⟨c,rfl,state,quiet,shuffled.section (claimChunk_section shuffled.sound ?_ ?_).1⟩
    · rw [shuffled.chunk,state]
    · unfold chunkIsInEviction
      rwa [shuffled.chunk]

end

/-! Unpinning. -/

theorem rootListUpdateLocked_modify (size : ∀ x, (f x).log2Size = x.log2Size) :
    rootListUpdateLocked (s.modify c f) c p operation =
      (rootListUpdateLocked s c p operation).modify c f := by
  have left : chunkIsRootChunk
      { s.modify c f with links := linkUpdate (s.modify c f).links c operation } c =
        chunkIsRootChunk s c := by
    simp [chunkIsRootChunk,size]
  have right : chunkIsRootChunk { s with links := linkUpdate s.links c operation } c =
      chunkIsRootChunk s c := rfl
  unfold rootListUpdateLocked
  dsimp only
  rw [left,right]
  split <;> rfl

section

variable (sound : Sound cfg s) (pinned : (s.chunk c).state = .tempPinned)
  (quiet : chunkIsInEviction s c = false) (idle : c.path = [] → ¬(s.root c.root).listState.InUse)
include sound pinned quiet idle

/-- A pinned chunk is on no list; initialising its links again changes nothing. -/
theorem Sound.init : Shuffled cfg s (rootListUpdateLocked s c .none .init) := by
  have used : (s.chunk c).state ≠ .pmaOwned := by simp [pinned]
  have isRoot := sound.shaped.isRoot_iff fun _ => used
  have off := sound.listed.offFree (c := c) (by simp [pinned])
  refine unlist_shuffled sound used (.inl rfl) ?_ fun top evicting => ?_
  · obtain ⟨lists,valid⟩ := sound.listed
    refine valid.update isRoot (fun _ list member => ?_) ⟨fun _ => rfl,?_,?_,by simp⟩
      fun _ none => none.elim
    · by_cases top : c.path = []
      · rw [ChunkId.eq_ofRoot top] at off member
        have notFree := valid.not_free off
        have notLazy := valid.lazy c.root
        have notInUse := idle top
        rw [valid.root] at member
        revert member notFree notLazy notInUse
        cases (s.root c.root).listState <;> simp
      · exact valid.unlisted_sub off top list member
    · simp
    · simp
  · unfold chunkIsInEviction at quiet
    rw [rootChunk,← ChunkId.eq_ofRoot top,evicting] at quiet
    cases quiet

theorem gpuUnpinTemp_section {vaBlock : VaBlock} {pageIndex : Nat} {isReferenced : Bool} :
    Section cfg s (gpuUnpinTemp cfg hook s c vaBlock pageIndex isReferenced) c .allocated := by
  have first := sound.init pinned quiet idle
  have pageIndexPayload : Payload fun chunk => { chunk with vaBlockPageIndex := pageIndex } :=
    .of fun _ => rfl
  have mappingPayload : Payload fun chunk => { chunk with isReferenced, vaBlock := some vaBlock } :=
    .of fun _ => rfl
  unfold gpuUnpinTemp
  dsimp only
  rw [rootListUpdateLocked_modify pageIndexPayload.size]
  refine first.section ?_
  have pinned' : ((rootListUpdateLocked s c .none .init).chunk c).state = .tempPinned := by
    rw [first.chunk,pinned]
  have used' : ((rootListUpdateLocked s c .none .init).chunk c).state ≠ .pmaOwned := by
    rw [pinned']
    decide
  have sound' := first.sound
  have quiet' : ((rootListUpdateLocked s c .none .init).chunk (rootChunk c)).inEviction = false := by
    rw [first.chunk]
    exact quiet
  generalize rootListUpdateLocked s c .none .init = s₁ at *
  obtain ⟨isRoot,leaf⟩ := sound'.shaped.leaf_facts used' (by simp [pinned'])
  have isRoot' : chunkIsRootChunk
      (s₁.modify c fun chunk => { chunk with vaBlockPageIndex := pageIndex }) c = true ↔
        c.path = [] := by
    rw [← isRoot]
    simp [chunkIsRootChunk]
  have recolored := ((chunkUnpin_recolored (q := .allocated) isRoot' (by simpa using leaf)
    (by simpa using pinned') (.inl rfl)).before pageIndexPayload).after mappingPayload
  refine (recolored.listed sound' ⟨by simp [pinned'],by simp,fun _ => ⟨used',by simp⟩⟩
    (((sameLists_modify _ _ _).trans (sameLists_chunkUnpin _ _ _)).trans (sameLists_modify _ _ _))
    (by simp) (.inl (sound'.listed.offFree (by simp [pinned']))) (.inr ?_) quiet' hook).1
  simp [chunkUnpin_chunk isRoot']

end

section

variable (sound : Sound cfg s)
include sound

theorem unpinKernel_section (pinned : (s.chunk c).state = .tempPinned)
    (kernel : (s.chunk c).type = .kernel) (quiet : chunkIsInEviction s c = false) :
    Section cfg s (unpinKernel s c) c .allocated := by
  have used : (s.chunk c).state ≠ .pmaOwned := by simp [pinned]
  obtain ⟨isRoot,leaf⟩ := sound.shaped.leaf_facts used (by simp [pinned])
  have payload : Payload fun chunk => { chunk with isReferenced := false } := .of fun _ => rfl
  refine ((chunkUnpin_recolored isRoot leaf pinned (.inl rfl)).after payload).unlisted sound
    ⟨by simp [pinned],by simp,fun _ => ⟨used,by simp⟩⟩
    ((sameLists_chunkUnpin _ _ _).trans (sameLists_modify _ _ _))
    (sound.listed.offFree (by simp [pinned])) (fun inUse => ?_) fun top evicting => ?_
  · have user := (sound.placed c.root inUse).1
    rw [← rootChunk,← sound.shaped.type_root used,kernel] at user
    cases user
  · unfold chunkIsInEviction at quiet
    rw [rootChunk,← ChunkId.eq_ofRoot top,evicting] at quiet
    cases quiet

/-! Freeing. -/

theorem Sound.evicting_idle (evicting : chunkIsInEviction s c = true) :
    ¬(s.root c.root).listState.InUse := by
  rw [(sound.evicting c.root evicting).2.2]
  simp

omit sound in
/-- An allocated chunk of a root in eviction gets pinned for the evicting thread. -/
theorem evictLeaf_section (payload : Payload f) (sound : Sound cfg s)
    (evicting : chunkIsInEviction s c = true) (state : (s.chunk c).state = .allocated) :
    Section cfg s (chunkPin (s.modify c f) c) c .tempPinned := by
  have used : (s.chunk c).state ≠ .pmaOwned := by simp [state]
  obtain ⟨isRoot,leaf⟩ := sound.shaped.leaf_facts used (by simp [state])
  have isRoot' : chunkIsRootChunk (s.modify c f) c = true ↔ c.path = [] := by
    rw [← isRoot]
    simp [chunkIsRootChunk,payload.size]
  refine ((chunkPin_recolored isRoot' (by simpa [payload.suballoc] using leaf)
    (by simpa [payload.state] using state)).before payload).unlisted sound
    ⟨by simp [state],by simp,fun _ => ⟨used,by simp⟩⟩
    ((sameLists_modify _ _ _).trans (sameLists_chunkPin _ _))
    (sound.listed.offFree (by simp [state])) (sound.evicting_idle evicting) fun top inEviction => ?_
  have user := (sound.evicting c.root evicting).1
  rw [← ChunkId.eq_ofRoot top] at user
  rw [chunkPin_chunk isRoot']
  simpa [payload.type] using user

theorem chunkFreeLocked_evicting (evicting : chunkIsInEviction s c = true)
    (state : (s.chunk c).state = .allocated) :
    Section cfg s (chunkFreeLocked cfg hook s c) c .tempPinned := by
  unfold chunkFreeLocked
  rw [if_pos evicting]
  exact evictLeaf_section (.of fun _ => rfl) sound evicting state

theorem chunkFreeLocked_section (quiet : chunkIsInEviction s c = false)
    (state : (s.chunk c).state = .tempPinned ∨ (s.chunk c).state = .allocated) :
    Section cfg s (chunkFreeLocked cfg hook s c) c .free ∧
      Quiet (chunkFreeLocked cfg hook s c) c.root := by
  have used : (s.chunk c).state ≠ .pmaOwned := by rcases state with state | state <;> simp [state]
  have whole : (s.chunk c).state ≠ .isSplit := by rcases state with state | state <;> simp [state]
  have busy : (s.chunk c).state ≠ .free := by rcases state with state | state <;> simp [state]
  obtain ⟨isRoot,leaf⟩ := sound.shaped.leaf_facts used whole
  have allowed : Recolors s c .free := ⟨whole,by simp,fun _ => ⟨used,by simp⟩⟩
  have payload : Payload fun chunk => { chunk with
      vaBlockPageIndex := pagesPerVaBlock, isZero := false } := .of fun _ => rfl
  have parent := sameLists_modifyParent s c fun a => { a with allocated := a.allocated - 1 }
  unfold chunkFreeLocked
  rw [if_neg (by simp [quiet])]
  dsimp only
  rw [modifyParent_self]
  rcases state with state | state
  · rw [if_pos state]
    have isRoot' := modifyParent_root isRoot fun a => { a with allocated := a.allocated - 1 }
    refine ((unpinFree_recolored isRoot leaf state).after payload).listed sound allowed
      ((parent.trans (sameLists_chunkUnpin _ _ _)).trans (sameLists_modify _ _ _)) (by simp)
      (.inl (sound.listed.offFree busy)) (.inr ?_) quiet hook
    rw [modify_chunk,if_pos rfl,chunkUnpin_chunk isRoot',if_pos rfl,modifyParent_self]
  · rw [if_neg (by simp [state])]
    refine ((allocatedFree_recolored leaf state).after payload).listed sound allowed
      ((parent.trans (sameLists_modify _ _ _)).trans (sameLists_modify _ _ _)) (by simp)
      (.inl (sound.listed.offFree busy)) (.inr ?_) quiet hook
    simp

/-! Roots from and to PMA. -/

omit sound in
/-- The record of a root that is a leaf gets a new state and perhaps a new type. -/
theorem root_recolored (leaf : (s.chunk (.ofRoot r)).suballoc = none)
    (state : (f (s.chunk (.ofRoot r))).state = q) (size : ∀ x, (f x).log2Size = x.log2Size)
    (address : ∀ x, (f x).address = x.address) (suballoc : ∀ x, (f x).suballoc = x.suballoc)
    (inEviction : ∀ x, (f x).inEviction = x.inEviction) :
    Recolored s (s.modify (.ofRoot r) f) (.ofRoot r) q where
  others x other := by simp [other]
  state := by simpa using state
  size := by simp [size]
  address := by simp [address]
  type sub := absurd rfl sub
  inEviction := by simp [inEviction]
  suballoc x := by
    by_cases here : x = .ofRoot r
    · simp [here,suballoc,leaf]
    · have elsewhere : x ≠ rootChunk (.ofRoot r) := here
      have unchanged : Suballoc.adjust (.ofRoot r) x (s.chunk (.ofRoot r)).state q = id := by
        funext a
        have top : (ChunkId.ofRoot r).parent = none := rfl
        simp [Suballoc.adjust,elsewhere,top]
      rw [unchanged]
      simp [here]

theorem initRootChunk_section {isZero : Bool} (state : (s.chunk (.ofRoot r)).state = .pmaOwned) (initial : q = .tempPinned ∨ q = .free) :
    Section cfg s (initRootChunk cfg hook s type r q isZero) (.ofRoot r) q := by
  have leaf : (s.chunk (.ofRoot r)).suballoc = none := by
    rw [← Option.not_isSome_iff_eq_none,sound.shaped.suballoc]
    simp [state]
  have used : q ≠ .pmaOwned := by rcases initial with rfl | rfl <;> simp
  have whole : q ≠ .isSplit := by rcases initial with rfl | rfl <;> simp
  have quiet : (s.chunk (.ofRoot r)).inEviction = false := by
    by_contra evicting
    exact (sound.evicting r (by simpa using evicting)).2.1 state
  have recolored : Recolored s
      (s.modify (.ofRoot r) fun chunk => { chunk with type, state := q, isZero }) _ q :=
    root_recolored leaf rfl (fun _ => rfl) (fun _ => rfl) (fun _ => rfl) fun _ => rfl
  exact (recolored.listed sound ⟨by simp [state],whole,fun sub => absurd rfl sub⟩
    (sameLists_modify _ _ _) used (.inl (sound.listed.offFree (by simp [state]))) (.inl state) quiet
    hook).1

theorem freeRootChunk_section (state : (s.chunk (.ofRoot r)).state = .tempPinned)
    (quiet : (s.chunk (.ofRoot r)).inEviction = false) (idle : ¬(s.root r).listState.InUse) :
    Section cfg s (freeRootChunk s r) (.ofRoot r) .pmaOwned := by
  have used : (s.chunk (.ofRoot r)).state ≠ .pmaOwned := by simp [state]
  obtain ⟨isRoot,leaf⟩ := sound.shaped.leaf_facts used (by simp [state])
  refine (chunkUnpin_recolored isRoot leaf state (.inr rfl)).unlisted sound
    ⟨by simp [state],by simp,fun sub => absurd rfl sub⟩ (sameLists_chunkUnpin _ _ _)
    (sound.listed.offFree (by simp [state])) idle fun _ evicting => ?_
  rw [evicting] at quiet
  cases quiet

omit sound in
/-- A free chunk that has left its list gets pinned. -/
theorem pinListed_section {s₁ : State} (shuffled : Shuffled cfg s s₁) (off : OffFree s₁ c)
    (recolored : Recolored s₁ s' c .tempPinned) (same : SameLists s₁ s')
    (state : (s.chunk c).state = .free) (idle : ¬(s₁.root c.root).listState.InUse)
    (type : c.path = [] → (s.chunk c).inEviction = true → (s'.chunk c).type = .user) :
    Section cfg s s' c .tempPinned := by
  have state' : (s₁.chunk c).state = .free := by rw [shuffled.chunk,state]
  refine shuffled.section (recolored.unlisted shuffled.sound
    ⟨by simp [state'],by simp,fun _ => ⟨by simp [state'],by simp⟩⟩ same off idle
    fun top evicting => ⟨type top ?_,by simp⟩)
  rwa [shuffled.chunk] at evicting

omit sound in
theorem listFirstChunk_mem {lists : ListId → List ChunkId} {list : ListId}
    (rep : Represents s.links lists) (first : listFirstChunk s list = some c) : c ∈ lists list := by
  unfold listFirstChunk at first
  rw [rep.first] at first
  cases shape : lists list with
  | nil => simp [shape] at first
  | cons d rest =>
    simp only [shape,List.head?_cons,Option.some.injEq] at first
    simp [first]

omit sound in
theorem freeListIdx_lt {mask j k : Nat} (set : mask.testBit j = true) (less : j < k) :
    freeListIdx mask j < freeListIdx mask k := by
  unfold freeListIdx
  induction k with
  | zero => omega
  | succ k ih =>
    rw [List.range_succ,List.countP_append]
    by_cases last : j = k
    · simp [← last,set]
    · omega

omit sound in
theorem supported_le (supported : (cfg.chunkSizes type).testBit size = true) :
    size ≤ chunkSizeMax := by
  by_contra large
  have clear := Nat.testBit_lt_two_pow ((cfg.bounded type).trans_le
    (Nat.pow_le_pow_right (by decide) (show chunkSizeMax + 1 ≤ size by omega)))
  simp [supported] at clear

/-- The chunks on a free list for the largest size are roots. -/
theorem Sound.first_root (first : listFirstChunk s (findFreeList cfg type chunkSizeMax zero) = some c) :
    c = .ofRoot c.root ∧ (s.chunk c).state = .free ∧ (s.root c.root).listState = .free ∧
      (s.chunk c).type = type := by
  obtain ⟨lists,valid⟩ := sound.listed
  have member := listFirstChunk_mem valid.rep first
  have state := (valid.free c _ _ _ member).resolve_left id
  have used : (s.chunk c).state ≠ .pmaOwned := by simp [state]
  have same {home : ListId} (named : findFreeList cfg type chunkSizeMax zero = home)
      (here : home = findFreeListChunk cfg s c) : (s.chunk c).type = type ∧
        freeListIdx (cfg.chunkSizes type) chunkSizeMax =
          freeListIdx (cfg.chunkSizes type) (s.chunk c).log2Size := by
    rw [here,findFreeListChunk,findFreeList,findFreeList,ListId.freeList.injEq] at named
    obtain ⟨rfl,idx,_⟩ := named
    exact ⟨rfl,idx⟩
  by_cases top : c.path = []
  · have atRoot := ChunkId.eq_ofRoot top
    rw [atRoot,valid.root] at member
    have free : (s.root c.root).listState = .free := by
      revert member
      cases (s.root c.root).listState <;> simp [findFreeList]
    rw [free] at member
    have home : findFreeListChunk cfg s (.ofRoot c.root) = findFreeList cfg type chunkSizeMax zero := by
      simpa using member
    exact ⟨atRoot,state,free,(same rfl (by rw [← home,← atRoot])).1⟩
  · -- A smaller supported size has a smaller index.
    have home := valid.sub c _ top member
    obtain ⟨sameType,idx⟩ := same rfl home
    have supported := sound.shaped.supported used
    rw [sameType] at supported
    have isRoot := sound.shaped.isRoot_iff fun _ => used
    have notMax : (s.chunk c).log2Size ≠ chunkSizeMax := fun size =>
      top (isRoot.mp (by simp [chunkIsRootChunk,size]))
    have bound : (s.chunk c).log2Size < chunkSizeMax := by
      have := supported_le supported
      omega
    have smaller := freeListIdx_lt supported bound
    omega

theorem popFreeRootChunk_eq (run : popFreeRootChunk cfg s type = some (s',r)) :
    (s.chunk (.ofRoot r)).state = .free ∧ (s.root r).listState = .free ∧
      s' = chunkPin (rootListUpdateLocked s (.ofRoot r) .none .delInit) (.ofRoot r) := by
  obtain ⟨c,first,result⟩ := Option.bind_eq_some_iff.mp run
  cases result
  rw [Option.orElse_eq_or,Option.or_eq_some_iff] at first
  obtain ⟨atRoot,state,listState,_⟩ := first.elim sound.first_root (sound.first_root ·.2)
  rw [← atRoot]
  exact ⟨state,listState,rfl⟩

theorem popFreeRootChunk_section (run : popFreeRootChunk cfg s type = some (s',r)) :
    (s.chunk (.ofRoot r)).state = .free ∧ (s.chunk (.ofRoot r)).inEviction = false ∧
      Section cfg s s' (.ofRoot r) .tempPinned := by
  obtain ⟨state,listState,rfl⟩ := popFreeRootChunk_eq sound run
  generalize here : ChunkId.ofRoot r = c at state ⊢
  have sameRoot : c.root = r := here ▸ rfl
  have atRoot : c = .ofRoot c.root := by rw [sameRoot,here]
  rw [← sameRoot] at listState
  have used : (s.chunk c).state ≠ .pmaOwned := by simp [state]
  have quiet : (s.chunk c).inEviction = false := by
    by_contra evicting
    rw [atRoot] at evicting
    have := (sound.evicting c.root (by simpa using evicting)).2.2
    rw [listState] at this
    cases this
  have shuffled : Shuffled cfg s (rootListUpdateLocked s c .none .delInit) :=
    sound.delInit used (.inl rfl) fun _ evicting => by simp [quiet] at evicting
  have state' : ((rootListUpdateLocked s c .none .delInit).chunk c).state = .free := by
    rw [shuffled.chunk,state]
  obtain ⟨isRoot,leaf⟩ := shuffled.sound.shaped.leaf_facts (by rw [state']; decide)
    (by rw [state']; decide)
  refine ⟨state,quiet,?_⟩
  have recolored : Recolored (rootListUpdateLocked s c .none .delInit)
      (chunkPin (rootListUpdateLocked s c .none .delInit) c) c .tempPinned := by
    have counted := pinFree_recolored isRoot leaf state'
    have top : c.parent = none := by rw [atRoot]; rfl
    simpa [State.modifyParent,top] using counted
  refine pinListed_section shuffled (offFree_delInit sound.listed) recolored
    (sameLists_chunkPin _ _) state ?_ fun _ evicting => by simp [quiet] at evicting
  rw [rootListUpdateLocked_listState (sound.shaped.isRoot_iff fun _ => used),if_pos atRoot.symm]
  simp

end

end GpuExt.Pmm
