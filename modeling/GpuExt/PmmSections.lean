import GpuExt.PmmLists

/-! What every critical section of `list_lock` keeps, and what each of them does to the
chunks. -/
namespace GpuExt.Pmm

open ListHead

variable {cfg : Config} {s s' : State} {c x : ChunkId} {q : ChunkState} {r : RootId} {hook : Hook}

/-- No pinned leaf below a root that can be picked for eviction. -/
def Quiet (s : State) (r : RootId) : Prop :=
  (s.root r).listState.InUse → pinnedLeaves s r = ∅

structure Sound (cfg : Config) (s : State) : Prop where
  shaped : Shaped cfg s
  counted : Counted s
  listed : Listed cfg s ∅
  logged : Logged s
  placed : ∀ r, (s.root r).listState.InUse → (s.chunk (.ofRoot r)).type = .user ∧
    (s.chunk (.ofRoot r)).state ≠ .free ∧ (s.chunk (.ofRoot r)).state ≠ .pmaOwned
  evicting : ∀ r, (s.chunk (.ofRoot r)).inEviction = true →
    (s.chunk (.ofRoot r)).type = .user ∧ (s.chunk (.ofRoot r)).state ≠ .pmaOwned ∧
      (s.root r).listState = .eviction

theorem Shaped.congr (shaped : Shaped cfg s) (chunk : s'.chunk = s.chunk) : Shaped cfg s' := by
  refine ⟨?_,?_,?_,?_,?_⟩ <;> rw [chunk]
  · exact shaped.root
  · exact shaped.leaf
  · exact shaped.split
  · exact shaped.suballoc
  · exact shaped.finite

theorem Counted.congr (counted : Counted s) (chunk : s'.chunk = s.chunk) : Counted s' := by
  refine ⟨?_,?_⟩
  · simpa only [busySubchunks,numSubchunks,chunk] using counted.allocated
  · simpa only [pinnedLeaves,chunk] using counted.pinned

/-! The pin test. -/

theorem covers_address (chunk : Chunk) : Covers chunk chunk.address :=
  ⟨Nat.le_refl _,Nat.lt_add_of_pos_right (Nat.two_pow_pos _)⟩

/-- Leaves start at different addresses, so there are not many of them. -/
theorem Shaped.pinned_le (shaped : Shaped cfg s) (r : RootId) :
    (pinnedLeaves s r).ncard ≤ 2 ^ chunkSizeMax := by
  have leaf {x : ChunkId} (member : x ∈ pinnedLeaves s r) : Leaf s x := by
    simp [Leaf,member.2]
  have inside (x : ChunkId) (member : x ∈ pinnedLeaves s r) : (s.chunk x).address ∈
      (Finset.Ico (r * 2 ^ chunkSizeMax) (r * 2 ^ chunkSizeMax + 2 ^ chunkSizeMax) : Set Nat) := by
    have above := shaped.covers_under x.root_under (leaf member).1 (covers_address _)
    rw [member.1] at above
    unfold Covers at above
    rw [(shaped.root r).1,(shaped.root r).2] at above
    simpa using above
  have injective : Set.InjOn (fun x => (s.chunk x).address) (pinnedLeaves s r) := by
    intro x memberX y memberY same
    by_contra apart
    refine shaped.leaves_disjoint (leaf memberX) (leaf memberY) apart (covers_address _) ?_
    dsimp only at same
    rw [same]
    exact covers_address _
  have bound := Set.ncard_le_ncard_of_injOn _ inside injective (Finset.finite_toSet _)
  rwa [Set.ncard_coe_finset,Nat.card_Ico,Nat.add_sub_cancel_left] at bound

theorem Shaped.pinned_empty (shaped : Shaped cfg s) (leaf : (s.chunk (.ofRoot r)).state ≠ .isSplit)
    (notPinned : (s.chunk (.ofRoot r)).state ≠ .tempPinned) : pinnedLeaves s r = ∅ := by
  ext x
  simp only [Set.mem_empty_iff_false,iff_false]
  rintro ⟨sameRoot,state⟩
  by_cases here : x = .ofRoot r
  · exact notPinned (here ▸ state)
  · have below : (ChunkId.ofRoot r).Under x := sameRoot ▸ x.root_under
    rw [shaped.below_leaf leaf below here] at state
    cases state

theorem chunkIsRootChunkPinned_iff (shaped : Shaped cfg s) (counted : Counted s) :
    chunkIsRootChunkPinned s c = true ↔ pinnedLeaves s c.root ≠ ∅ := by
  unfold chunkIsRootChunkPinned
  dsimp only
  cases state : (s.chunk _).state with
  | tempPinned =>
    simp only [true_iff]
    exact Set.nonempty_iff_ne_empty.mp ⟨rootChunk c,rfl,state⟩
  | isSplit =>
    obtain ⟨a,found⟩ := Option.isSome_iff_exists.mp ((shaped.suballoc _).mpr state)
    have bound := shaped.pinned_le c.root
    have small : (pinnedLeaves s c.root).ncard < 2 ^ 32 := bound.trans_lt (by decide)
    simp only [found,Option.any_some,decide_eq_true_eq,counted.pinned c.root a found]
    have positive : BitVec.ofNat 32 (pinnedLeaves s c.root).ncard > 0 ↔
        0 < (pinnedLeaves s c.root).ncard := by
      rw [gt_iff_lt,BitVec.lt_def,BitVec.toNat_ofNat,Nat.mod_eq_of_lt small]
      rfl
    rw [positive,Set.ncard_pos (shaped.pinned_finite _),Set.nonempty_iff_ne_empty]
  | free | pmaOwned | allocated =>
    have none := shaped.pinned_empty (r := c.root) (by rw [← rootChunk,state]; decide)
      (by rw [← rootChunk,state]; decide)
    simp [none]

/-! List updates as a whole. -/

@[simp] theorem Reordered.chunk_eq (reordered : Reordered s c s') : s'.chunk = s.chunk := by
  cases reordered with
  | same => rfl
  | moved => exact rootListUpdateLocked_chunk _ _ _ _

/-- The lists have changed, and no root but `c`'s is elsewhere. -/
structure Relisted (s s' : State) (r : RootId) : Prop where
  chunk : s'.chunk = s.chunk
  listState : ∀ i, i ≠ r → (s'.root i).listState = (s.root i).listState

theorem Relisted.refl (s : State) (r : RootId) : Relisted s s r := ⟨rfl,fun _ _ => rfl⟩

theorem Relisted.trans {s'' : State} (first : Relisted s s' r) (second : Relisted s' s'' r) :
    Relisted s s'' r :=
  ⟨second.chunk.trans first.chunk,fun i other =>
    (second.listState i other).trans (first.listState i other)⟩

theorem rootListUpdateLocked_relisted (isRoot : chunkIsRootChunk s c = true ↔ c.path = [])
    {list : ListState} {operation : ListOp} :
    Relisted s (rootListUpdateLocked s c list operation) c.root := by
  refine ⟨rootListUpdateLocked_chunk _ _ _ _,fun i other => ?_⟩
  rw [rootListUpdateLocked_listState isRoot,if_neg]
  rintro rfl
  exact other rfl

theorem rootListUpdateLocked_self (isRoot : chunkIsRootChunk s (.ofRoot r) = true)
    {list : ListState} {operation : ListOp} :
    ((rootListUpdateLocked s (.ofRoot r) list operation).root r).listState = list := by
  rw [rootListUpdateLocked_listState (iff_of_true isRoot rfl),if_pos rfl]

section

variable (reordered : Reordered s (.ofRoot r) s') (isRoot : chunkIsRootChunk s (.ofRoot r) = true)
include reordered isRoot

theorem Reordered.relisted : Relisted s s' r := by
  cases reordered with
  | same => exact .refl s r
  | moved => exact rootListUpdateLocked_relisted (iff_of_true isRoot rfl)

theorem Reordered.inUse : (s'.root r).listState.InUse ↔ (s.root r).listState.InUse := by
  cases reordered with
  | same => rfl
  | moved _ list operation root inUse named moves =>
    refine iff_of_true ?_ inUse
    rw [rootListUpdateLocked_self isRoot]
    exact named.imp And.left And.left

theorem Reordered.listed {E : Set ChunkId} (listed : Listed cfg s E) : Listed cfg s' E := by
  cases reordered with
  | same => exact listed
  | moved _ _ _ _ _ named moves => exact listed.moveRoot isRoot named moves fun _ inE => .inr inE

end

theorem Reordered.logged (reordered : Reordered s c s') (logged : Logged s) : Logged s' := by
  cases reordered with
  | same => exact logged
  | moved => exact logged.update

/-- The root half of `chunkUpdateListsLocked`. -/
def updateRootList (hook : Hook) (s : State) (c : ChunkId) : State :=
  if chunkIsUser s c then
    if chunkIsRootChunkPinned s c then rootListUpdateLocked s (rootChunk c) .none .delInit
    else if (s.chunk (rootChunk c)).state ≠ .free then
      bpfCallGpuBlockActivate hook
        (rootListUpdateLocked s (rootChunk c) .vaBlockUsed (.moveTail .vaBlockUsed)) (rootChunk c)
    else s
  else s

/-- The leaf half. -/
def updateLeafList (cfg : Config) (s : State) (c : ChunkId) : State :=
  match (s.chunk c).state with
  | .free => rootListUpdateLocked s c .free (.moveTail (findFreeListChunk cfg s c))
  | .tempPinned => rootListUpdateLocked s c .none .delInit
  | _ => s

theorem chunkUpdateListsLocked_eq (hook : Hook) (s : State) (c : ChunkId) :
    chunkUpdateListsLocked cfg hook s c = updateLeafList cfg (updateRootList hook s c) c := rfl

/-- Where the root half leaves the root. -/
inductive RootSettled (s s' : State) (r : RootId) : Prop
  | kernel (type : (s.chunk (.ofRoot r)).type = .kernel)
      (same : (s'.root r).listState = (s.root r).listState)
  | pinned (listState : (s'.root r).listState = .none)
  | inUse (user : (s.chunk (.ofRoot r)).type = .user) (listState : (s'.root r).listState.InUse)
      (quiet : pinnedLeaves s r = ∅) (busy : (s.chunk (.ofRoot r)).state ≠ .free)
  | free (state : (s.chunk (.ofRoot r)).state = .free)
      (same : (s'.root r).listState = (s.root r).listState)

section Update

variable (shaped : Shaped cfg s) (counted : Counted s) (used : (s.chunk c).state ≠ .pmaOwned)

include shaped in
theorem Shaped.root_isRoot (r : RootId) : chunkIsRootChunk s (.ofRoot r) = true := by
  simp [chunkIsRootChunk,(shaped.root r).1]

include shaped counted used in
theorem updateRootList_spec (hook : Hook) :
    Relisted s (updateRootList hook s c) c.root ∧
      RootSettled s (updateRootList hook s c) c.root ∧
      (Logged s → Logged (updateRootList hook s c)) ∧
      ∀ E, Listed cfg s E → Listed cfg (updateRootList hook s c) E := by
  have isRoot : chunkIsRootChunk s (rootChunk c) = true := shaped.root_isRoot c.root
  have isRoot' {list : ListState} {operation : ListOp} : chunkIsRootChunk
      (rootListUpdateLocked s (rootChunk c) list operation) (.ofRoot c.root) = true := by
    simpa [chunkIsRootChunk,rootChunk] using isRoot
  have type : (s.chunk c).type = (s.chunk (.ofRoot c.root)).type := shaped.type_root used
  unfold updateRootList
  by_cases user : chunkIsUser s c = true
  · have typeUser : (s.chunk (.ofRoot c.root)).type = .user := by
      rw [← type]
      simpa [chunkIsUser] using user
    rw [if_pos user]
    by_cases pinned : chunkIsRootChunkPinned s c = true
    · rw [if_pos pinned]
      refine ⟨rootListUpdateLocked_relisted (iff_of_true isRoot rfl),
        .pinned (rootListUpdateLocked_self isRoot),fun logged => logged.update,fun E listed => ?_⟩
      · exact listed.delInit (iff_of_true isRoot rfl) (.inl rfl) fun _ inE => .inr inE
    · rw [if_neg pinned]
      by_cases busy : (s.chunk (rootChunk c)).state ≠ .free
      · rw [if_pos busy]
        have reordered := bpfCallGpuBlockActivate_reordered (c := rootChunk c)
          (s := rootListUpdateLocked s (rootChunk c) .vaBlockUsed (.moveTail .vaBlockUsed)) hook
        have moved : Relisted s
            (rootListUpdateLocked s (rootChunk c) .vaBlockUsed (.moveTail .vaBlockUsed)) c.root :=
          rootListUpdateLocked_relisted (iff_of_true isRoot rfl)
        refine ⟨moved.trans (reordered.relisted isRoot'),.inUse typeUser ?_ ?_ busy,
          fun logged => reordered.logged logged.update,fun E listed => ?_⟩
        · exact (reordered.inUse isRoot').mpr (.inl (rootListUpdateLocked_self isRoot))
        · rw [chunkIsRootChunkPinned_iff shaped counted,not_not] at pinned
          exact pinned
        · exact reordered.listed isRoot' (listed.moveRoot isRoot (.inl ⟨rfl,rfl⟩) (.inr rfl)
            fun _ inE => .inr inE)
      · rw [if_neg busy]
        exact ⟨.refl s _,.free (not_not.mp busy) rfl,id,fun E listed => listed⟩
  · rw [if_neg user]
    have kernel : (s.chunk (.ofRoot c.root)).type = .kernel := by
      rw [← type]
      unfold chunkIsUser at user
      cases form : (s.chunk c).type with
      | user => simp [form] at user
      | kernel => rfl
    exact ⟨.refl s _,.kernel kernel rfl,id,fun E listed => listed⟩

end Update

/-- The state of `c` has changed; its lists are still to be updated. -/
structure Pending (cfg : Config) (s : State) (c : ChunkId) : Prop where
  shaped : Shaped cfg s
  counted : Counted s
  logged : Logged s
  used : (s.chunk c).state ≠ .pmaOwned
  listed : ∃ E, Listed cfg s E ∧
    ∀ x ∈ E, x = c ∧ ((s.chunk c).state = .free ∨ (s.chunk c).state = .tempPinned)
  placed : ∀ r, r ≠ c.root → (s.root r).listState.InUse → (s.chunk (.ofRoot r)).type = .user ∧
    (s.chunk (.ofRoot r)).state ≠ .free ∧ (s.chunk (.ofRoot r)).state ≠ .pmaOwned
  user : (s.root c.root).listState.InUse → (s.chunk (rootChunk c)).type = .user
  evicting : ∀ r, (s.chunk (.ofRoot r)).inEviction = true →
    (s.chunk (.ofRoot r)).type = .user ∧ (s.chunk (.ofRoot r)).state ≠ .pmaOwned ∧
      (s.root r).listState = .eviction
  quiet : (s.chunk (rootChunk c)).inEviction = false

theorem Relisted.isRoot_eq (relisted : Relisted s s' r) (x : ChunkId) :
    chunkIsRootChunk s' x = chunkIsRootChunk s x := by
  simp [chunkIsRootChunk,relisted.chunk]

theorem updateLeafList_spec (cfg : Config) (isRoot : chunkIsRootChunk s c = true ↔ c.path = []) :
    Relisted s (updateLeafList cfg s c) c.root ∧
      (Logged s → Logged (updateLeafList cfg s c)) ∧
      (∀ E, Listed cfg s E → (∀ x ∈ E, x = c ∧
        ((s.chunk c).state = .free ∨ (s.chunk c).state = .tempPinned)) →
        Listed cfg (updateLeafList cfg s c) ∅) ∧
      ((c.path = [] → (s.chunk c).state ≠ .free) →
        ((updateLeafList cfg s c).root c.root).listState.InUse →
        (s.root c.root).listState.InUse) ∧
      (c.path = [] → (s.chunk c).state = .free →
        ((updateLeafList cfg s c).root c.root).listState = .free) := by
  have moved (p : ListState) (operation : ListOp) : c.path = [] →
      ((rootListUpdateLocked s c p operation).root c.root).listState = p := fun top => by
    rw [rootListUpdateLocked_listState isRoot,if_pos (ChunkId.eq_ofRoot top).symm]
  have kept (p : ListState) (operation : ListOp) : c.path ≠ [] →
      ((rootListUpdateLocked s c p operation).root c.root).listState =
        (s.root c.root).listState := fun sub => by
    rw [rootListUpdateLocked_listState isRoot,if_neg]
    exact fun here => sub (by rw [← here]; rfl)
  unfold updateLeafList
  split
  next state =>
    refine ⟨rootListUpdateLocked_relisted isRoot,fun logged => logged.update,
      fun E listed exempt => ?_,fun sub inUse => ?_,fun top _ => moved _ _ top⟩
    · exact listed.moveFree isRoot state fun x inE => .inl (exempt x inE).1
    · by_cases top : c.path = []
      · exact absurd state (sub top)
      · rwa [kept _ _ top] at inUse
  next state =>
    refine ⟨rootListUpdateLocked_relisted isRoot,fun logged => logged.update,
      fun E listed exempt => ?_,fun _ inUse => ?_,fun _ free => by simp [state] at free⟩
    · exact listed.delInit isRoot (.inl rfl) fun x inE => .inl (exempt x inE).1
    · by_cases top : c.path = []
      · rw [moved _ _ top] at inUse
        simp at inUse
      · rwa [kept _ _ top] at inUse
  next notFree notPinned =>
    refine ⟨.refl s _,id,fun E listed exempt => ?_,fun _ => id,fun _ free => absurd free notFree⟩
    have empty : E = ∅ := Set.eq_empty_of_forall_notMem fun x inE =>
      (exempt x inE).2.elim notFree notPinned
    exact empty ▸ listed

theorem chunkUpdateListsLocked_sound (hook : Hook) (pending : Pending cfg s c) :
    Sound cfg (chunkUpdateListsLocked cfg hook s c) ∧
      Relisted s (chunkUpdateListsLocked cfg hook s c) c.root ∧
      Quiet (chunkUpdateListsLocked cfg hook s c) c.root := by
  obtain ⟨E,listed,exempt⟩ := pending.listed
  obtain ⟨first,settled,logged,keeps⟩ :=
    updateRootList_spec pending.shaped pending.counted pending.used hook
  rw [chunkUpdateListsLocked_eq]
  have isRoot : chunkIsRootChunk (updateRootList hook s c) c = true ↔ c.path = [] := by
    rw [first.isRoot_eq]
    exact pending.shaped.isRoot_iff fun _ => pending.used
  obtain ⟨second,logged',settles,falls,freed⟩ := updateLeafList_spec cfg isRoot
  rw [first.chunk] at settles falls freed
  have relisted := first.trans second
  generalize updateLeafList cfg (updateRootList hook s c) c = s' at *
  -- The root is picked for eviction afterwards only if the root half put it on a list.
  have inUse (after : (s'.root c.root).listState.InUse) :
      (s.chunk (rootChunk c)).type = .user ∧ pinnedLeaves s c.root = ∅ ∧
        (s.chunk (rootChunk c)).state ≠ .free := by
    by_cases top : c.path = [] ∧ (s.chunk c).state = .free
    · rw [freed top.1 top.2] at after
      simp at after
    have middle := falls (fun path free => top ⟨path,free⟩) after
    cases settled with
    | kernel type same =>
      rw [same] at middle
      have user := pending.user middle
      rw [rootChunk,type] at user
      cases user
    | pinned listState =>
      rw [listState] at middle
      simp at middle
    | inUse user _ quiet busy => exact ⟨user,quiet,busy⟩
    | free state =>
      -- Nothing is in use below a free root.
      have atRoot : c = .ofRoot c.root := by
        by_contra other
        have split := pending.shaped.split_above c.root_under other pending.used
        rw [state] at split
        cases split
      have path : c.path = [] := by rw [atRoot]; rfl
      exact absurd ⟨path,atRoot ▸ state⟩ top
  refine ⟨⟨?_,?_,settles E (keeps E listed) exempt,logged' (logged pending.logged),?_,?_⟩,
    relisted,?_⟩
  · exact pending.shaped.congr relisted.chunk
  · exact pending.counted.congr relisted.chunk
  · intro r after
    rw [relisted.chunk]
    by_cases here : r = c.root
    · subst here
      obtain ⟨user,_,busy⟩ := inUse after
      exact ⟨user,busy,pending.shaped.used_above c.root_under pending.used⟩
    · rw [relisted.listState r here] at after
      exact pending.placed r here after
  · intro r evicting
    rw [relisted.chunk] at evicting ⊢
    have here : r ≠ c.root := by
      rintro rfl
      have quiet := pending.quiet
      rw [rootChunk,evicting] at quiet
      cases quiet
    rw [relisted.listState r here]
    exact pending.evicting r evicting
  · intro after
    have empty := (inUse after).2.1
    unfold pinnedLeaves at empty ⊢
    rwa [relisted.chunk]

/-! Sections that give one leaf a new state. -/

/-- Nothing but chunks has changed. -/
structure SameLists (s s' : State) : Prop where
  links : s'.links = s.links
  root : s'.root = s.root
  updates : s'.updates = s.updates

structure Section (cfg : Config) (s s' : State) (c : ChunkId) (q : ChunkState) : Prop where
  sound : Sound cfg s'
  state : ∀ x, (s'.chunk x).state = if x = c then q else (s.chunk x).state
  inEviction : ∀ r, (s'.chunk (.ofRoot r)).inEviction = (s.chunk (.ofRoot r)).inEviction
  quiet : ∀ r, Quiet s r → Quiet s' r

theorem Stays.of_bare {chunk chunk' : Chunk} (bare : chunk'.bare = chunk.bare) :
    Stays chunk chunk' := by
  have type := congrArg Chunk.type bare
  have size := congrArg Chunk.log2Size bare
  have zero := congrArg Chunk.isZero bare
  have state := congrArg Chunk.state bare
  exact ⟨type,size,zero,state⟩

section

variable (recolored : Recolored s s' c q)
include recolored

theorem Recolored.state_ite (x : ChunkId) :
    (s'.chunk x).state = if x = c then q else (s.chunk x).state := by
  split
  next here => exact here ▸ recolored.state
  next other => exact recolored.state_eq other

theorem Recolored.lists {lists : ListId → List ChunkId} (same : SameLists s s')
    (valid : Lists cfg s ∅ lists) (off : OffFree s c) : Lists cfg s' ∅ lists := by
  refine valid.stay same.links same.root fun x type idx zero member => .of_bare ?_
  apply recolored.others
  rintro rfl
  exact off lists valid.rep type idx zero member

/-- The leaves of other roots stay as they are. -/
theorem Recolored.pinned_other (other : r ≠ c.root) : pinnedLeaves s' r = pinnedLeaves s r := by
  ext x
  refine and_congr_right fun root => ?_
  rw [recolored.state_eq]
  rintro rfl
  exact other root.symm

end

section Recolored

variable (sound : Sound cfg s) (recolored : Recolored s s' c q) (allowed : Recolors s c q)
  (same : SameLists s s')
include sound recolored same

/-- The eviction flags stay right for roots other than `c`. -/
theorem Recolored.evicting_other (other : ChunkId.ofRoot r ≠ c)
    (evicting : (s'.chunk (.ofRoot r)).inEviction = true) :
    (s'.chunk (.ofRoot r)).type = .user ∧ (s'.chunk (.ofRoot r)).state ≠ .pmaOwned ∧
      (s'.root r).listState = .eviction := by
  rw [recolored.inEviction_eq] at evicting
  rw [recolored.type_eq other,recolored.state_eq other,same.root]
  exact sound.evicting r evicting

theorem Recolored.placed_other (other : ChunkId.ofRoot r ≠ c)
    (inUse : (s'.root r).listState.InUse) : (s'.chunk (.ofRoot r)).type = .user ∧
      (s'.chunk (.ofRoot r)).state ≠ .free ∧ (s'.chunk (.ofRoot r)).state ≠ .pmaOwned := by
  rw [same.root] at inUse
  rw [recolored.type_eq other,recolored.state_eq other]
  exact sound.placed r inUse

include allowed

/-- A leaf of a root that cannot be picked changes its state without any list update. -/
theorem Recolored.unlisted (off : OffFree s c) (idle : ¬(s.root c.root).listState.InUse)
    (evicting : c.path = [] → (s.chunk c).inEviction = true →
      (s'.chunk c).type = .user ∧ q ≠ .pmaOwned) : Section cfg s s' c q := by
  obtain ⟨lists,valid⟩ := sound.listed
  refine ⟨⟨recolored.shaped allowed sound.shaped,recolored.counted allowed sound.shaped sound.counted,
    ⟨lists,recolored.lists same valid off⟩,sound.logged.frame same.root same.updates,?_,?_⟩,
    recolored.state_ite,fun r => recolored.inEviction_eq _,fun r quiet inUse => ?_⟩
  · intro r inUse
    refine recolored.placed_other sound same ?_ inUse
    rintro rfl
    rw [same.root] at inUse
    exact idle inUse
  · intro r inEviction
    by_cases here : .ofRoot r = c
    · subst here
      rw [recolored.inEviction] at inEviction
      obtain ⟨user,notPma⟩ := evicting rfl inEviction
      rw [recolored.state,same.root]
      exact ⟨user,notPma,(sound.evicting r inEviction).2.2⟩
    · exact recolored.evicting_other sound same here inEviction
  · rw [same.root] at inUse
    rw [recolored.pinned_other,quiet inUse]
    rintro rfl
    exact idle inUse

variable (used : q ≠ .pmaOwned)
  (listing : OffFree s c ∨ q = .tempPinned ∧
    (s'.chunk c).type = (s.chunk c).type ∧ (s'.chunk c).isZero = (s.chunk c).isZero)
  (type : (s.chunk c).state = .pmaOwned ∨ (s'.chunk c).type = (s.chunk c).type)
  (quiet : (s.chunk (rootChunk c)).inEviction = false)
include used listing type quiet

theorem Recolored.pending : Pending cfg s' c := by
  obtain ⟨lists,valid⟩ := sound.listed
  refine ⟨recolored.shaped allowed sound.shaped,recolored.counted allowed sound.shaped sound.counted,
    sound.logged.frame same.root same.updates,recolored.state ▸ used,?_,fun r other => ?_,
    fun inUse => ?_,fun r inEviction => ?_,?_⟩
  · rcases listing with off | ⟨rfl,sameType,sameZero⟩
    · exact ⟨∅,⟨lists,recolored.lists same valid off⟩,fun x none => none.elim⟩
    · refine ⟨{c},⟨lists,valid.frame same.links same.root (fun x type idx zero _ => ?_)
        (fun x type idx zero _ state => ?_) (Set.empty_subset _)⟩,
        fun x here => ⟨here,.inr recolored.state⟩⟩
      · by_cases here : x = c
        · simp [here,findFreeListChunk,sameType,sameZero,recolored.size]
        · exact (Stays.of_bare (recolored.others x here)).freeList
      · by_cases here : x = c
        · exact .inl here
        · exact .inr (by rw [recolored.state_eq here,state])
  · exact recolored.placed_other sound same fun here => other (by rw [← here]; rfl)
  · rw [same.root] at inUse
    have placed := sound.placed c.root inUse
    by_cases here : rootChunk c = c
    · rw [here]
      rw [← rootChunk,here] at placed
      rcases type with owned | same
      · exact absurd owned placed.2.2
      · rw [same]
        exact placed.1
    · rw [recolored.type_eq here]
      exact placed.1
  · by_cases here : .ofRoot r = c
    · subst here
      rw [recolored.inEviction] at inEviction
      exact absurd (inEviction.symm.trans quiet) (by decide)
    · exact recolored.evicting_other sound same here inEviction
  · rw [recolored.inEviction_eq]
    exact quiet

/-- A leaf changes its state, and the lists follow. -/
theorem Recolored.listed (hook : Hook) :
    Section cfg s (chunkUpdateListsLocked cfg hook s' c) c q ∧
      Quiet (chunkUpdateListsLocked cfg hook s' c) c.root := by
  obtain ⟨sound',relisted,settled⟩ := chunkUpdateListsLocked_sound hook
    (recolored.pending sound allowed same used listing type quiet)
  refine ⟨⟨sound',fun x => ?_,fun r => ?_,fun r quiet => ?_⟩,settled⟩
  · rw [relisted.chunk]
    exact recolored.state_ite x
  · rw [relisted.chunk]
    exact recolored.inEviction_eq _
  · by_cases here : r = c.root
    · exact here ▸ settled
    · intro inUse
      rw [relisted.listState r here,same.root] at inUse
      rw [← quiet inUse,← recolored.pinned_other here]
      simp only [pinnedLeaves,relisted.chunk]

end Recolored

end GpuExt.Pmm
