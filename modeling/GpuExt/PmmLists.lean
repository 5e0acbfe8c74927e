import GpuExt.PmmSplit
import Mathlib.Order.Interval.Set.Nat

/-! The lists of a PMM. A root is on exactly the list that its list state names, and the
subchunks on lists are free chunks on the free list for their type and size. -/
namespace GpuExt.Pmm

open ListHead

variable {cfg : Config} {s s' : State} {c x : ChunkId} {q : ListState} {operation : ListOp}
  {lists : ListId → List ChunkId} {E F : Set ChunkId}

@[simp] def listNamed (cfg : Config) (s : State) (r : RootId) : ListState → Option ListId
  | .none => none
  | .free => some (findFreeListChunk cfg s (.ofRoot r))
  | .vaBlockUsed => some .vaBlockUsed
  | .vaBlockUnused => some .vaBlockUnused
  | .eviction => none
  | .lazyFree => some .vaBlockLazyFree

/-- Chunks in `E` have changed their state and are still to be moved. -/
structure Lists (cfg : Config) (s : State) (E : Set ChunkId) (lists : ListId → List ChunkId) :
    Prop where
  rep : Represents s.links lists
  root : ∀ r list, .ofRoot r ∈ lists list ↔ listNamed cfg s r (s.root r).listState = some list
  sub : ∀ c list, c.path ≠ [] → c ∈ lists list → list = findFreeListChunk cfg s c
  free : ∀ c type idx zero, c ∈ lists (.freeList type idx zero) →
    c ∈ E ∨ (s.chunk c).state = .free
  lazy : ∀ r, (s.root r).listState ≠ .lazyFree

def Listed (cfg : Config) (s : State) (E : Set ChunkId) : Prop := ∃ lists, Lists cfg s E lists

/-! List updates. -/

@[simp] def ListOp.destination : ListOp → Option ListId
  | .init => none
  | .delInit => none
  | .addTail list => some list
  | .moveHead list => some list
  | .moveTail list => some list

/-- Does the operation rely on the chunk being on no list? -/
def ListOp.Attaches : ListOp → Prop
  | .init | .addTail _ => True
  | _ => False

theorem linkUpdate_represents {l : Links ListId ChunkId} (rep : Represents l lists)
    (absent : operation.Attaches → ∀ list, c ∉ lists list) :
    ∃ lists', Represents (linkUpdate l c operation) lists' ∧ ∀ x list,
      x ∈ lists' list ↔ if x = c then operation.destination = some list else x ∈ lists list := by
  have erased (x : ChunkId) (list : ListId) : x ∈ (lists list).erase c ↔ x ≠ c ∧ x ∈ lists list :=
    (rep.nodup list).mem_erase_iff
  cases operation with
  | init =>
    refine ⟨_,rep.init (absent trivial),fun x list => ?_⟩
    by_cases here : x = c
    · simp [here,absent trivial list]
    · simp [here]
  | delInit =>
    refine ⟨_,rep.delInit c,fun x list => ?_⟩
    by_cases here : x = c <;> simp [erased]
  | addTail destination =>
    refine ⟨_,rep.addTail (absent trivial) destination,fun x list => ?_⟩
    by_cases here : x = c <;> by_cases there : list = destination <;>
      simp [here,there,absent trivial,Ne.symm]
  | moveHead destination =>
    refine ⟨_,rep.move c destination,fun x list => ?_⟩
    by_cases here : x = c <;> by_cases there : list = destination <;> simp [erased,here,there]
    exact fun same => there same.symm
  | moveTail destination =>
    refine ⟨_,rep.moveTail c destination,fun x list => ?_⟩
    by_cases here : x = c <;> by_cases there : list = destination <;> simp [erased,here,there]
    exact fun same => there same.symm

/-- Where an update puts a chunk agrees with its new list state. -/
structure Places (cfg : Config) (s : State) (c : ChunkId) (q : ListState) (operation : ListOp) :
    Prop where
  root : c.path = [] → listNamed cfg s c.root q = operation.destination
  sub : c.path ≠ [] → ∀ list, operation.destination = some list → list = findFreeListChunk cfg s c
  free : ∀ type idx zero, operation.destination = some (.freeList type idx zero) →
    (s.chunk c).state = .free
  lazy : q ≠ .lazyFree

theorem rootListUpdateLocked_links (s : State) (c : ChunkId) (q : ListState) (operation : ListOp) :
    (rootListUpdateLocked s c q operation).links = linkUpdate s.links c operation := by
  unfold rootListUpdateLocked
  dsimp only
  split <;> rfl

theorem rootListUpdateLocked_listState (isRoot : chunkIsRootChunk s c = true ↔ c.path = [])
    (r : RootId) : ((rootListUpdateLocked s c q operation).root r).listState =
      if .ofRoot r = c then q else (s.root r).listState := by
  have same : chunkIsRootChunk { s with links := linkUpdate s.links c operation } c =
      chunkIsRootChunk s c := rfl
  unfold rootListUpdateLocked
  dsimp only
  rw [same]
  by_cases top : c.path = []
  · rw [if_pos (isRoot.mpr top)]
    by_cases here : r = c.root
    · simp [here,← ChunkId.eq_ofRoot top]
    · have other : ChunkId.ofRoot r ≠ c := fun equal => here (by rw [← equal]; rfl)
      simp [here,other]
  · have other : ChunkId.ofRoot r ≠ c := fun equal => top (by rw [← equal]; rfl)
    rw [if_neg fun root => top (isRoot.mp root),if_neg other]

@[simp] theorem findFreeListChunk_update (x : ChunkId) :
    findFreeListChunk cfg (rootListUpdateLocked s c q operation) x = findFreeListChunk cfg s x := by
  simp [findFreeListChunk]

@[simp] theorem listNamed_update (r : RootId) (p : ListState) :
    listNamed cfg (rootListUpdateLocked s c q operation) r p = listNamed cfg s r p := by
  cases p <;> simp

theorem Lists.update (valid : Lists cfg s E lists)
    (isRoot : chunkIsRootChunk s c = true ↔ c.path = [])
    (absent : operation.Attaches → ∀ list, c ∉ lists list) (places : Places cfg s c q operation)
    (rest : ∀ x ∈ E, x = c ∨ x ∈ F) : Listed cfg (rootListUpdateLocked s c q operation) F := by
  obtain ⟨lists',rep,members⟩ := linkUpdate_represents valid.rep absent
  refine ⟨lists',?_,fun r list => ?_,fun x list sub member => ?_,fun x type idx zero member => ?_,
    fun r => ?_⟩
  · rw [rootListUpdateLocked_links]
    exact rep
  · rw [members,rootListUpdateLocked_listState isRoot,listNamed_update]
    by_cases here : .ofRoot r = c
    · subst here
      rw [if_pos rfl,if_pos rfl,← places.root rfl]
      rfl
    · simp only [here]
      exact valid.root r list
  · rw [findFreeListChunk_update]
    rw [members] at member
    by_cases here : x = c
    · subst here
      exact places.sub sub list (by simpa using member)
    · rw [if_neg here] at member
      exact valid.sub x list sub member
  · rw [rootListUpdateLocked_chunk]
    rw [members] at member
    by_cases here : x = c
    · subst here
      exact .inr (places.free type idx zero (by simpa using member))
    · rw [if_neg here] at member
      exact (valid.free x type idx zero member).imp_left fun inE => (rest x inE).resolve_left here
  · rw [rootListUpdateLocked_listState isRoot]
    split
    · exact places.lazy
    · exact valid.lazy r

theorem places_delInit (none : q = .none ∨ q = .eviction) : Places cfg s c q .delInit := by
  refine ⟨fun _ => ?_,by simp,by simp,?_⟩
  · rcases none with rfl | rfl <;> rfl
  · rcases none with rfl | rfl <;> simp

theorem Listed.delInit (listed : Listed cfg s E)
    (isRoot : chunkIsRootChunk s c = true ↔ c.path = []) (none : q = .none ∨ q = .eviction)
    (rest : ∀ x ∈ E, x = c ∨ x ∈ F) : Listed cfg (rootListUpdateLocked s c q .delInit) F := by
  obtain ⟨lists,valid⟩ := listed
  exact valid.update isRoot (fun attaches => attaches.elim) (places_delInit none) rest

/-- A chunk that gets free goes to its free list. -/
theorem Listed.moveFree (listed : Listed cfg s E)
    (isRoot : chunkIsRootChunk s c = true ↔ c.path = []) (state : (s.chunk c).state = .free)
    (rest : ∀ x ∈ E, x = c ∨ x ∈ F) :
    Listed cfg (rootListUpdateLocked s c .free (.moveTail (findFreeListChunk cfg s c))) F := by
  obtain ⟨lists,valid⟩ := listed
  refine valid.update isRoot (fun attaches => attaches.elim) ⟨fun root => ?_,?_,fun _ _ _ _ => state,by simp⟩
    rest
  · simp [← ChunkId.eq_ofRoot root]
  · simp

@[simp] def ListState.InUse (q : ListState) : Prop := q = .vaBlockUsed ∨ q = .vaBlockUnused

/-- A root goes to one end of the list of used or unused roots. -/
theorem Listed.moveRoot {r : RootId} {list : ListId} (listed : Listed cfg s E)
    (isRoot : chunkIsRootChunk s (.ofRoot r) = true)
    (named : q = .vaBlockUsed ∧ list = .vaBlockUsed ∨ q = .vaBlockUnused ∧ list = .vaBlockUnused)
    (moves : operation = .moveHead list ∨ operation = .moveTail list)
    (rest : ∀ x ∈ E, x = .ofRoot r ∨ x ∈ F) :
    Listed cfg (rootListUpdateLocked s (.ofRoot r) q operation) F := by
  obtain ⟨lists,valid⟩ := listed
  have destination : operation.destination = some list := by
    rcases moves with rfl | rfl <;> rfl
  refine valid.update (iff_of_true isRoot rfl) (fun attaches => ?_) ⟨fun _ => ?_,?_,?_,?_⟩ rest
  · rcases moves with rfl | rfl <;> exact attaches.elim
  · rw [destination]
    rcases named with ⟨rfl,rfl⟩ | ⟨rfl,rfl⟩ <;> rfl
  · exact fun sub => absurd rfl sub
  · intro type idx zero same
    rw [destination] at same
    rcases named with ⟨_,rfl⟩ | ⟨_,rfl⟩ <;> cases same
  · rcases named with ⟨rfl,_⟩ | ⟨rfl,_⟩ <;> simp

def OffFree (s : State) (c : ChunkId) : Prop :=
  ∀ lists, Represents s.links lists → ∀ type idx zero, c ∉ lists (.freeList type idx zero)

theorem Listed.offFree (listed : Listed cfg s ∅) (busy : (s.chunk c).state ≠ .free) :
    OffFree s c := by
  obtain ⟨lists,valid⟩ := listed
  intro lists' rep type idx zero member
  rw [← valid.rep.unique rep] at member
  exact (valid.free c type idx zero member).elim (fun none => none) busy

section

variable (valid : Lists cfg s E lists)
include valid

theorem Lists.unlisted_sub (off : OffFree s c) (sub : c.path ≠ [])
    (list : ListId) : c ∉ lists list := by
  intro member
  have home := valid.sub c list sub member
  subst home
  exact off lists valid.rep _ _ _ member

theorem Lists.not_free {r : RootId} (off : OffFree s (.ofRoot r)) :
    (s.root r).listState ≠ .free := by
  intro state
  have named : listNamed cfg s r (s.root r).listState = some (findFreeListChunk cfg s (.ofRoot r)) := by
    rw [state]
    rfl
  exact off lists valid.rep _ _ _ ((valid.root r _).mpr named)

/-- A change of chunks that leaves listed chunks where they belong. -/
theorem Lists.frame (links : s'.links = s.links) (root : s'.root = s.root)
    (place : ∀ x type idx zero, x ∈ lists (.freeList type idx zero) →
      findFreeListChunk cfg s' x = findFreeListChunk cfg s x)
    (free : ∀ x type idx zero, x ∈ lists (.freeList type idx zero) → (s.chunk x).state = .free →
      x ∈ F ∨ (s'.chunk x).state = .free)
    (rest : E ⊆ F) : Lists cfg s' F lists := by
  refine ⟨links ▸ valid.rep,fun r list => ?_,fun x list sub member => ?_,
    fun x type idx zero member => ?_,fun r => ?_⟩
  · rw [valid.root,root]
    cases state : (s.root r).listState <;> simp only [listNamed]
    have named : listNamed cfg s r (s.root r).listState =
        some (findFreeListChunk cfg s (.ofRoot r)) := by
      rw [state]
      rfl
    rw [place _ _ _ _ ((valid.root r _).mpr named)]
  · have home := valid.sub x list sub member
    subst home
    exact (place x _ _ _ member).symm
  · rcases valid.free x type idx zero member with inE | state
    · exact .inl (rest inE)
    · exact free x _ _ _ member state
  · rw [root]
    exact valid.lazy r

/-- What the lists depend on stays. -/
structure Stays (chunk chunk' : Chunk) : Prop where
  type : chunk'.type = chunk.type
  size : chunk'.log2Size = chunk.log2Size
  zero : chunk'.isZero = chunk.isZero
  state : chunk'.state = chunk.state

omit valid in
theorem Stays.freeList (stays : Stays (s.chunk c) (s'.chunk c)) :
    findFreeListChunk cfg s' c = findFreeListChunk cfg s c := by
  rw [findFreeListChunk,stays.type,stays.size,stays.zero,findFreeListChunk]

theorem Lists.stay (links : s'.links = s.links)
    (root : s'.root = s.root) (stays : ∀ x type idx zero, x ∈ lists (.freeList type idx zero) →
      Stays (s.chunk x) (s'.chunk x)) : Lists cfg s' E lists :=
  valid.frame links root (fun x _ _ _ member => (stays x _ _ _ member).freeList)
    (fun x _ _ _ member free => .inr ((stays x _ _ _ member).state.trans free)) (Set.Subset.refl _)

end

/-- After leaving its list, a chunk is on no free list. -/
theorem offFree_delInit (listed : Listed cfg s E) :
    OffFree (rootListUpdateLocked s c q .delInit) c := by
  obtain ⟨lists,valid⟩ := listed
  intro lists' rep type idx zero member
  rw [rootListUpdateLocked_links] at rep
  rw [(valid.rep.delInit c).unique rep |>.symm] at member
  exact ((valid.rep.nodup _).mem_erase_iff.mp member).1 rfl

/-! The generation. -/

def lastState (updates : List Update) (r : RootId) : ListState :=
  ((updates.find? (·.root = r)).map (·.after)).getD .none

/-- Every call of the log found the list state that the call before it had left. -/
def Chained : List Update → Prop
  | [] => True
  | u :: updates => u.before = lastState updates u.root ∧ Chained updates

/-- The list states and generations are those of the logged calls. -/
structure Logged (s : State) : Prop where
  chained : Chained s.updates
  listState : ∀ r, (s.root r).listState = lastState s.updates r
  generation : ∀ r, (s.root r).listGeneration =
    BitVec.ofNat 64 (s.updates.countP fun u => u.root = r ∧ u.before ≠ u.after)

theorem Logged.frame (logged : Logged s) (root : s'.root = s.root) (updates : s'.updates = s.updates) :
    Logged s' := by
  refine ⟨?_,?_,?_⟩
  · rw [updates]
    exact logged.chained
  · rw [root,updates]
    exact logged.listState
  · rw [root,updates]
    exact logged.generation

theorem Logged.update (logged : Logged s) : Logged (rootListUpdateLocked s c q operation) := by
  unfold rootListUpdateLocked
  dsimp only
  split
  · refine ⟨⟨logged.listState c.root,logged.chained⟩,fun r => ?_,fun r => ?_⟩
    · by_cases here : r = c.root
      · simp [here,lastState]
      · have other : c.root ≠ r := Ne.symm here
        simpa [here,lastState,other] using logged.listState r
    · by_cases here : r = c.root
      · subst here
        by_cases same : (s.root c.root).listState = q
        · simp [same,logged.generation]
        · simp [same,logged.generation,BitVec.ofNat_add]
      · have other : c.root ≠ r := Ne.symm here
        simp [here,other,logged.generation]
  · exact logged.frame rfl rfl

/-! The policy hooks. -/

/-- What a hook can do to a root: nothing, or move it between the two lists of roots that
can be evicted. -/
inductive Reordered (s : State) (c : ChunkId) : State → Prop
  | same : Reordered s c s
  | moved (q : ListState) (list : ListId) (operation : ListOp) (root : c = rootChunk c)
      (inUse : (s.root c.root).listState.InUse)
      (named : q = .vaBlockUsed ∧ list = .vaBlockUsed ∨ q = .vaBlockUnused ∧ list = .vaBlockUnused)
      (moves : operation = .moveHead list ∨ operation = .moveTail list) :
      Reordered s c (rootListUpdateLocked s c q operation)

theorem bpfCommitReorderLocked_reordered (ctx : DecisionCtx) :
    Reordered s c (bpfCommitReorderLocked s c ctx).2 := by
  unfold bpfCommitReorderLocked
  split
  next destination state valid =>
    unfold bpfValidateReorderLocked at valid
    split at valid
    · cases valid
    rename_i identity
    rw [not_or,not_not] at identity
    split at valid
    · split at valid
      · cases valid
      split at valid
      · cases valid
      rename_i listed
      have inUse : (s.root c.root).listState.InUse := by
        by_contra neither
        exact listed (not_or.mp neither)
      have moves : (if ctx.request.position = Transition.positionHead then ListOp.moveHead destination
          else .moveTail destination) = .moveHead destination ∨
          (if ctx.request.position = Transition.positionHead then ListOp.moveHead destination
          else .moveTail destination) = .moveTail destination := by
        split
        · exact .inl rfl
        · exact .inr rfl
      split at valid
      · cases valid
        exact .moved _ _ _ identity.2 inUse (.inl ⟨rfl,rfl⟩) moves
      · cases valid
        exact .moved _ _ _ identity.2 inUse (.inr ⟨rfl,rfl⟩) moves
    · simp at valid
  · exact .same

theorem bpfCallGpuBlockActivate_reordered (hook : Hook) :
    Reordered s c (bpfCallGpuBlockActivate hook s c) := by
  unfold bpfCallGpuBlockActivate bpfApplyActivateLocked
  split
  · exact bpfCommitReorderLocked_reordered _
  · exact .same

theorem bpfCallGpuBlockAccess_reordered (hook : Hook) :
    Reordered s c (bpfCallGpuBlockAccess hook s c).2 := by
  unfold bpfCallGpuBlockAccess bpfApplyAccessLocked
  dsimp only
  split
  · have committed := bpfCommitReorderLocked_reordered (s := s) (c := c)
      (decisionCtx s c (hook s c))
    split
    next result =>
      rw [result] at committed
      exact committed
    next result =>
      rw [result] at committed
      exact committed
  · exact .same

end GpuExt.Pmm
