import GpuExt.PmmEviction

/-! The sections that change the trees: splits, merges, and the preparation of a merge. -/
namespace GpuExt.Pmm

open ListHead List

variable {cfg : Config} {s s' : State} {c x p : ChunkId} {q : ChunkState} {r : RootId} {hook : Hook}
  {k n : Nat}

/-- The trees have changed, and everything is still in order. -/
structure Reshaped (cfg : Config) (s s' : State) (state : ChunkId → ChunkState) : Prop where
  sound : Sound cfg s'
  state : ∀ x, (s'.chunk x).state = state x
  inEviction : ∀ r, (s'.chunk (.ofRoot r)).inEviction = (s.chunk (.ofRoot r)).inEviction

theorem Quiet.frame (quiet : Quiet s r) (root : s'.root = s.root)
    (pinned : ∀ x, x.root = r → (s'.chunk x).state = .tempPinned →
      ∃ y, y.root = r ∧ (s.chunk y).state = .tempPinned) : Quiet s' r := by
  intro inUse
  rw [root] at inUse
  refine Set.eq_empty_iff_forall_notMem.mpr ?_
  rintro x ⟨sameRoot,state⟩
  obtain ⟨y,member⟩ := pinned x sameRoot state
  exact Set.eq_empty_iff_forall_notMem.mp (quiet inUse) y member

/-- The trees below the roots change; a root keeps its state or becomes busy. -/
theorem Sound.retree (sound : Sound cfg s) (shaped : Shaped cfg s') (counted : Counted s')
    (listed : Listed cfg s' ∅) (root : s'.root = s.root) (updates : s'.updates = s.updates)
    (kept : ∀ r, Placed (s.chunk (.ofRoot r)) (s'.chunk (.ofRoot r)))
    (busy : ∀ r, (s.chunk (.ofRoot r)).state ≠ .free → (s'.chunk (.ofRoot r)).state ≠ .free) :
    Sound cfg s' := by
  refine ⟨shaped,counted,listed,sound.logged.frame root updates,fun r inUse => ?_,
    fun r evicting => ?_⟩
  · rw [root] at inUse
    obtain ⟨user,notFree,used⟩ := sound.placed r inUse
    exact ⟨(kept r).type.trans user,busy r notFree,(kept r).exist used⟩
  · rw [(kept r).inEviction] at evicting
    obtain ⟨user,used,listState⟩ := sound.evicting r evicting
    exact ⟨(kept r).type.trans user,(kept r).exist used,root ▸ listState⟩

/-! Splits. -/

def splitStates (s : State) (c : ChunkId) (n : Nat) (x : ChunkId) : ChunkState :=
  if x = c then .isSplit else if c.IsSubchunk n x then (s.chunk c).state else (s.chunk x).state

theorem divideChunk_frame (s : State) (c : ChunkId) (k : Nat) :
    (divideChunk s c k).root = s.root ∧ (divideChunk s c k).updates = s.updates ∧
      (divideChunk s c k).links = (range (2 ^ ((s.chunk c).log2Size - k))).foldl
        (fun links i => initListHead links (.entry (c.child i))) s.links := by
  unfold divideChunk
  dsimp only
  split_ifs <;> exact ⟨rfl,rfl,rfl⟩

theorem initLinks_represents {l : Links ListId ChunkId} {lists : ListId → List ChunkId}
    (rep : Represents l lists) (c : ChunkId) (absent : ∀ i list, c.child i ∉ lists list) (n : Nat) :
    Represents ((range n).foldl (fun links i => initListHead links (.entry (c.child i))) l)
      lists := by
  induction n with
  | zero => exact rep
  | succ n ih =>
    rw [range_succ,foldl_append]
    exact ih.init (absent n)

section Divide

variable (sound : Sound cfg s) (able : Splittable cfg s c k)
include sound able

/-- A listed chunk is neither the split chunk nor one of its subchunks. -/
theorem Splittable.listed_other {lists : ListId → List ChunkId} {type : MemoryType} {idx : Nat}
    {zero : Bool} (valid : Lists cfg s ∅ lists) (member : x ∈ lists (.freeList type idx zero)) :
    x ≠ c ∧ ∀ n, ¬c.IsSubchunk n x := by
  have state := (valid.free x type idx zero member).resolve_left id
  constructor
  · rintro rfl
    exact able.busy state
  · intro n sub
    obtain ⟨i,_,rfl⟩ := isSubchunk_iff.mp sub
    rw [sound.shaped.leaf c i able.leaf] at state
    cases state

theorem divideChunk_listed : Listed cfg (divideChunk s c k) ∅ := by
  obtain ⟨lists,valid⟩ := sound.listed
  obtain ⟨isRoot,_⟩ := sound.shaped.leaf_facts able.used able.leaf
  have d := divideChunk_divided (k := k) isRoot able.state
  obtain ⟨root,_,links⟩ := divideChunk_frame s c k
  have absent (i : Nat) (list : ListId) : c.child i ∉ lists list := fun member => by
    have home := valid.sub _ list (by simp [ChunkId.child]) member
    subst home
    exact (able.listed_other sound valid member).2 (i + 1) (isSubchunk_child.mpr ⟨rfl,by omega⟩)
  -- The subchunks' links come first; the chunks are changed under the same lists.
  have relinked : Lists cfg { s with links := (divideChunk s c k).links } ∅ lists := by
    refine ⟨?_,valid.root,valid.sub,valid.free,valid.lazy⟩
    rw [links]
    exact initLinks_represents valid.rep c absent _
  refine ⟨lists,relinked.stay rfl root fun x type idx zero member => ?_⟩
  obtain ⟨other,notSub⟩ := able.listed_other sound valid member
  rw [d.others x other (notSub _)]
  exact .of_bare rfl

theorem divideChunk_reshaped :
    Reshaped cfg s (divideChunk s c k) (splitStates s c (2 ^ ((s.chunk c).log2Size - k))) ∧
      ∀ r, Quiet s r → Quiet (divideChunk s c k) r := by
  obtain ⟨isRoot,_⟩ := sound.shaped.leaf_facts able.used able.leaf
  have d := divideChunk_divided (k := k) isRoot able.state
  obtain ⟨root,updates,_⟩ := divideChunk_frame s c k
  have listed := divideChunk_listed sound able
  generalize divideChunk s c k = s' at *
  have state (x : ChunkId) : (s'.chunk x).state =
      splitStates s c (2 ^ ((s.chunk c).log2Size - k)) x := by
    unfold splitStates
    split
    next here => rw [here,d.state]
    next other =>
      split
      next sub =>
        obtain ⟨i,bound,rfl⟩ := isSubchunk_iff.mp sub
        rw [d.subchunk i bound]
        rfl
      next notSub =>
        rw [d.others x other notSub]
        rfl
  have kept (i : RootId) := d.kept (x := .ofRoot i) not_isSubchunk_root
  have busy (i : RootId) (before : (s.chunk (.ofRoot i)).state ≠ .free) :
      (s'.chunk (.ofRoot i)).state ≠ .free := by
    rw [state,splitStates,if_neg (not_isSubchunk_root (c := c))]
    split
    · exact nofun
    · exact before
  refine ⟨⟨sound.retree (d.shaped able sound.shaped) (d.counted able sound.shaped sound.counted)
    listed root updates kept busy,state,fun i => (kept i).inEviction⟩,fun i quiet => quiet.frame root fun x sameRoot pinned => ?_⟩
  rcases (d.pinned_iff able sound.shaped).mp pinned with ⟨pinned,_⟩ | ⟨pinned,sub⟩
  · exact ⟨x,sameRoot,pinned⟩
  · exact ⟨c,sub.1.symm.trans sameRoot,pinned⟩

end Divide

theorem splitGpuChunk_some {memory : Bool} (run : splitGpuChunk cfg s c memory = some s') :
    ∃ k, chunkFindPrevSize (cfg.chunkSizes (s.chunk c).type) (s.chunk c).log2Size = some k ∧
      s' = divideChunk s c k := by
  unfold splitGpuChunk at run
  split at run
  next => cases run
  next k size =>
    split at run
    next =>
      cases run
      exact ⟨k,size,rfl⟩
    next => cases run

/-! Merges. -/

def mergeStates (s : State) (c : ChunkId) (q : ChunkState) (x : ChunkId) : ChunkState :=
  if x = c then q else if c.IsSubchunk (numSubchunks s c) x then .pmaOwned else (s.chunk x).state

theorem sameLists_mergeGpuChunk (s : State) (c : ChunkId) : SameLists s (mergeGpuChunk s c) := by
  unfold mergeGpuChunk
  dsimp only
  split_ifs <;> exact ⟨rfl,rfl,rfl⟩

section

variable (sound : Sound cfg s)
include sound

theorem mergeGpuChunk_reshaped (able : Mergeable s c q) :
    Reshaped cfg s (mergeGpuChunk s c) (mergeStates s c q) ∧
      ∀ r, Quiet s r → Quiet (mergeGpuChunk s c) r := by
  have m := mergeGpuChunk_merged able
  have same := sameLists_mergeGpuChunk s c
  generalize mergeGpuChunk s c = s' at *
  have state (x : ChunkId) : (s'.chunk x).state = mergeStates s c q x := by
    unfold mergeStates
    split
    next here => rw [here,m.state]
    next other =>
      split
      next sub =>
        rw [m.subchunk x sub]
        rfl
      next notSub =>
        rw [m.others x other notSub]
        rfl
  have kept (i : RootId) := m.kept able (x := .ofRoot i) not_isSubchunk_root
  have busy (i : RootId) (before : (s.chunk (.ofRoot i)).state ≠ .free) :
      (s'.chunk (.ofRoot i)).state ≠ .free := by
    rw [state,mergeStates,if_neg (not_isSubchunk_root (c := c))]
    split
    · exact able.leaf.2.2
    · exact before
  have listed : Listed cfg s' ∅ := by
    obtain ⟨lists,valid⟩ := sound.listed
    refine ⟨lists,valid.stay same.links same.root fun x type idx zero member => ?_⟩
    have free := (valid.free x type idx zero member).resolve_left id
    rw [m.others]
    · exact .of_bare rfl
    · rintro rfl
      rw [able.split] at free
      cases free
    · exact fun sub => able.leaf.2.2 ((able.subchunk_state sub).symm.trans free)
  refine ⟨⟨sound.retree (m.shaped able sound.shaped) (m.counted able sound.shaped sound.counted)
    listed same.root same.updates kept busy,state,fun i => (kept i).inEviction⟩,fun i quiet => quiet.frame same.root fun x sameRoot pinned => ?_⟩
  rw [state,mergeStates] at pinned
  split at pinned
  next here =>
    -- A subchunk was pinned before.
    subst here
    exact ⟨x.child 0,sameRoot,(able.subchunk 0 (numSubchunks_pos s x)).trans pinned⟩
  next =>
    split at pinned
    next => cases pinned
    next => exact ⟨x,sameRoot,pinned⟩

/-! Preparing a merge. -/

def preparedStates (s : State) (p : ChunkId) (x : ChunkId) : ChunkState :=
  if p.IsSubchunk (numSubchunks s p) x then .tempPinned else (s.chunk x).state

omit sound in
/-- Pinning subchunks one by one: each leaves its list first. -/
theorem pinSubchunks_listed (listed : Listed cfg s ∅)
    (sub : ∀ i < n, chunkIsRootChunk s (p.child i) = false) :
    Listed cfg ((range n).foldl (fun s i => pinSubchunk s (p.child i)) s) ∅ ∧
      ((range n).foldl (fun s i => pinSubchunk s (p.child i)) s).root = s.root ∧
      ((range n).foldl (fun s i => pinSubchunk s (p.child i)) s).updates = s.updates := by
  induction n with
  | zero => exact ⟨listed,rfl,rfl⟩
  | succ n ih =>
    obtain ⟨before,root,updates⟩ := ih fun i bound => sub i (by omega)
    have size : chunkIsRootChunk ((range n).foldl (fun s i => pinSubchunk s (p.child i)) s)
        (p.child n) = false := by
      rw [← sub n (by omega)]
      unfold chunkIsRootChunk
      rw [pinSubchunks_chunk]
      split <;> rfl
    rw [range_succ,foldl_append]
    generalize (range n).foldl (fun s i => pinSubchunk s _) s = t at *
    have isRoot : chunkIsRootChunk t (p.child n) = true ↔ (p.child n).path = [] := by
      have sub : (p.child n).path ≠ [] := cons_ne_nil _ _
      simp [size,sub]
    have frame : (rootListUpdateLocked t (p.child n) .none .delInit).root = t.root ∧
        (rootListUpdateLocked t (p.child n) .none .delInit).updates = t.updates := by
      have size' : chunkIsRootChunk
          { t with links := linkUpdate t.links (p.child n) .delInit } (p.child n) = false := size
      unfold rootListUpdateLocked
      rw [if_neg (by rw [size']; decide)]
      exact ⟨rfl,rfl⟩
    have removed : Listed cfg (rootListUpdateLocked t (p.child n) .none .delInit) ∅ :=
      before.delInit isRoot (.inl rfl) fun _ none => none.elim
    have off : OffFree (rootListUpdateLocked t (p.child n) .none .delInit) (p.child n) :=
      offFree_delInit before
    refine ⟨?_,frame.1.trans root,frame.2.trans updates⟩
    obtain ⟨lists,valid⟩ := removed
    refine ⟨lists,valid.stay rfl rfl fun x type idx zero member => ?_⟩
    have other : x ≠ p.child n := by
      rintro rfl
      exact off lists valid.rep type idx zero member
    simp [pinSubchunk,other,Stays.of_bare]

/-- The part of `freeOrPrepareForMerge` after the last subchunk is freed. -/
def prepareMerge (s : State) (p : ChunkId) : State :=
  (((range (numSubchunks s p)).foldl (fun s i => pinSubchunk s (p.child i)) s).modifySuballoc
    (rootChunk p) fun a =>
      { a with pinnedLeafChunks := a.pinnedLeafChunks + BitVec.ofNat 32 (numSubchunks s p) }).modifySuballoc
    p fun a => { a with allocated := BitVec.ofNat 32 (numSubchunks s p) }

theorem prepareMerge_reshaped (free : ∀ i < numSubchunks s p, (s.chunk (p.child i)).state = .free) :
    Reshaped cfg s (prepareMerge s p) (preparedStates s p) ∧
      (prepareMerge s p).root = s.root := by
  have a : AllPinned s (prepareMerge s p) p (numSubchunks s p) := pinAll_allPinned s p _
  have sub (i : Nat) (bound : i < numSubchunks s p) : chunkIsRootChunk s (p.child i) = false := by
    have isRoot := sound.shaped.isRoot_iff (c := p.child i) fun _ => by simp [free i bound]
    simpa [ChunkId.child] using isRoot
  obtain ⟨pinned,root,updates⟩ := pinSubchunks_listed sound.listed sub
  have same : SameLists ((range (numSubchunks s p)).foldl (fun s i => pinSubchunk s (p.child i)) s)
      (prepareMerge s p) := ⟨rfl,rfl,rfl⟩
  have chunk (x : ChunkId) : ((prepareMerge s p).chunk x).bare =
      (((range (numSubchunks s p)).foldl (fun s i => pinSubchunk s (p.child i)) s).chunk x).bare := by
    unfold prepareMerge
    rw [modifySuballoc_chunk,modifySuballoc_chunk]
    rfl
  have root' : (prepareMerge s p).root = s.root := same.root.trans root
  have listed : Listed cfg (prepareMerge s p) ∅ := by
    obtain ⟨lists,valid⟩ := pinned
    exact ⟨lists,valid.stay same.links same.root fun x _ _ _ _ => .of_bare (chunk x)⟩
  have state (x : ChunkId) : ((prepareMerge s p).chunk x).state = preparedStates s p x := by
    unfold preparedStates
    split
    next sub => rw [a.subchunk x sub]
    next notSub => exact a.state_eq notSub
  exact ⟨⟨sound.retree (a.shaped free sound.shaped) (a.counted free sound.shaped sound.counted)
    listed root' (same.updates.trans updates) (fun i => a.kept _)
    fun i => a.state_eq (not_isSubchunk_root (c := p)) ▸ id,state,fun i => (a.kept _).inEviction⟩,
    root'⟩

omit sound in
/-- The states tell how many subchunks there are. -/
theorem numSubchunks_congr (shaped : Shaped cfg s) (shaped' : Shaped cfg s')
    (split : (s.chunk p).state = .isSplit) (split' : (s'.chunk p).state = .isSplit)
    (same : ∀ i, (s'.chunk (p.child i)).state = .pmaOwned ↔
      (s.chunk (p.child i)).state = .pmaOwned) : numSubchunks s' p = numSubchunks s p := by
  have bound (i : Nat) : i < numSubchunks s' p ↔ i < numSubchunks s p := by
    have before := shaped.exists_child (c := p) (i := i)
    have after := shaped'.exists_child (c := p) (i := i)
    simp only [split,split',true_and] at before after
    rw [← before,← after,ne_eq,same i]
  have left := bound (numSubchunks s p)
  have right := bound (numSubchunks s' p)
  omega

theorem Sound.numSubchunks_lt (split : (s.chunk p).state = .isSplit) :
    numSubchunks s p < 2 ^ 32 := by
  have supported := sound.shaped.supported (c := p) (by simp [split])
  calc numSubchunks s p ≤ 2 ^ (s.chunk p).log2Size := Nat.pow_le_pow_right (by decide) (Nat.sub_le _ _)
    _ ≤ 2 ^ chunkSizeMax := Nat.pow_le_pow_right (by decide) (supported_le supported)
    _ < 2 ^ 32 := by decide

/-- After the last busy subchunk is freed, all are free. -/
theorem last_freed {i : Nat} (done : Section cfg s s' (p.child i) .free)
    (busy : (s.chunk (p.child i)).state ≠ .free) (used : (s.chunk (p.child i)).state ≠ .pmaOwned)
    (last : chunkIsLastAllocatedChild s (p.child i) = true) :
    numSubchunks s' p = numSubchunks s p ∧ (s'.chunk p).state = .isSplit ∧
      ∀ j < numSubchunks s' p, (s'.chunk (p.child j)).state = .free := by
  obtain ⟨split,bound⟩ := sound.shaped.exists_child.mp used
  have notSelf : p ≠ p.child i := fun same => p.parent_ne (ChunkId.parent_eq.mpr ⟨i,same⟩)
  have split' : (s'.chunk p).state = .isSplit := by rw [done.state,if_neg notSelf,split]
  have number : numSubchunks s' p = numSubchunks s p := by
    refine numSubchunks_congr sound.shaped done.sound.shaped split split' fun j => ?_
    rw [done.state]
    split
    next here =>
      rw [here]
      simp [used]
    next => rfl
  refine ⟨number,split',?_⟩
  obtain ⟨a,found⟩ := Option.isSome_iff_exists.mp ((sound.shaped.suballoc p).mpr split)
  have one : busySubchunks s p = 1 := by
    have parent : (p.child i).parent = some p := rfl
    have exact := sound.counted.allocated p a found
    have small : busySubchunks s p < 2 ^ 32 := (countP_le_length.trans_eq
      length_range).trans_lt (sound.numSubchunks_lt split)
    simp only [chunkIsLastAllocatedChild,parent,found,Option.any_some,beq_iff_eq] at last
    rw [last] at exact
    have value := congrArg BitVec.toNat exact
    rw [BitVec.toNat_ofNat,Nat.mod_eq_of_lt small] at value
    exact value.symm
  have change := countP_range_change (n := numSubchunks s p) (i := i)
    (g := fun j => decide ((s'.chunk (p.child j)).state ≠ .free)) bound fun j other => by
      rw [done.state,if_neg fun same => other (ChunkId.child_inj.mp same).2]
  have freed : (s'.chunk (p.child i)).state = .free := by rw [done.state,if_pos rfl]
  have none : (range (numSubchunks s p)).countP
      (fun j => decide ((s'.chunk (p.child j)).state ≠ .free)) = 0 := by
    simp only [busy,freed,ne_eq,not_true_eq_false,not_false_eq_true,decide_true,decide_false,
      Bool.toNat_true,Bool.toNat_false] at change
    unfold busySubchunks at one
    simp only [ne_eq] at one ⊢
    omega
  intro j inside
  rw [number] at inside
  have free := countP_eq_zero.mp none j (mem_range.mpr inside)
  simpa using free

/-- What freeing a chunk for a merge can end in. -/
inductive FreeOutcome (cfg : Config) (s : State) (c : ChunkId) : State × Option ChunkId → Prop
  | freed (s' : State) (quiet : chunkIsInEviction s c = false) (done : Section cfg s s' c .free)
      (settled : Quiet s' c.root) : FreeOutcome cfg s c (s',none)
  | evicting (s' : State) (flag : chunkIsInEviction s c = true) (done : Section cfg s s' c .tempPinned) :
      FreeOutcome cfg s c (s',none)
  | merge (s' : State) (p : ChunkId) (i : Nat) (child : c = p.child i) (quiet : chunkIsInEviction s c = false)
      (split : (s.chunk p).state = .isSplit)
      (siblings : ∀ j < numSubchunks s p, j ≠ i → (s.chunk (p.child j)).state = .free)
      (done : Reshaped cfg s s' (preparedStates s p))
      (others : ∀ r, r ≠ c.root → Quiet s r → Quiet s' r) : FreeOutcome cfg s c (s',some p)

omit sound in
/-- The last busy subchunk of its parent is freed for a merge. -/
theorem freeOrPrepareForMerge_cases (cfg : Config) (hook : Hook) (s : State) (c : ChunkId) :
    freeOrPrepareForMerge cfg hook s c = (chunkFreeLocked cfg hook s c,none) ∨
      ∃ p i, c = p.child i ∧ chunkIsLastAllocatedChild s c = true ∧
        freeOrPrepareForMerge cfg hook s c = (prepareMerge (chunkFreeLocked cfg hook s c) p,some p) := by
  cases parent : c.parent with
  | none =>
    have notLast : chunkIsLastAllocatedChild s c = false := by
      simp [chunkIsLastAllocatedChild,parent]
    exact .inl (by simp [freeOrPrepareForMerge,parent,tryChunkFree,notLast])
  | some p =>
    cases last : chunkIsLastAllocatedChild s c with
    | false => exact .inl (by simp [freeOrPrepareForMerge,parent,last])
    | true =>
      obtain ⟨i,rfl⟩ := ChunkId.parent_eq.mp parent
      refine .inr ⟨p,i,rfl,rfl,?_⟩
      simp only [freeOrPrepareForMerge,last]
      rfl

theorem freeOrPrepareForMerge_outcome (state : (s.chunk c).state = .tempPinned ∨ (s.chunk c).state = .allocated)
    (mapped : chunkIsInEviction s c = true → (s.chunk c).state = .allocated)
    (safe : ¬(chunkIsInEviction s c = true ∧ chunkIsLastAllocatedChild s c = true)) :
    FreeOutcome cfg s c (freeOrPrepareForMerge cfg hook s c) := by
  have used : (s.chunk c).state ≠ .pmaOwned := by rcases state with state | state <;> simp [state]
  have busy : (s.chunk c).state ≠ .free := by rcases state with state | state <;> simp [state]
  rcases freeOrPrepareForMerge_cases cfg hook s c with result | ⟨p,i,rfl,last,result⟩
  · rw [result]
    cases flag : chunkIsInEviction s c with
    | true => exact .evicting _ flag (chunkFreeLocked_evicting sound flag (mapped flag))
    | false =>
      obtain ⟨done,settled⟩ := chunkFreeLocked_section sound flag state
      exact .freed _ flag done settled
  · have quiet : chunkIsInEviction s (p.child i) = false :=
      Bool.eq_false_iff.mpr fun flag => safe ⟨flag,last⟩
    obtain ⟨done,settled⟩ := chunkFreeLocked_section sound quiet state
    obtain ⟨number,split,free⟩ := last_freed sound done busy used last
    obtain ⟨prepared,root⟩ := prepareMerge_reshaped done.sound free
    rw [result]
    refine .merge _ p i rfl quiet (sound.shaped.exists_child.mp used).1 (fun j bound other => ?_)
      ⟨prepared.sound,fun x => ?_,fun r => (prepared.inEviction r).trans (done.inEviction r)⟩
      fun r other before => (done.quiet r before).frame root fun x sameRoot pinned => ?_
    · have now := free j (number ▸ bound)
      rwa [done.state,if_neg fun same => other (ChunkId.child_inj.mp same).2] at now
    · rw [prepared.state,preparedStates,preparedStates,number]
      split
      · rfl
      next notSub =>
        rw [done.state,if_neg]
        rintro rfl
        obtain ⟨_,bound⟩ := sound.shaped.exists_child.mp used
        exact notSub (isSubchunk_child.mpr ⟨rfl,bound⟩)
    · have notSub : ¬p.IsSubchunk (numSubchunks (chunkFreeLocked cfg hook s (p.child i)) p) x :=
        fun sub => other (sameRoot.symm.trans sub.1)
      rw [prepared.state,preparedStates,if_neg notSub] at pinned
      exact ⟨x,sameRoot,pinned⟩

/-! Freeing the siblings of a split chunk. -/

theorem freeAll_reshaped {indices : List Nat} (distinct : indices.Nodup)
    (quiet : chunkIsInEviction s p = false)
    (pinned : ∀ i ∈ indices, (s.chunk (p.child i)).state = .tempPinned) :
    Reshaped cfg s (indices.foldl (fun s i => chunkFreeLocked cfg hook s (p.child i)) s)
        (fun x => if ∃ i ∈ indices, x = p.child i then .free else (s.chunk x).state) ∧
      ∀ r, Quiet s r →
        Quiet (indices.foldl (fun s i => chunkFreeLocked cfg hook s (p.child i)) s) r := by
  induction indices generalizing s with
  | nil => exact ⟨⟨sound,by simp,fun _ => rfl⟩,fun _ => id⟩
  | cons i rest ih =>
    obtain ⟨absent,distinct⟩ := nodup_cons.mp distinct
    have done : Section cfg s (chunkFreeLocked cfg hook s (p.child i)) (p.child i) .free :=
      (chunkFreeLocked_section (c := p.child i) sound quiet (.inl (pinned i (by simp)))).1
    have other (j : Nat) (member : j ∈ rest) : p.child j ≠ p.child i := fun same =>
      absent ((ChunkId.child_inj.mp same).2 ▸ member)
    obtain ⟨tail,quiets⟩ := ih done.sound distinct ((done.inEviction _).trans quiet)
      fun j member => by
        rw [done.state,if_neg (other j member)]
        exact pinned j (by simp [member])
    refine ⟨⟨tail.sound,fun x => ?_,fun r => (tail.inEviction r).trans (done.inEviction r)⟩,
      fun r before => quiets r (done.quiet r before)⟩
    rw [foldl_cons,tail.state]
    by_cases later : ∃ j ∈ rest, x = p.child j
    · obtain ⟨j,member,here⟩ := later
      rw [if_pos ⟨j,member,here⟩,if_pos ⟨j,by simp [member],here⟩]
    · rw [if_neg later,done.state]
      by_cases here : x = p.child i
      · rw [if_pos here,if_pos ⟨i,by simp,here⟩]
      · rw [if_neg here,if_neg]
        rintro ⟨j,member,equal⟩
        rcases mem_cons.mp member with rfl | member
        · exact here equal
        · exact later ⟨j,member,equal⟩

def siblingStates (s : State) (p : ChunkId) (x : ChunkId) : ChunkState :=
  if p.IsSubchunk (numSubchunks s p) x ∧ x ≠ p.child 0 then .free else (s.chunk x).state

/-- All subchunks but the first are freed. -/
theorem freeSiblings_reshaped (quiet : chunkIsInEviction s p = false)
    (pinned : ∀ i < numSubchunks s p, (s.chunk (p.child i)).state = .tempPinned) :
    Reshaped cfg s (freeSiblings cfg hook s p) (siblingStates s p) ∧
      ∀ r, Quiet s r → Quiet (freeSiblings cfg hook s p) r := by
  have member (i : Nat) : i ∈ range' 1 (numSubchunks s p - 1) ↔
      1 ≤ i ∧ i < numSubchunks s p := by
    rw [mem_range'_1]
    omega
  have all : Reshaped cfg s (freeSiblings cfg hook s p) _ ∧
      ∀ r, Quiet s r → Quiet (freeSiblings cfg hook s p) r :=
    freeAll_reshaped sound nodup_range' quiet fun i inside => pinned i ((member i).mp inside).2
  obtain ⟨done,quiets⟩ := all
  refine ⟨⟨done.sound,fun x => (done.state x).trans ?_,done.inEviction⟩,quiets⟩
  congr 1
  rw [eq_iff_iff,isSubchunk_iff]
  constructor
  · rintro ⟨i,inside,rfl⟩
    have bounds := (member i).mp inside
    refine ⟨⟨i,bounds.2,rfl⟩,fun same => ?_⟩
    have := (ChunkId.child_inj.mp same).2
    omega
  · rintro ⟨⟨i,bound,rfl⟩,other⟩
    have positive : i ≠ 0 := fun zero => other (by rw [zero])
    exact ⟨i,(member i).mpr ⟨by omega,bound⟩,rfl⟩

end

end GpuExt.Pmm
