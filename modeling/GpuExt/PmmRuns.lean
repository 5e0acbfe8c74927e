import GpuExt.PmmEvicting

/-! Runs of any number of threads. Two steps can break the bookkeeping, both of them when an
eviction meets a free: the cleanup of a failed eviction takes every pinned chunk for its own,
and a free that has to merge does not look again whether an eviction has started. `Safe` rules
out exactly these two situations. -/
namespace GpuExt.Pmm

open ListHead List Option

variable {cfg : Config} {s s' : System} {owner : ChunkId → Owner} {t : Thread} {o : Oracle} {pc : Pc}

/-- The next section of a thread at `pc` meets no chunk that an eviction and somebody else
both take for their own. -/
def SafeAdvance (s : System) (t : Thread) : Pc → Prop
  | .cleanup _ _ (c :: _) => (s.pmm.chunk c).state = .tempPinned →
      (∀ pinned, ⟨c,pinned⟩ ∉ s.held) ∧ (∀ u, u ≠ t → ¬(s.pc u).Holds c) ∧
        chunkIsInEviction s.pmm c = false
  | .freeMerge _ c => ¬(chunkIsInEviction s.pmm c = true ∧ chunkIsLastAllocatedChild s.pmm c = true)
  | _ => True

def Safe (s : System) : Event → Prop
  | .thread t .advance _ => SafeAdvance s t (s.pc t)
  | _ => True

/-- Every step of the run is safe in the state in which it is taken. -/
def SafeRun (cfg : Config) : List Event → System → Prop
  | [], _ => True
  | event :: events, s => Safe s event ∧ ∀ s', step cfg s event = some s' → SafeRun cfg events s'

/-- Nobody owns the chunk that a safe cleanup takes. -/
theorem Inv.cleanup_nobody (inv : Inv cfg s owner) {goal : Goal} {r : RootId} {c : ChunkId}
    {todo : List ChunkId} (here : s.pc t = .cleanup goal r (c :: todo))
    (safe : SafeAdvance s t (.cleanup goal r (c :: todo)))
    (pinned : (s.pmm.chunk c).state = .tempPinned) :
    owner c = .nobody ∧ chunkIsInEviction s.pmm c = false := by
  obtain ⟨notHeld,notTheirs,calm⟩ := safe pinned
  refine ⟨?_,calm⟩
  cases own : owner c with
  | nobody => rfl
  | caller b => exact absurd ((inv.held.iff c b).mpr own) (notHeld b)
  | thread u =>
    have holds := (inv.thread c u own).1
    by_cases same : u = t
    · rw [same,here] at holds
      exact holds.elim
    · exact absurd holds (notTheirs u same)

theorem Inv.advance (inv : Inv cfg s owner) (here : s.pc t = pc) (safe : SafeAdvance s t pc)
    (run : advance cfg o t s pc = some s') : Owned cfg s' := by
  cases pc with
  | idle => cases run
  | lockWait request => exact inv.advance_lockWait here run
  | withSplits request sizes => exact inv.advance_withSplits here run
  | allocRoot request => exact inv.advance_allocRoot here run
  | initRoots request isZero first pending => exact inv.advance_initRoots here run
  | splitDown request size c => exact inv.advance_splitDown here run
  | freeSiblings request size parent => exact inv.advance_freeSiblings here run
  | freeWait type c => exact inv.advance_freeWait here run
  | freeMerge after c => exact inv.advance_freeMerge here safe run
  | mergeParent after parent => exact inv.advance_mergeParent here run
  | freeNext type after => exact inv.advance_freeNext here run
  | freeRoot r heir after => exact inv.advance_freeRoot here run
  | splitWalk c pinned minSize todo => exact inv.advance_splitWalk here run
  | mergeWalk c after =>
    cases after with
    | caller pinned => exact inv.mergeWalk_caller here run
    | evict goal => exact inv.mergeWalk_evict here run
  | pickWait goal => exact inv.advance_pickWait here run
  | pick goal => exact inv.advance_pick here run
  | evictWait r => exact inv.advance_evictWait here run
  | evictPin goal r todo => exact inv.advance_evictPin here run
  | evictFind goal r todo => exact inv.advance_evictFind here run
  | evictBlock goal r => exact inv.advance_evictBlock here run
  | evictDone goal r => exact inv.advance_evictDone here run
  | evicted goal r => exact inv.advance_evicted here run
  | evictError goal r => exact inv.advance_evictError here run
  | cleanup goal r todo =>
    refine inv.advance_cleanup here (fun c first pinned => ?_) run
    cases todo with
    | nil => cases first
    | cons d todo =>
      cases first
      exact inv.cleanup_nobody here safe pinned

theorem Inv.pma_event (inv : Inv cfg s owner) {r : RootId} {heir : PmaOwner} (foreign : s.pma r ≠ .uvm) :
    Inv cfg { s with pma := Function.update s.pma r heir } owner := by
  refine ⟨inv.sound,inv.held,inv.caller,inv.thread,inv.lock,inv.evicting,inv.unique,inv.pinned,
    inv.quiet,fun i used => ?_,inv.good⟩
  have uvm := inv.pma i used
  have other : i ≠ r := fun same => foreign (same ▸ uvm)
  exact (Function.update_of_ne other _ _).trans uvm

theorem Inv.event {event : Event} (inv : Inv cfg s owner) (safe : Safe s event)
    (run : Pmm.step cfg s event = some s') : Owned cfg s' := by
  cases event with
  | thread t action o =>
    by_cases moving : action = .advance
    · subst moving
      exact inv.advance rfl safe run
    · have starts : (if s.pc t = .idle then Pmm.begin cfg o t s action else none) = some s' := by
        cases action <;> first | exact run | exact absurd rfl moving
      split at starts
      next idle => exact inv.begin idle starts
      next => cases starts
  | rmAlloc r =>
    rw [Pmm.step] at run
    split at run
    next free =>
      cases run
      exact ⟨owner,inv.pma_event (by rw [free]; decide)⟩
    next => cases run
  | rmFree r =>
    rw [Pmm.step] at run
    split at run
    next rm =>
      cases run
      exact ⟨owner,inv.pma_event (by rw [rm]; decide)⟩
    next => cases run

theorem init_chunk (id : Nat) (c : ChunkId) :
    ((init id).chunk c).state = .pmaOwned ∧ ((init id).chunk c).suballoc = none ∧
      ((init id).chunk c).inEviction = false := by
  unfold init
  dsimp only
  split <;> exact ⟨rfl,rfl,rfl⟩

theorem shaped_init (id : Nat) : Shaped cfg (init id) := by
  have state (c : ChunkId) : ((init id).chunk c).state = .pmaOwned := (init_chunk id c).1
  refine ⟨fun r => ⟨rfl,rfl⟩,fun c i _ => rfl,fun c split => ?_,fun c => ?_,fun r => ?_⟩
  · rw [state] at split
    cases split
  · rw [state,(init_chunk id c).2.1]
    simp
  · refine Set.Finite.subset Set.finite_empty ?_
    rintro c ⟨_,used⟩
    exact used (state c)

theorem listed_init (id : Nat) : Listed cfg (init id) ∅ := by
  refine ⟨fun _ => [],represents_unlinked,fun r list => ?_,fun c list _ member => ?_,
    fun c type idx zero member => ?_,fun r => by simp [init]⟩
  · simp [init]
  · cases member
  · cases member

theorem sound_init (id : Nat) : Sound cfg (init id) where
  shaped := shaped_init id
  counted := by
    refine ⟨fun c a found => ?_,fun r a found => ?_⟩ <;> rw [(init_chunk id _).2.1] at found <;>
      cases found
  listed := listed_init id
  logged := ⟨trivial,fun _ => rfl,fun _ => rfl⟩
  placed r inUse := by
    rcases inUse with used | unused
    · cases used
    · cases unused
  evicting r flag := by
    rw [(init_chunk id _).2.2] at flag
    cases flag

theorem inv_start (id : Nat) : Inv cfg (System.start id) fun _ => .nobody where
  sound := sound_init id
  held := ⟨nodup_nil,by simp [System.start]⟩
  caller _ _ own := by cases own
  thread _ _ own := by cases own
  lock _ := by simp [System.start,Pc.locked]
  evicting r := by
    have calm : (System.start id).inEviction r = false := (init_chunk id _).2.2
    rw [calm]
    simp [System.start,Pc.evicts]
  unique _ _ _ evicts := by cases evicts
  pinned _ _ _ := rfl
  quiet r := .inl fun inUse => by
    rcases inUse with used | unused
    · cases used
    · cases unused
  pma r used := by
    have state : (System.start id).state (.ofRoot r) = .pmaOwned := (init_chunk id _).1
    rw [state] at used
    simp at used
  good _ := trivial

theorem Inv.run {events : List Event} (inv : Inv cfg s owner) (safe : SafeRun cfg events s)
    (run : execute cfg events s = some s') : Owned cfg s' := by
  induction events generalizing s owner with
  | nil =>
    cases run
    exact ⟨owner,inv⟩
  | cons event events ih =>
    obtain ⟨middle,stepped,rest⟩ := bind_eq_some_iff.mp run
    obtain ⟨owner',inv'⟩ := inv.event safe.1 stepped
    exact ih inv' (safe.2 middle stepped) rest

/-! The lists of the roots. -/

/-- The list node of a root is where its list state says. -/
structure RootLists (cfg : Config) (s : State) (lists : ListId → List ChunkId) (r : RootId) : Prop where
  used : .ofRoot r ∈ lists .vaBlockUsed ↔ (s.root r).listState = .vaBlockUsed
  unused : .ofRoot r ∈ lists .vaBlockUnused ↔ (s.root r).listState = .vaBlockUnused
  free : .ofRoot r ∈ lists (findFreeList cfg (s.chunk (.ofRoot r)).type chunkSizeMax
    (s.chunk (.ofRoot r)).isZero) ↔ (s.root r).listState = .free
  none : (∀ list, .ofRoot r ∉ lists list) ↔
    (s.root r).listState = .none ∨ (s.root r).listState = .eviction
  single : ∀ list list', .ofRoot r ∈ lists list → .ofRoot r ∈ lists list' → list = list'
  once : ∀ list, (lists list).count (.ofRoot r) ≤ 1

/-- The links form lists that agree with all list states, and every generation counts the
list updates that have changed the state of its root. -/
structure Bookkept (cfg : Config) (s : State) : Prop where
  lists : ∃ lists, Represents s.links lists ∧ ∀ r, RootLists cfg s lists r
  generation : Logged s

theorem Sound.bookkept {s : State} (sound : Sound cfg s) : Bookkept cfg s := by
  obtain ⟨lists,valid⟩ := sound.listed
  refine ⟨⟨lists,valid.rep,fun r => ?_⟩,sound.logged⟩
  have own : findFreeListChunk cfg s (.ofRoot r) = findFreeList cfg (s.chunk (.ofRoot r)).type
      chunkSizeMax (s.chunk (.ofRoot r)).isZero := by
    rw [findFreeListChunk,(sound.shaped.root r).1]
  have named (list : ListId) := valid.root r list
  refine ⟨?_,?_,?_,?_,fun list list' => valid.rep.apart list list' _,fun list =>
    nodup_iff_count_le_one.mp (valid.rep.nodup list) _⟩
  all_goals cases state : (s.root r).listState with
    | lazyFree => exact absurd state (valid.lazy r)
    | _ => simp [named,state,own,findFreeList]

def twoSizes : Config := ⟨fun _ => 2 ^ 21 + 2 ^ 20,fun _ => by decide,fun _ => by decide⟩

/-- An environment in which nothing fails and the policy asks for nothing. -/
def fairOracle : Oracle where
  hook _ _ := ⟨[],0⟩
  elevated _ := false
  fuel := 100
  memory := true
  granted := []
  isZero := false
  evicted := none
  success := true
  inUse := false
  inRange := true

/-- Thread 0 evicts root 0 for an allocation and fails. Thread 1 frees the root meanwhile,
so that it stays pinned, and allocates it again before the cleanup has reached it: the
cleanup frees a chunk that thread 1 holds, and the unpin links a node that is on a list. -/
def cleanupRace : List Event :=
  [.thread 0 (.alloc ⟨.user,21,false⟩) fairOracle,
    .thread 0 .advance { fairOracle with granted := [0] },
    .thread 0 .advance fairOracle,.thread 0 .advance fairOracle,
    .thread 0 (.unpin (.ofRoot 0) 7 0 false) fairOracle,
    .thread 0 (.alloc ⟨.user,21,true⟩) fairOracle] ++
  replicate 6 (.thread 0 .advance fairOracle) ++
  [.thread 1 (.free (.ofRoot 0) false) fairOracle,.thread 1 .advance fairOracle,
    .thread 0 .advance { fairOracle with success := false },
    .thread 0 .advance fairOracle,.thread 0 .advance fairOracle,.thread 0 .advance fairOracle,
    .thread 1 (.alloc ⟨.user,21,false⟩) fairOracle,
    .thread 0 .advance fairOracle,.thread 0 .advance fairOracle,
    .thread 1 (.unpin (.ofRoot 0) 8 0 false) fairOracle]

theorem rootLists_bookkept {id : Nat} {events : List Event}
    (safe : SafeRun cfg events (System.start id))
    (run : execute cfg events (System.start id) = some s) : Bookkept cfg s.pmm := by
  obtain ⟨owner,inv⟩ := (inv_start id).run safe run
  exact inv.sound.bookkept

/-- Thread 0 gets half of root 0. -/
def halfRoot : List Event :=
  .thread 0 (.alloc ⟨.user,20,false⟩) fairOracle ::
  replicate 5 (.thread 0 .advance fairOracle) ++
  [.thread 0 .advance { fairOracle with granted := [0] }] ++
  replicate 5 (.thread 0 .advance fairOracle)

/-- The root was split, a policy moves it to the head when the half is unpinned, and thread 1 evicts
it. -/
def evictedHalf : List Event :=
  halfRoot ++ [.thread 0 (.unpin ⟨0,[0]⟩ 7 0 false)
      { fairOracle with hook := fun _ _ => ⟨[(2,1)],1⟩ },
    .thread 1 (.evictRange 0) fairOracle,.thread 1 .advance fairOracle]

theorem rootLists_bookkept_evicted : ∃ s, execute twoSizes evictedHalf (System.start 0) = some s ∧
    s.inEviction 0 = true ∧ Bookkept twoSizes s.pmm := by
  have completes : (execute twoSizes evictedHalf (System.start 0)).map (·.inEviction 0) =
      some true := by decide +kernel
  obtain ⟨s,run,evicting⟩ := map_eq_some_iff.mp completes
  refine ⟨s,run,evicting,rootLists_bookkept ?_ run⟩
  iterate 15
    refine ⟨trivial,?_⟩
    rintro _ ⟨⟩
  trivial

theorem cleanupRace_unlisted : ∃ s, execute twoSizes cleanupRace (System.start 0) = some s ∧
    ¬∃ lists, Represents s.pmm.links lists ∧ ∀ r, RootLists twoSizes s.pmm lists r := by
  have completes : (execute twoSizes cleanupRace (System.start 0)).isSome := by decide +kernel
  obtain ⟨s,run⟩ := isSome_iff_exists.mp completes
  have heads : ((execute twoSizes cleanupRace (System.start 0)).map fun s =>
      (listFirstChunk s.pmm .vaBlockUsed,listFirstChunk s.pmm (findFreeList twoSizes .user 21 false))) =
      some (some (.ofRoot 0),some (.ofRoot 0)) := by decide +kernel
  rw [run,map_some,some.injEq,Prod.mk.injEq] at heads
  refine ⟨s,run,fun ⟨lists,rep,roots⟩ => ?_⟩
  cases (roots 0).single _ _ (listFirstChunk_mem rep heads.1) (listFirstChunk_mem rep heads.2)

/-! The counters. -/

structure Exact (s : State) : Prop where
  pinned : ∀ r, (s.chunk (.ofRoot r)).state = .isSplit → ∃ a, (s.chunk (.ofRoot r)).suballoc = some a ∧
    a.pinnedLeafChunks.toNat = (pinnedLeaves s r).ncard
  allocated : ∀ c, (s.chunk c).state = .isSplit → ∃ a, (s.chunk c).suballoc = some a ∧
    a.allocated.toNat = busySubchunks s c

theorem Sound.exact {s : State} (sound : Sound cfg s) : Exact s := by
  refine ⟨fun r split => ?_,fun c split => ?_⟩
  · obtain ⟨a,found⟩ := isSome_iff_exists.mp ((sound.shaped.suballoc _).mpr split)
    refine ⟨a,found,?_⟩
    rw [sound.counted.pinned r a found]
    refine Nat.mod_eq_of_lt ((sound.shaped.pinned_le r).trans_lt ?_)
    decide
  · obtain ⟨a,found⟩ := isSome_iff_exists.mp ((sound.shaped.suballoc _).mpr split)
    refine ⟨a,found,?_⟩
    rw [sound.counted.allocated c a found]
    exact Nat.mod_eq_of_lt ((countP_le_length.trans_eq
      length_range).trans_lt (sound.numSubchunks_lt split))

/-- Freeing the last allocated subchunk leaves none. -/
theorem Inv.none_left {after : AfterFree} {c p : ChunkId} {hook : Hook} (inv : Inv cfg s owner)
    (here : s.pc t = .freeMerge after c) (safe : SafeAdvance s t (.freeMerge after c))
    (parent : c.parent = some p) (last : chunkIsLastAllocatedChild s.pmm c = true) :
    ∃ a, ((chunkFreeLocked cfg hook s.pmm c).chunk p).suballoc = some a ∧ a.allocated = 0 := by
  obtain ⟨_,state⟩ := inv.good_at here
  have quiet : chunkIsInEviction s.pmm c = false := by
    cases flag : chunkIsInEviction s.pmm c with
    | true => exact absurd ⟨flag,last⟩ safe
    | false => rfl
  obtain ⟨i,rfl⟩ := ChunkId.parent_eq.mp parent
  have busy : (s.pmm.chunk (p.child i)).state ≠ .free ∧
      (s.pmm.chunk (p.child i)).state ≠ .pmaOwned := by
    have same : (s.pmm.chunk (p.child i)).state = .tempPinned ∨
      (s.pmm.chunk (p.child i)).state = .allocated := state
    rcases same with same | same <;> simp [same]
  have done : Section cfg s.pmm (chunkFreeLocked cfg hook s.pmm (p.child i)) (p.child i) .free :=
    (chunkFreeLocked_section inv.sound quiet state).1
  obtain ⟨_,split,free⟩ := last_freed inv.sound done busy.1 busy.2 last
  obtain ⟨a,found⟩ := isSome_iff_exists.mp ((done.sound.shaped.suballoc p).mpr split)
  refine ⟨a,found,?_⟩
  have none : busySubchunks (chunkFreeLocked cfg hook s.pmm (p.child i)) p = 0 := by
    refine countP_eq_zero.mpr fun j inside => ?_
    simp [free j (mem_range.mp inside)]
  rw [done.sound.counted.allocated p a found,none]
  rfl

theorem counters_exact {id : Nat} {events : List Event}
    (safe : SafeRun cfg events (System.start id))
    (run : execute cfg events (System.start id) = some s) :
    Exact s.pmm ∧ ∀ t after c p hook, s.pc t = .freeMerge after c →
      SafeAdvance s t (.freeMerge after c) → c.parent = some p →
      chunkIsLastAllocatedChild s.pmm c = true →
      ∃ a, ((chunkFreeLocked cfg hook s.pmm c).chunk p).suballoc = some a ∧ a.allocated = 0 := by
  obtain ⟨owner,inv⟩ := (inv_start id).run safe run
  exact ⟨inv.sound.exact,fun t after c p hook here next => inv.none_left here next⟩

/-- Thread 0 frees the only chunk that it got from root 0. -/
def lastFree : List Event :=
  halfRoot ++ [.thread 0 (.unpin ⟨0,[0]⟩ 7 0 false) fairOracle,.thread 0 (.free ⟨0,[0]⟩ false) fairOracle]

/-- Before it has got the mutex for the merge, thread 1 starts to evict the root. -/
def lateEviction : List Event :=
  lastFree ++ [.thread 1 (.evictRange 0) fairOracle,.thread 0 .advance fairOracle]

theorem lateEviction_safe : SafeRun twoSizes lateEviction (System.start 0) := by
  iterate 16
    refine ⟨trivial,?_⟩
    rintro _ ⟨⟩
  trivial

theorem counters_exact_last : ∃ s,
    execute twoSizes (lastFree ++ [.thread 0 .advance fairOracle]) (System.start 0) = some s ∧
      Exact s.pmm ∧ ∃ a, ((chunkFreeLocked twoSizes fairOracle.hook s.pmm ⟨0,[0]⟩).chunk
        (.ofRoot 0)).suballoc = some a ∧ a.allocated = 0 := by
  have completes : (execute twoSizes (lastFree ++ [.thread 0 .advance fairOracle])
      (System.start 0)).isSome := by decide +kernel
  obtain ⟨s,run⟩ := isSome_iff_exists.mp completes
  have safe : SafeRun twoSizes (lastFree ++ [.thread 0 .advance fairOracle]) (System.start 0) := by
    iterate 15
      refine ⟨trivial,?_⟩
      rintro _ ⟨⟩
    trivial
  have facts : ((execute twoSizes (lastFree ++ [.thread 0 .advance fairOracle])
      (System.start 0)).map fun s => (s.pc 0,chunkIsInEviction s.pmm ⟨0,[0]⟩,
        chunkIsLastAllocatedChild s.pmm ⟨0,[0]⟩)) =
      some (.freeMerge (.freed .user) ⟨0,[0]⟩,false,true) := by decide +kernel
  rw [run,map_some,some.injEq] at facts
  simp only [Prod.mk.injEq] at facts
  obtain ⟨here,calm,last⟩ := facts
  have next : SafeAdvance s 0 (.freeMerge (.freed .user) ⟨0,[0]⟩) := by
    rintro ⟨flag,_⟩
    rw [calm] at flag
    cases flag
  obtain ⟨exact,left⟩ := counters_exact safe run
  exact ⟨s,run,exact,left 0 _ _ _ fairOracle.hook here next rfl last⟩

/-- The section that frees the last subchunk of a root in eviction touches only that root
and its subchunks. -/
theorem freeOrPrepareForMerge_state {s : State} {hook : Hook} {c x p : ChunkId} {n : Nat}
    (evicting : chunkIsInEviction s c = true) (parent : c.parent = some p)
    (last : chunkIsLastAllocatedChild s c = true) (other : x ≠ c)
    (number : numSubchunks (chunkFreeLocked cfg hook s c) p = n) (notSub : ¬p.IsSubchunk n x) :
    ((freeOrPrepareForMerge cfg hook s c).1.chunk x).state = (s.chunk x).state := by
  have freed : ((chunkFreeLocked cfg hook s c).chunk x).state = (s.chunk x).state := by
    simp only [chunkFreeLocked,evicting,if_true,chunkPin]
    split <;> simp [Chunk.count,other]
  simp [freeOrPrepareForMerge,parent,last,number,pinSubchunks_chunk,if_neg notSub,Chunk.count,freed]

theorem execute_append (xs ys : List Event) (s : System) :
    execute cfg (xs ++ ys) s = (execute cfg xs s).bind (execute cfg ys) := by
  induction xs generalizing s with
  | nil => rfl
  | cons event xs ih =>
    rw [cons_append,execute,execute,bind_assoc]
    exact congrArg _ (funext ih)

theorem lateEviction_miscounts : ∃ s,
    execute twoSizes (lateEviction ++ [.thread 0 .advance fairOracle]) (System.start 0) = some s ∧
      ¬Exact s.pmm := by
  have completes : (execute twoSizes lateEviction (System.start 0)).isSome := by decide +kernel
  obtain ⟨s,run⟩ := isSome_iff_exists.mp completes
  obtain ⟨owner,inv⟩ := (inv_start 0).run lateEviction_safe run
  have facts : ((execute twoSizes lateEviction (System.start 0)).map fun s =>
      (s.pc 0,(s.pmm.chunk (.ofRoot 0)).state,preOrder s.pmm (.ofRoot 0),
        chunkIsInEviction s.pmm ⟨0,[0]⟩,chunkIsLastAllocatedChild s.pmm ⟨0,[0]⟩)) =
      some (.freeMerge (.freed .user) ⟨0,[0]⟩,.isSplit,[.ofRoot 0,⟨0,[0]⟩,⟨0,[1]⟩],true,true) := by
    decide +kernel
  have after : ((execute twoSizes lateEviction (System.start 0)).map fun s =>
      let freed := freeOrPrepareForMerge twoSizes fairOracle.hook s.pmm ⟨0,[0]⟩
      (freed.2,(freed.1.chunk (.ofRoot 0)).state,
        (freed.1.chunk (.ofRoot 0)).suballoc.map (·.pinnedLeafChunks),
        numSubchunks (chunkFreeLocked twoSizes fairOracle.hook s.pmm ⟨0,[0]⟩) (.ofRoot 0))) =
      some (some (.ofRoot 0),.isSplit,some 3#32,2) := by decide +kernel
  rw [run,map_some,some.injEq] at facts after
  simp only [Prod.mk.injEq] at facts after
  obtain ⟨here,top,walk,evicting,last⟩ := facts
  obtain ⟨merged,split,counter,number'⟩ := after
  generalize result : freeOrPrepareForMerge twoSizes fairOracle.hook s.pmm ⟨0,[0]⟩ = freed at *
  obtain ⟨pmm,found⟩ := freed
  cases merged
  have final : execute twoSizes (lateEviction ++ [.thread 0 .advance fairOracle]) (System.start 0) =
      some ({ s with pmm }.goto 0 (.mergeParent (.freed .user) (.ofRoot 0))) := by
    rw [execute_append,run,bind_some,execute,step,here,advance,result]
    rfl
  refine ⟨_,final,fun exact => ?_⟩
  -- Only the two subchunks can be pinned, but the counter says three.
  have few : pinnedLeaves pmm 0 ⊆ {⟨0,[0]⟩,⟨0,[1]⟩} := by
    rintro x ⟨root,pinned⟩
    by_contra absent
    simp only [Set.mem_insert_iff,Set.mem_singleton_iff,not_or] at absent
    have notSub : ¬(ChunkId.ofRoot 0).IsSubchunk 2 x := by
      intro sub
      obtain ⟨i,bound,rfl⟩ := isSubchunk_iff.mp sub
      have either : i = 0 ∨ i = 1 := by omega
      rcases either with rfl | rfl
      · exact absent.1 rfl
      · exact absent.2 rfl
    have frame := freeOrPrepareForMerge_state (p := .ofRoot 0) evicting rfl last absent.1 number'
      notSub
    rw [result,pinned] at frame
    have member := mem_preOrder inv.sound.shaped (root ▸ x.root_under) (by simp [← frame])
    rw [walk] at member
    obtain rfl : x = .ofRoot 0 := by simpa [absent] using member
    simp [top] at frame
  obtain ⟨a,found,count⟩ := exact.pinned 0 split
  have three : a.pinnedLeafChunks = 3#32 := by
    have counted : (pmm.chunk (.ofRoot 0)).suballoc.map (·.pinnedLeafChunks) = some 3#32 := counter
    have same : (pmm.chunk (.ofRoot 0)).suballoc = some a := found
    rw [same] at counted
    exact some.inj counted
  have two : (pinnedLeaves pmm 0).ncard ≤ 2 := by
    refine (Set.ncard_le_ncard few (Set.toFinite _)).trans ((Set.ncard_insert_le _ _).trans ?_)
    rw [Set.ncard_singleton]
  rw [three] at count
  exact absurd (count.trans_le two) (by decide)

end GpuExt.Pmm
