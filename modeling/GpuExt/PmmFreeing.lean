import GpuExt.PmmAllocation

/-! The later sections of a free keep the invariant, as long as no eviction of the same root
has started since the chunk was found to be the last one of its parent. -/
namespace GpuExt.Pmm

variable {cfg : Config} {s s' : System} {owner owner' : ChunkId → Owner} {t u : Thread} {old pc : Pc}
  {c x : ChunkId} {q : ChunkState} {r : RootId} {o : Oracle} {type : MemoryType} {after : AfterFree}
  {root : AfterRoot}

theorem afterFree_returns (s : System) (t : Thread) (after : AfterFree) (locked : old.locked = true) :
    ∃ pc, Returns s t old (afterFree s t after) pc := by
  cases after with
  | freed | splitFailed => exact ⟨_,returns_unlock locked rfl rfl rfl fun _ _ => trivial⟩
  | cleanup goal r => exact ⟨_,returns_goto locked.symm rfl rfl fun _ _ => trivial⟩

theorem afterRoot_returns (s : System) (t : Thread) (root : AfterRoot) (locked : old.locked = (root != .done)) :
    ∃ pc, Returns s t old (afterRoot s t root) pc := by
  cases root with
  | done => exact ⟨_,returns_goto locked.symm rfl rfl fun _ _ => trivial⟩
  | evictFailed goal => exact evictFailed_returns s t goal locked
  | retry goal =>
    cases goal with
    | alloc | pages => exact ⟨_,returns_goto locked.symm rfl rfl fun _ _ => trivial⟩
    | range => exact ⟨_,returns_unlock locked rfl rfl rfl fun _ _ => trivial⟩

section Free

variable (inv : Inv cfg s owner)
include inv

theorem Inv.advance_freeWait (here : s.pc t = .freeWait type c)
    (run : advance cfg o t s (.freeWait type c) = some s') : Owned cfg s' := by
  obtain ⟨free,rfl⟩ := System.acquire_some run
  have good : owner c = .thread t ∧ (s.state c = .tempPinned ∨ s.state c = .allocated) :=
    inv.good_at here
  exact ⟨owner,inv.control _ here rfl (.refl inv.sound) rfl rfl
    (.acquire free rfl) rfl nofun (inv.only here fun _ => id) good⟩

/-- The last chunk of a parent has been freed: the thread goes on with all its subchunks. -/
theorem Inv.prepared {p : ChunkId} {i : Nat} {pmm : State} (here : s.pc t = .freeMerge after (p.child i))
    (quiet : chunkIsInEviction s.pmm (p.child i) = false) (split : s.state p = .isSplit)
    (siblings : ∀ j < numSubchunks s.pmm p, j ≠ i → s.state (p.child j) = .free)
    (done : Reshaped cfg s.pmm pmm (preparedStates s.pmm p))
    (others : ∀ r, r ≠ p.root → Quiet s.pmm r → Quiet pmm r) :
    Owned cfg ({ s with pmm }.goto t (.mergeParent after p)) := by
  obtain ⟨own,_⟩ := inv.good_at here
  have only := inv.only here (c := p.child i) fun _ => id
  let Sub (x : ChunkId) : Prop := p.IsSubchunk (numSubchunks s.pmm p) x
  let owner' : ChunkId → Owner := fun x =>
    if p.IsSubchunk (numSubchunks s.pmm p) x then .thread t else owner x
  have taken {x : ChunkId} (sub : Sub x) :
      owner' x = .thread t ∧ (owner x = .thread t ∨ owner x = .nobody) ∧
        preparedStates s.pmm p x = .tempPinned := by
    refine ⟨if_pos sub,?_,if_pos sub⟩
    obtain ⟨j,bound,rfl⟩ := isSubchunk_iff.mp sub
    by_cases same : j = i
    · exact .inl (same ▸ own)
    · exact .inr (inv.free_nobody (.inl (siblings j bound same)))
  have kept {x : ChunkId} (not : ¬Sub x) :
      owner' x = owner x ∧ preparedStates s.pmm p x = s.state x := ⟨if_neg not,if_neg not⟩
  have bound : i < numSubchunks s.pmm p :=
    (inv.sound.shaped.exists_child.mp
      ((inv.thread _ t own).2.used (List.cons_ne_nil _ _))).2
  refine ⟨owner',inv.regroup _ here rfl done (fun r before => ?_) rfl rfl rfl rfl
    rfl rfl (fun r => id) (fun x => ?_)
    ⟨(kept not_isSubchunk_self).2.trans split,fun j used => ?_⟩⟩
  · by_cases same : r = p.root
    · exact .inr (by rw [same]; rfl)
    · exact .inl (others r same before)
  · by_cases sub : Sub x
    · obtain ⟨own',before,state⟩ := taken sub
      rw [own',state]
      obtain ⟨j,_,rfl⟩ := isSubchunk_iff.mp sub
      refine .inl ⟨before,.inr ⟨rfl,rfl,nofun,nofun,nofun⟩,nofun,fun flag => ?_,nofun⟩
      exact absurd (flag.symm.trans quiet) (by decide)
    · refine .inr ⟨(kept sub).1,(kept sub).2,fun own' => ?_⟩
      exact absurd (only x own' ▸ isSubchunk_child.mpr ⟨rfl,bound⟩) sub
  · by_cases sub : p.IsSubchunk (numSubchunks s.pmm p) (p.child j)
    · exact ⟨(taken sub).1,(taken sub).2.2⟩
    · rw [(kept sub).2] at used
      exact absurd (isSubchunk_child.mpr ⟨rfl,(inv.sound.shaped.exists_child.mp used).2⟩) sub

/-- The chunk is free, or kept by an eviction, and its root is in order again. -/
theorem Inv.freeDone {pmm : State} (here : s.pc t = .freeMerge after c) (own : owner c = .thread t)
    (back : Returns { s with pmm } t (.freeMerge after c) s' pc) (done : Section cfg s.pmm pmm c q)
    (recolors : Recolors s.pmm c q)
    (evict : s.inEviction c.root = true →
      s.state c = q ∨ s.state c = .allocated ∧ q = .tempPinned)
    (settled : Quiet pmm c.root) : Owned cfg s' := by
  have same : s'.pmm = pmm := back.pmm
  have held : s'.held = s.held := back.held
  subst same
  refine ⟨_,inv.give (o := .nobody) pc here back.pcs (inv.only here fun _ => id) (.inl own) done
    recolors trivial (held ▸ inv.held.same (by simp [own]) nofun)
    (fun flag => ⟨fun _ => rfl,.inr (evict flag)⟩) back.lock back.evicts (fun r merging => ?_)
    back.pma (back.good _ _)⟩
  cases merging
  exact .inl settled

theorem Inv.advance_freeMerge (here : s.pc t = .freeMerge after c)
    (safe : ¬(chunkIsInEviction s.pmm c = true ∧ chunkIsLastAllocatedChild s.pmm c = true))
    (run : advance cfg o t s (.freeMerge after c) = some s') : Owned cfg s' := by
  obtain ⟨own,state⟩ := inv.good_at here
  have same : (s.pmm.chunk c).state = .tempPinned ∨ (s.pmm.chunk c).state = .allocated := state
  have mapped (flag : chunkIsInEviction s.pmm c = true) : (s.pmm.chunk c).state = .allocated := by
    rcases state with pinned | allocated
    · exact absurd (inv.pinned c flag pinned) (by simp [own])
    · exact allocated
  have recolors {q : ChunkState} (leaf : q ≠ .isSplit) (used : q ≠ .pmaOwned) :
      Recolors s.pmm c q := by
    rcases same with state | state <;> exact ⟨by simp [state],leaf,fun _ => ⟨by simp [state],used⟩⟩
  have outcome : FreeOutcome cfg s.pmm c (freeOrPrepareForMerge cfg o.hook s.pmm c) :=
    freeOrPrepareForMerge_outcome inv.sound same mapped safe
  have locked : (Pc.freeMerge after c).locked = true := rfl
  rw [advance] at run
  generalize freeOrPrepareForMerge cfg o.hook s.pmm c = result at outcome run
  cases outcome with
  | freed pmm quiet done settled =>
    cases run
    obtain ⟨pc,back⟩ := afterFree_returns { s with pmm } t after locked
    refine inv.freeDone here own back done (recolors (by decide) (by decide)) (fun flag => ?_) settled
    exact absurd (flag.symm.trans quiet) (by decide)
  | evicting pmm flag done =>
    cases run
    obtain ⟨pc,back⟩ := afterFree_returns { s with pmm } t after locked
    have still : chunkIsInEviction pmm c = true := (done.inEviction c.root).trans flag
    exact inv.freeDone here own back done (recolors (by decide) (by decide))
      (fun _ => .inr ⟨mapped flag,rfl⟩)
      fun inUse => absurd inUse (done.sound.evicting_idle still)
  | merge pmm p i child quiet split siblings done others =>
    cases run
    subst child
    exact inv.prepared here quiet split siblings done others

theorem Inv.advance_mergeParent {parent : ChunkId} (here : s.pc t = .mergeParent after parent)
    (run : advance cfg o t s (.mergeParent after parent) = some s') : Owned cfg s' := by
  have good := inv.good_at here
  cases run
  obtain ⟨subchunk,quiet,within⟩ := inv.subchunks here (fun _ => id) good
  have able : Mergeable s.pmm parent .tempPinned :=
    ⟨good.1,fun i bound => (subchunk i bound).2,.inl rfl⟩
  refine ⟨_,inv.merge (o := .thread t) _ here able
    (fun i bound => .inl (subchunk i bound).1) rfl rfl rfl rfl rfl rfl rfl rfl (fun r => id)
    (fun x own outside => absurd (within x own) outside) (.inr ⟨rfl,rfl⟩) (fun flag => ?_)
    ⟨if_pos rfl,.inl (if_pos rfl)⟩⟩
  exact absurd (flag.symm.trans quiet) (by decide)

theorem Inv.advance_freeNext (here : s.pc t = .freeNext type root)
    (run : advance cfg o t s (.freeNext type root) = some s') : Owned cfg s' := by
  rw [advance] at run
  split at run
  next pmm r popped =>
    cases run
    obtain ⟨state,calm,done⟩ := popFreeRootChunk_section inv.sound popped
    have nobody : owner (.ofRoot r) = .nobody := inv.free_nobody (.inl state)
    have after : (pmm.chunk (.ofRoot r)).state = .tempPinned := by simp [done.state]
    exact ⟨_,inv.claim (o := .thread t) _ here rfl (fun _ => id) state calm done
      ⟨rfl,rfl,nofun⟩ (inv.held.same (by simp [nobody]) nofun) (.keep rfl) rfl rfl rfl ⟨by simp,after⟩⟩
  next =>
    cases run
    have locked : (Pc.freeNext type root).locked = (root != .done) := rfl
    obtain ⟨pc,back⟩ := afterRoot_returns s t root locked
    exact ⟨owner,inv.returns here back (fun _ => id) rfl rfl⟩

/-- A pinned root that a thread works on, outside of merges, is on no list. -/
theorem Inv.root_idle (here : s.pc t = pc) (merges : pc.merges = none)
    (own : owner (.ofRoot r) = .thread t) (state : s.state (.ofRoot r) = .tempPinned) :
    ¬(s.pmm.root r).listState.InUse := by
  refine (inv.quiet_leaf (by rw [state]; decide) fun u theirs => ?_).idle state
  rw [own] at theirs
  cases theirs
  rw [here,merges]

theorem Inv.advance_freeRoot {heir : PmaOwner} (here : s.pc t = .freeRoot r heir root)
    (run : advance cfg o t s (.freeRoot r heir root) = some s') : Owned cfg s' := by
  obtain ⟨own,state⟩ := inv.good_at here
  have same : (s.pmm.chunk (.ofRoot r)).state = .tempPinned := state
  have calm : s.inEviction r = false := inv.not_evicting (c := .ofRoot r) state (by simp [own])
  have only := inv.only here (c := .ofRoot r) fun _ => id
  have done : Section cfg s.pmm (freeRootChunk s.pmm r) (.ofRoot r) .pmaOwned :=
    freeRootChunk_section inv.sound state calm (inv.root_idle here rfl own state)
  generalize middle : ({ s with
    pmm := freeRootChunk s.pmm r
    pma := Function.update s.pma r heir } : System) = next at run
  cases run
  have locked : (Pc.freeRoot r heir root).locked = (root != .done) := rfl
  obtain ⟨pc,back⟩ := afterRoot_returns next t root locked
  subst middle
  generalize afterRoot _ t root = after at back ⊢
  have pmm : after.pmm = freeRootChunk s.pmm r := back.pmm
  have held : after.held = s.held := back.held
  have pma : after.pma = Function.update s.pma r heir := back.pma
  rw [← pmm] at done
  refine ⟨_,inv.leaf (o := .nobody) pc here back.pcs done
    ⟨by simp [same],by decide,fun sub => absurd rfl sub⟩ (fun u theirs => ?_) trivial
    (held ▸ inv.held.same (by simp [own]) nofun) (fun x other mine => absurd (only x mine) other)
    (fun flag => ?_) back.lock back.evicts nofun (fun i other => ?_) (fun _ => .inr ⟨rfl,rfl⟩)
    (back.good _ _)⟩
  · exact Owner.thread.inj (theirs.symm.trans own)
  · exact absurd (flag.symm.trans calm) (by decide)
  · rw [pma,Function.update_of_ne]
    exact fun equal => other (congrArg ChunkId.ofRoot equal)

end Free

end GpuExt.Pmm
