import GpuExt.PmmPristine

/-! Sequential runs in which every evicted root goes to the allocation that it was evicted for:
the roots of PMA are as if they had never been used. -/
namespace GpuExt.Pmm

open Option

variable {cfg : Config} {s s' : System} {owner : ChunkId → Owner} {t : Thread} {o : Oracle} {pc : Pc}
  {r : RootId} {c : ChunkId}

/-- A root on its way to PMA has no list state of an eviction. -/
def Pc.Ready (s : State) : Pc → Prop
  | .freeRoot r _ _ => (s.root r).listState ≠ .eviction
  | _ => True

structure Neat (s : System) (t : Thread) : Prop where
  clean : Clean s.pmm
  ready : (s.pc t).Ready s.pmm

section

variable (clean : Clean s.pmm)
include clean

theorem neat_goto (ready : pc.Ready s.pmm) : Neat (s.goto t pc) t := by
  have here : (s.goto t pc).pc t = pc := Function.update_self ..
  refine ⟨clean,?_⟩
  rw [here]
  exact ready

theorem neat_idle (idle : s.pc t = .idle) : Neat s t := by
  refine ⟨clean,?_⟩
  rw [idle]
  trivial

theorem neat_acquire (run : s.acquire t pc = some s') (ready : pc.Ready s.pmm) : Neat s' t := by
  obtain ⟨_,rfl⟩ := System.acquire_some run
  exact neat_goto (s := { s with lock := some t }) clean ready

theorem gotRoot_neat {request : Request} : Neat (gotRoot s t request r) t := by
  unfold gotRoot
  split <;> exact neat_goto clean trivial

theorem evictFailed_neat (goal : Goal) : Neat (evictFailed s t goal) t := by
  cases goal with
  | alloc request =>
    rw [evictFailed]
    split <;> exact neat_goto clean trivial
  | pages => exact neat_goto clean trivial
  | range => exact neat_goto clean trivial

theorem pmaFailed_neat (request : Request) : Neat (pmaFailed s t request) t := by
  unfold pmaFailed
  split
  · refine neat_goto clean ?_
    split <;> trivial
  · split <;> exact neat_goto clean trivial

theorem afterFree_neat (after : AfterFree) : Neat (afterFree s t after) t := by
  cases after <;> exact neat_goto clean trivial

theorem afterRoot_neat (after : AfterRoot) : Neat (afterRoot s t after) t := by
  cases after with
  | done => exact neat_goto clean trivial
  | evictFailed goal => exact evictFailed_neat clean goal
  | retry goal => cases goal <;> exact neat_goto clean trivial

end

/-- A root that has been evicted goes to an allocation. -/
def KeepsRoot (o : Oracle) : Pc → Prop
  | .evicted (.alloc request) r => o.elevated r = false ∧ (request.type = .user ∨ o.inUse = false)
  | .evicted .pages _ | .evicted .range _ => False
  | _ => True

instance (o : Oracle) (pc : Pc) : Decidable (KeepsRoot o pc) := by
  unfold KeepsRoot
  split <;> infer_instance

def Kept (s : System) : Event → Prop
  | .thread t .advance o => KeepsRoot o (s.pc t)
  | _ => True

instance (s : System) (event : Event) : Decidable (Kept s event) := by
  unfold Kept
  split <;> infer_instance

/-- Every successful eviction of the run keeps its root. -/
def KeptRun (cfg : Config) : List Event → System → Prop
  | [], _ => True
  | event :: events, s => Kept s event ∧ ∀ s' ∈ step cfg s event, KeptRun cfg events s'

instance decidableKeptRun (cfg : Config) : ∀ events s, Decidable (KeptRun cfg events s)
  | [], _ => .isTrue trivial
  | event :: events, s =>
    have (s' : System) : Decidable (KeptRun cfg events s') := decidableKeptRun cfg events s'
    inferInstanceAs (Decidable (Kept s event ∧ ∀ s' ∈ step cfg s event, KeptRun cfg events s'))

theorem evictedRoot_neat {goal : Goal} (clean : Clean s.pmm)
    (used : (s.pmm.chunk (.ofRoot r)).state ≠ .pmaOwned) (keeps : KeepsRoot o (.evicted goal r)) :
    Neat (evictedRoot o s t r goal) t := by
  cases goal with
  | pages => cases keeps
  | range => cases keeps
  | alloc request =>
  obtain ⟨low,kind⟩ := keeps
  unfold evictedRoot
  rw [low,if_neg (by decide)]
  dsimp only
  split
  · refine gotRoot_neat ?_
    split <;> exact clean
  next kernel =>
    rw [kind.resolve_left kernel]
    refine gotRoot_neat ?_
    split <;> exact setKernel_clean clean used

theorem startEviction_clean {s s' : State} (clean : Clean s) (flagged : Flagged cfg s s' c.root true)
    (result : s' = chunkStartEviction s c) : Clean s' := by
  have used := (flagged.sound.evicting c.root flagged.flag).2.1
  rw [flagged.state] at used
  rw [result]
  exact chunkStartEviction_clean clean used

section Steps

variable (inv : Inv cfg s owner)
include inv

theorem Inv.mark_clean {list : ListId} {p : ListState} {invoke : Bool} {hook : Hook}
    (clean : Clean s.pmm) (held : ∃ b, ⟨c,b⟩ ∈ s.held) (isRoot : chunkIsRootChunk s.pmm c = true) :
    Clean (rootChunkUpdateEvictionList hook s.pmm c list p invoke) := by
  obtain ⟨b,member⟩ := held
  have state := (inv.held_state member).2
  have busy := (heldState_busy b).2.2
  rw [← state] at busy
  have top := ChunkId.eq_ofRoot ((inv.sound.shaped.isRoot_iff fun _ => busy).mp isRoot)
  rw [top] at busy ⊢
  exact rootChunkUpdateEvictionList_clean clean busy

/-! One lemma for each call. -/

section

variable {request : Request} {vaBlock : VaBlock} {pageIndex : Nat} {isReferenced b : Bool}
  (clean : Clean s.pmm)
include clean

theorem Inv.alloc_neat (idle : s.pc t = .idle)
    (run : Pmm.begin cfg o t s (.alloc request) = some s') : Neat s' t := by
  rw [Pmm.begin] at run
  split at run
  · obtain ⟨⟨pmm,found⟩,claim,run⟩ := bind_eq_some_iff.mp run
    have clean' : Clean pmm := claimFreeChunk_clean clean inv.sound claim
    cases found with
    | some c =>
      cases run
      exact neat_idle clean' idle
    | none =>
      cases run
      refine neat_goto clean' ?_
      split <;> trivial
  · cases run

theorem Inv.unpin_neat (idle : s.pc t = .idle)
    (run : Pmm.begin cfg o t s (.unpin c vaBlock pageIndex isReferenced) = some s') : Neat s' t := by
  rw [Pmm.begin] at run
  split at run
  next allowed =>
    cases run
    obtain ⟨own,state⟩ := inv.held_state allowed.1
    have quiet := inv.not_evicting state (by simp [own])
    refine neat_idle (clean.map (gpuUnpinTemp_section inv.sound state quiet fun top => ?_)
      (gpuUnpinTemp_local s.pmm c vaBlock pageIndex isReferenced)) idle
    rw [ChunkId.eq_ofRoot top] at state own
    exact (inv.quiet_leaf (by rw [state]; decide) (by simp [own])).idle state
  next => cases run

theorem Inv.unpinKernel_neat (idle : s.pc t = .idle)
    (run : Pmm.begin cfg o t s (.unpinKernel c) = some s') : Neat s' t := by
  rw [Pmm.begin] at run
  split at run
  next allowed =>
    cases run
    obtain ⟨own,state⟩ := inv.held_state allowed.1
    have quiet := inv.not_evicting state (by simp [own])
    exact neat_idle (clean.map (unpinKernel_section inv.sound state allowed.2 quiet)
      (unpinKernel_local s.pmm c)) idle
  next => cases run

theorem Inv.free_neat (run : Pmm.begin cfg o t s (.free c b) = some s') : Neat s' t := by
  rw [Pmm.begin] at run
  split at run
  next member =>
    obtain ⟨own,state⟩ := inv.held_state member
    split at run
    next pmm freed =>
      cases run
      rw [tryChunkFree_some freed]
      refine neat_goto (s := { s with pmm := chunkFreeLocked cfg o.hook s.pmm c }.drop c b) ?_ ?_
      · cases flag : chunkIsInEviction s.pmm c with
        | true =>
          cases b with
          | true => exact absurd (inv.pinned c flag state) (by simp [own])
          | false =>
            exact chunkFreeLocked_clean clean (chunkFreeLocked_evicting inv.sound flag state)
              (by decide)
        | false =>
          refine chunkFreeLocked_clean clean (chunkFreeLocked_section inv.sound flag ?_).1 (by decide)
          cases b with
          | true => exact .inl state
          | false => exact .inr state
      · split <;> trivial
    next =>
      cases run
      exact neat_goto clean trivial
  next => cases run

theorem Inv.evictRange_neat (run : Pmm.begin cfg o t s (.evictRange r) = some s') : Neat s' t := by
  rw [Pmm.begin] at run
  split at run
  next => cases run
  next user =>
    obtain ⟨pmm,started,run⟩ := bind_eq_some_iff.mp run
    cases run
    rw [not_not] at user
    have flagged := (startRangeEviction_flagged inv.sound user started).1
    unfold startRangeEviction at started
    split at started <;> cases started
    exact neat_goto (startEviction_clean (c := .ofRoot r) clean flagged rfl) trivial

end

theorem Inv.begin_neat {action : Action} (idle : s.pc t = .idle) (clean : Clean s.pmm)
    (run : Pmm.begin cfg o t s action = some s') : Neat s' t := by
  cases action with
  | alloc request => exact inv.alloc_neat clean idle run
  | unpin c vaBlock pageIndex isReferenced => exact inv.unpin_neat clean idle run
  | unpinKernel c => exact inv.unpinKernel_neat clean idle run
  | free c b => exact inv.free_neat clean run
  | split | merge =>
    rw [Pmm.begin] at run
    split at run
    · exact neat_acquire (by exact clean) run trivial
    · cases run
  | markUsed c | markUnused c =>
    rw [Pmm.begin] at run
    split at run
    next allowed =>
      cases run
      refine neat_idle ?_ idle
      dsimp only
      exact inv.mark_clean clean allowed.1 allowed.2.1
    next => cases run
  | evictPages =>
    cases run
    exact neat_goto clean trivial
  | evictRange r => exact inv.evictRange_neat clean run
  | advance => cases run

/-- The subchunks of a split chunk that a thread works on are its own and pinned. -/
theorem Inv.subchunks_pinned {p : ChunkId} (split : s.state p = .isSplit)
    (mine : ∀ i, s.state (p.child i) ≠ .pmaOwned →
      owner (p.child i) = .thread t ∧ s.state (p.child i) = .tempPinned) :
    chunkIsInEviction s.pmm p = false ∧
      ∀ i < numSubchunks s.pmm p, (s.pmm.chunk (p.child i)).state = .tempPinned := by
  have subchunk (i : Nat) (bound : i < numSubchunks s.pmm p) :=
    mine i (inv.sound.shaped.exists_child.mpr ⟨split,bound⟩)
  have first := subchunk 0 (numSubchunks_pos _ _)
  exact ⟨inv.not_evicting (c := p.child 0) first.2 (by simp [first.1]),
    fun i bound => (subchunk i bound).2⟩

theorem Inv.mergeWalk_clean {after : AfterMerge} {x : ChunkId} (here : s.pc t = .mergeWalk c after)
    (found : Pmm.nextMerge s.pmm c = some x) (clean : Clean s.pmm) : Clean (mergeGpuChunk s.pmm x) := by
  have good := inv.good_at here
  cases after with
  | caller b =>
    obtain ⟨used,mine⟩ := good
    have busy : heldState b = .tempPinned ∨ heldState b = .allocated := by
      cases b <;> simp
    exact mergeGpuChunk_clean clean inv.sound (inv.mergeable_next found busy fun y under exist leaf =>
      (mine y under exist leaf).2).2
  | evict goal =>
    obtain ⟨top,used,all⟩ := good
    exact mergeGpuChunk_clean clean inv.sound (inv.mergeable_next found (.inl rfl)
      fun y under exist leaf => all y under.1 exist leaf).2

/-! One lemma for each program counter. -/

section

variable {request : Request} {size minSize : Nat} {sizes : List Nat} {isZero b : Bool}
  {first : Option RootId} {pending : List RootId} {parent : ChunkId} {todo : List ChunkId}
  {type : MemoryType} {heir : PmaOwner} {after : AfterFree} {goal : Goal} (clean : Clean s.pmm)
include clean

theorem Inv.withSplits_neat
    (run : Pmm.advance cfg o t s (.withSplits request sizes) = some s') : Neat s' t := by
  cases sizes with
  | nil =>
    cases run
    exact neat_goto clean trivial
  | cons size sizes =>
    obtain ⟨⟨pmm,found⟩,claim,run⟩ := bind_eq_some_iff.mp run
    have clean' : Clean pmm := claimFreeChunk_clean clean inv.sound claim
    cases found <;> cases run <;> exact neat_goto clean' trivial

omit inv in
theorem allocRoot_neat
    (run : Pmm.advance cfg o t s (.allocRoot request) = some s') : Neat s' t := by
  rw [Pmm.advance] at run
  split at run
  · cases run
    exact pmaFailed_neat clean request
  · split at run <;> cases run
    exact neat_goto clean trivial

theorem Inv.initRoots_neat (here : s.pc t = .initRoots request isZero first pending)
    (run : Pmm.advance cfg o t s (.initRoots request isZero first pending) = some s') : Neat s' t := by
  have good := inv.good_at here
  cases pending with
  | cons r pending =>
    have state := (good.2.2 r (by simp)).2.2
    cases first <;> cases run
    · exact neat_goto (initRootChunk_clean clean inv.sound state (.inl rfl)) trivial
    · exact neat_goto (initRootChunk_clean clean inv.sound state (.inr rfl)) trivial
  | nil =>
    cases first <;> cases run
    exact gotRoot_neat clean

theorem Inv.splitDown_neat (here : s.pc t = .splitDown request size c)
    (run : Pmm.advance cfg o t s (.splitDown request size c) = some s') : Neat s' t := by
  have good := inv.good_at here
  rw [Pmm.advance] at run
  split at run
  · cases run
    exact neat_goto clean trivial
  split at run
  next pmm divided =>
    cases run
    obtain ⟨k,smaller,rfl⟩ := splitGpuChunk_some divided
    exact neat_goto (divideChunk_clean clean inv.sound ⟨.inl good.2,smaller⟩) trivial
  next =>
    cases run
    exact neat_goto clean trivial

theorem Inv.freeSiblings_neat (here : s.pc t = .freeSiblings request size parent)
    (run : Pmm.advance cfg o t s (.freeSiblings request size parent) = some s') : Neat s' t := by
  have good := inv.good_at here
  obtain ⟨quiet,pinned⟩ := inv.subchunks_pinned good.1 good.2
  obtain ⟨smaller,_,run⟩ := bind_eq_some_iff.mp run
  cases run
  exact neat_goto (freeSiblings_clean clean inv.sound quiet pinned) trivial

theorem Inv.freeMerge_neat (here : s.pc t = .freeMerge after c)
    (safe : SafeAdvance s t (.freeMerge after c))
    (run : Pmm.advance cfg o t s (.freeMerge after c) = some s') : Neat s' t := by
  obtain ⟨own,state⟩ := inv.good_at here
  have mapped (flag : chunkIsInEviction s.pmm c = true) : (s.pmm.chunk c).state = .allocated := by
    rcases state with pinned | allocated
    · exact absurd (inv.pinned c flag pinned) (by simp [own])
    · exact allocated
  have freed : Clean (freeOrPrepareForMerge cfg o.hook s.pmm c).1 :=
    freeOrPrepareForMerge_clean clean inv.sound state mapped safe
  rw [Pmm.advance] at run
  generalize freeOrPrepareForMerge cfg o.hook s.pmm c = result at freed run
  obtain ⟨pmm,parent⟩ := result
  cases parent <;> cases run
  · exact afterFree_neat freed after
  · exact neat_goto freed trivial

theorem Inv.freeNext_neat {after : AfterRoot}
    (run : Pmm.advance cfg o t s (.freeNext type after) = some s') : Neat s' t := by
  rw [Pmm.advance] at run
  split at run
  next pmm r popped =>
    cases run
    obtain ⟨clean',ready⟩ := popFreeRootChunk_clean clean inv.sound popped
    exact neat_goto clean' ready
  next =>
    cases run
    exact afterRoot_neat clean after

theorem Inv.splitWalk_neat (here : s.pc t = .splitWalk c b minSize todo)
    (run : Pmm.advance cfg o t s (.splitWalk c b minSize todo) = some s') : Neat s' t := by
  have good := inv.good_at here
  cases todo with
  | nil =>
    cases run
    exact neat_goto clean trivial
  | cons x todo =>
    rw [Pmm.advance] at run
    split at run
    next =>
      cases run
      exact neat_goto clean trivial
    next pmm divided =>
      cases run
      obtain ⟨k,smaller,rfl⟩ := splitGpuChunk_some divided
      have state : (s.pmm.chunk x).state = heldState b := (good.2.2.2 x (by simp)).2
      refine neat_goto (divideChunk_clean clean inv.sound ⟨?_,smaller⟩) trivial
      cases b with
      | true => exact .inl state
      | false => exact .inr state

theorem Inv.mergeWalk_neat {after : AfterMerge} (here : s.pc t = .mergeWalk c after)
    (run : Pmm.advance cfg o t s (.mergeWalk c after) = some s') : Neat s' t := by
  cases found : Pmm.nextMerge s.pmm c with
  | some x =>
    simp only [Pmm.advance,found,some.injEq] at run
    subst run
    refine ⟨inv.mergeWalk_clean here found clean,?_⟩
    rw [here]
    trivial
  | none =>
    cases after <;> simp only [Pmm.advance,found,some.injEq] at run <;> subst run <;>
      exact neat_goto clean trivial

theorem Inv.pick_neat (run : Pmm.advance cfg o t s (.pick goal) = some s') : Neat s' t := by
  rw [Pmm.advance] at run
  split at run
  next pmm r picked =>
    cases run
    have flagged := (pickRootChunkToEvict_flagged inv.sound picked).1
    obtain ⟨c,_,result⟩ := bind_eq_some_iff.mp picked
    cases result
    exact neat_goto (startEviction_clean clean flagged rfl) trivial
  next =>
    cases run
    exact evictFailed_neat clean goal

theorem Inv.evictPin_neat (here : s.pc t = .evictPin goal r todo)
    (run : Pmm.advance cfg o t s (.evictPin goal r todo) = some s') : Neat s' t := by
  have good := inv.good_at here
  cases todo with
  | nil =>
    cases run
    exact neat_goto clean trivial
  | cons c todo =>
    cases run
    have root : c.root = r := good.2 c (by simp)
    have flag : s.inEviction c.root = true := inv.evicting_at here (by rw [root]; rfl)
    exact neat_goto (pinFreeChunksFunc_clean clean inv.sound flag) trivial

theorem Inv.evictBlock_neat (here : s.pc t = .evictBlock goal r)
    (run : Pmm.advance cfg o t s (.evictBlock goal r) = some s') : Neat s' t := by
  rw [Pmm.advance] at run
  split at run
  next c _ =>
    split at run
    next allowed =>
      cases run
      obtain ⟨member,root,_⟩ := allowed
      have state := (inv.held_state member).2
      have flag : s.inEviction c.root = true := inv.evicting_at here (by rw [root]; rfl)
      refine ⟨markChunkEvicted_clean clean inv.sound flag state,?_⟩
      change (s.pc t).Ready _
      rw [here]
      trivial
    next => cases run
  next =>
    refine neat_acquire clean run ?_
    split <;> trivial

theorem Inv.evictDone_neat (here : s.pc t = .evictDone goal r)
    (run : Pmm.advance cfg o t s (.evictDone goal r) = some s') : Neat s' t := by
  cases run
  have state : s.state (.ofRoot r) = .tempPinned := inv.good_at here
  refine neat_goto (finishEviction_clean clean ?_) trivial
  rw [← System.state,state]
  decide

theorem Inv.evicted_neat (here : s.pc t = .evicted goal r) (kept : KeepsRoot o (.evicted goal r))
    (run : Pmm.advance cfg o t s (.evicted goal r) = some s') : Neat s' t := by
  cases run
  have state : s.state (.ofRoot r) = .tempPinned := (inv.good_at here).2
  refine evictedRoot_neat clean ?_ kept
  rw [← System.state,state]
  decide

theorem Inv.evictError_neat (here : s.pc t = .evictError goal r)
    (run : Pmm.advance cfg o t s (.evictError goal r) = some s') : Neat s' t := by
  cases run
  have used := (inv.sound.evicting r (inv.evicting_at here rfl)).2.1
  exact neat_goto (abandonEviction_clean clean used) trivial

end

theorem Inv.advance_neat (here : s.pc t = pc) (safe : SafeAdvance s t pc) (neat : Neat s t)
    (kept : KeepsRoot o pc) (run : Pmm.advance cfg o t s pc = some s') : Neat s' t := by
  obtain ⟨clean,ready⟩ := neat
  cases pc with
  | idle => cases run
  | lockWait | freeWait | pickWait | evictWait => exact neat_acquire clean run trivial
  | withSplits request sizes => exact inv.withSplits_neat clean run
  | allocRoot request => exact allocRoot_neat clean run
  | initRoots request isZero first pending => exact inv.initRoots_neat clean here run
  | splitDown request size c => exact inv.splitDown_neat clean here run
  | freeSiblings request size parent => exact inv.freeSiblings_neat clean here run
  | freeMerge after c => exact inv.freeMerge_neat clean here safe run
  | mergeParent after parent =>
    have good := inv.good_at here
    obtain ⟨_,pinned⟩ := inv.subchunks_pinned good.1 good.2
    cases run
    exact neat_goto (mergeGpuChunk_clean clean inv.sound ⟨good.1,pinned,.inl rfl⟩) trivial
  | freeNext type after => exact inv.freeNext_neat clean run
  | freeRoot r heir after =>
    rw [here] at ready
    cases run
    exact afterRoot_neat (freeRootChunk_clean clean (inv.good_at here).2 ready) after
  | splitWalk c b minSize todo => exact inv.splitWalk_neat clean here run
  | mergeWalk c after => exact inv.mergeWalk_neat clean here run
  | pick goal => exact inv.pick_neat clean run
  | evictPin goal r todo => exact inv.evictPin_neat clean here run
  | evictFind _ _ todo | cleanup _ _ todo =>
    cases todo with
    | nil =>
      cases run
      exact neat_goto clean trivial
    | cons c todo =>
      rw [Pmm.advance] at run
      split at run <;> cases run <;> exact neat_goto clean trivial
  | evictBlock goal r => exact inv.evictBlock_neat clean here run
  | evictDone goal r => exact inv.evictDone_neat clean here run
  | evicted goal r => exact inv.evicted_neat clean here kept run
  | evictError goal r => exact inv.evictError_neat clean here run

end Steps

/-! Whole runs. -/

theorem Orderly.neat {event : Event} (orderly : Orderly cfg s) (neat : ∀ t, Neat s t)
    (alone : Alone s event) (kept : Kept s event) (run : step cfg s event = some s') :
    ∀ t, Neat s' t := by
  have safe := orderly.safe alone
  obtain ⟨owner,inv⟩ := orderly.inv
  cases event with
  | thread t action o =>
    have mine : Neat s' t := by
      by_cases moving : action = .advance
      · subst moving
        exact inv.advance_neat rfl safe (neat t) kept run
      · have starts : (if s.pc t = .idle then begin cfg o t s action else none) = some s' := by
          cases action <;> first | exact run | exact absurd rfl moving
        split at starts
        next idle => exact inv.begin_neat idle (neat t).clean starts
        next => cases starts
    obtain ⟨pc,moves⟩ := orderly.moves run
    intro u
    by_cases same : u = t
    · exact same ▸ mine
    · refine neat_idle mine.clean ?_
      rw [moves.pcs,Function.update_of_ne same,alone u same]
  | rmAlloc | rmFree =>
    rw [step] at run
    split at run <;> cases run
    exact fun t => ⟨(neat t).clean,(neat t).ready⟩

theorem Orderly.neat_run {events : List Event} (orderly : Orderly cfg s) (neat : ∀ t, Neat s t)
    (sequential : SequentialRun cfg events s) (kept : KeptRun cfg events s)
    (run : execute cfg events s = some s') : Orderly cfg s' ∧ Clean s'.pmm := by
  induction events generalizing s with
  | nil =>
    cases run
    exact ⟨orderly,(neat 0).clean⟩
  | cons event events ih =>
    obtain ⟨middle,stepped,rest⟩ := bind_eq_some_iff.mp run
    exact ih (orderly.event sequential.1 stepped) (orderly.neat neat sequential.1 kept.1 stepped)
      (sequential.2 middle stepped) (kept.2 middle stepped) rest

theorem clean_init (id : Nat) : Clean (init id) := by
  refine ⟨fun x => ?_,fun r _ => by simp [init]⟩
  by_cases top : x.path = []
  · simp [init,top,Chunk.initial,Chunk.zeroed,Chunk.mapping,Tidy]
  · simp [init,top,Chunk.zeroed,Chunk.mapping,Tidy]

/-- What the code can read from a root that was never used. -/
structure Pristine (s : State) (r : RootId) : Prop where
  state : (s.chunk (.ofRoot r)).state = .pmaOwned
  listState : (s.root r).listState = .none
  inEviction : (s.chunk (.ofRoot r)).inEviction = false
  parent : (ChunkId.ofRoot r).parent = none
  suballoc : (s.chunk (.ofRoot r)).suballoc = none
  vaBlock : (s.chunk (.ofRoot r)).vaBlock = none
  pageIndex : (s.chunk (.ofRoot r)).vaBlockPageIndex = pagesPerVaBlock

theorem Clean.pristine {s : State} (clean : Clean s) (sound : Sound cfg s)
    (state : (s.chunk (.ofRoot r)).state = .pmaOwned) : Pristine s r := by
  have unmapped := clean.tidy (.ofRoot r) (by simp [Chunk.mapping,state])
  refine ⟨state,?_,?_,rfl,?_,unmapped.1,unmapped.2 (.inr rfl)⟩
  · cases listState : (s.root r).listState with
    | none => rfl
    | free =>
      obtain ⟨lists,valid⟩ := sound.listed
      have member := (valid.root r _).mpr (by rw [listState]; rfl)
      rcases valid.free _ _ _ _ member with gone | free
      · exact absurd gone id
      · exact absurd (state.symm.trans free) (by decide)
    | vaBlockUsed => exact absurd state (sound.placed r (.inl listState)).2.2
    | vaBlockUnused => exact absurd state (sound.placed r (.inr listState)).2.2
    | eviction => exact absurd listState (clean.returned r state)
    | lazyFree =>
      obtain ⟨lists,valid⟩ := sound.listed
      exact absurd listState (valid.lazy r)
  · cases flag : (s.chunk _).inEviction with
    | false => rfl
    | true => exact absurd state (sound.evicting r flag).2.1
  · refine not_isSome_iff_eq_none.mp fun some => ?_
    rw [sound.shaped.suballoc,state] at some
    cases some

theorem returned_pristine {id : Nat} {events : List Event}
    (sequential : SequentialRun cfg events (System.start id))
    (kept : KeptRun cfg events (System.start id))
    (run : execute cfg events (System.start id) = some s) :
    ∀ r, s.state (.ofRoot r) = .pmaOwned → Pristine s.pmm r := by
  have neat (t : Thread) : Neat (System.start id) t := ⟨clean_init id,trivial⟩
  obtain ⟨⟨⟨owner,inv⟩,_⟩,clean⟩ := (orderly_start id).neat_run neat sequential kept run
  exact fun r state => clean.pristine inv.sound state

/-- Thread 0 gets root 0 and maps it. -/
def mapRoot : List Event :=
  [.thread 0 (.alloc ⟨.user,21,false⟩) fairOracle,
    .thread 0 .advance { fairOracle with granted := [0] },
    .thread 0 .advance fairOracle,.thread 0 .advance fairOracle,
    .thread 0 (.unpin (.ofRoot 0) 7 0 false) fairOracle]

/-- The next allocation evicts the root, and its caller frees it. -/
def reuseRoot : List Event :=
  mapRoot ++ [.thread 0 (.alloc ⟨.user,21,true⟩) fairOracle] ++
  List.replicate 6 (.thread 0 .advance fairOracle) ++
  [.thread 0 .advance { fairOracle with evicted := some (.ofRoot 0) }] ++
  List.replicate 6 (.thread 0 .advance fairOracle) ++
  [.thread 0 (.free (.ofRoot 0) true) fairOracle] ++
  List.replicate 2 (.thread 0 .advance fairOracle)

/-- PMA asks for the range of the root while it is mapped. -/
def reclaimRoot : List Event :=
  mapRoot ++ [.thread 0 (.evictRange 0) fairOracle] ++
  List.replicate 4 (.thread 0 .advance fairOracle) ++
  [.thread 0 .advance { fairOracle with evicted := some (.ofRoot 0) }] ++
  List.replicate 7 (.thread 0 .advance fairOracle)

theorem returned_pristine_reused : ∃ s, execute twoSizes reuseRoot (System.start 0) = some s ∧
    s.pmm.updates ≠ [] ∧ Pristine s.pmm 0 := by
  have completes : (execute twoSizes reuseRoot (System.start 0)).isSome := by decide +kernel
  obtain ⟨s,run⟩ := isSome_iff_exists.mp completes
  have facts : ((execute twoSizes reuseRoot (System.start 0)).map fun s =>
      (s.state (.ofRoot 0),s.pmm.updates.isEmpty)) = some (.pmaOwned,false) := by decide +kernel
  rw [run,map_some,some.injEq,Prod.mk.injEq] at facts
  have sequential : SequentialRun twoSizes reuseRoot (System.start 0) :=
    (orderly_start 0).sequential (t := 0) (by simp [reuseRoot,mapRoot]) fun _ _ => rfl
  have kept : KeptRun twoSizes reuseRoot (System.start 0) := by decide +kernel
  exact ⟨s,run,List.isEmpty_eq_false_iff.mp facts.2,returned_pristine sequential kept run 0 facts.1⟩

theorem reclaimRoot_stale : ∃ s, execute twoSizes reclaimRoot (System.start 0) = some s ∧
    SequentialRun twoSizes reclaimRoot (System.start 0) ∧ s.state (.ofRoot 0) = .pmaOwned ∧
      (s.pmm.root 0).listState = .eviction := by
  have completes : (execute twoSizes reclaimRoot (System.start 0)).isSome := by decide +kernel
  obtain ⟨s,run⟩ := isSome_iff_exists.mp completes
  have facts : ((execute twoSizes reclaimRoot (System.start 0)).map fun s =>
      (s.state (.ofRoot 0),(s.pmm.root 0).listState)) = some (.pmaOwned,.eviction) := by decide +kernel
  rw [run,map_some,some.injEq,Prod.mk.injEq] at facts
  exact ⟨s,run,(orderly_start 0).sequential (t := 0) (by simp [reclaimRoot,mapRoot]) fun _ _ => rfl,
    facts⟩

end GpuExt.Pmm
