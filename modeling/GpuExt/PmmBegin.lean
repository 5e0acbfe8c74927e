import GpuExt.PmmInvariant

/-! The first section of every operation keeps the invariant. -/
namespace GpuExt.Pmm

open Function

variable {cfg : Config} {s s' : System} {owner owner' : ChunkId → Owner} {t u : Thread} {old pc : Pc}
  {c x : ChunkId} {q : ChunkState} {r : RootId} {o : Oracle} {b : Bool}

theorem Section.refl {s : State} (sound : Sound cfg s) (state : (s.chunk c).state = q) :
    Section cfg s s c q := by
  refine ⟨sound,fun x => ?_,fun _ => rfl,fun _ => id⟩
  split
  next here => rw [here,state]
  next => rfl

theorem heldState_busy (b : Bool) : heldState b ≠ .free ∧ heldState b ≠ .isSplit ∧
    heldState b ≠ .pmaOwned := by
  cases b <;> decide

theorem Inv.held_state (inv : Inv cfg s owner) (member : ⟨c,b⟩ ∈ s.held) :
    owner c = .caller b ∧ s.state c = heldState b :=
  ⟨(inv.held.iff c b).mp member,inv.caller c b ((inv.held.iff c b).mp member)⟩

theorem Inv.recolors (inv : Inv cfg s owner) (own : owner c = .caller b) (leaf : q ≠ .isSplit)
    (used : q ≠ .pmaOwned) : Recolors s.pmm c q := by
  have busy := heldState_busy b
  rw [← inv.caller c b own] at busy
  exact ⟨busy.2.1,leaf,fun _ => ⟨busy.2.2,used⟩⟩

theorem recolors_free {s : State} (state : (s.chunk c).state = .free) (leaf : q ≠ .isSplit)
    (used : q ≠ .pmaOwned) : Recolors s c q :=
  ⟨by simp [state],leaf,fun _ => ⟨by simp [state],used⟩⟩

theorem tryChunkFree_some {s s' : State} {hook : Hook}
    (run : tryChunkFree cfg hook s c = some s') : s' = chunkFreeLocked cfg hook s c := by
  unfold tryChunkFree at run
  split at run
  · cases run
  · cases run
    rfl

theorem System.acquire_some (run : s.acquire t pc = some s') :
    s.lock = none ∧ s' = { s with lock := some t, pc := update s.pc t pc } := by
  unfold System.acquire at run
  split at run
  next free =>
    cases run
    exact ⟨free,rfl⟩
  next => cases run

/-- A thread that works on no chunk takes a free one. -/
theorem Inv.claim {o : Owner} (pc : Pc) (inv : Inv cfg s owner) (start : s.pc t = old)
    (pcs : s'.pc = update s.pc t pc) (nothing : ∀ x, ¬old.Holds x) (state : s.state c = .free)
    (calm : s.inEviction c.root = false) (done : Section cfg s.pmm s'.pmm c .tempPinned)
    (fits : o.Fits t pc c .tempPinned) (held : HeldBy s'.held (update owner c o))
    (lock : LockStep s.lock t old pc s'.lock) (evicts : pc.evicts = old.evicts)
    (merges : old.merges = none) (pma : s'.pma = s.pma)
    (good : pc.Good s'.state (update owner c o) t) : Inv cfg s' (update owner c o) := by
  refine inv.give pc start pcs (inv.only start fun x holds => absurd holds (nothing x))
    (.inr ⟨?_,by simp [state]⟩) done (recolors_free state nofun nofun) fits held (fun flag => ?_) lock
    evicts (by simp [merges]) pma good
  · simp [inv.free_nobody (.inl state)]
  · exact absurd (flag.symm.trans calm) (by decide)

section Idle

variable (inv : Inv cfg s owner) (idle : s.pc t = .idle)

include idle in
theorem idle_pc : s.pc = update s.pc t .idle := by
  rw [← idle,update_eq_self]

include inv idle

theorem Inv.idle_nothing (x : ChunkId) : owner x ≠ .thread t :=
  inv.nothing (by rw [idle]; exact fun _ => id) x

theorem Inv.begin_alloc {request : Request} (run : begin cfg o t s (.alloc request) = some s') :
    Owned cfg s' := by
  rw [begin] at run
  split at run
  · obtain ⟨⟨pmm,found⟩,claim,run⟩ := Option.bind_eq_some_iff.mp run
    rcases claimFreeChunk_spec inv.sound claim with ⟨rfl,shuffled⟩ | ⟨c,rfl,state,quiet,done⟩
    · cases run
      refine ⟨owner,inv.jump _ idle rfl shuffled rfl rfl (.keep ?_) (fun _ => id) ?_ rfl ?_⟩
      all_goals by_cases root : request.size = chunkSizeMax <;> simp [root,Pc.locked,Pc.evicts,Pc.Good]
    · cases run
      have nobody : owner c = .nobody := inv.free_nobody (.inl state)
      exact ⟨_,inv.claim .idle (o := .caller true) idle (idle_pc idle) (fun _ => id) state quiet done
        rfl (inv.held.hold (by simp [nobody])) (.keep rfl) rfl rfl rfl trivial⟩
  · cases run

theorem Inv.idle_unpin {pmm : State} (own : owner c = .caller true) (state : s.state c = .tempPinned)
    (quiet : s.inEviction c.root = false) (done : Section cfg s.pmm pmm c .allocated) :
    Owned cfg { s with pmm, held := ⟨c,false⟩ :: s.held.erase ⟨c,true⟩ } := by
  refine ⟨_,inv.give .idle (o := .caller false) idle (by exact idle_pc idle) (inv.only idle nofun)
    (.inr ⟨by simp [own],by simp [state]⟩) done (inv.recolors own nofun nofun) rfl
    (inv.held.exchange own) (fun flag => ?_) (.keep rfl) rfl nofun rfl trivial⟩
  exact absurd (flag.symm.trans quiet) (by decide)

theorem Inv.begin_unpin {vaBlock : VaBlock} {pageIndex : Nat} {isReferenced : Bool}
    (run : begin cfg o t s (.unpin c vaBlock pageIndex isReferenced) = some s') :
    Owned cfg s' := by
  rw [begin] at run
  split at run
  next allowed =>
    cases run
    obtain ⟨own,state⟩ := inv.held_state allowed.1
    have quiet := inv.not_evicting state (by simp [own])
    have done : Section cfg s.pmm
        (gpuUnpinTemp cfg o.hook s.pmm c vaBlock pageIndex isReferenced) c .allocated := by
      refine gpuUnpinTemp_section inv.sound state quiet fun top => ?_
      have root := ChunkId.eq_ofRoot top
      rw [root] at state own
      exact (inv.quiet_leaf (by rw [state]; decide) (by simp [own])).idle state
    exact inv.idle_unpin idle own state quiet done
  next => cases run

theorem Inv.begin_unpinKernel (run : begin cfg o t s (.unpinKernel c) = some s') :
    Owned cfg s' := by
  rw [begin] at run
  split at run
  next allowed =>
    cases run
    obtain ⟨own,state⟩ := inv.held_state allowed.1
    have quiet := inv.not_evicting state (by simp [own])
    have done : Section cfg s.pmm (unpinKernel s.pmm c) c .allocated :=
      unpinKernel_section inv.sound state allowed.2 quiet
    exact inv.idle_unpin idle own state quiet done
  next => cases run

theorem Inv.begin_free (run : begin cfg o t s (.free c b) = some s') : Owned cfg s' := by
  rw [begin] at run
  split at run
  next member =>
    obtain ⟨own,state⟩ := inv.held_state member
    have used : s.state c ≠ .pmaOwned := by
      rw [state]
      exact (heldState_busy b).2.2
    have only : ∀ x, owner x = .thread t → x = c := inv.only idle nofun
    split at run
    next pmm freed =>
      cases run
      rw [tryChunkFree_some freed]
      have good : ∀ owner, (if chunkIsRootChunk s.pmm c then
          Pc.freeNext (s.pmm.chunk c).type .done else .idle).Good
            (System.state { s with pmm := chunkFreeLocked cfg o.hook s.pmm c }) owner t := by
        intro owner
        split <;> trivial
      have held : HeldBy (s.held.erase ⟨c,b⟩) (update owner c .nobody) :=
        inv.held.drop own (by simp)
      cases flag : chunkIsInEviction s.pmm c with
      | true =>
        have allocated : (s.pmm.chunk c).state = .allocated := by
          cases b with
          | true => exact absurd (inv.pinned c flag state) (by simp [own])
          | false => exact state
        have done : Section cfg s.pmm (chunkFreeLocked cfg o.hook s.pmm c) c .tempPinned :=
          chunkFreeLocked_evicting inv.sound flag allocated
        refine ⟨_,inv.give _ (o := .nobody) idle rfl only (.inr ⟨by simp [own],used⟩) done
          (inv.recolors own nofun nofun) trivial held
          (fun _ => ⟨fun _ => rfl,.inr (.inr ⟨allocated,rfl⟩)⟩) (.keep ?_) ?_ nofun rfl (good _)⟩
        all_goals split <;> rfl
      | false =>
        have busy : (s.pmm.chunk c).state = .tempPinned ∨ (s.pmm.chunk c).state = .allocated := by
          cases b with
          | true => exact .inl state
          | false => exact .inr state
        have done : Section cfg s.pmm (chunkFreeLocked cfg o.hook s.pmm c) c .free :=
          (chunkFreeLocked_section inv.sound flag busy).1
        refine ⟨_,inv.give _ (o := .nobody) idle rfl only (.inr ⟨by simp [own],used⟩) done
          (inv.recolors own nofun nofun) trivial held
          (fun evicting => absurd (evicting.symm.trans flag) (by decide)) (.keep ?_) ?_ nofun rfl
          (good _)⟩
        all_goals split <;> rfl
    next =>
      -- The chunk needs a merge: it is the thread's from now on.
      cases run
      have same : (s.pmm.chunk c).state = heldState b := state
      refine ⟨_,inv.give (.freeWait (s.pmm.chunk c).type c) (o := .thread t) idle rfl only
        (.inr ⟨by simp [own],used⟩) (Section.refl inv.sound rfl) (inv.recolors own ?_ used)
        ⟨rfl,rfl,?_⟩ (inv.held.drop own nofun) (fun flag => ⟨fun pinned => ?_,.inr (.inl rfl)⟩)
        (.keep rfl) rfl nofun rfl ⟨by simp,?_⟩⟩
      · rw [same]
        exact (heldState_busy b).2.1
      · rw [same]
        exact (heldState_busy b).1
      · exact absurd (inv.pinned c flag pinned) (by simp [own])
      · have after : (s.pmm.chunk c).state = .tempPinned ∨ (s.pmm.chunk c).state = .allocated := by
          rw [same]
          cases b <;> simp
        exact after
  next => cases run

theorem Inv.begin_split {size : Nat} (run : begin cfg o t s (.split c b size) = some s') :
    Owned cfg s' := by
  rw [begin] at run
  split at run
  next allowed =>
    obtain ⟨own,state⟩ := inv.held_state allowed.1
    obtain ⟨free,rfl⟩ := System.acquire_some run
    have same : (s.pmm.chunk c).state = heldState b := state
    have busy := heldState_busy b
    rw [← same] at busy
    refine ⟨_,inv.give _ (o := .thread t) idle rfl (inv.only idle nofun)
      (.inr ⟨by simp [own],busy.2.2⟩) (Section.refl inv.sound rfl)
      (inv.recolors own busy.2.1 busy.2.2) ⟨rfl,c.under_refl,busy.1⟩ (inv.held.drop own nofun)
      (fun flag => ⟨fun pinned => ?_,.inr (.inl rfl)⟩) (.acquire free rfl) rfl nofun rfl
      ⟨busy.2.2,fun x below used leaf => ?_,List.nodup_singleton c,fun x member => ?_⟩⟩
    · exact absurd (inv.pinned c flag pinned) (by simp [own])
    · have here : x = c := by
        by_contra other
        exact used (by
          rw [System.state,System.drop,inv.sound.shaped.below_leaf busy.2.1 below other]
          rfl)
      subst here
      exact ⟨by simp,same⟩
    · rw [List.mem_singleton] at member
      subst member
      exact ⟨x.under_refl,same⟩
  next => cases run

theorem Inv.begin_merge (run : begin cfg o t s (.merge c b) = some s') : Owned cfg s' := by
  rw [begin] at run
  split at run
  next allowed =>
    obtain ⟨allHeld,nonempty⟩ := allowed
    obtain ⟨free,rfl⟩ := System.acquire_some run
    have member (x : ChunkId) (inside : x ∈ leaves s.pmm c) :
        owner x = .caller b ∧ s.state x = heldState b := inv.held_state (allHeld x inside)
    have used : s.state c ≠ .pmaOwned := by
      obtain ⟨x,inside⟩ := List.exists_mem_of_ne_nil _ nonempty
      have below := (of_mem_leaves inside).1
      refine inv.sound.shaped.used_above below ?_
      have state := (member x inside).2
      rw [System.state] at state
      rw [state]
      exact (heldState_busy b).2.2
    let owner' : ChunkId → Owner := fun x => if x ∈ leaves s.pmm c then .thread t else owner x
    have inside {x : ChunkId} (here : x ∈ leaves s.pmm c) : owner' x = .thread t := if_pos here
    have outside {x : ChunkId} (there : x ∉ leaves s.pmm c) : owner' x = owner x := if_neg there
    refine ⟨owner',inv.handover _ idle rfl (.refl inv.sound)
      ⟨inv.held.nodup.filter _,fun x b' => ?_⟩ (fun x => ?_) (.acquire free rfl) rfl (by rintro _ ⟨⟩)
      ⟨used,fun x below exist leaf => ?_⟩⟩
    · rw [List.mem_filter,inv.held.iff]
      by_cases here : x ∈ leaves s.pmm c
      · simp [here,inside here]
      · simp [here,outside here]
    · by_cases here : x ∈ leaves s.pmm c
      · obtain ⟨own,state⟩ := member x here
        rw [inside here]
        refine .inl ⟨by simp [own],⟨rfl,(of_mem_leaves here).1,state ▸ heldState_ownable b x⟩,
          fun flag pinned => ?_,fun top => .inl (inv.pma x.root (.inl ?_))⟩
        · exact absurd (inv.pinned x flag pinned) (by simp [own])
        · rw [← ChunkId.eq_ofRoot top,state]
          exact (heldState_busy b).2.2
      · exact .inr ⟨outside here,rfl,fun own => absurd own (inv.idle_nothing idle x),fun _ => rfl⟩
    · have here := mem_leaves inv.sound.shaped below ⟨exist,leaf⟩
      exact ⟨inside here,(member x here).2⟩
  next => cases run

/-- The two sections that move a root for its VA block. -/
theorem Inv.begin_mark {list : ListId} {p : ListState} {invoke : Bool}
    (named : p = .vaBlockUsed ∧ list = .vaBlockUsed ∨ p = .vaBlockUnused ∧ list = .vaBlockUnused)
    (allowed : (∃ b, ⟨c,b⟩ ∈ s.held) ∧ chunkIsRootChunk s.pmm c = true ∧
      (s.pmm.chunk c).type = .user) :
    Inv cfg { s with pmm := rootChunkUpdateEvictionList o.hook s.pmm c list p invoke } owner := by
  obtain ⟨⟨b,member⟩,isRoot,user⟩ := allowed
  have state := (inv.held_state member).2
  have busy := heldState_busy b
  rw [← state] at busy
  have top := ChunkId.eq_ofRoot ((inv.sound.shaped.isRoot_iff fun _ => busy.2.2).mp isRoot)
  rw [top] at busy user ⊢
  exact inv.jump .idle idle (idle_pc idle)
    (rootChunkUpdateEvictionList_shuffled inv.sound named user busy.1 busy.2.2) rfl rfl (.keep rfl)
    (fun _ => id) rfl rfl trivial

theorem Inv.begin_evictRange (run : begin cfg o t s (.evictRange r) = some s') : Owned cfg s' := by
  rw [begin] at run
  split at run
  next => cases run
  next user =>
    obtain ⟨pmm,started,run⟩ := Option.bind_eq_some_iff.mp run
    cases run
    rw [not_not] at user
    obtain ⟨flagged,before,empty⟩ := startRangeEviction_flagged inv.sound user started
    exact ⟨owner,inv.startEviction _ idle rfl flagged before empty rfl rfl
      (.keep rfl) (fun _ => id) rfl rfl rfl trivial⟩

theorem Inv.begin {action : Action} (run : begin cfg o t s action = some s') : Owned cfg s' := by
  cases action with
  | alloc request => exact inv.begin_alloc idle run
  | unpin c vaBlock pageIndex isReferenced => exact inv.begin_unpin idle run
  | unpinKernel c => exact inv.begin_unpinKernel idle run
  | free c pinned => exact inv.begin_free idle run
  | split c pinned size => exact inv.begin_split idle run
  | merge c pinned => exact inv.begin_merge idle run
  | markUsed c =>
    rw [Pmm.begin] at run
    split at run
    next allowed =>
      cases run
      exact ⟨owner,inv.begin_mark idle (.inl ⟨rfl,rfl⟩) allowed⟩
    next => cases run
  | markUnused c =>
    rw [Pmm.begin] at run
    split at run
    next allowed =>
      cases run
      exact ⟨owner,inv.begin_mark idle (.inr ⟨rfl,rfl⟩) allowed⟩
    next => cases run
  | evictPages =>
    cases run
    exact inv.goto _ idle (.keep rfl) nofun rfl rfl trivial
  | evictRange r => exact inv.begin_evictRange idle run
  | advance => cases run

end Idle

end GpuExt.Pmm
