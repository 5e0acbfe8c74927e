import GpuExt.PmmWalking

/-! The sections of an eviction keep the invariant. The cleanup after a failed eviction does
so only if nobody else has got hold of the chunk that it frees. -/
namespace GpuExt.Pmm

open Function

variable {cfg : Config} {s s' : System} {owner : ChunkId → Owner} {t : Thread} {c x : ChunkId}
  {r : RootId} {o : Oracle} {goal : Goal} {todo : List ChunkId}

theorem preOrder_complete {s : State} (shaped : Shaped cfg s) (root : x.root = r)
    (used : (s.chunk x).state ≠ .pmaOwned) : x ∈ preOrder s (.ofRoot r) :=
  mem_preOrder shaped (root ▸ x.root_under) used

theorem preOrder_root {s : State} (member : x ∈ preOrder s (.ofRoot r)) : x.root = r :=
  (under_of_mem_preOrder member).1

section Evict

variable (inv : Inv cfg s owner)
include inv

theorem Inv.advance_pickWait (here : s.pc t = .pickWait goal)
    (run : advance cfg o t s (.pickWait goal) = some s') : Owned cfg s' := by
  obtain ⟨free,rfl⟩ := System.acquire_some run
  exact inv.goto _ here (.acquire free rfl) nofun rfl rfl trivial

/-- Nobody merges while a thread that holds the mutex does something else. -/
theorem Inv.quiet_locked (locked : (s.pc t).locked = true) (calm : (s.pc t).merges = none)
    (r : RootId) : Quiet s.pmm r := by
  rcases inv.quiet r with quiet | ⟨u,merging⟩
  · exact quiet
  have theirs : (s.pc u).locked = true := by
    cases pc : s.pc u <;> rw [pc] at merging <;> first | rfl | cases merging
  have same := ((inv.lock u).mpr theirs).symm.trans ((inv.lock t).mpr locked)
  cases same
  rw [calm] at merging
  cases merging

theorem Inv.advance_pick (here : s.pc t = .pick goal)
    (run : advance cfg o t s (.pick goal) = some s') : Owned cfg s' := by
  rw [advance] at run
  split at run
  next pmm r picked =>
    cases run
    obtain ⟨flagged,before,empty⟩ := pickRootChunkToEvict_flagged inv.sound picked
    have quiet : Quiet s.pmm r := inv.quiet_locked (t := t) (by rw [here]; rfl) (by rw [here]; rfl) r
    refine ⟨owner,inv.startEviction _ here rfl flagged
      before (empty quiet) rfl rfl (.keep rfl) (fun _ => id) rfl rfl rfl
      ⟨fun x root free => ?_,fun x => preOrder_root⟩⟩
    refine preOrder_complete flagged.sound.shaped root ?_
    have state : (s.pmm.chunk x).state = .free := free
    rw [flagged.state,state]
    decide
  next =>
    cases run
    have locked : (Pc.pick goal).locked = true := rfl
    obtain ⟨pc,back⟩ := evictFailed_returns s t goal locked
    exact ⟨owner,inv.returns here back (fun _ => id) rfl rfl⟩

theorem Inv.advance_evictWait (here : s.pc t = .evictWait r)
    (run : advance cfg o t s (.evictWait r) = some s') : Owned cfg s' := by
  obtain ⟨free,rfl⟩ := System.acquire_some run
  refine inv.goto _ here (.acquire free rfl) nofun rfl rfl
    ⟨fun x root state => ?_,fun x => preOrder_root⟩
  refine preOrder_complete inv.sound.shaped root ?_
  have same : (s.pmm.chunk x).state = .free := state
  rw [same]
  decide

theorem Inv.evicting_at (here : s.pc t = pc) (evicts : pc.evicts = some r) : s.inEviction r = true :=
  (inv.evicting r).mpr ⟨t,by rw [here,evicts]⟩

theorem Inv.advance_evictPin (here : s.pc t = .evictPin goal r todo)
    (run : advance cfg o t s (.evictPin goal r todo) = some s') : Owned cfg s' := by
  obtain ⟨listed,inside⟩ := inv.good_at here
  cases todo with
  | nil =>
    cases run
    have noFree (x : ChunkId) (root : x.root = r) (free : s.state x = .free) : False := by
      cases listed x root free
    refine inv.goto _ here (.keep rfl) nofun rfl rfl ⟨noFree,fun x root state => ?_⟩
    refine preOrder_complete inv.sound.shaped root ?_
    have same : (s.pmm.chunk x).state = .allocated := state
    rw [same]
    decide
  | cons c todo =>
    cases run
    have root : c.root = r := inside c (by simp)
    have rest (x : ChunkId) (member : x ∈ todo) : x.root = r := inside x (by simp [member])
    have flag : s.inEviction c.root = true := inv.evicting_at here (by rw [root]; rfl)
    by_cases free : s.state c = .free
    · have done : Section cfg s.pmm (pinFreeChunksFunc s.pmm c) c .tempPinned :=
        pinFreeChunksFunc_section inv.sound flag free
      have nobody : owner c = .nobody := inv.free_nobody (.inl free)
      refine ⟨_,inv.give (o := .nobody) _ here rfl (inv.only here nofun)
        (.inr ⟨by simp [nobody],by simp [free]⟩) done (recolors_free free nofun nofun) trivial
        (inv.held.same (by simp [nobody]) nofun) (fun _ => ⟨fun _ => rfl,.inl (by rw [root]; rfl)⟩)
        (.keep rfl) rfl nofun rfl ⟨fun x sameRoot state => ?_,rest⟩⟩
      have now : ((pinFreeChunksFunc s.pmm c).chunk x).state = .free := state
      rw [done.state] at now
      split at now
      · cases now
      next other =>
        rcases List.mem_cons.mp (listed x sameRoot now) with equal | member
        · exact absurd equal other
        · exact member
    · have same : pinFreeChunksFunc s.pmm c = s.pmm := if_neg free
      refine ⟨owner,inv.jump _ here rfl ?_ rfl rfl (.keep rfl) (fun _ => id) rfl rfl
        ⟨fun x sameRoot state => ?_,rest⟩⟩
      · rw [same]
        exact .refl inv.sound
      · rcases List.mem_cons.mp (listed x sameRoot state) with rfl | member
        · exact absurd state free
        · exact member

theorem Inv.advance_evictFind (here : s.pc t = .evictFind goal r todo)
    (run : advance cfg o t s (.evictFind goal r todo) = some s') : Owned cfg s' := by
  obtain ⟨noFree,listed⟩ := inv.good_at here
  cases todo with
  | nil =>
    cases run
    have flag : s.inEviction r = true := inv.evicting_at here rfl
    refine inv.goto _ here (.keep rfl) nofun rfl rfl
      ⟨rfl,(inv.sound.evicting r flag).2.1,fun x root exist leaf => ?_⟩
    cases state : s.state x with
    | pmaOwned => exact absurd state exist
    | free => exact absurd state (noFree x root)
    | isSplit => exact absurd state leaf
    | tempPinned => rfl
    | allocated => cases listed x root state
  | cons c todo =>
    rw [advance] at run
    split at run
    next =>
      cases run
      exact inv.goto _ here (.release rfl rfl) nofun rfl rfl noFree
    next busy =>
      cases run
      refine inv.goto _ here (.keep rfl) nofun rfl rfl ⟨noFree,fun x root state => ?_⟩
      rcases List.mem_cons.mp (listed x root state) with rfl | member
      · exact absurd state busy
      · exact member

theorem Inv.advance_evictBlock (here : s.pc t = .evictBlock goal r)
    (run : advance cfg o t s (.evictBlock goal r) = some s') : Owned cfg s' := by
  have noFree : ∀ x, x.root = r → s.state x ≠ .free := inv.good_at here
  rw [advance] at run
  split at run
  next c _ =>
    split at run
    next allowed =>
      cases run
      obtain ⟨member,root,_⟩ := allowed
      obtain ⟨own,state⟩ := inv.held_state member
      have allocated : (s.pmm.chunk c).state = .allocated := state
      have flag : s.inEviction c.root = true := inv.evicting_at here (by rw [root]; rfl)
      have done : Section cfg s.pmm (markChunkEvicted s.pmm c) c .tempPinned :=
        markChunkEvicted_section inv.sound flag allocated
      have pcs : s.pc = update s.pc t (.evictBlock goal r) := by
        rw [← here,update_eq_self]
      refine ⟨_,inv.give (o := .nobody) _ here (by exact pcs) (inv.only here nofun)
        (.inr ⟨by simp [own],by simp [state]⟩) done (inv.recolors own nofun nofun) trivial
        (inv.held.drop own nofun) (fun _ => ⟨fun _ => rfl,.inr (.inr ⟨allocated,rfl⟩)⟩) (.keep rfl)
        rfl nofun rfl fun x sameRoot free => ?_⟩
      have now : ((markChunkEvicted s.pmm c).chunk x).state = .free := free
      rw [done.state] at now
      split at now
      · cases now
      · exact noFree x sameRoot now
    next => cases run
  next =>
    obtain ⟨free,rfl⟩ := System.acquire_some run
    have find : (Pc.evictFind goal r (preOrder s.pmm (.ofRoot r))).Good s.state owner t := by
      refine ⟨noFree,fun x root state => preOrder_complete inv.sound.shaped root ?_⟩
      have same : (s.pmm.chunk x).state = .allocated := state
      rw [same]
      decide
    cases success : o.success with
    | true =>
      exact inv.goto _ here (.acquire free rfl) nofun rfl rfl find
    | false =>
      exact inv.goto _ here (.acquire free rfl) nofun rfl rfl trivial

theorem Inv.advance_evictDone (here : s.pc t = .evictDone goal r)
    (run : advance cfg o t s (.evictDone goal r) = some s') : Owned cfg s' := by
  have state : s.state (.ofRoot r) = .tempPinned := inv.good_at here
  cases run
  have flag : s.inEviction r = true := inv.evicting_at here rfl
  have nobody : owner (.ofRoot r) = .nobody := inv.pinned _ flag state
  have flagged := finishEviction_flagged inv.sound state
  refine ⟨update owner (.ofRoot r) (.thread t),inv.endEviction _ here rfl
    flagged (inv.held.same (by simp [nobody]) (by simp)) (fun u other x => ?_) (fun x b own => ?_)
    (fun x own => ?_) (fun x other => ?_) (.keep rfl) rfl rfl rfl (fun i used => ?_) ⟨by simp,state⟩⟩
  · by_cases equal : x = .ofRoot r
    · subst equal
      simp [nobody,Ne.symm other]
    · simp [equal]
  · by_cases equal : x = .ofRoot r
    · subst equal
      simp at own
    · rw [update_of_ne equal] at own
      exact inv.caller x b own
  · by_cases equal : x = .ofRoot r
    · subst equal
      rw [state]
      exact ⟨rfl,by decide,by decide,fun _ => by decide⟩
    · rw [update_of_ne equal] at own
      exact absurd own (inv.nothing (by rw [here]; exact fun _ => id) x)
  · refine update_of_ne ?_ _ _
    rintro rfl
    exact other rfl
  · by_cases equal : i = r
    · subst equal
      exact inv.pma i (.inl (by rw [state]; decide))
    · have different : ChunkId.ofRoot i ≠ .ofRoot r := fun same => equal (congrArg ChunkId.root same)
      rw [update_of_ne different] at used
      exact inv.pma i used

/-- The evicted root goes back to PMA. -/
theorem Inv.toFreeRoot {heir : PmaOwner} {after : AfterRoot} {pmm : State} {lock : Option Thread}
    (here : s.pc t = .evicted goal r) (done : Section cfg s.pmm pmm (.ofRoot r) .tempPinned)
    (next : LockStep s.lock t (.evicted goal r) (.freeRoot r heir after) lock) :
    Owned cfg ({ s with pmm, lock }.goto t (.freeRoot r heir after)) := by
  obtain ⟨own,state⟩ := inv.good_at here
  have same : (s.pmm.chunk (.ofRoot r)).state = .tempPinned := state
  have now : (pmm.chunk (.ofRoot r)).state = .tempPinned := by simp [done.state]
  refine ⟨_,inv.give (o := .thread t) _ here rfl (inv.only here fun _ => id)
    (.inl own) done ⟨by simp [same],nofun,fun sub => absurd rfl sub⟩ ⟨rfl,rfl,nofun⟩
    (inv.held.same (by simp [own]) nofun) (fun flag => ?_) next rfl nofun rfl ⟨by simp,now⟩⟩
  exact absurd (inv.pinned _ flag state) (by simp [own])

theorem Inv.advance_evicted (here : s.pc t = .evicted goal r)
    (run : advance cfg o t s (.evicted goal r) = some s') : Owned cfg s' := by
  obtain ⟨own,state⟩ := inv.good_at here
  have calm : s.inEviction r = false := inv.not_evicting (c := .ofRoot r) state (by simp [own])
  have same : Section cfg s.pmm s.pmm (.ofRoot r) .tempPinned := .refl inv.sound state
  have kernel := setKernel_section inv.sound state calm (inv.root_idle here rfl own state)
  have only := inv.only here (c := .ofRoot r) fun _ => id
  cases run
  unfold evictedRoot
  split
  · exact inv.toFreeRoot here same (.keep rfl)
  cases goal with
  | range => exact inv.toFreeRoot here same (.release rfl rfl)
  | pages =>
    dsimp only
    split
    · exact inv.toFreeRoot here same (.keep rfl)
    · exact inv.toFreeRoot here kernel (.release rfl rfl)
  | alloc request =>
    dsimp only
    by_cases root : request.size = chunkSizeMax
    · split
      · exact inv.gotRoot here own only same state rfl rfl (fun _ => .release rfl rfl)
          fun sub => absurd root sub
      split
      · exact inv.toFreeRoot here same (.keep rfl)
      · exact inv.gotRoot here own only kernel state rfl rfl (fun _ => .release rfl rfl)
          fun sub => absurd root sub
    · split
      · exact inv.gotRoot here own only same state rfl rfl (fun size => absurd size root)
          fun _ => ⟨rfl,rfl⟩
      split
      · exact inv.toFreeRoot here same (.keep rfl)
      · exact inv.gotRoot here own only kernel state rfl rfl (fun size => absurd size root)
          fun _ => ⟨rfl,rfl⟩

theorem Inv.advance_evictError (here : s.pc t = .evictError goal r)
    (run : advance cfg o t s (.evictError goal r) = some s') : Owned cfg s' := by
  cases run
  have flagged : Flagged cfg s.pmm (abandonEviction cfg o.hook s.pmm r) r false :=
    (abandonEviction_flagged inv.sound (inv.evicting_at here rfl)).1
  exact ⟨owner,inv.endEviction _ here rfl flagged inv.held (fun _ _ _ => Iff.rfl)
    inv.caller (fun x own => absurd own (inv.nothing (by rw [here]; exact fun _ => id) x))
    (fun _ _ => rfl) (.keep rfl) rfl rfl rfl inv.pma trivial⟩

theorem Inv.advance_cleanup (here : s.pc t = .cleanup goal r todo)
    (safe : ∀ c, todo.head? = some c → s.state c = .tempPinned →
      owner c = .nobody ∧ s.inEviction c.root = false)
    (run : advance cfg o t s (.cleanup goal r todo) = some s') : Owned cfg s' := by
  cases todo with
  | nil =>
    cases run
    exact inv.goto _ here (.keep rfl) nofun rfl rfl trivial
  | cons c todo =>
    rw [advance] at run
    split at run
    next pinned =>
      cases run
      obtain ⟨nobody,calm⟩ := safe c rfl pinned
      refine ⟨_,inv.give (o := .thread t) _ here rfl
        (inv.only here nofun) (.inr ⟨by simp [nobody],by simp [System.state,pinned]⟩)
        (.refl inv.sound pinned) ⟨by simp [pinned],nofun,fun _ => ⟨by simp [pinned],nofun⟩⟩
        ⟨rfl,rfl,nofun⟩ (inv.held.same (by simp [nobody]) nofun) (fun flag => ?_) (.keep rfl) rfl nofun
        rfl ⟨by simp,.inl pinned⟩⟩
      exact absurd (flag.symm.trans calm) (by decide)
    next =>
      cases run
      exact inv.goto _ here (.keep rfl) nofun rfl rfl trivial

end Evict

end GpuExt.Pmm
