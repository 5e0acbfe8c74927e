import GpuExt.PmmSequential

/-! Who works on which memory, in any interleaving of safe steps. -/
namespace GpuExt.Pmm

open Option

variable {cfg : Config} {s : System} {owner : ChunkId → Owner} {x : ChunkId}

inductive User where
  | caller (handle : Handle)
  | thread (t : Thread)

/-- The chunk that the cleanup of a failed eviction takes next. -/
def Pc.cleaned : Pc → Option ChunkId
  | .cleanup _ _ (c :: _) => some c
  | _ => none

theorem Pc.cleaned_eq {pc : Pc} (cleans : pc.cleaned = some x) :
    ∃ goal r todo,pc = .cleanup goal r (x :: todo) := by
  unfold cleaned at cleans
  split at cleans
  next goal r c todo =>
    cases cleans
    exact ⟨goal,r,todo,rfl⟩
  next => cases cleans

/-- A caller uses the chunk it holds, a thread the leaves that its operation works on. An eviction
works on the pinned chunks of its root, and its cleanup on the pinned chunk that it takes next, if
that is safe. -/
def System.Uses (s : System) : User → ChunkId → Prop
  | .caller handle, x => handle ∈ s.held ∧ handle.chunk = x
  | .thread t, x => (s.pc t).Holds x ∧ Leaf s.pmm x ∨ s.state x = .tempPinned ∧
      ((s.pc t).evicts = some x.root ∨ (s.pc t).cleaned = some x ∧ SafeAdvance s t (s.pc t))

def User.asOwner : User → Owner
  | .caller handle => .caller handle.pinned
  | .thread t => .thread t

/-- A thread owns every leaf that its operation works on. -/
theorem Inv.holds_owned (inv : Inv cfg s owner) {t : Thread} (holds : (s.pc t).Holds x)
    (leaf : Leaf s.pmm x) : owner x = .thread t := by
  have good := inv.good t
  generalize s.pc t = pc at holds good
  -- Where the operation works on all subchunks of a chunk.
  have child {p : ChunkId} (parent : x.parent = some p)
      (mine : ∀ i, s.state (p.child i) ≠ .pmaOwned →
        owner (p.child i) = .thread t ∧ s.state (p.child i) = .tempPinned) :
      owner x = .thread t := by
    obtain ⟨i,rfl⟩ := ChunkId.parent_eq.mp parent
    exact (mine i leaf.1).1
  cases pc with
  | initRoots _ _ first pending =>
    obtain ⟨ofFirst,_,ofPending⟩ := good
    rcases holds with ⟨r,same,rfl⟩ | ⟨r,member,rfl⟩
    · exact (ofFirst r same).1
    · exact (ofPending r member).2.1
  | splitDown _ _ c | freeWait _ c | freeMerge _ c => exact holds ▸ good.1
  | freeRoot r _ _ | evicted _ r => exact holds ▸ good.1
  | freeSiblings _ _ parent | mergeParent _ parent => exact child holds good.2
  | splitWalk c _ _ _ => exact (good.2.1 x holds leaf.1 leaf.2).1
  | mergeWalk c after =>
    cases after with
    | caller => exact (good.2 x holds leaf.1 leaf.2).1
    | evict => exact holds.elim
  | _ => exact holds.elim

/-- The user owns the chunk; or nobody does, and a thread evicts its root or, with the mutex, cleans
up after an eviction. -/
theorem Inv.uses_cases (inv : Inv cfg s owner) {user : User} (uses : s.Uses user x) :
    Leaf s.pmm x ∧ (owner x = user.asOwner ∨ owner x = .nobody ∧ ∃ t,user = .thread t ∧
      ((s.pc t).evicts = some x.root ∨ (s.pc t).locked = true ∧ s.inEviction x.root = false)) := by
  have leaf {q : ChunkState} (state : s.state x = q) (busy : q ≠ .pmaOwned ∧ q ≠ .isSplit) :
      Leaf s.pmm x := by
    rw [← state] at busy
    exact busy
  cases user with
  | thread t =>
    rcases uses with ⟨holds,leaf⟩ | ⟨pinned,evicts | ⟨cleans,safe⟩⟩
    · exact ⟨leaf,.inl (inv.holds_owned holds leaf)⟩
    · have evicting := (inv.evicting x.root).mpr ⟨t,evicts⟩
      exact ⟨leaf pinned (by decide),.inr ⟨inv.pinned x evicting pinned,t,rfl,.inl evicts⟩⟩
    · obtain ⟨goal,r,todo,here⟩ := Pc.cleaned_eq cleans
      rw [here] at safe
      obtain ⟨free,calm⟩ := inv.cleanup_nobody here safe pinned
      exact ⟨leaf pinned (by decide),.inr ⟨free,t,rfl,.inr ⟨by rw [here]; rfl,calm⟩⟩⟩
  | caller handle =>
    obtain ⟨member,rfl⟩ := uses
    obtain ⟨own,state⟩ := inv.held_state (c := handle.chunk) (b := handle.pinned) member
    obtain ⟨-,notSplit,used⟩ := heldState_busy handle.pinned
    exact ⟨leaf state ⟨used,notSplit⟩,.inl own⟩

theorem Inv.uses_unique (inv : Inv cfg s owner) {a b : User} (usesA : s.Uses a x)
    (usesB : s.Uses b x) : a = b := by
  rcases (inv.uses_cases usesA).2 with ownA | ⟨freeA,t,rfl,workA⟩ <;>
    rcases (inv.uses_cases usesB).2 with ownB | ⟨freeB,u,rfl,workB⟩
  · have same := ownA.symm.trans ownB
    rcases a with ⟨⟨_,_⟩⟩ | t <;> rcases b with ⟨⟨_,_⟩⟩ | u <;> cases same
    · obtain ⟨_,rfl⟩ := usesA
      obtain ⟨_,rfl⟩ := usesB
      rfl
    · rfl
  · rcases a with handle | t <;> exact nomatch ownA.symm.trans freeB
  · rcases b with handle | u <;> exact nomatch ownB.symm.trans freeA
  · -- A root is evicted by one thread, and never while another one cleans up.
    rcases workA with evictsA | ⟨lockedA,calmA⟩ <;> rcases workB with evictsB | ⟨lockedB,calmB⟩
    · rw [inv.unique t u _ evictsA evictsB]
    · exact absurd ((inv.evicting _).mpr ⟨t,evictsA⟩) (by simp [calmB])
    · exact absurd ((inv.evicting _).mpr ⟨u,evictsB⟩) (by simp [calmA])
    · rw [Option.some.inj (((inv.lock t).mpr lockedA).symm.trans ((inv.lock u).mpr lockedB))]

/-- The mutex, the evictions and what a root in eviction is safe from. -/
structure Serialised (s : System) : Prop where
  mutex : ∀ t u, (s.pc t).locked = true → (s.pc u).locked = true → t = u
  flagged : ∀ r, s.inEviction r = true ↔ ∃! t, (s.pc t).evicts = some r
  unclaimed : ∀ handle ∈ s.held, s.inEviction handle.chunk.root = true → handle.pinned = false

section

variable {id : Nat} {events : List Event} (safe : SafeRun cfg events (System.start id))
  (run : execute cfg events (System.start id) = some s)
include safe run

/-- No two users share a byte. -/
theorem uses_exclusive (a b : User) (different : a ≠ b) (x y : ChunkId)
    (usesA : s.Uses a x) (usesB : s.Uses b y) (address : Nat)
    (inside : Covers (s.pmm.chunk x) address) : ¬Covers (s.pmm.chunk y) address := by
  obtain ⟨owner,inv⟩ := (inv_start id).run safe run
  have leafA := (inv.uses_cases usesA).1
  have leafB := (inv.uses_cases usesB).1
  apply inv.sound.shaped.leaves_disjoint leafA leafB ?_ inside
  rintro rfl
  exact different (inv.uses_unique usesA usesB)

/-- The bytes of a root that PMA has not given to the driver are in nobody's use. -/
theorem pma_isolated (r : RootId) (foreign : s.pma r ≠ .uvm) (user : User)
    (x : ChunkId) (uses : s.Uses user x) (address : Nat)
    (inside : Covers (s.pmm.chunk x) address) :
    address < r * 2 ^ chunkSizeMax ∨ (r + 1) * 2 ^ chunkSizeMax ≤ address := by
  obtain ⟨owner,inv⟩ := (inv_start id).run safe run
  have leaf := (inv.uses_cases uses).1
  have used := inv.sound.shaped.used_above x.root_under leaf.1
  have other : x.root ≠ r := fun same => foreign (same ▸ inv.pma x.root (.inl used))
  obtain ⟨low,high⟩ := (inv.sound.shaped.tiled used).inside x rfl leaf address inside
  rcases Nat.lt_or_gt_of_ne other with below | above
  · exact .inl (high.trans_le (Nat.mul_le_mul_right _ below))
  · exact .inr ((Nat.mul_le_mul_right _ above).trans low)

theorem operations_serialised : Serialised s := by
  obtain ⟨owner,inv⟩ := (inv_start id).run safe run
  refine ⟨fun t u lockedT lockedU => ?_,fun r => ?_,fun handle member evicting => ?_⟩
  · exact some.inj (((inv.lock t).mpr lockedT).symm.trans ((inv.lock u).mpr lockedU))
  · rw [inv.evicting r]
    exact ⟨fun ⟨t,evicts⟩ => ⟨t,evicts,fun u other => inv.unique u t r other evicts⟩,(·.exists)⟩
  · by_contra pinned
    rw [Bool.not_eq_false] at pinned
    exact inv.unclaimed evicting handle.chunk rfl (pinned ▸ member)

end

/-- Thread 0 frees its chunk of root 0. Meanwhile thread 1 evicts the root, and has pinned the other
half of it. -/
def freeAndEvict : List Event :=
  lastFree ++ .thread 1 (.evictRange 0) fairOracle ::
    List.replicate 4 (.thread 1 .advance fairOracle)

theorem freeAndEvict_run : SafeRun twoSizes freeAndEvict (System.start 0) ∧
    ∃ s, execute twoSizes freeAndEvict (System.start 0) = some s ∧ s.pma 1 = .free ∧
      s.Uses (.thread 0) ⟨0,[0]⟩ ∧ s.Uses (.thread 1) ⟨0,[1]⟩ := by
  constructor
  · iterate 19
      refine ⟨trivial,?_⟩
      rintro _ ⟨⟩
    trivial
  · have facts : (execute twoSizes freeAndEvict (System.start 0)).map (fun s =>
        (s.pma 1,s.pc 0,s.pc 1,(s.pmm.chunk ⟨0,[0]⟩).state,(s.pmm.chunk ⟨0,[1]⟩).state)) =
        some (.free,.freeWait .user ⟨0,[0]⟩,.evictPin .range 0 [],.allocated,.tempPinned) := by
      decide +kernel
    obtain ⟨s,run,same⟩ := map_eq_some_iff.mp facts
    simp only [Prod.mk.injEq] at same
    obtain ⟨pma,frees,evicts,state,pinned⟩ := same
    exact ⟨s,run,pma,.inl ⟨by rw [frees]; exact rfl,by simp [Leaf,state]⟩,
      .inr ⟨pinned,.inl (by rw [evicts]; rfl)⟩⟩

theorem uses_exclusive_halves : ∃ s, execute twoSizes freeAndEvict (System.start 0) = some s ∧
    s.Uses (.thread 0) ⟨0,[0]⟩ ∧ s.Uses (.thread 1) ⟨0,[1]⟩ ∧
      ∀ address, Covers (s.pmm.chunk ⟨0,[0]⟩) address →
        ¬Covers (s.pmm.chunk ⟨0,[1]⟩) address := by
  obtain ⟨safe,s,run,_,first,second⟩ := freeAndEvict_run
  exact ⟨s,run,first,second,
    uses_exclusive safe run (.thread 0) (.thread 1) nofun _ _ first second⟩

theorem pma_isolated_free : ∃ s, execute twoSizes freeAndEvict (System.start 0) = some s ∧
    s.pma 1 = .free ∧ s.Uses (.thread 1) ⟨0,[1]⟩ ∧
      ∀ address, Covers (s.pmm.chunk ⟨0,[1]⟩) address →
        address < 1 * 2 ^ chunkSizeMax ∨ 2 * 2 ^ chunkSizeMax ≤ address := by
  obtain ⟨safe,s,run,free,_,second⟩ := freeAndEvict_run
  exact ⟨s,run,free,second,pma_isolated safe run 1 (by rw [free]; decide) _ _ second⟩

/-- Thread 1 evicts root 0 while thread 0 frees a chunk of it. -/
theorem operations_serialised_late : ∃ s, execute twoSizes lateEviction (System.start 0) = some s ∧
    Serialised s := by
  obtain ⟨s,run⟩ := isSome_iff_exists.mp
    (by decide +kernel : (execute twoSizes lateEviction (System.start 0)).isSome)
  exact ⟨s,run,operations_serialised lateEviction_safe run⟩

end GpuExt.Pmm
