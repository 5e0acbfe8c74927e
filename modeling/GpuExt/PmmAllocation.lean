import GpuExt.PmmOwnership

/-! The later sections of an allocation keep the invariant. -/
namespace GpuExt.Pmm

variable {cfg : Config} {s s' : System} {owner owner' : ChunkId → Owner} {t u : Thread} {old pc : Pc}
  {c x : ChunkId} {q : ChunkState} {r : RootId} {o : Oracle} {b : Bool} {request : Request} {goal : Goal}

/-- Control goes on; no chunk is touched. -/
structure Returns (s : System) (t : Thread) (old : Pc) (s' : System) (pc : Pc) : Prop where
  pmm : s'.pmm = s.pmm
  held : s'.held = s.held
  pma : s'.pma = s.pma
  pcs : s'.pc = Function.update s.pc t pc
  lock : LockStep s.lock t old pc s'.lock
  evicts : pc.evicts = none
  merges : pc.merges = none
  good : ∀ state owner, pc.Good state owner t

theorem returns_goto (same : pc.locked = old.locked) (evicts : pc.evicts = none)
    (merges : pc.merges = none) (good : ∀ state owner, pc.Good state owner t) :
    Returns s t old (s.goto t pc) pc :=
  ⟨rfl,rfl,rfl,rfl,.keep same,evicts,merges,good⟩

theorem returns_unlock (locked : old.locked = true) (free : pc.locked = false)
    (evicts : pc.evicts = none) (merges : pc.merges = none)
    (good : ∀ state owner, pc.Good state owner t) : Returns s t old (s.unlock.goto t pc) pc :=
  ⟨rfl,rfl,rfl,rfl,.release locked free,evicts,merges,good⟩

theorem evictFailed_returns (s : System) (t : Thread) (goal : Goal) (locked : old.locked = true) :
    ∃ pc, Returns s t old (evictFailed s t goal) pc := by
  cases goal with
  | alloc request =>
    rw [evictFailed]
    split <;> exact ⟨_,returns_unlock locked rfl rfl rfl fun _ _ => trivial⟩
  | pages | range => exact ⟨_,returns_unlock locked rfl rfl rfl fun _ _ => trivial⟩

theorem pmaFailed_returns (s : System) (t : Thread) (request : Request)
    (locked : old.locked = (request.size != chunkSizeMax)) :
    ∃ pc, Returns s t old (pmaFailed s t request) pc := by
  unfold pmaFailed
  split
  next root =>
    have unlocked : old.locked = false := by simp [locked,root]
    split
    · exact ⟨_,returns_goto unlocked.symm rfl rfl fun _ _ => trivial⟩
    · exact ⟨_,returns_goto unlocked.symm rfl rfl fun _ _ => trivial⟩
  next sub =>
    have held : old.locked = true := by simp [locked,sub]
    split
    · exact ⟨_,returns_goto held.symm rfl rfl fun _ _ => trivial⟩
    · exact ⟨_,returns_unlock held rfl rfl rfl fun _ _ => trivial⟩

theorem Inv.returns (inv : Inv cfg s owner) (start : s.pc t = old) (back : Returns s t old s' pc)
    (nothing : ∀ x, ¬old.Holds x) (evicts : old.evicts = none) (merges : old.merges = none) :
    Inv cfg s' owner := by
  have shuffled : Shuffled cfg s.pmm s'.pmm := by
    rw [back.pmm]
    exact .refl inv.sound
  exact inv.jump pc start back.pcs shuffled back.held back.pma back.lock nothing
    (back.evicts.trans evicts.symm) merges (back.good _ _)

section Alloc

variable (inv : Inv cfg s owner)
include inv

theorem Inv.advance_lockWait (here : s.pc t = .lockWait request)
    (run : advance cfg o t s (.lockWait request) = some s') : Owned cfg s' := by
  obtain ⟨free,rfl⟩ := System.acquire_some run
  have sub : request.size ≠ chunkSizeMax := inv.good_at here
  exact inv.goto _ here (.acquire free rfl) nofun rfl rfl sub

theorem Inv.advance_withSplits {sizes : List Nat} (here : s.pc t = .withSplits request sizes)
    (run : advance cfg o t s (.withSplits request sizes) = some s') :
    Owned cfg s' := by
  have sub : request.size ≠ chunkSizeMax := inv.good_at here
  cases sizes with
  | nil =>
    cases run
    exact inv.goto _ here (.keep (bne_iff_ne.mpr sub)) nofun rfl rfl trivial
  | cons size sizes =>
    obtain ⟨⟨pmm,found⟩,claim,run⟩ := Option.bind_eq_some_iff.mp run
    rcases claimFreeChunk_spec inv.sound claim with ⟨rfl,shuffled⟩ | ⟨c,rfl,state,quiet,done⟩
    · cases run
      exact ⟨owner,inv.jump _ here rfl shuffled rfl rfl (.keep rfl) (fun _ => id) rfl rfl sub⟩
    · cases run
      have nobody : owner c = .nobody := inv.free_nobody (.inl state)
      have after : (pmm.chunk c).state = .tempPinned := by simp [done.state]
      exact ⟨_,inv.claim (o := .thread t) _ here rfl (fun _ => id) state quiet
        done ⟨rfl,rfl,nofun⟩ (inv.held.same (by simp [nobody]) nofun) (.keep rfl) rfl rfl rfl
        ⟨by simp,after⟩⟩

/-- A root that PMA may grant is nobody's. -/
theorem Inv.grantable (free : s.pma r = .free) :
    s.state (.ofRoot r) = .pmaOwned ∧ owner (.ofRoot r) = .nobody := by
  have foreign : s.pma r ≠ .uvm := by simp [free]
  have state : s.state (.ofRoot r) = .pmaOwned := by
    by_contra used
    exact foreign (inv.pma r (.inl used))
  refine ⟨state,?_⟩
  cases own : owner _ with
  | nobody => rfl
  | caller b =>
    have held := inv.caller _ b own
    rw [state] at held
    exact absurd held.symm (heldState_busy b).2.2
  | thread u => exact absurd (inv.pma r (.inr ⟨u,own⟩)) foreign

theorem Inv.advance_allocRoot (here : s.pc t = .allocRoot request)
    (run : advance cfg o t s (.allocRoot request) = some s') : Owned cfg s' := by
  rw [advance] at run
  split at run
  · cases run
    have locked : (Pc.allocRoot request).locked = (request.size != chunkSizeMax) := rfl
    obtain ⟨pc,back⟩ := pmaFailed_returns s t request locked
    exact ⟨owner,inv.returns here back (fun _ => id) rfl rfl⟩
  split at run
  next granted =>
    cases run
    obtain ⟨distinct,free⟩ := granted
    let owner' : ChunkId → Owner := fun x =>
      if x.path = [] ∧ x.root ∈ o.granted then .thread t else owner x
    -- Granted roots belong to nobody before the step.
    have given {x : ChunkId} (top : x.path = []) (member : x.root ∈ o.granted) :
        owner' x = .thread t ∧ owner x = .nobody ∧ s.state x = .pmaOwned := by
      obtain ⟨state,nobody⟩ := inv.grantable (free x.root member)
      rw [← ChunkId.eq_ofRoot top] at state nobody
      exact ⟨if_pos ⟨top,member⟩,nobody,state⟩
    have kept {x : ChunkId} (not : ¬(x.path = [] ∧ x.root ∈ o.granted)) : owner' x = owner x :=
      if_neg not
    refine ⟨owner',inv.handover _ here rfl (.refl inv.sound)
      (inv.held.congr fun x b => ?_) (fun x => ?_) (.keep rfl) rfl nofun
      ⟨nofun,distinct,fun r member => ⟨nofun,(given rfl member).1,(given rfl member).2.2⟩⟩⟩
    · by_cases mine : x.path = [] ∧ x.root ∈ o.granted
      · simp [(given mine.1 mine.2).1,(given mine.1 mine.2).2.1]
      · rw [kept mine]
    · by_cases mine : x.path = [] ∧ x.root ∈ o.granted
      · obtain ⟨own,nobody,state⟩ := given mine.1 mine.2
        rw [own,state]
        exact .inl ⟨by simp [nobody],⟨rfl,.inr ⟨x.root,mine.2,ChunkId.eq_ofRoot mine.1⟩,nofun,nofun,
          fun sub => absurd mine.1 sub⟩,nofun,fun _ => .inl (by simp [System.goto,mine.2])⟩
      · refine .inr ⟨kept mine,rfl,fun own => ?_,fun top => ?_⟩
        · exact absurd own (inv.nothing (by rw [here]; exact fun _ => id) x)
        · have foreign : x.root ∉ o.granted := fun member => mine ⟨top,member⟩
          simp [System.goto,foreign]
  next => cases run

/-- A root from PMA joins the chunks, for the caller or as a free one. -/
theorem Inv.initRoot {isZero : Bool} {first first' : Option RootId} {pending : List RootId}
    {o : Owner} {pmm : State} (here : s.pc t = .initRoots request isZero first (r :: pending))
    (done : Section cfg s.pmm pmm (.ofRoot r) q) (leaf : q ≠ .isSplit)
    (becomes : first' = some r ∧ first = none ∧ q = .tempPinned ∧ o = .thread t ∨
      first' = first ∧ o = .nobody) :
    Owned cfg ({ s with pmm }.goto t (.initRoots request isZero first' pending)) := by
  obtain ⟨head,distinct,rest⟩ := inv.good_at here
  obtain ⟨notFirst,own,state⟩ := rest r (by simp)
  obtain ⟨notPending,distinct⟩ := List.nodup_cons.mp distinct
  have calm : s.inEviction r = false := by
    cases flag : s.inEviction r with
    | false => rfl
    | true => exact absurd state (inv.sound.evicting r flag).2.1
  have others (x : ChunkId) (other : x ≠ .ofRoot r) : (pmm.chunk x).state = s.state x := by
    rw [done.state,if_neg other]
    rfl
  refine ⟨_,inv.leaf (o := o) _ here rfl done
    ⟨?_,leaf,fun sub => absurd rfl sub⟩ (fun u theirs => ?_) ?_ (inv.held.same (by simp [own]) ?_)
    (fun x other mine => ?_) (fun flag => ?_) (.keep rfl) rfl nofun (fun _ _ => rfl) (fun _ => .inl (inv.pma r (.inr ⟨t,own⟩)))
    ⟨fun i now => ?_,distinct,fun i member => ?_⟩⟩
  · have before : (s.pmm.chunk (.ofRoot r)).state = .pmaOwned := state
    rw [before]
    decide
  · exact Owner.thread.inj (theirs.symm.trans own)
  · rcases becomes with ⟨rfl,_,rfl,rfl⟩ | ⟨_,rfl⟩
    · exact ⟨rfl,.inl ⟨r,rfl,rfl⟩,by decide⟩
    · trivial
  · rcases becomes with ⟨_,_,_,rfl⟩ | ⟨_,rfl⟩ <;> simp
  · have holds := (inv.thread x t mine).1
    rw [here] at holds
    rcases holds with ⟨i,old,rfl⟩ | ⟨i,member,rfl⟩
    · rcases becomes with ⟨_,none,_,_⟩ | ⟨same,_⟩
      · rw [none] at old
        cases old
      · exact .inl ⟨i,same.trans old,rfl⟩
    · rcases List.mem_cons.mp member with same | member
      · exact absurd (congrArg ChunkId.ofRoot same) other
      · exact .inr ⟨i,member,rfl⟩
  · exact absurd (flag.symm.trans calm) (by decide)
  · rcases becomes with ⟨rfl,_,rfl,rfl⟩ | ⟨rfl,rfl⟩
    · cases now
      exact ⟨by simp,by simp [System.state,System.goto,done.state]⟩
    · have other : ChunkId.ofRoot i ≠ .ofRoot r := by
        rintro same
        cases same
        exact notFirst now
      rw [Function.update_of_ne other]
      exact ⟨(head i now).1,(others _ other).trans (head i now).2⟩
  · have other : ChunkId.ofRoot i ≠ .ofRoot r := by
      rintro same
      cases same
      exact notPending member
    obtain ⟨notFirst',own',state'⟩ := rest i (by simp [member])
    rw [Function.update_of_ne other]
    refine ⟨?_,own',(others _ other).trans state'⟩
    rcases becomes with ⟨rfl,_,_,_⟩ | ⟨rfl,_⟩
    · intro same
      cases same
      exact notPending member
    · exact notFirst'

/-- The chunk that a thread worked on goes to its caller. -/
theorem Inv.giveCaller {pmm : State} {lock : Option Thread} (start : s.pc t = old)
    (own : owner c = .thread t) (only : ∀ x, owner x = .thread t → x = c)
    (done : Section cfg s.pmm pmm c (heldState b)) (state : s.state c = heldState b)
    (evicts : old.evicts = none) (merges : old.merges = none) (next : LockStep s.lock t old .idle lock) :
    Owned cfg (({ s with pmm, lock }.hold c b).goto t .idle) := by
  have same : (s.pmm.chunk c).state = heldState b := state
  have busy := heldState_busy b
  refine ⟨_,inv.give (o := .caller b) .idle start rfl only (.inl own) done
    ⟨same ▸ busy.2.1,busy.2.1,fun _ => ⟨same ▸ busy.2.2,busy.2.2⟩⟩ rfl
    (inv.held.hold (by simp [own])) (fun flag => ⟨fun pinned => ?_,.inr (.inl state)⟩) next
    evicts.symm (by simp [merges]) rfl trivial⟩
  exact absurd (inv.pinned c flag (state.trans pinned)) (by simp [own])

theorem Inv.gotRoot {pmm : State} {lock : Option Thread} (start : s.pc t = old)
    (own : owner (.ofRoot r) = .thread t) (only : ∀ x, owner x = .thread t → x = .ofRoot r)
    (done : Section cfg s.pmm pmm (.ofRoot r) .tempPinned) (state : s.state (.ofRoot r) = .tempPinned)
    (evicts : old.evicts = none) (merges : old.merges = none)
    (root : request.size = chunkSizeMax → LockStep s.lock t old .idle lock)
    (sub : request.size ≠ chunkSizeMax → lock = s.lock ∧ old.locked = true) :
    Owned cfg (gotRoot { s with pmm, lock } t request r) := by
  unfold Pmm.gotRoot
  split
  next size => exact inv.giveCaller (b := true) start own only done state evicts merges (root size)
  next size =>
    obtain ⟨rfl,locked⟩ := sub size
    have same : (s.pmm.chunk (.ofRoot r)).state = .tempPinned := state
    have after : (pmm.chunk (.ofRoot r)).state = .tempPinned := by simp [done.state]
    refine ⟨_,inv.give (o := .thread t) _ start rfl only
      (.inl own) done ⟨by simp [same],nofun,fun sub => absurd rfl sub⟩ ⟨rfl,rfl,nofun⟩
      (inv.held.same (by simp [own]) nofun) (fun flag => ?_) (.keep locked.symm) evicts.symm
      (by simp [merges]) rfl ⟨by simp,after⟩⟩
    exact absurd (inv.pinned _ flag state) (by simp [own])

theorem Inv.advance_initRoots {isZero : Bool} {first : Option RootId} {pending : List RootId}
    (here : s.pc t = .initRoots request isZero first pending)
    (run : advance cfg o t s (.initRoots request isZero first pending) = some s') :
    Owned cfg s' := by
  have good := inv.good_at here
  cases pending with
  | cons r pending =>
    have state := (good.2.2 r (by simp)).2.2
    cases first with
    | none =>
      cases run
      exact inv.initRoot here (initRootChunk_section inv.sound state (.inl rfl)) (by decide)
        (.inl ⟨rfl,rfl,rfl,rfl⟩)
    | some first =>
      cases run
      exact inv.initRoot here (initRootChunk_section inv.sound state (.inr rfl)) (by decide)
        (.inr ⟨rfl,rfl⟩)
  | nil =>
    cases first with
    | none => cases run
    | some first =>
      cases run
      obtain ⟨own,state⟩ := good.1 first rfl
      have same : (s.pmm.chunk (.ofRoot first)).state = .tempPinned := state
      refine inv.gotRoot here own (fun x mine => ?_) (.refl inv.sound same)
        state rfl rfl (fun size => .keep ?_) fun size => ⟨rfl,?_⟩
      · have holds := (inv.thread x t mine).1
        rw [here] at holds
        rcases holds with ⟨i,now,rfl⟩ | ⟨i,member,rfl⟩
        · cases now
          rfl
        · cases member
      · simp [Pc.locked,size]
      · simp [Pc.locked,size]

theorem Inv.advance_splitDown {size : Nat} (here : s.pc t = .splitDown request size c)
    (run : advance cfg o t s (.splitDown request size c) = some s') : Owned cfg s' := by
  obtain ⟨own,state⟩ := inv.good_at here
  have same : (s.pmm.chunk c).state = .tempPinned := state
  have only := inv.only here (c := c) fun _ => id
  rw [advance] at run
  split at run
  · cases run
    exact inv.giveCaller (b := true) here own only (.refl inv.sound same) state rfl rfl
      (.release rfl rfl)
  split at run
  next pmm divided =>
    cases run
    obtain ⟨k,size',rfl⟩ := splitGpuChunk_some divided
    have able : Splittable cfg s.pmm c k := ⟨.inl same,size'⟩
    refine ⟨_,inv.divide _ here able own rfl rfl rfl rfl rfl rfl rfl rfl rfl
      (fun x other mine => absurd (only x mine) other) (fun i => rfl) ⟨if_pos rfl,fun i used => ?_⟩⟩
    have outside : c.child i ≠ c := c.child_ne i
    by_cases bound : i < 2 ^ ((s.pmm.chunk c).log2Size - k)
    · have sub : c.IsSubchunk _ (c.child i) := isSubchunk_child.mpr ⟨rfl,bound⟩
      exact ⟨by simp [splitOwners,outside,sub],by simp [splitStates,outside,sub,same]⟩
    · have sub : ¬c.IsSubchunk _ (c.child i) := fun sub => bound (isSubchunk_child.mp sub).2
      rw [splitStates,if_neg outside,if_neg sub,inv.sound.shaped.leaf c i able.leaf] at used
      exact absurd rfl used
  next =>
    cases run
    exact ⟨owner,inv.control _ here rfl (.refl inv.sound) rfl rfl
      (.keep rfl) rfl (by rintro _ ⟨⟩) only ⟨own,.inl state⟩⟩

/-- A thread that works below a parent owns the subchunks, all of them pinned, and nothing else. -/
theorem Inv.subchunks {parent : ChunkId} (here : s.pc t = pc)
    (holds : ∀ x, pc.Holds x → x.parent = some parent)
    (good : (Pc.mergeParent (.freed .user) parent).Good s.state owner t) :
    (∀ i < numSubchunks s.pmm parent,
      owner (parent.child i) = .thread t ∧ s.state (parent.child i) = .tempPinned) ∧
    chunkIsInEviction s.pmm parent = false ∧
    ∀ x, owner x = .thread t → parent.IsSubchunk (numSubchunks s.pmm parent) x := by
  have subchunk i bound := good.2 i (inv.sound.shaped.exists_child.mpr ⟨good.1,bound⟩)
  have first := subchunk 0 (numSubchunks_pos _ _)
  refine ⟨subchunk,inv.not_evicting (c := parent.child 0) first.2 (by simp [first.1]),fun x own => ?_⟩
  obtain ⟨held,ownable⟩ := inv.thread x t own
  rw [here] at held
  obtain ⟨i,rfl⟩ := ChunkId.parent_eq.mp (holds x held)
  have exist := inv.sound.shaped.exists_child.mp (ownable.used (List.cons_ne_nil _ _))
  exact isSubchunk_child.mpr ⟨rfl,exist.2⟩

theorem Inv.advance_freeSiblings {size : Nat} {parent : ChunkId}
    (here : s.pc t = .freeSiblings request size parent)
    (run : advance cfg o t s (.freeSiblings request size parent) = some s') :
    Owned cfg s' := by
  have good := inv.good_at here
  obtain ⟨smaller,_,run⟩ := Option.bind_eq_some_iff.mp run
  cases run
  obtain ⟨subchunk,quiet,within⟩ := inv.subchunks here (fun _ => id) good
  have first := subchunk 0 (numSubchunks_pos _ _)
  have reshaped : Reshaped cfg s.pmm (freeSiblings cfg o.hook s.pmm parent) _ ∧ _ :=
    freeSiblings_reshaped inv.sound quiet fun i bound => (subchunk i bound).2
  obtain ⟨done,calm⟩ := reshaped
  let sibling (x : ChunkId) : Prop :=
    parent.IsSubchunk (numSubchunks s.pmm parent) x ∧ x ≠ parent.child 0
  let owner' : ChunkId → Owner := fun x =>
    if parent.IsSubchunk (numSubchunks s.pmm parent) x ∧ x ≠ parent.child 0 then .nobody else owner x
  have freed {x : ChunkId} (sub : sibling x) :
      owner' x = .nobody ∧ owner x = .thread t ∧ siblingStates s.pmm parent x = .free := by
    obtain ⟨i,bound,rfl⟩ := isSubchunk_iff.mp sub.1
    exact ⟨if_pos sub,(subchunk i bound).1,if_pos sub⟩
  have kept {x : ChunkId} (not : ¬sibling x) :
      owner' x = owner x ∧ siblingStates s.pmm parent x = s.state x := ⟨if_neg not,if_neg not⟩
  have top : ¬sibling (parent.child 0) := fun sub => sub.2 rfl
  refine ⟨owner',inv.chunkwise _ here rfl done
    (inv.held.congr fun x b => ?_) (fun x => ?_) (inv.rely_locked here rfl fun x flag free => ?_)
    (.keep rfl) rfl (fun r before => .inl (calm r before)) nofun
    ⟨(kept top).1.trans first.1,(kept top).2.trans first.2⟩⟩
  · by_cases sub : sibling x
    · simp [freed sub]
    · rw [(kept sub).1]
  · by_cases sub : sibling x
    · obtain ⟨gone,own,_⟩ := freed sub
      rw [gone]
      refine .inl ⟨fun u theirs => Owner.thread.inj (theirs.symm.trans own),trivial,fun _ _ => rfl,
        fun top => ?_⟩
      exact absurd (ChunkId.eq_ofRoot top ▸ sub.1) not_isSubchunk_root
    · refine .inr ⟨(kept sub).1,(kept sub).2,fun own => ?_,fun _ => rfl⟩
      by_contra other
      exact sub ⟨within x own,other⟩
  · by_cases sub : sibling x
    · rw [sub.1.1] at flag
      exact absurd (flag.symm.trans quiet) (by decide)
    · rwa [(kept sub).2] at free

end Alloc

end GpuExt.Pmm
