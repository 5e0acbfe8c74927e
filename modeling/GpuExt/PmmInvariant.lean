import GpuExt.PmmWalks

/-! The invariant of the threads. Every pinned or allocated chunk that somebody may still
name has one owner: the caller that got it or the thread that works on it. What is
pinned without an owner waits for an eviction to end. -/
namespace GpuExt.Pmm

open Function

inductive Owner where
  | nobody
  | caller (pinned : Bool)
  | thread (t : Thread)
  deriving DecidableEq, Repr

@[simp] def heldState (pinned : Bool) : ChunkState := if pinned then .tempPinned else .allocated

/-- The chunks that an operation in progress works on. -/
def Pc.Holds : Pc → ChunkId → Prop
  | .initRoots _ _ first pending, x =>
    (∃ r, first = some r ∧ x = .ofRoot r) ∨ ∃ r ∈ pending, x = .ofRoot r
  | .splitDown _ _ c, x => x = c
  | .freeSiblings _ _ parent, x => x.parent = some parent
  | .freeWait _ c, x => x = c
  | .freeMerge _ c, x => x = c
  | .mergeParent _ parent, x => x.parent = some parent
  | .freeRoot r _ _, x => x = .ofRoot r
  | .splitWalk c _ _ _, x => c.Under x
  | .mergeWalk c (.caller _), x => c.Under x
  | .evicted _ r, x => x = .ofRoot r
  | _, _ => False

def Pc.locked : Pc → Bool
  | .withSplits _ _ | .splitDown _ _ _ | .freeSiblings _ _ _ => true
  | .allocRoot request | .initRoots request _ _ _ => request.size != chunkSizeMax
  | .freeMerge _ _ | .mergeParent _ _ => true
  | .freeNext _ after | .freeRoot _ _ after => after != .done
  | .splitWalk _ _ _ _ | .mergeWalk _ _ => true
  | .pick _ | .evictPin _ _ _ | .evictFind _ _ _ => true
  | .evictDone _ _ | .evicted _ _ | .evictError _ _ | .cleanup _ _ _ => true
  | .idle | .lockWait _ | .freeWait _ _ | .pickWait _ | .evictWait _ | .evictBlock _ _ => false

def Pc.evicts : Pc → Option RootId
  | .evictWait r | .evictPin _ r _ | .evictFind _ r _ | .evictBlock _ r => some r
  | .mergeWalk c (.evict _) => some c.root
  | .evictDone _ r | .evictError _ r => some r
  | _ => none

def Pc.merges : Pc → Option RootId
  | .freeMerge _ c | .mergeParent _ c => some c.root
  | _ => none

/-- What a thread relies on between two of its sections. -/
def Pc.Good (state : ChunkId → ChunkState) (owner : ChunkId → Owner) (t : Thread) : Pc → Prop
  | .lockWait request | .withSplits request _ => request.size ≠ chunkSizeMax
  | .initRoots _ _ first pending =>
    (∀ r, first = some r → owner (.ofRoot r) = .thread t ∧ state (.ofRoot r) = .tempPinned) ∧
      pending.Nodup ∧ ∀ r ∈ pending, first ≠ some r ∧ owner (.ofRoot r) = .thread t ∧
        state (.ofRoot r) = .pmaOwned
  | .splitDown _ _ c => owner c = .thread t ∧ state c = .tempPinned
  | .freeSiblings _ _ parent | .mergeParent _ parent => state parent = .isSplit ∧
      ∀ i, state (parent.child i) ≠ .pmaOwned →
        owner (parent.child i) = .thread t ∧ state (parent.child i) = .tempPinned
  | .freeWait _ c | .freeMerge _ c =>
    owner c = .thread t ∧ (state c = .tempPinned ∨ state c = .allocated)
  | .freeRoot r _ _ | .evicted _ r =>
    owner (.ofRoot r) = .thread t ∧ state (.ofRoot r) = .tempPinned
  | .splitWalk c pinned _ todo => state c ≠ .pmaOwned ∧
      (∀ x, c.Under x → state x ≠ .pmaOwned → state x ≠ .isSplit →
        owner x = .thread t ∧ state x = heldState pinned) ∧
      todo.Nodup ∧ ∀ x ∈ todo, c.Under x ∧ state x = heldState pinned
  | .mergeWalk c (.caller pinned) => state c ≠ .pmaOwned ∧
      ∀ x, c.Under x → state x ≠ .pmaOwned → state x ≠ .isSplit →
        owner x = .thread t ∧ state x = heldState pinned
  | .mergeWalk c (.evict _) => c.path = [] ∧ state c ≠ .pmaOwned ∧
      ∀ x, x.root = c.root → state x ≠ .pmaOwned → state x ≠ .isSplit → state x = .tempPinned
  | .evictPin _ r todo => (∀ x, x.root = r → state x = .free → x ∈ todo) ∧ ∀ x ∈ todo, x.root = r
  | .evictFind _ r todo => (∀ x, x.root = r → state x ≠ .free) ∧
      ∀ x, x.root = r → state x = .allocated → x ∈ todo
  | .evictBlock _ r => ∀ x, x.root = r → state x ≠ .free
  | .evictDone _ r => state (.ofRoot r) = .tempPinned
  | _ => True

def System.state (s : System) (x : ChunkId) : ChunkState := (s.pmm.chunk x).state

def System.inEviction (s : System) (r : RootId) : Bool := (s.pmm.chunk (.ofRoot r)).inEviction

/-- The handles are those of the chunks that callers own. -/
structure HeldBy (held : List Handle) (owner : ChunkId → Owner) : Prop where
  nodup : held.Nodup
  iff : ∀ x b, ⟨x,b⟩ ∈ held ↔ owner x = .caller b

/-- A chunk in state `q` that a thread can work on. -/
structure Ownable (q : ChunkState) (x : ChunkId) : Prop where
  notFree : q ≠ .free
  leaf : q ≠ .isSplit
  used : x.path ≠ [] → q ≠ .pmaOwned

structure Inv (cfg : Config) (s : System) (owner : ChunkId → Owner) : Prop where
  sound : Sound cfg s.pmm
  held : HeldBy s.held owner
  caller : ∀ x b, owner x = .caller b → s.state x = heldState b
  thread : ∀ x t, owner x = .thread t → (s.pc t).Holds x ∧ Ownable (s.state x) x
  lock : ∀ t, s.lock = some t ↔ (s.pc t).locked = true
  evicting : ∀ r, s.inEviction r = true ↔ ∃ t, (s.pc t).evicts = some r
  unique : ∀ t u r, (s.pc t).evicts = some r → (s.pc u).evicts = some r → t = u
  pinned : ∀ x, s.inEviction x.root = true → s.state x = .tempPinned → owner x = .nobody
  quiet : ∀ r, Quiet s.pmm r ∨ ∃ t, (s.pc t).merges = some r
  pma : ∀ r, s.state (.ofRoot r) ≠ .pmaOwned ∨ (∃ t, owner (.ofRoot r) = .thread t) →
    s.pma r = .uvm
  good : ∀ t, (s.pc t).Good s.state owner t

/-- What the others may do while a thread is at `pc`. -/
structure Rely (state state' : ChunkId → ChunkState) (owner owner' : ChunkId → Owner) (u : Thread)
    (pc : Pc) : Prop where
  own : ∀ x, owner x = .thread u → owner' x = .thread u ∧ state' x = state x
  split : pc.locked = true → ∀ x, state' x = .isSplit ↔ state x = .isSplit
  exist : pc.locked = true → ∀ x, x.path ≠ [] → (state' x = .pmaOwned ↔ state x = .pmaOwned)
  free : ∀ r, pc.evicts = some r → ∀ x, x.root = r → state' x = .free → state x = .free
  allocated : pc.locked = true → ∀ r, pc.evicts = some r → ∀ x, x.root = r →
    state' x = .allocated → state x = .allocated
  pinned : pc.locked = true → ∀ r, pc.evicts = some r → ∀ x, x.root = r →
    state x = .tempPinned → state' x = .tempPinned

section Stable

variable {state state' : ChunkId → ChunkState} {owner owner' : ChunkId → Owner} {u : Thread} {pc : Pc}

theorem ChunkId.under_root {c x : ChunkId} (below : c.Under x) (top : x.path = []) : x = c := by
  obtain ⟨sameRoot,front,shape⟩ := below
  cases c
  cases x
  simp_all

section

variable (rely : Rely state state' owner owner' u pc)
include rely

/-- The leaves of a region that a thread owns stay as they are. -/
theorem Rely.region {c : ChunkId} {q : ChunkState} (locked : pc.locked = true)
    (used : state c ≠ .pmaOwned) (mine : ∀ x, c.Under x → state x ≠ .pmaOwned → state x ≠ .isSplit →
      owner x = .thread u ∧ state x = q) :
    state' c ≠ .pmaOwned ∧ ∀ x, c.Under x → state' x ≠ .pmaOwned → state' x ≠ .isSplit →
      owner' x = .thread u ∧ state' x = q := by
  have top : state' c ≠ .pmaOwned := by
    by_cases split : state c = .isSplit
    · rw [(rely.split locked c).mpr split]
      decide
    · rw [(rely.own c (mine c c.under_refl used split).1).2]
      exact used
  refine ⟨top,fun x below exist leaf => ?_⟩
  have leaf' : state x ≠ .isSplit := fun split => leaf ((rely.split locked x).mpr split)
  have exist' : state x ≠ .pmaOwned := by
    by_cases path : x.path = []
    · rw [ChunkId.under_root below path]
      exact used
    · exact fun gone => exist ((rely.exist locked x path).mpr gone)
  obtain ⟨own,same⟩ := mine x below exist' leaf'
  obtain ⟨own',unchanged⟩ := rely.own x own
  exact ⟨own',unchanged.trans same⟩

theorem Rely.subchunks {p : ChunkId} (locked : pc.locked = true)
    (good : state p = .isSplit ∧ ∀ i, state (p.child i) ≠ .pmaOwned →
      owner (p.child i) = .thread u ∧ state (p.child i) = .tempPinned) :
    state' p = .isSplit ∧ ∀ i, state' (p.child i) ≠ .pmaOwned →
      owner' (p.child i) = .thread u ∧ state' (p.child i) = .tempPinned := by
  refine ⟨(rely.split locked p).mpr good.1,fun i exist => ?_⟩
  have sub : (p.child i).path ≠ [] := List.cons_ne_nil _ _
  obtain ⟨own,state⟩ := good.2 i fun gone => exist ((rely.exist locked _ sub).mpr gone)
  obtain ⟨own',same⟩ := rely.own _ own
  exact ⟨own',same.trans state⟩

theorem Rely.good (good : pc.Good state owner u) : pc.Good state' owner' u := by
  have keep {x : ChunkId} {q : ChunkState} (mine : owner x = .thread u ∧ state x = q) :
      owner' x = .thread u ∧ state' x = q :=
    ⟨(rely.own x mine.1).1,(rely.own x mine.1).2.trans mine.2⟩
  cases pc with
  | initRoots request isZero first pending =>
    obtain ⟨head,distinct,rest⟩ := good
    exact ⟨fun r here => keep (head r here),distinct,
      fun r member => ⟨(rest r member).1,keep (rest r member).2⟩⟩
  | splitDown request size c => exact keep good
  | freeSiblings request size parent => exact rely.subchunks rfl good
  | mergeParent after parent => exact rely.subchunks rfl good
  | freeWait type c | freeMerge after c =>
    obtain ⟨own,state⟩ := good
    exact ⟨(rely.own c own).1,by rwa [(rely.own c own).2]⟩
  | freeRoot r heir after => exact keep good
  | evicted goal r => exact keep good
  | splitWalk c pinned minSize todo =>
    obtain ⟨used,mine,distinct,inside⟩ := good
    obtain ⟨used',mine'⟩ := rely.region rfl used mine
    refine ⟨used',mine',distinct,fun x member => ⟨(inside x member).1,?_⟩⟩
    obtain ⟨below,leaf⟩ := inside x member
    have facts : state x ≠ .pmaOwned ∧ state x ≠ .isSplit := by
      rw [leaf]
      cases pinned <;> simp
    rw [(rely.own x (mine x below facts.1 facts.2).1).2,leaf]
  | mergeWalk c after =>
    cases after with
    | caller pinned => exact rely.region rfl good.1 good.2
    | evict goal =>
      obtain ⟨top,used,all⟩ := good
      have stays (x : ChunkId) (root : x.root = c.root) (exist : state x ≠ .pmaOwned)
          (leaf : state' x ≠ .isSplit) : state' x = .tempPinned :=
        rely.pinned rfl c.root rfl x root
          (all x root exist fun split => leaf ((rely.split rfl x).mpr split))
      refine ⟨top,?_,fun x root exist leaf => ?_⟩
      · by_cases split : state' c = .isSplit
        · rw [split]
          decide
        · rw [stays c rfl used split]
          decide
      · refine stays x root ?_ leaf
        by_cases path : x.path = []
        · have here : x = c := by rw [ChunkId.eq_ofRoot path,ChunkId.eq_ofRoot top,root]
          exact here ▸ used
        · exact fun gone => exist ((rely.exist rfl x path).mpr gone)
  | evictPin goal r todo =>
    exact ⟨fun x root free => good.1 x root (rely.free r rfl x root free),good.2⟩
  | evictFind goal r todo =>
    exact ⟨fun x root free => good.1 x root (rely.free r rfl x root free),
      fun x root allocated => good.2 x root (rely.allocated rfl r rfl x root allocated)⟩
  | evictBlock goal r => exact fun x root free => good x root (rely.free r rfl x root free)
  | evictDone goal r => exact rely.pinned rfl r rfl _ rfl good
  | lockWait | withSplits => exact good
  | idle | allocRoot | freeNext | pickWait | pick | evictWait | evictError | cleanup => trivial

end

end Stable

/-! Steps. -/

variable {cfg : Config} {s s' : System} {owner owner' : ChunkId → Owner} {t u : Thread} {old pc : Pc}
  {c x : ChunkId} {q : ChunkState} {r : RootId}

/-- What a step of `t` from `old` to `pc` may do to the mutex. -/
inductive LockStep (lock : Option Thread) (t : Thread) (old pc : Pc) : Option Thread → Prop
  | keep (same : pc.locked = old.locked) : LockStep lock t old pc lock
  | release (held : old.locked = true) (free : pc.locked = false) : LockStep lock t old pc none
  | acquire (free : lock = none) (held : pc.locked = true) : LockStep lock t old pc (some t)

theorem Inv.lockStep {lock : Option Thread} (inv : Inv cfg s owner)
    (next : LockStep s.lock t (s.pc t) pc lock) (u : Thread) :
    lock = some u ↔ (update s.pc t pc u).locked = true := by
  by_cases here : u = t
  · subst here
    rw [update_self]
    cases next with
    | keep same => rw [same,inv.lock]
    | release _ free => simp [free]
    | acquire _ held => simp [held]
  · rw [update_of_ne here]
    cases next with
    | keep => exact inv.lock u
    | release held =>
      have other : s.lock ≠ some u := by
        rw [(inv.lock t).mpr held]
        simp [Ne.symm here]
      rw [← inv.lock u]
      simp [other]
    | acquire free =>
      rw [← inv.lock u,free]
      simp [Ne.symm here]

/-- The owners that a chunk in state `q` may have after a step of `t` to `pc` that moves it. -/
def Owner.Allowed (t : Thread) (pc : Pc) (x : ChunkId) (q : ChunkState) : Owner → Prop
  | .nobody => True
  | .caller b => q = heldState b
  | .thread u => u = t ∧ pc.Holds x ∧ Ownable q x

/-- What a step of thread `t` to `s'` has to show. -/
structure StepOk (cfg : Config) (s s' : System) (owner owner' : ChunkId → Owner) (t : Thread)
    (pc : Pc) : Prop where
  pcs : s'.pc = update s.pc t pc
  sound : Sound cfg s'.pmm
  held : HeldBy s'.held owner'
  caller : ∀ x b, owner' x = .caller b → s'.state x = heldState b
  mine : ∀ x, owner' x = .thread t → pc.Holds x ∧ Ownable (s'.state x) x
  others : ∀ u, u ≠ t → ∀ x, owner' x = .thread u → owner x = .thread u
  rely : ∀ u, u ≠ t → Rely s.state s'.state owner owner' u (s.pc u)
  lock : LockStep s.lock t (s.pc t) pc s'.lock
  evicting : ∀ r, s'.inEviction r = true ↔
    pc.evicts = some r ∨ ∃ u, u ≠ t ∧ (s.pc u).evicts = some r
  unique : ∀ r, pc.evicts = some r → ∀ u, u ≠ t → (s.pc u).evicts ≠ some r
  pinned : ∀ x, s'.inEviction x.root = true → s'.state x = .tempPinned → owner' x = .nobody
  quiet : ∀ r, Quiet s'.pmm r ∨ pc.merges = some r ∨ ∃ u, u ≠ t ∧ (s.pc u).merges = some r
  pma : ∀ r, s'.state (.ofRoot r) ≠ .pmaOwned ∨ (∃ u, owner' (.ofRoot r) = .thread u) →
    s'.pma r = .uvm
  good : pc.Good s'.state owner' t

theorem Inv.step (t : Thread) (pc : Pc) (inv : Inv cfg s owner)
    (ok : StepOk cfg s s' owner owner' t pc) :
    Inv cfg s' owner' where
  sound := ok.sound
  held := ok.held
  caller := ok.caller
  thread x := by
    rw [ok.pcs]
    refine (forall_update_iff s.pc fun u pc => owner' x = .thread u →
      pc.Holds x ∧ Ownable (s'.state x) x).mpr ⟨ok.mine x,fun u other own => ?_⟩
    have before := ok.others u other x own
    rw [((ok.rely u other).own x before).2]
    exact inv.thread x u before
  lock u := by
    rw [ok.pcs]
    exact inv.lockStep ok.lock u
  evicting r := by
    rw [ok.evicting,ok.pcs,exists_update_iff s.pc fun _ pc => pc.evicts = some r]
  unique u v r left right := by
    rw [ok.pcs,update_apply] at left right
    split at left <;> split at right
    next hereU hereV => exact hereU.trans hereV.symm
    next hereV => exact absurd right (ok.unique r left v hereV)
    next hereU _ => exact absurd left (ok.unique r right u hereU)
    next => exact inv.unique u v r left right
  pinned := ok.pinned
  quiet r := by
    rw [ok.pcs,exists_update_iff s.pc fun _ pc => pc.merges = some r]
    exact ok.quiet r
  pma := ok.pma
  good := by
    rw [ok.pcs]
    exact (forall_update_iff s.pc fun u pc => pc.Good s'.state owner' u).mpr
      ⟨ok.good,fun u other => (ok.rely u other).good (inv.good u)⟩

/-- The eviction flags that the other threads account for. -/
theorem Inv.evicting_other (inv : Inv cfg s owner)
    (same : pc.evicts = some r ↔ (s.pc t).evicts = some r) :
    s.inEviction r = true ↔ pc.evicts = some r ∨ ∃ u, u ≠ t ∧ (s.pc u).evicts = some r := by
  rw [inv.evicting,same,← exists_update_iff s.pc fun _ pc => pc.evicts = some r,update_eq_self]

theorem Inv.quiet_other (inv : Inv cfg s owner)
    (quiet : ∀ r, Quiet s.pmm r → Quiet s'.pmm r ∨ pc.merges = some r)
    (merges : ∀ r, (s.pc t).merges = some r → Quiet s'.pmm r ∨ pc.merges = some r) (r : RootId) :
    Quiet s'.pmm r ∨ pc.merges = some r ∨ ∃ u, u ≠ t ∧ (s.pc u).merges = some r := by
  rcases inv.quiet r with before | ⟨u,there⟩
  · exact (quiet r before).imp_right .inl
  · by_cases here : u = t
    · exact (merges r (here ▸ there)).imp_right .inl
    · exact .inr (.inr ⟨u,here,there⟩)

theorem Rely.reowned {state : ChunkId → ChunkState} (own : ∀ x, owner x = .thread u → owner' x = .thread u) :
    Rely state state owner owner' u pc :=
  ⟨fun x mine => ⟨own x mine,rfl⟩,fun _ _ => Iff.rfl,fun _ _ _ => Iff.rfl,fun _ _ _ _ => id,
    fun _ _ _ _ _ => id,fun _ _ _ _ _ => id⟩

section

variable (pc) (inv : Inv cfg s owner) (start : s.pc t = old) (pcs : s'.pc = update s.pc t pc)
include inv start pcs

/-- A chunk that a step of `t` changes. Nobody else works on it. -/
structure Passed (s : System) (owner : ChunkId → Owner) (t : Thread) (pc : Pc) (x : ChunkId)
    (o : Owner) (q : ChunkState) (pma : RootId → PmaOwner) : Prop where
  before : ∀ u, owner x = .thread u → u = t
  after : o.Allowed t pc x q
  orphan : s.inEviction x.root = true → q = .tempPinned → o = .nobody
  root : x.path = [] → pma x.root = .uvm ∨ q = .pmaOwned ∧ o = .nobody

/-- Steps that start and end no eviction, chunk by chunk. -/
theorem Inv.chunkwise {state' : ChunkId → ChunkState} (done : Reshaped cfg s.pmm s'.pmm state')
    (held : HeldBy s'.held owner')
    (each : ∀ x, Passed s owner t pc x (owner' x) (state' x) s'.pma ∨ owner' x = owner x ∧
      state' x = s.state x ∧ (owner x = .thread t → pc.Holds x) ∧
      (x.path = [] → s'.pma x.root = s.pma x.root))
    (rely : ∀ u, u ≠ t → (∀ x, owner x = .thread u → owner' x = .thread u ∧ state' x = s.state x) →
      Rely s.state state' owner owner' u (s.pc u))
    (lock : LockStep s.lock t old pc s'.lock) (evicts : pc.evicts = old.evicts)
    (quiet : ∀ r, Quiet s.pmm r → Quiet s'.pmm r ∨ pc.merges = some r)
    (merges : ∀ r, old.merges = some r → Quiet s'.pmm r ∨ pc.merges = some r)
    (good : pc.Good state' owner' t) : Inv cfg s' owner' := by
  subst start
  have state : s'.state = state' := funext done.state
  have flags : s'.inEviction = s.inEviction := funext done.inEviction
  subst state
  refine inv.step t pc ⟨pcs,done.sound,held,fun x b own => ?_,fun x own => ?_,
    fun u other x own => ?_,fun u other => rely u other fun x own => ?_,lock,fun r => ?_,
    fun r here u other there => ?_,fun x flag pinned => ?_,inv.quiet_other quiet merges,
    fun r used => ?_,good⟩
  · rcases each x with passed | ⟨same,state,_⟩
    · have after := passed.after
      rwa [own] at after
    · exact state.trans (inv.caller x b (same.symm.trans own))
  · rcases each x with passed | ⟨same,state,holds,_⟩
    · have after := passed.after
      rw [own] at after
      exact after.2
    · rw [same] at own
      exact ⟨holds own,state ▸ (inv.thread x t own).2⟩
  · rcases each x with passed | kept
    · have after := passed.after
      rw [own] at after
      exact absurd after.1 other
    · exact kept.1.symm.trans own
  · rcases each x with passed | kept
    · exact absurd (passed.before u own) other
    · exact ⟨kept.1.trans own,kept.2.1⟩
  · rw [flags]
    exact inv.evicting_other (by rw [evicts])
  · exact other (inv.unique u t r there (evicts ▸ here))
  · rw [flags] at flag
    rcases each x with passed | ⟨same,state,_⟩
    · exact passed.orphan flag pinned
    · exact same.trans (inv.pinned x flag (state.symm.trans pinned))
  · rcases each (.ofRoot r) with passed | ⟨same,state,_,root⟩
    · rcases passed.root rfl with uvm | ⟨gone,nobody⟩
      · exact uvm
      · simp [gone,nobody] at used
    · rw [same,state] at used
      exact (root rfl).trans (inv.pma r used)

/-- Steps that only change lists and who owns what. -/
theorem Inv.handover (shuffled : Shuffled cfg s.pmm s'.pmm) (held : HeldBy s'.held owner')
    (each : ∀ x, Passed s owner t pc x (owner' x) (s.state x) s'.pma ∨ owner' x = owner x ∧
      s.state x = s.state x ∧ (owner x = .thread t → pc.Holds x) ∧
      (x.path = [] → s'.pma x.root = s.pma x.root))
    (lock : LockStep s.lock t old pc s'.lock) (evicts : pc.evicts = old.evicts)
    (merges : ∀ r, old.merges = some r → Quiet s'.pmm r ∨ pc.merges = some r)
    (good : pc.Good s.state owner' t) : Inv cfg s' owner' := by
  have done : Reshaped cfg s.pmm s'.pmm s.state :=
    ⟨shuffled.sound,fun x => by rw [shuffled.chunk,System.state],fun r => by rw [shuffled.chunk]⟩
  exact inv.chunkwise pc start pcs done held each
    (fun u _ own => .reowned fun x mine => (own x mine).1) lock evicts
    (fun r quiet => .inl (shuffled.quiet r quiet)) merges good

/-- Steps that touch nothing but the lists. -/
theorem Inv.control (shuffled : Shuffled cfg s.pmm s'.pmm) (held : s'.held = s.held)
    (pma : s'.pma = s.pma) (lock : LockStep s.lock t old pc s'.lock)
    (evicts : pc.evicts = old.evicts)
    (merges : ∀ r, old.merges = some r → Quiet s'.pmm r ∨ pc.merges = some r)
    (holds : ∀ x, owner x = .thread t → pc.Holds x) (good : pc.Good s.state owner t) :
    Inv cfg s' owner :=
  inv.handover pc start pcs shuffled (held ▸ inv.held)
    (fun x => .inr ⟨rfl,rfl,holds x,fun _ => by rw [pma]⟩) lock evicts merges good

end

/-! Handles. -/

section Handles

variable {held : List Handle} {b : Bool} {o : Owner}

section

variable (valid : HeldBy held owner)
include valid

theorem HeldBy.same (before : ∀ b, owner c ≠ .caller b)
    (after : ∀ b, o ≠ .caller b) : HeldBy held (update owner c o) := by
  refine ⟨valid.nodup,fun x b => ?_⟩
  rw [valid.iff]
  by_cases here : x = c
  · subst here
    simp [before b,after b]
  · simp [here]

theorem HeldBy.hold (before : ∀ b, owner c ≠ .caller b) :
    HeldBy (⟨c,b⟩ :: held) (update owner c (.caller b)) := by
  refine ⟨List.nodup_cons.mpr ⟨fun member => before b ((valid.iff c b).mp member),valid.nodup⟩,
    fun x b' => ?_⟩
  rw [List.mem_cons,valid.iff]
  by_cases here : x = c
  · subst here
    simp [before b',eq_comm]
  · simp [here]

theorem HeldBy.drop (before : owner c = .caller b)
    (after : ∀ b, o ≠ .caller b) : HeldBy (held.erase ⟨c,b⟩) (update owner c o) := by
  refine ⟨valid.nodup.erase _,fun x b' => ?_⟩
  rw [valid.nodup.mem_erase_iff,valid.iff]
  by_cases here : x = c
  · subst here
    simp only [update_self,after b',iff_false,before]
    rintro ⟨other,same⟩
    cases same
    exact other rfl
  · simp [here]

theorem HeldBy.exchange {a : Bool} (before : owner c = .caller a) :
    HeldBy (⟨c,b⟩ :: held.erase ⟨c,a⟩) (update owner c (.caller b)) := by
  have dropped := (valid.drop before (o := .nobody) (by simp)).hold (c := c) (b := b) (by simp)
  rwa [update_idem] at dropped

end

end Handles

/-- What becomes of the owner of a leaf that goes to state `q`. -/
def Owner.Fits (o : Owner) (t : Thread) (pc : Pc) (c : ChunkId) (q : ChunkState) : Prop :=
  match o with
  | .nobody => True
  | .caller b => q = heldState b
  | .thread u => u = t ∧ pc.Holds c ∧ q ≠ .free

/-- Steps that give one leaf a new state and a new owner. -/
theorem Inv.leaf {o : Owner} (pc : Pc) (inv : Inv cfg s owner) (start : s.pc t = old)
    (pcs : s'.pc = update s.pc t pc)
    (done : Section cfg s.pmm s'.pmm c q)
    (recolors : Recolors s.pmm c q) (before : ∀ u, owner c = .thread u → u = t)
    (fits : o.Fits t pc c q) (held : HeldBy s'.held (update owner c o))
    (rest : ∀ x, x ≠ c → owner x = .thread t → pc.Holds x)
    (evict : s.inEviction c.root = true → (q = .tempPinned → o = .nobody) ∧
      (old.evicts = some c.root ∨ s.state c = q ∨ s.state c = .allocated ∧ q = .tempPinned))
    (lock : LockStep s.lock t old pc s'.lock) (evicts : pc.evicts = old.evicts)
    (merges : ∀ r, old.merges = some r → Quiet s'.pmm r ∨ pc.merges = some r)
    (pma : ∀ i, ChunkId.ofRoot i ≠ c → s'.pma i = s.pma i)
    (pmaRoot : c.path = [] → s'.pma c.root = .uvm ∨ q = .pmaOwned ∧ o = .nobody)
    (good : pc.Good s'.state (update owner c o) t) :
    Inv cfg s' (update owner c o) := by
  subst start
  have states : s'.state = update s.state c q := by
    funext x
    rw [System.state,done.state,update_apply]
    rfl
  -- An eviction that another thread runs sees at most an allocated chunk get pinned.
  have visible (u : Thread) (other : u ≠ t) (r : RootId) (evicts : (s.pc u).evicts = some r)
      (root : c.root = r) : s.state c = q ∨ s.state c = .allocated ∧ q = .tempPinned := by
    subst root
    rcases (evict ((inv.evicting c.root).mpr ⟨u,evicts⟩)).2 with mine | change
    · exact absurd (inv.unique u t c.root evicts mine) other
    · exact change
  refine inv.chunkwise pc rfl pcs ⟨done.sound,congrFun states,done.inEviction⟩ held (fun x => ?_)
    (fun u other own => ⟨own,fun _ x => ?_,fun _ x sub => ?_,fun r evicts x root => ?_,
      fun _ r evicts x root => ?_,fun _ r evicts x root => ?_⟩) lock evicts
    (fun r quiet => .inl (done.quiet r quiet)) merges (states ▸ good)
  · by_cases same : x = c
    · subst same
      rw [update_self,update_self]
      refine .inl ⟨before,?_,fun flag => (evict flag).1,pmaRoot⟩
      cases o with
      | nobody => trivial
      | caller b => exact fits
      | thread u =>
        exact ⟨fits.1,fits.2.1,fits.2.2,recolors.state,fun sub => (recolors.used sub).2⟩
    · rw [update_of_ne same,update_of_ne same]
      refine .inr ⟨rfl,rfl,rest x same,fun top => pma x.root ?_⟩
      rwa [← ChunkId.eq_ofRoot top]
  all_goals
    by_cases same : x = c
    on_goal 2 => simp [same]
    subst same
    rw [update_self]
  · exact iff_of_false recolors.state recolors.leaf
  · exact iff_of_false (recolors.used sub).2 (recolors.used sub).1
  all_goals rcases visible u other r evicts root with kept | ⟨_,rfl⟩
  · exact fun free => kept.trans free
  · exact nofun
  · exact fun allocated => kept.trans allocated
  · exact nofun
  · exact fun pinned => kept.symm.trans pinned
  · exact fun _ => rfl

/-- Nobody else holds the mutex meanwhile. -/
theorem Inv.rely_locked {state' : ChunkId → ChunkState} (inv : Inv cfg s owner)
    (start : s.pc t = old) (locked : old.locked = true)
    (free : ∀ x, s.inEviction x.root = true → state' x = .free → s.state x = .free) (u : Thread)
    (other : u ≠ t) (own : ∀ x, owner x = .thread u → owner' x = .thread u ∧ state' x = s.state x) :
    Rely s.state state' owner owner' u (s.pc u) := by
  subst start
  have alone (theirs : (s.pc u).locked = true) : False := by
    have same := ((inv.lock u).mpr theirs).symm.trans ((inv.lock t).mpr locked)
    cases same
    exact other rfl
  refine ⟨own,fun theirs => (alone theirs).elim,fun theirs => (alone theirs).elim,
    fun r evicts x root => ?_,fun theirs => (alone theirs).elim,fun theirs => (alone theirs).elim⟩
  exact free x (root ▸ (inv.evicting r).mpr ⟨u,evicts⟩)

/-! Consequences. -/

theorem heldState_ownable (b : Bool) (x : ChunkId) : Ownable (heldState b) x := by
  cases b <;> exact ⟨by decide,by decide,fun _ => by decide⟩

section

variable (inv : Inv cfg s owner)
include inv

theorem Inv.ownable (own : owner x ≠ .nobody) : Ownable (s.state x) x := by
  cases who : owner x with
  | nobody => exact absurd who own
  | caller b =>
    rw [inv.caller x b who]
    exact heldState_ownable b x
  | thread t => exact (inv.thread x t who).2

theorem Inv.free_nobody (state : s.state x = .free ∨ s.state x = .isSplit) : owner x = .nobody := by
  by_contra own
  have ownable := inv.ownable own
  exact state.elim ownable.notFree ownable.leaf

theorem Inv.unused_nobody (sub : x.path ≠ []) (state : s.state x = .pmaOwned) :
    owner x = .nobody := by
  by_contra own
  exact (inv.ownable own).used sub state

/-- A thread that works on at most one chunk owns no other. -/
theorem Inv.only (here : s.pc t = pc) (single : ∀ x, pc.Holds x → x = c) (x : ChunkId)
    (own : owner x = .thread t) : x = c :=
  single x (here ▸ (inv.thread x t own).1)

theorem Inv.nothing (idle : ∀ x, ¬(s.pc t).Holds x) (x : ChunkId) :
    owner x ≠ .thread t := fun own => idle x (inv.thread x t own).1

/-- A pinned chunk with an owner is in no eviction. -/
theorem Inv.not_evicting (state : s.state c = .tempPinned) (owned : owner c ≠ .nobody) :
    chunkIsInEviction s.pmm c = false := by
  cases flag : chunkIsInEviction s.pmm c with
  | false => rfl
  | true => exact absurd (inv.pinned c flag state) owned

/-- Merges in a root that is a leaf are of that root. -/
theorem Inv.quiet_leaf (leaf : s.state (.ofRoot r) ≠ .isSplit)
    (notTheirs : ∀ u, owner (.ofRoot r) = .thread u → (s.pc u).merges = none) : Quiet s.pmm r := by
  rcases inv.quiet r with quiet | ⟨u,merging⟩
  · exact quiet
  exfalso
  have good := inv.good u
  have atRoot {y : ChunkId} (root : y.root = r) (used : s.state y ≠ .pmaOwned) : y = .ofRoot r := by
    by_contra other
    have below : (ChunkId.ofRoot r).Under y := root ▸ y.root_under
    exact leaf (inv.sound.shaped.split_above below other used)
  cases here : s.pc u <;> rw [here] at merging good <;> try cases merging
  next after c =>
    obtain ⟨own,state⟩ := good
    have used : s.state c ≠ .pmaOwned := by rcases state with state | state <;> rw [state] <;> decide
    have none := notTheirs u (atRoot rfl used ▸ own)
    rw [here] at none
    cases none
  next after p =>
    have root := atRoot rfl (show s.state p ≠ .pmaOwned by rw [good.1]; decide)
    exact leaf (root ▸ good.1)

end

/-- The invariant holds of some account of the owners. -/
abbrev Owned (cfg : Config) (s : System) : Prop := ∃ owner, Inv cfg s owner

section

variable (pc) (inv : Inv cfg s owner) (start : s.pc t = old) (pcs : s'.pc = update s.pc t pc)
include inv start pcs

/-- A thread that works on no chunk goes on. -/
theorem Inv.jump (shuffled : Shuffled cfg s.pmm s'.pmm) (held : s'.held = s.held)
    (pma : s'.pma = s.pma) (lock : LockStep s.lock t old pc s'.lock) (nothing : ∀ x, ¬old.Holds x)
    (evicts : pc.evicts = old.evicts) (merges : old.merges = none)
    (good : pc.Good s.state owner t) : Inv cfg s' owner :=
  inv.control pc start pcs shuffled held pma lock evicts
    (by simp [merges]) (fun x own => absurd own (inv.nothing (start ▸ nothing) x)) good

omit pcs in
/-- It takes or leaves the mutex, or neither. -/
theorem Inv.goto {lock : Option Thread} (next : LockStep s.lock t old pc lock)
    (nothing : ∀ x, ¬old.Holds x) (evicts : pc.evicts = old.evicts) (merges : old.merges = none)
    (good : pc.Good s.state owner t) : Owned cfg ({ s with lock }.goto t pc) :=
  ⟨owner,inv.jump pc start rfl (.refl inv.sound) rfl rfl next nothing evicts merges good⟩

/-- A thread that works on nothing else gives a leaf a new state and a new owner. -/
theorem Inv.give {o : Owner} (only : ∀ x, owner x = .thread t → x = c)
    (work : owner c = .thread t ∨ (∀ u, owner c ≠ .thread u) ∧ s.state c ≠ .pmaOwned)
    (done : Section cfg s.pmm s'.pmm c q) (recolors : Recolors s.pmm c q) (fits : o.Fits t pc c q)
    (held : HeldBy s'.held (update owner c o))
    (evict : s.inEviction c.root = true → (q = .tempPinned → o = .nobody) ∧
      (old.evicts = some c.root ∨ s.state c = q ∨ s.state c = .allocated ∧ q = .tempPinned))
    (lock : LockStep s.lock t old pc s'.lock) (evicts : pc.evicts = old.evicts)
    (merges : ∀ r, old.merges = some r → Quiet s'.pmm r ∨ pc.merges = some r) (pma : s'.pma = s.pma)
    (good : pc.Good s'.state (update owner c o) t) : Inv cfg s' (update owner c o) := by
  refine inv.leaf pc start pcs done recolors (fun u theirs => ?_) fits held
    (fun x other mine => absurd (only x mine) other) evict lock evicts merges
    (fun i _ => by rw [pma]) (fun top => .inl ?_) good
  · rcases work with own | ⟨free,_⟩
    · exact Owner.thread.inj (theirs.symm.trans own)
    · exact absurd theirs (free u)
  · rw [pma]
    apply inv.pma
    rw [← ChunkId.eq_ofRoot top]
    exact work.symm.imp (fun free => free.2) fun own => ⟨t,own⟩

/-- An eviction starts in a root without pinned chunks. -/
theorem Inv.startEviction (flagged : Flagged cfg s.pmm s'.pmm r true)
    (before : s.inEviction r = false) (empty : pinnedLeaves s.pmm r = ∅) (held : s'.held = s.held)
    (pma : s'.pma = s.pma) (lock : LockStep s.lock t old pc s'.lock) (nothing : ∀ x, ¬old.Holds x)
    (calm : old.evicts = none) (evicts : pc.evicts = some r) (merges : old.merges = none)
    (good : pc.Good s.state owner t) : Inv cfg s' owner := by
  subst start
  have state : s'.state = s.state := funext flagged.state
  have here : s'.inEviction r = true := flagged.flag
  have there (i : RootId) (other : i ≠ r) : s'.inEviction i = s.inEviction i :=
    flagged.inEviction i other
  refine inv.step t pc ⟨pcs,flagged.sound,held ▸ inv.held,state ▸ inv.caller,
    fun x own => absurd own (inv.nothing nothing x),fun _ _ _ own => own,
    fun u _ => state ▸ .reowned fun _ => id,lock,fun i => ?_,fun i mine u other theirs => ?_,
    fun x flag pinned => ?_,inv.quiet_other (fun i quiet => .inl (flagged.quiet i quiet))
      (by simp [merges]),?_,state ▸ good⟩
  · by_cases same : i = r
    · subst same
      simp [here,evicts]
    · rw [there i same]
      exact inv.evicting_other (by simp [evicts,calm,Ne.symm same])
  · rw [evicts] at mine
    cases mine
    rw [(inv.evicting r).mpr ⟨u,theirs⟩] at before
    cases before
  · rw [state] at pinned
    by_cases same : x.root = r
    · have member : x ∈ pinnedLeaves s.pmm r := ⟨same,pinned⟩
      rw [empty] at member
      exact member.elim
    · rw [there _ same] at flag
      exact inv.pinned x flag pinned
  · rw [state,pma]
    exact inv.pma

/-- An eviction ends; what is left pinned may get owners again. -/
theorem Inv.endEviction (flagged : Flagged cfg s.pmm s'.pmm r false) (held : HeldBy s'.held owner')
    (others : ∀ u, u ≠ t → ∀ x, owner' x = .thread u ↔ owner x = .thread u)
    (caller : ∀ x b, owner' x = .caller b → s.state x = heldState b)
    (mine : ∀ x, owner' x = .thread t → pc.Holds x ∧ Ownable (s.state x) x)
    (same : ∀ x, x.root ≠ r → owner' x = owner x) (lock : LockStep s.lock t old pc s'.lock)
    (evicts : old.evicts = some r) (calm : pc.evicts = none) (merges : old.merges = none)
    (pma : ∀ r, s.state (.ofRoot r) ≠ .pmaOwned ∨ (∃ u, owner' (.ofRoot r) = .thread u) →
      s'.pma r = .uvm) (good : pc.Good s.state owner' t) : Inv cfg s' owner' := by
  subst start
  have state : s'.state = s.state := funext flagged.state
  have here : s'.inEviction r = false := flagged.flag
  have there (i : RootId) (other : i ≠ r) : s'.inEviction i = s.inEviction i :=
    flagged.inEviction i other
  refine inv.step t pc ⟨pcs,flagged.sound,held,state ▸ caller,state ▸ mine,
    fun u other x => (others u other x).mp,
    fun u other => state ▸ .reowned fun x => (others u other x).mpr,lock,fun i => ?_,
    fun i mine => ?_,fun x flag pinned => ?_,inv.quiet_other
      (fun i quiet => .inl (flagged.quiet i quiet)) (by simp [merges]),state ▸ pma,state ▸ good⟩
  · by_cases equal : i = r
    · subst equal
      rw [here,calm]
      simp only [reduceCtorEq,false_or,false_iff,not_exists,not_and]
      exact fun u other theirs => other (inv.unique u t i theirs evicts)
    · rw [there i equal]
      exact inv.evicting_other (by simp [evicts,calm,Ne.symm equal])
  · rw [calm] at mine
    cases mine
  · by_cases equal : x.root = r
    · rw [equal,here] at flag
      cases flag
    · rw [there _ equal] at flag
      rw [same x equal]
      exact inv.pinned x flag (state ▸ pinned)

end

theorem Quiet.idle (quiet : Quiet s.pmm r) (pinned : s.state (.ofRoot r) = .tempPinned) :
    ¬(s.pmm.root r).listState.InUse := by
  intro inUse
  have member : ChunkId.ofRoot r ∈ pinnedLeaves s.pmm r := ⟨rfl,pinned⟩
  rw [quiet inUse] at member
  exact member

end GpuExt.Pmm
