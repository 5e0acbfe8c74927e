import GpuExt.PmmBegin

/-! Splits and merges move ownership between a chunk and its subchunks. -/
namespace GpuExt.Pmm

variable {cfg : Config} {s s' : System} {owner owner' : ChunkId → Owner} {t u : Thread} {old pc : Pc}
  {c x : ChunkId} {q : ChunkState} {r : RootId} {o : Oracle} {b : Bool}

theorem Inv.good_at (inv : Inv cfg s owner) (here : s.pc t = pc) : pc.Good s.state owner t :=
  here ▸ inv.good t

theorem HeldBy.congr {held : List Handle} (valid : HeldBy held owner)
    (same : ∀ x b, owner' x = .caller b ↔ owner x = .caller b) : HeldBy held owner' :=
  ⟨valid.nodup,fun x b => (valid.iff x b).trans (same x b).symm⟩

def splitOwners (owner : ChunkId → Owner) (t : Thread) (c : ChunkId) (n : Nat) (x : ChunkId) : Owner :=
  if x = c then .nobody else if c.IsSubchunk n x then .thread t else owner x

def mergeOwners (owner : ChunkId → Owner) (o : Owner) (c : ChunkId) (n : Nat) (x : ChunkId) : Owner :=
  if x = c then o else if c.IsSubchunk n x then .nobody else owner x

/-- What a split or a merge by thread `t` does to a chunk it works on. -/
structure Regrouped (s : System) (owner : ChunkId → Owner) (t : Thread) (pc : Pc) (x : ChunkId)
    (o : Owner) (q : ChunkState) : Prop where
  before : owner x = .thread t ∨ owner x = .nobody
  after : o = .nobody ∨ o = .thread t ∧ pc.Holds x ∧ Ownable q x
  busy : q ≠ .free
  orphan : s.inEviction x.root = true → q = .tempPinned → o = .nobody
  root : x.path = [] → s.state x ≠ .pmaOwned ∨ owner x = .thread t

section

variable (pc) (inv : Inv cfg s owner) (start : s.pc t = old)
include inv start

/-- Splits and merges leave the chunks alone that they do not work on. -/
theorem Inv.regroup {state' : ChunkId → ChunkState} (pcs : s'.pc = Function.update s.pc t pc)
    (done : Reshaped cfg s.pmm s'.pmm state')
    (quiet : ∀ r, Quiet s.pmm r → Quiet s'.pmm r ∨ pc.merges = some r)
    (held : s'.held = s.held) (pma : s'.pma = s.pma) (lock : s'.lock = s.lock)
    (locked : old.locked = true) (still : pc.locked = true) (evicts : pc.evicts = old.evicts)
    (merges : ∀ r, old.merges = some r → pc.merges = some r)
    (each : ∀ x, Regrouped s owner t pc x (owner' x) (state' x) ∨
      owner' x = owner x ∧ state' x = s.state x ∧ (owner x = .thread t → pc.Holds x))
    (good : pc.Good state' owner' t) : Inv cfg s' owner' := by
  refine inv.chunkwise pc start pcs done (held ▸ inv.held.congr fun x b => ?_) (fun x => ?_)
    (inv.rely_locked start locked fun x _ free => ?_) (lock ▸ .keep (still.trans locked.symm)) evicts
    quiet (fun r merging => .inr (merges r merging)) good
  · rcases each x with work | ⟨same,_,_⟩
    · have notBefore : owner x ≠ .caller b := by rcases work.before with who | who <;> simp [who]
      have notAfter : owner' x ≠ .caller b := by
        rcases work.after with who | ⟨who,_⟩ <;> simp [who]
      exact iff_of_false notAfter notBefore
    · rw [same]
  · refine (each x).imp (fun work => ⟨fun u own => ?_,?_,work.orphan,fun top => .inl ?_⟩)
      fun ⟨same,state,holds⟩ => ⟨same,state,holds,fun _ => by rw [pma]⟩
    · rcases work.before with mine | gone
      · exact Owner.thread.inj (own.symm.trans mine)
      · simp [gone] at own
    · rcases work.after with gone | ⟨mine,holds⟩
      · rw [gone]
        trivial
      · rw [mine]
        exact ⟨rfl,holds⟩
    · rw [pma]
      refine inv.pma x.root ?_
      rw [← ChunkId.eq_ofRoot top]
      exact (work.root top).imp_right fun own => ⟨t,own⟩
  · rcases each x with work | ⟨_,state,_⟩
    · exact absurd free work.busy
    · exact state ▸ free

/-- A thread splits a chunk that it owns. -/
theorem Inv.divide {k : Nat} (able : Splittable cfg s.pmm c k) (own : owner c = .thread t)
    (pcs : s'.pc = Function.update s.pc t pc) (pmm : s'.pmm = divideChunk s.pmm c k)
    (held : s'.held = s.held) (pma : s'.pma = s.pma) (lock : s'.lock = s.lock)
    (locked : old.locked = true) (still : pc.locked = true) (evicts : pc.evicts = old.evicts)
    (merges : old.merges = none) (rest : ∀ x, x ≠ c → owner x = .thread t → pc.Holds x)
    (inside : ∀ i, pc.Holds (c.child i))
    (good : pc.Good (splitStates s.pmm c (2 ^ ((s.pmm.chunk c).log2Size - k)))
      (splitOwners owner t c (2 ^ ((s.pmm.chunk c).log2Size - k))) t) :
    Inv cfg s' (splitOwners owner t c (2 ^ ((s.pmm.chunk c).log2Size - k))) := by
  obtain ⟨done,quiet⟩ := divideChunk_reshaped inv.sound able
  rw [← pmm] at done quiet
  generalize 2 ^ ((s.pmm.chunk c).log2Size - k) = n at done good ⊢
  refine inv.regroup pc start pcs done (fun r before => .inl (quiet r before)) held pma lock locked
    still evicts (by simp [merges]) (fun x => ?_) good
  by_cases here : x = c
  · subst here
    have owner' : splitOwners owner t x n x = .nobody := if_pos rfl
    have state' : splitStates s.pmm x n x = .isSplit := if_pos rfl
    rw [owner',state']
    exact .inl ⟨.inl own,.inl rfl,by decide,nofun,fun _ => .inr own⟩
  by_cases sub : c.IsSubchunk n x
  · have owner' : splitOwners owner t c n x = .thread t := by simp [splitOwners,here,sub]
    have state' : splitStates s.pmm c n x = s.state c := by
      simp [splitStates,here,sub,System.state]
    rw [owner',state']
    obtain ⟨i,_,rfl⟩ := isSubchunk_iff.mp sub
    have unused : s.state (c.child i) = .pmaOwned := by
      rw [System.state,inv.sound.shaped.leaf c i able.leaf]
      rfl
    refine .inl ⟨.inr (inv.unused_nobody (List.cons_ne_nil _ _) unused),
      .inr ⟨rfl,inside i,able.busy,able.leaf,fun _ => able.used⟩,able.busy,fun flag pinned => ?_,
      fun top => absurd top (List.cons_ne_nil _ _)⟩
    exact absurd (inv.pinned c flag pinned) (by simp [own])
  · exact .inr ⟨by simp [splitOwners,here,sub],by simp [splitStates,here,sub,System.state],
      rest x here⟩

/-- A thread merges the subchunks of a chunk, which it owns or which an eviction keeps. -/
theorem Inv.merge {o : Owner} (able : Mergeable s.pmm c q)
    (free : ∀ i < numSubchunks s.pmm c, owner (c.child i) = .thread t ∨ owner (c.child i) = .nobody)
    (pcs : s'.pc = Function.update s.pc t pc) (pmm : s'.pmm = mergeGpuChunk s.pmm c)
    (held : s'.held = s.held) (pma : s'.pma = s.pma) (lock : s'.lock = s.lock)
    (locked : old.locked = true) (still : pc.locked = true) (evicts : pc.evicts = old.evicts)
    (merges : ∀ r, old.merges = some r → pc.merges = some r)
    (rest : ∀ x, owner x = .thread t → ¬c.IsSubchunk (numSubchunks s.pmm c) x → pc.Holds x)
    (becomes : o = .nobody ∨ o = .thread t ∧ pc.Holds c)
    (orphan : s.inEviction c.root = true → q = .tempPinned → o = .nobody)
    (good : pc.Good (mergeStates s.pmm c q) (mergeOwners owner o c (numSubchunks s.pmm c)) t) :
    Inv cfg s' (mergeOwners owner o c (numSubchunks s.pmm c)) := by
  obtain ⟨done,quiet⟩ := mergeGpuChunk_reshaped inv.sound able
  rw [← pmm] at done quiet
  have ownable : Ownable q c := by
    rcases able.state with rfl | rfl <;> exact ⟨by decide,by decide,fun _ => by decide⟩
  refine inv.regroup pc start pcs done (fun r before => .inl (quiet r before)) held pma lock locked
    still evicts merges (fun x => ?_) good
  by_cases here : x = c
  · subst here
    have owner' : mergeOwners owner o x (numSubchunks s.pmm x) x = o := if_pos rfl
    have state' : mergeStates s.pmm x q x = q := if_pos rfl
    have used : s.state x ≠ .pmaOwned := by
      rw [System.state,able.split]
      decide
    rw [owner',state']
    exact .inl ⟨.inr (inv.free_nobody (.inr able.split)),
      becomes.imp_right fun mine => ⟨mine.1,mine.2,ownable⟩,ownable.notFree,orphan,
      fun _ => .inl used⟩
  by_cases sub : c.IsSubchunk (numSubchunks s.pmm c) x
  · have owner' : mergeOwners owner o c (numSubchunks s.pmm c) x = .nobody := by
      simp [mergeOwners,here,sub]
    have state' : mergeStates s.pmm c q x = .pmaOwned := by simp [mergeStates,here,sub]
    rw [owner',state']
    obtain ⟨i,bound,rfl⟩ := isSubchunk_iff.mp sub
    exact .inl ⟨free i bound,.inl rfl,by decide,by simp,fun top => absurd top (List.cons_ne_nil _ _)⟩
  · exact .inr ⟨by simp [mergeOwners,here,sub],by simp [mergeStates,here,sub,System.state],
      fun own => rest x own sub⟩

end

end GpuExt.Pmm
