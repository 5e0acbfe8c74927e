import GpuExt.PmmCounters

/-! Splitting a leaf into subchunks and merging them back. -/
namespace GpuExt.Pmm

open List Option

variable {cfg : Config} {s s' : State} {c x : ChunkId} {k n : Nat} {q : ChunkState}

@[simp] def subchunkSet (c : ChunkId) (n : Nat) : Set ChunkId := {x | c.IsSubchunk n x}

theorem isSubchunk_iff : c.IsSubchunk n x ↔ ∃ i < n, x = c.child i := by
  constructor
  · rintro ⟨sameRoot,i,bound,shape⟩
    cases x
    simp_all [ChunkId.child]
  · rintro ⟨i,bound,rfl⟩
    exact ⟨rfl,i,bound,rfl⟩

theorem isSubchunk_child {i : Nat} : c.IsSubchunk n (x.child i) ↔ x = c ∧ i < n := by
  rw [isSubchunk_iff]
  constructor
  · rintro ⟨j,bound,same⟩
    obtain ⟨rfl,rfl⟩ := ChunkId.child_inj.mp same
    exact ⟨rfl,bound⟩
  · rintro ⟨rfl,bound⟩
    exact ⟨i,bound,rfl⟩

theorem not_isSubchunk_self : ¬c.IsSubchunk n c := by
  rw [isSubchunk_iff]
  rintro ⟨i,_,same⟩
  exact c.parent_ne (ChunkId.parent_eq.mpr ⟨i,same⟩)

theorem not_isSubchunk_root {r : RootId} : ¬c.IsSubchunk n (.ofRoot r) := by
  rw [isSubchunk_iff]
  rintro ⟨i,_,same⟩
  cases same

theorem subchunkSet_eq : subchunkSet c n = ((Finset.range n).image c.child : Set ChunkId) := by
  ext x
  simp [isSubchunk_iff,eq_comm]

theorem subchunkSet_finite : (subchunkSet c n).Finite := by
  rw [subchunkSet_eq]
  exact Finset.finite_toSet _

theorem subchunkSet_ncard : (subchunkSet c n).ncard = n := by
  rw [subchunkSet_eq,Set.ncard_coe_finset,Finset.card_image_of_injective]
  · exact Finset.card_range n
  · intro i j same
    exact (ChunkId.child_inj.mp same).2

/-- `s'` is `s` with leaf `c` split into subchunks of size `2 ^ k`. -/
structure Divided (s s' : State) (c : ChunkId) (k : Nat) : Prop where
  subchunk : ∀ i < 2 ^ ((s.chunk c).log2Size - k), s'.chunk (c.child i) = subchunkOf (s.chunk c) k i
  state : (s'.chunk c).state = .isSplit
  size : (s'.chunk c).log2Size = (s.chunk c).log2Size
  address : (s'.chunk c).address = (s.chunk c).address
  type : (s'.chunk c).type = (s.chunk c).type
  inEviction : (s'.chunk c).inEviction = (s.chunk c).inEviction
  suballoc : (s'.chunk c).suballoc = some ⟨BitVec.ofNat 32 (2 ^ ((s.chunk c).log2Size - k)),
    if c.path = [] ∧ (s.chunk c).state = .tempPinned then
      BitVec.ofNat 32 (2 ^ ((s.chunk c).log2Size - k)) else 0#32⟩
  others : ∀ x, x ≠ c → ¬c.IsSubchunk (2 ^ ((s.chunk c).log2Size - k)) x →
    s'.chunk x = (s.chunk x).count (if x = rootChunk c ∧ (s.chunk c).state = .tempPinned then
      fun a => { a with pinnedLeafChunks := a.pinnedLeafChunks +
        (BitVec.ofNat 32 (2 ^ ((s.chunk c).log2Size - k)) - 1) } else id)

section

variable (root : chunkIsRootChunk s c = true ↔ c.path = [])
  (state : (s.chunk c).state = .tempPinned ∨ (s.chunk c).state = .allocated)
include root state

/-- The chunks after a split, in one expression. -/
theorem divideChunk_chunk (number : 2 ^ ((s.chunk c).log2Size - k) = n) (x : ChunkId) :
    (divideChunk s c k).chunk x =
      if c.IsSubchunk n x then subchunkOf (s.chunk c) k (x.path.headD 0)
      else if x = c then { s.chunk c with
        state := .isSplit
        suballoc := some ⟨BitVec.ofNat 32 n,
          if c.path = [] ∧ (s.chunk c).state = .tempPinned then BitVec.ofNat 32 n else 0#32⟩
        vaBlock := if (s.chunk c).state = .tempPinned then (s.chunk c).vaBlock else none
        vaBlockPageIndex := if (s.chunk c).state = .tempPinned then
          (s.chunk c).vaBlockPageIndex else pagesPerVaBlock
        isReferenced := if (s.chunk c).state = .tempPinned then
          (s.chunk c).isReferenced else false }
      else (s.chunk x).count (if x = rootChunk c ∧ (s.chunk c).state = .tempPinned then fun a =>
        { a with pinnedLeafChunks := a.pinnedLeafChunks + (BitVec.ofNat 32 n - 1) } else id) := by
  have self : ¬c.IsSubchunk n c := not_isSubchunk_self
  have rootNot : ¬c.IsSubchunk n (rootChunk c) := not_isSubchunk_root
  have rootSize : ((s.chunk c).log2Size == chunkSizeMax) = decide (c.path = []) := by
    rw [Bool.eq_iff_iff,decide_eq_true_iff]
    exact root
  have whole : BitVec.ofNat 32 n - 1#32 + 1#32 = BitVec.ofNat 32 n := by bv_omega
  have fresh (y : ChunkId) (sub : c.IsSubchunk n y) : y ≠ c ∧ y ≠ rootChunk c :=
    ⟨fun same => self (same ▸ sub),fun same => rootNot (same ▸ sub)⟩
  unfold divideChunk
  simp only [number]
  rcases state with state | state
  · simp only [state,chunkIsRootChunk]
    by_cases top : c.path = []
    · have here : rootChunk c = c := (ChunkId.eq_ofRoot top).symm
      by_cases sub : c.IsSubchunk n x
      · simp [self,Chunk.count,rootSize,top,fresh x sub]
      · by_cases same : x = c
        · simp [self,Chunk.count,rootSize,top,here,same]
        · simp [self,Chunk.count,rootSize,top,here,same]
    · have other : rootChunk c ≠ c := fun here => top (by rw [← here]; rfl)
      by_cases sub : c.IsSubchunk n x
      · simp [self,Chunk.count,rootSize,top,fresh x sub]
      · by_cases same : x = c
        · simp [self,rootSize,top,Ne.symm other,same]
        · simp [self,Chunk.count,rootSize,top,same,sub]
  · by_cases sub : c.IsSubchunk n x
    · simp [state,fresh x sub]
    · by_cases same : x = c
      · simp [state,self,same]
      · simp [state,same]

theorem divideChunk_divided : Divided s (divideChunk s c k) c k := by
  have here := divideChunk_chunk (k := k) root state rfl c
  rw [if_neg not_isSubchunk_self,if_pos rfl] at here
  refine ⟨fun i bound => ?_,?_,?_,?_,?_,?_,?_,fun x other notSub => ?_⟩
  · have sub := divideChunk_chunk (k := k) root state rfl (c.child i)
    rw [if_pos (isSubchunk_child.mpr ⟨rfl,bound⟩)] at sub
    exact sub
  iterate 6 rw [here]
  · have elsewhere := divideChunk_chunk (k := k) root state rfl x
    rw [if_neg notSub,if_neg other] at elsewhere
    exact elsewhere

end

/-- A leaf that may be split into subchunks of size `2 ^ k`. -/
structure Splittable (cfg : Config) (s : State) (c : ChunkId) (k : Nat) : Prop where
  state : (s.chunk c).state = .tempPinned ∨ (s.chunk c).state = .allocated
  size : chunkFindPrevSize (cfg.chunkSizes (s.chunk c).type) (s.chunk c).log2Size = some k

theorem Splittable.used (able : Splittable cfg s c k) : (s.chunk c).state ≠ .pmaOwned := by
  rcases able.state with state | state <;> simp [state]

theorem Splittable.leaf (able : Splittable cfg s c k) : (s.chunk c).state ≠ .isSplit := by
  rcases able.state with state | state <;> simp [state]

theorem Splittable.busy (able : Splittable cfg s c k) : (s.chunk c).state ≠ .free := by
  rcases able.state with state | state <;> simp [state]

section Divided

variable (d : Divided s s' c k) (able : Splittable cfg s c k)

include d in
theorem Divided.kept (notSub : ¬c.IsSubchunk (2 ^ ((s.chunk c).log2Size - k)) x) :
    Placed (s.chunk x) (s'.chunk x) := by
  by_cases here : x = c
  · subst here
    exact ⟨fun _ => by simp [d.state],d.size,d.address,d.type,d.inEviction⟩
  · rw [d.others x here notSub]
    exact .count ..

include d able

theorem Divided.split_iff (x : ChunkId) :
    (s'.chunk x).state = .isSplit ↔ x = c ∨ (s.chunk x).state = .isSplit ∧
      ¬c.IsSubchunk (2 ^ ((s.chunk c).log2Size - k)) x := by
  by_cases here : x = c
  · simp [here,d.state]
  · by_cases sub : c.IsSubchunk (2 ^ ((s.chunk c).log2Size - k)) x
    · obtain ⟨i,bound,rfl⟩ := isSubchunk_iff.mp sub
      rw [d.subchunk i bound]
      simp [subchunkOf,able.leaf,here,sub]
    · rw [d.others x here sub]
      simp [Chunk.count,here,sub]

theorem Divided.shaped (shaped : Shaped cfg s) : Shaped cfg s' := by
  have unused (x : ChunkId) (zero : s.chunk x = Chunk.zeroed)
      (notSub : ¬c.IsSubchunk (2 ^ ((s.chunk c).log2Size - k)) x) : s'.chunk x = Chunk.zeroed := by
    have other : x ≠ c := by
      rintro rfl
      exact able.used (by rw [zero]; rfl)
    rw [d.others x other notSub,zero]
    rfl
  refine ⟨fun r => ?_,fun x i leaf => ?_,fun x split => ?_,fun x => ?_,fun r => ?_⟩
  · have kept := d.kept (x := .ofRoot r) not_isSubchunk_root
    rw [kept.size,kept.address]
    exact shaped.root r
  · rw [Ne,d.split_iff able,not_or] at leaf
    obtain ⟨other,leaf⟩ := leaf
    have zero : s.chunk (x.child i) = Chunk.zeroed := by
      by_cases split : (s.chunk x).state = .isSplit
      · -- Only the new subchunks lost the split state, and nothing was below them.
        obtain ⟨j,_,rfl⟩ := isSubchunk_iff.mp (not_not.mp fun notSub => leaf ⟨split,notSub⟩)
        rw [shaped.leaf c j able.leaf] at split
        cases split
      · exact shaped.leaf x i split
    exact unused _ zero fun sub => other (isSubchunk_child.mp sub).1
  · rcases (d.split_iff able x).mp split with rfl | ⟨old,notSub⟩
    · rw [d.type,d.size]
      refine ⟨k,able.size,fun i => ⟨fun bound => ?_,fun above => ?_⟩⟩
      · rw [d.subchunk i bound]
        exact ⟨able.used,rfl,by rw [d.address]; rfl,by rw [d.type]; rfl⟩
      · exact unused _ (shaped.leaf _ i able.leaf) fun sub => by
          have := (isSubchunk_child.mp sub).2
          omega
    · have other : x ≠ c := fun here => able.leaf (here ▸ old)
      have child (i : Nat) : ¬c.IsSubchunk (2 ^ ((s.chunk c).log2Size - k)) (x.child i) :=
        fun sub => other (isSubchunk_child.mp sub).1
      exact shaped.split_placed old (d.kept notSub) (fun i => d.kept (child i))
        fun i zero => unused _ zero (child i)
  · by_cases here : x = c
    · simp [here,d.suballoc,d.state]
    · rw [d.split_iff able]
      by_cases sub : c.IsSubchunk (2 ^ ((s.chunk c).log2Size - k)) x
      · obtain ⟨i,bound,rfl⟩ := isSubchunk_iff.mp sub
        rw [d.subchunk i bound]
        simp [subchunkOf,Chunk.zeroed,here,sub]
      · rw [d.others x here sub]
        simp [Chunk.count,shaped.suballoc x,here,sub]
  · apply ((shaped.finite r).union
      (subchunkSet_finite (c := c) (n := 2 ^ ((s.chunk c).log2Size - k)))).subset
    rintro x ⟨sameRoot,used⟩
    by_cases sub : c.IsSubchunk (2 ^ ((s.chunk c).log2Size - k)) x
    · exact .inr sub
    · by_cases here : x = c
      · exact .inl ⟨sameRoot,here ▸ able.used⟩
      · rw [d.others x here sub] at used
        exact .inl ⟨sameRoot,used⟩

/-- Other chunks keep the number of their busy subchunks: a split chunk is busy. -/
theorem Divided.busy_eq (shaped : Shaped cfg s) (other : x ≠ c)
    (split : (s.chunk x).state = .isSplit) : busySubchunks s' x = busySubchunks s x := by
  have notSub (i : Nat) : ¬c.IsSubchunk (2 ^ ((s.chunk c).log2Size - k)) (x.child i) :=
    fun sub => other (isSubchunk_child.mp sub).1
  have notSelf : ¬c.IsSubchunk (2 ^ ((s.chunk c).log2Size - k)) x := fun sub => by
    obtain ⟨i,_,rfl⟩ := isSubchunk_iff.mp sub
    rw [shaped.leaf c i able.leaf] at split
    cases split
  have child (i : Nat) : x.child i = c ∨ s'.chunk (x.child i) = _ :=
    or_iff_not_imp_left.mpr fun here => d.others _ here (notSub i)
  refine busySubchunks_congr (by rw [d.others x other notSelf]; rfl) ?_ fun i => ?_
  · rcases child 0 with here | same
    · rw [here,d.size]
    · rw [same]
      rfl
  · rcases child i with here | same
    · simp [here,d.state,able.busy]
    · rw [same]
      rfl

theorem Divided.pinned_iff (shaped : Shaped cfg s) :
    (s'.chunk x).state = .tempPinned ↔
      (s.chunk x).state = .tempPinned ∧ x ≠ c ∨
        (s.chunk c).state = .tempPinned ∧ c.IsSubchunk (2 ^ ((s.chunk c).log2Size - k)) x := by
  by_cases here : x = c
  · simp [here,d.state,not_isSubchunk_self]
  · by_cases sub : c.IsSubchunk (2 ^ ((s.chunk c).log2Size - k)) x
    · obtain ⟨i,bound,rfl⟩ := isSubchunk_iff.mp sub
      rw [d.subchunk i bound,shaped.leaf c i able.leaf]
      simp [subchunkOf,Chunk.zeroed,sub]
    · rw [d.others x here sub]
      simp [Chunk.count,here,sub]

theorem Divided.counted (shaped : Shaped cfg s) (counted : Counted s) : Counted s' := by
  have shaped' := d.shaped able shaped
  constructor
  · intro x a found
    by_cases here : x = c
    · subst here
      rw [d.suballoc,some.injEq] at found
      subst found
      have number : numSubchunks s' x = 2 ^ ((s.chunk x).log2Size - k) := by
        rw [shaped'.numSubchunks d.state (d.type.symm ▸ d.size.symm ▸ able.size),d.size]
      have all : busySubchunks s' x = 2 ^ ((s.chunk x).log2Size - k) := by
        unfold busySubchunks
        rw [number,countP_eq_length.mpr,length_range]
        intro i member
        rw [d.subchunk i (mem_range.mp member)]
        simpa [subchunkOf] using able.busy
      rw [all]
    · have split : (s'.chunk x).state = .isSplit := (shaped'.suballoc x).mp (by simp [found])
      obtain ⟨old,notSub⟩ := ((d.split_iff able x).mp split).resolve_left here
      rw [d.others x here notSub,Chunk.count,map_eq_some_iff] at found
      obtain ⟨b,before,rfl⟩ := found
      rw [d.busy_eq able shaped here old,← counted.allocated x b before]
      split <;> rfl
  · intro r a found
    have exchange := shaped.pinned_exchange s' (R := {c})
      (A := subchunkSet c (2 ^ ((s.chunk c).log2Size - k))) (u := (s.chunk c).state = .tempPinned)
      (v := (s.chunk c).state = .tempPinned) subchunkSet_finite (by simp)
      (fun x sub _ => ⟨sub.1,by
        obtain ⟨i,_,rfl⟩ := isSubchunk_iff.mp sub
        simp [shaped.leaf c i able.leaf,Chunk.zeroed]⟩)
      (fun x => by
        rw [d.pinned_iff able shaped]
        by_cases here : x = c
        · simp [here]
        · simp [here]) r
    rw [subchunkSet_ncard] at exchange
    rw [exchange]
    by_cases here : .ofRoot r = c
    · -- The root itself was split, and nothing was below it.
      have only : pinnedLeaves s r = {x | (s.chunk c).state = .tempPinned ∧ x ∈ ({c} : Set ChunkId)} := by
        ext x
        constructor
        · rintro ⟨sameRoot,state⟩
          have same : x = c := by
            by_contra other
            rw [shaped.below_leaf able.leaf (here ▸ ⟨sameRoot,nil_suffix⟩) other] at state
            cases state
          exact ⟨same ▸ state,same⟩
        · rintro ⟨state,rfl⟩
          exact ⟨by rw [← here]; rfl,state⟩
      rw [here,d.suballoc,some.injEq] at found
      subst found here
      split <;> simp_all [ChunkId.ofRoot]
    · rw [d.others _ here not_isSubchunk_root,Chunk.count,map_eq_some_iff] at found
      obtain ⟨b,before,rfl⟩ := found
      rw [← counted.pinned r b before]
      by_cases pinned : (s.chunk c).state = .tempPinned
      · simp only [pinned,ofRoot_eq,and_true]
        split <;> simp
      · simp [pinned]

end Divided

/-! Merging. -/

/-- `s'` is `s` with the `n` subchunks of `c` merged into it. -/
structure Merged (s s' : State) (c : ChunkId) (n : Nat) (q : ChunkState) : Prop where
  subchunk : ∀ x, c.IsSubchunk n x → s'.chunk x = Chunk.zeroed
  state : (s'.chunk c).state = q
  size : (s'.chunk c).log2Size = (s.chunk c).log2Size
  address : (s'.chunk c).address = (s.chunk c).address
  type : (s'.chunk c).type = (s.chunk c).type
  inEviction : (s'.chunk c).inEviction = (s.chunk c).inEviction
  suballoc : (s'.chunk c).suballoc = none
  others : ∀ x, x ≠ c → ¬c.IsSubchunk n x → s'.chunk x = (s.chunk x).count
    (if x = rootChunk c ∧ q = .tempPinned then fun a =>
      { a with pinnedLeafChunks := a.pinnedLeafChunks + (1 - BitVec.ofNat 32 n) } else id)

/-- A split chunk with subchunks that all are in one state. -/
structure Mergeable (s : State) (c : ChunkId) (q : ChunkState) : Prop where
  split : (s.chunk c).state = .isSplit
  subchunk : ∀ i < numSubchunks s c, (s.chunk (c.child i)).state = q
  state : q = .tempPinned ∨ q = .allocated

theorem numSubchunks_pos (s : State) (c : ChunkId) : 0 < numSubchunks s c := Nat.two_pow_pos _

theorem mergeGpuChunk_chunk (able : Mergeable s c q) (number : numSubchunks s c = n)
    (x : ChunkId) :
    (mergeGpuChunk s c).chunk x =
      if c.IsSubchunk n x then Chunk.zeroed
      else if x = c then { s.chunk c with
        state := q
        suballoc := none
        isZero := false
        vaBlock := if q = .allocated ∧ (s.chunk (c.child 0)).type = .user then
          (s.chunk (c.child 0)).vaBlock else (s.chunk c).vaBlock
        vaBlockPageIndex := if q = .allocated ∧ (s.chunk (c.child 0)).type = .user then
          (s.chunk (c.child 0)).vaBlockPageIndex else (s.chunk c).vaBlockPageIndex
        isReferenced := if q = .allocated ∧ (s.chunk (c.child 0)).type = .user then
          (s.chunk (c.child 0)).isReferenced else (s.chunk c).isReferenced }
      else (s.chunk x).count (if x = rootChunk c ∧ q = .tempPinned then fun a =>
        { a with pinnedLeafChunks := a.pinnedLeafChunks + (1 - BitVec.ofNat 32 n) } else id) := by
  have first := able.subchunk 0 (numSubchunks_pos s c)
  unfold mergeGpuChunk
  simp only [number,first]
  by_cases sub : c.IsSubchunk n x
  · simp [sub]
  · rcases able.state with rfl | rfl
    · by_cases here : x = c
      · simp [Chunk.count]
      · simp [here]
    · by_cases user : (s.chunk (c.child 0)).type = .user
      · by_cases here : x = c
        · simp [here,user]
        · simp [here,user]
      · by_cases here : x = c
        · simp [user]
        · simp [user]

theorem mergeGpuChunk_merged (able : Mergeable s c q) :
    Merged s (mergeGpuChunk s c) c (numSubchunks s c) q := by
  have here := mergeGpuChunk_chunk able rfl c
  rw [if_neg not_isSubchunk_self,if_pos rfl] at here
  refine ⟨fun x sub => ?_,?_,?_,?_,?_,?_,?_,fun x other notSub => ?_⟩
  · rw [mergeGpuChunk_chunk able rfl,if_pos sub]
  iterate 6 rw [here]
  · rw [mergeGpuChunk_chunk able rfl,if_neg notSub,if_neg other]

section Merged

variable (m : Merged s s' c (numSubchunks s c) q) (able : Mergeable s c q)

include able in
theorem Mergeable.leaf : q ≠ .isSplit ∧ q ≠ .pmaOwned ∧ q ≠ .free := by
  rcases able.state with rfl | rfl <;> simp

include able in
/-- The subchunks are the chunks in use below, and none of them is split. -/
theorem Mergeable.subchunk_state (sub : c.IsSubchunk (numSubchunks s c) x) :
    (s.chunk x).state = q := by
  obtain ⟨i,bound,rfl⟩ := isSubchunk_iff.mp sub
  exact able.subchunk i bound

include m able

theorem Merged.split_iff (x : ChunkId) :
    (s'.chunk x).state = .isSplit ↔ (s.chunk x).state = .isSplit ∧ x ≠ c := by
  by_cases here : x = c
  · simp [here,m.state,able.leaf]
  · by_cases sub : c.IsSubchunk (numSubchunks s c) x
    · rw [m.subchunk x sub,able.subchunk_state sub]
      simp [Chunk.zeroed,able.leaf.1]
    · rw [m.others x here sub]
      simp [Chunk.count,here]

theorem Merged.kept (notSub : ¬c.IsSubchunk (numSubchunks s c) x) :
    Placed (s.chunk x) (s'.chunk x) := by
  by_cases here : x = c
  · subst here
    exact ⟨fun _ => m.state ▸ able.leaf.2.1,m.size,m.address,m.type,m.inEviction⟩
  · rw [m.others x here notSub]
    exact .count ..

theorem Merged.shaped (shaped : Shaped cfg s) : Shaped cfg s' := by
  have unused (x : ChunkId) (zero : s.chunk x = Chunk.zeroed) : s'.chunk x = Chunk.zeroed := by
    by_cases sub : c.IsSubchunk (numSubchunks s c) x
    · exact m.subchunk x sub
    · have other : x ≠ c := by
        rintro rfl
        have split := able.split
        rw [zero] at split
        cases split
      rw [m.others x other sub,zero]
      rfl
  refine ⟨fun r => ?_,fun x i leaf => ?_,fun x split => ?_,fun x => ?_,fun r => ?_⟩
  · have kept := m.kept able (x := .ofRoot r) not_isSubchunk_root
    rw [kept.size,kept.address]
    exact shaped.root r
  · by_cases here : x = c
    · subst here
      by_cases bound : i < numSubchunks s x
      · exact m.subchunk _ (isSubchunk_child.mpr ⟨rfl,bound⟩)
      · apply unused
        obtain ⟨k,size,fits⟩ := shaped.split x able.split
        rw [shaped.numSubchunks able.split size] at bound
        exact (fits i).2 (by omega)
    · rw [Ne,m.split_iff able,not_and_not_right] at leaf
      exact unused _ (shaped.leaf x i fun split => here (leaf split))
  · obtain ⟨old,other⟩ := (m.split_iff able x).mp split
    have notSub : ¬c.IsSubchunk (numSubchunks s c) x :=
      fun sub => able.leaf.1 ((able.subchunk_state sub).symm.trans old)
    exact shaped.split_placed old (m.kept able notSub)
      (fun i => m.kept able fun sub => other (isSubchunk_child.mp sub).1) fun i => unused _
  · by_cases here : x = c
    · simp [here,m.suballoc,m.state,able.leaf]
    · rw [m.split_iff able]
      by_cases sub : c.IsSubchunk (numSubchunks s c) x
      · rw [m.subchunk x sub,able.subchunk_state sub]
        simp [Chunk.zeroed,able.leaf]
      · rw [m.others x here sub]
        simp [Chunk.count,shaped.suballoc x,here]
  · apply ((shaped.finite r)).subset
    rintro x ⟨sameRoot,used⟩
    refine ⟨sameRoot,?_⟩
    by_cases here : x = c
    · simp [here,able.split]
    · by_cases sub : c.IsSubchunk (numSubchunks s c) x
      · exact absurd (by rw [m.subchunk x sub]; rfl) used
      · rwa [m.others x here sub] at used

theorem Merged.busy_eq (other : x ≠ c) (notSub : ¬c.IsSubchunk (numSubchunks s c) x) :
    busySubchunks s' x = busySubchunks s x := by
  have child (i : Nat) : x.child i = c ∨ s'.chunk (x.child i) = _ :=
    or_iff_not_imp_left.mpr fun here =>
      m.others _ here fun sub => other (isSubchunk_child.mp sub).1
  refine busySubchunks_congr (by rw [m.others x other notSub]; rfl) ?_ fun i => ?_
  · rcases child 0 with here | same
    · rw [here,m.size]
    · rw [same]
      rfl
  · rcases child i with here | same
    · simp [here,m.state,able.split,able.leaf]
    · rw [same]
      rfl

theorem Merged.counted (shaped : Shaped cfg s) (counted : Counted s) : Counted s' := by
  have shaped' := m.shaped able shaped
  have old (x : ChunkId) (a : Suballoc) (found : (s'.chunk x).suballoc = some a) :
      x ≠ c ∧ ¬c.IsSubchunk (numSubchunks s c) x := by
    have split := (m.split_iff able x).mp ((shaped'.suballoc x).mp (by simp [found]))
    exact ⟨split.2,fun sub => able.leaf.1 ((able.subchunk_state sub).symm.trans split.1)⟩
  constructor
  · intro x a found
    obtain ⟨other,notSub⟩ := old _ a found
    rw [m.others x other notSub,Chunk.count,map_eq_some_iff] at found
    obtain ⟨b,before,rfl⟩ := found
    rw [m.busy_eq able other notSub,← counted.allocated x b before]
    split <;> rfl
  · intro r a found
    obtain ⟨other,notSub⟩ := old _ a found
    rw [m.others _ other notSub,Chunk.count,map_eq_some_iff] at found
    obtain ⟨b,before,rfl⟩ := found
    -- The subchunks leave the pinned leaves of the root, the merged chunk joins them.
    have exchange := shaped.pinned_exchange s' (R := subchunkSet c _) (A := {c})
      (u := q = .tempPinned) (v := q = .tempPinned) (Set.finite_singleton c)
      (fun x sub pinned => ⟨sub.1,(able.subchunk_state sub).trans pinned⟩)
      (by simp [able.split]) (fun x => by
        by_cases here : x = c
        · simp [here,m.state,able.split]
        · by_cases sub : c.IsSubchunk (numSubchunks s c) x
          · simp [m.subchunk x sub,able.subchunk_state sub,Chunk.zeroed,here,sub]
          · rw [m.others x here sub]
            simp [Chunk.count,here,sub]) r
    rw [subchunkSet_ncard] at exchange
    rw [exchange,← counted.pinned r b before]
    by_cases pinned : q = .tempPinned
    · simp only [pinned,ofRoot_eq,and_true]
      split <;> simp
    · simp [pinned]

end Merged

/-! Pinning all subchunks for a merge. -/

/-- The counters above the `n` subchunks of `p` when they all go from free to pinned. -/
def Suballoc.pinAll (p x : ChunkId) (n : Nat) (a : Suballoc) : Suballoc where
  allocated := if x = p then BitVec.ofNat 32 n else a.allocated
  pinnedLeafChunks := a.pinnedLeafChunks + if x = rootChunk p then BitVec.ofNat 32 n else 0#32

structure AllPinned (s s' : State) (p : ChunkId) (n : Nat) : Prop where
  subchunk : ∀ x, p.IsSubchunk n x → s'.chunk x = { s.chunk x with state := .tempPinned }
  others : ∀ x, ¬p.IsSubchunk n x → s'.chunk x = (s.chunk x).count (Suballoc.pinAll p x n)

@[simp] theorem rootListUpdateLocked_chunk (s : State) (c : ChunkId) (list : ListState)
    (operation : ListOp) : (rootListUpdateLocked s c list operation).chunk = s.chunk := by
  unfold rootListUpdateLocked
  dsimp only
  split <;> rfl

theorem pinSubchunk_chunk (s : State) (c x : ChunkId) : (pinSubchunk s c).chunk x =
    if x = c then { s.chunk c with state := .tempPinned } else s.chunk x := by
  simp [pinSubchunk]

theorem pinSubchunks_chunk (s : State) (p : ChunkId) (n : Nat) (x : ChunkId) :
    ((range n).foldl (fun s i => pinSubchunk s (p.child i)) s).chunk x =
      if p.IsSubchunk n x then { s.chunk x with state := .tempPinned } else s.chunk x := by
  induction n with
  | zero => simp [ChunkId.IsSubchunk]
  | succ n ih =>
    rw [range_succ,foldl_append,foldl_cons,foldl_nil,pinSubchunk_chunk]
    by_cases here : x = p.child n
    · subst here
      simp [ih,isSubchunk_child]
    · have same : p.IsSubchunk (n + 1) x ↔ p.IsSubchunk n x := by
        rw [isSubchunk_iff,isSubchunk_iff]
        constructor
        · rintro ⟨i,bound,rfl⟩
          have other : i ≠ n := fun last => here (by rw [last])
          exact ⟨i,by omega,rfl⟩
        · rintro ⟨i,bound,rfl⟩
          exact ⟨i,by omega,rfl⟩
      simp [here,ih,same]

theorem pinAll_allPinned (s : State) (p : ChunkId) (n : Nat) :
    AllPinned s ((((range n).foldl (fun s i => pinSubchunk s (p.child i)) s).modifySuballoc
      (rootChunk p) fun a =>
        { a with pinnedLeafChunks := a.pinnedLeafChunks + BitVec.ofNat 32 n }).modifySuballoc
      p fun a => { a with allocated := BitVec.ofNat 32 n }) p n := by
  constructor
  · intro x sub
    have notSelf : x ≠ p := fun here => not_isSubchunk_self (here ▸ sub)
    have notRoot : x ≠ rootChunk p := fun here => not_isSubchunk_root (here ▸ sub)
    simp [pinSubchunks_chunk,notSelf,notRoot,sub]
  · intro x notSub
    have counters : (Suballoc.pinAll p x n) =
        (if x = p then fun a => { a with allocated := BitVec.ofNat 32 n } else id) ∘
          (if x = rootChunk p then fun a =>
            { a with pinnedLeafChunks := a.pinnedLeafChunks + BitVec.ofNat 32 n } else id) := by
      funext a
      simp only [Suballoc.pinAll]
      split <;> split <;> simp
    simp [pinSubchunks_chunk,if_neg notSub,counters]

section AllPinned

variable {p : ChunkId} (a : AllPinned s s' p (numSubchunks s p))
  (free : ∀ i < numSubchunks s p, (s.chunk (p.child i)).state = .free)

include a in
theorem AllPinned.kept (x : ChunkId) : Placed (s.chunk x) (s'.chunk x) := by
  by_cases sub : p.IsSubchunk (numSubchunks s p) x
  · rw [a.subchunk x sub]
    exact ⟨fun _ => nofun,rfl,rfl,rfl,rfl⟩
  · rw [a.others x sub]
    exact .count ..

include a in
theorem AllPinned.state_eq (notSub : ¬p.IsSubchunk (numSubchunks s p) x) :
    (s'.chunk x).state = (s.chunk x).state := by
  rw [a.others x notSub]
  rfl

include free in
theorem subchunks_free (sub : p.IsSubchunk (numSubchunks s p) x) : (s.chunk x).state = .free := by
  obtain ⟨i,bound,rfl⟩ := isSubchunk_iff.mp sub
  exact free i bound

include a free

theorem AllPinned.split_iff (x : ChunkId) :
    (s'.chunk x).state = .isSplit ↔ (s.chunk x).state = .isSplit := by
  by_cases sub : p.IsSubchunk (numSubchunks s p) x
  · simp [a.subchunk x sub,subchunks_free free sub]
  · rw [a.state_eq sub]

theorem AllPinned.shaped (shaped : Shaped cfg s) : Shaped cfg s' := by
  have unused (x : ChunkId) (zero : s.chunk x = Chunk.zeroed) : s'.chunk x = Chunk.zeroed := by
    by_cases sub : p.IsSubchunk (numSubchunks s p) x
    · have state := subchunks_free free sub
      rw [zero] at state
      cases state
    · rw [a.others x sub,zero]
      rfl
  refine ⟨fun r => ?_,fun x i leaf => ?_,fun x split => ?_,fun x => ?_,fun r => ?_⟩
  · rw [(a.kept _).size,(a.kept _).address]
    exact shaped.root r
  · rw [Ne,a.split_iff free] at leaf
    exact unused _ (shaped.leaf x i leaf)
  · rw [a.split_iff free] at split
    exact shaped.split_placed split (a.kept x) (fun i => a.kept _) fun i => unused _
  · rw [a.split_iff free,← shaped.suballoc x]
    by_cases sub : p.IsSubchunk (numSubchunks s p) x
    · rw [a.subchunk x sub]
    · simp [a.others x sub,Chunk.count]
  · apply (shaped.finite r).subset
    rintro x ⟨sameRoot,used⟩
    refine ⟨sameRoot,?_⟩
    by_cases sub : p.IsSubchunk (numSubchunks s p) x
    · simp [subchunks_free free sub]
    · rwa [a.state_eq sub] at used

theorem AllPinned.counted (shaped : Shaped cfg s) (counted : Counted s) : Counted s' := by
  have notSub {x : ChunkId} {b : Suballoc} (found : (s'.chunk x).suballoc = some b) :
      ¬p.IsSubchunk (numSubchunks s p) x := fun sub => by
    have split := ((a.shaped free shaped).suballoc x).mp (by simp [found])
    rw [a.split_iff free,subchunks_free free sub] at split
    cases split
  have number (x : ChunkId) : numSubchunks s' x = numSubchunks s x := by
    simp [numSubchunks,(a.kept _).size]
  constructor
  · intro x b found
    rw [a.others x (notSub found),Chunk.count,map_eq_some_iff] at found
    obtain ⟨old,before,rfl⟩ := found
    by_cases here : x = p
    · subst here
      have all : busySubchunks s' x = numSubchunks s x := by
        unfold busySubchunks
        rw [number,countP_eq_length.mpr,length_range]
        intro i member
        rw [a.subchunk _ (isSubchunk_child.mpr ⟨rfl,mem_range.mp member⟩)]
        rfl
      simp [Suballoc.pinAll,all]
    · have same := busySubchunks_congr (a.kept x).size (a.kept _).size fun i => by
        rw [a.state_eq fun sub => here (isSubchunk_child.mp sub).1]
      simp [Suballoc.pinAll,here,same,counted.allocated x old before]
  · intro r b found
    rw [a.others _ (notSub found),Chunk.count,map_eq_some_iff] at found
    obtain ⟨old,before,rfl⟩ := found
    have exchange := shaped.pinned_exchange s' (c := p) (R := ∅)
      (A := subchunkSet p (numSubchunks s p)) (u := False) (v := True) subchunkSet_finite
      (by simp) (fun x sub _ => ⟨sub.1,by simp [subchunks_free free sub]⟩) (fun x => by
        by_cases sub : p.IsSubchunk (numSubchunks s p) x
        · simp [a.subchunk x sub,sub]
        · simp [a.state_eq sub,sub]) r
    rw [subchunkSet_ncard] at exchange
    simp [Suballoc.pinAll,counted.pinned r old before,exchange,ofRoot_eq]

end AllPinned

end GpuExt.Pmm
