import GpuExt.PmmForest

/-! The two counters of a split chunk, and what the sections do to the trees: a section
changes the state of one leaf, splits a leaf, merges the subchunks of a chunk or pins
them all. Each keeps the shape of the trees and both counters exact. -/
namespace GpuExt.Pmm

open List

variable {cfg : Config} {s s' : State} {c x p : ChunkId} {q : ChunkState}

section

variable (s : State) (q : ChunkState) (chunk : Chunk) (f : Suballoc → Suballoc)

def pinnedLeaves (r : RootId) : Set ChunkId :=
  {c | c.root = r ∧ (s.chunk c).state = .tempPinned}

def busySubchunks (c : ChunkId) : Nat :=
  (range (numSubchunks s c)).countP fun i => (s.chunk (c.child i)).state ≠ .free

structure Counted (s : State) : Prop where
  allocated : ∀ c a, (s.chunk c).suballoc = some a →
    a.allocated = BitVec.ofNat 32 (busySubchunks s c)
  pinned : ∀ r a, (s.chunk (.ofRoot r)).suballoc = some a →
    a.pinnedLeafChunks = BitVec.ofNat 32 (pinnedLeaves s r).ncard

/-! Counting. -/

theorem countP_range_change {n i : Nat} {f g : Nat → Bool} (bound : i < n)
    (same : ∀ j, j ≠ i → g j = f j) :
    (range n).countP g + (f i).toNat = (range n).countP f + (g i).toNat := by
  induction n with
  | zero => omega
  | succ n ih =>
    simp only [range_succ,countP_append,countP_singleton]
    by_cases last : i = n
    · subst last
      have front : (range i).countP g = (range i).countP f :=
        countP_congr fun j member => by
          rw [same j (Nat.ne_of_lt (mem_range.mp member))]
      cases f i <;> cases g i <;> simp [front]
    · rw [same n (Ne.symm last)]
      omega

/-- Some elements leave a set and others join it. -/
theorem ncard_exchange {α : Type} {S T R A : Set α} (finite : S.Finite) (finiteA : A.Finite)
    (inside : R ⊆ S) (apart : Disjoint (S \ R) A) (equal : ∀ b, b ∈ T ↔ b ∈ S ∧ b ∉ R ∨ b ∈ A) :
    T.ncard + R.ncard = S.ncard + A.ncard := by
  have shape : T = S \ R ∪ A := Set.ext equal
  have rest := Set.ncard_sdiff_add_ncard_of_subset inside finite
  rw [shape,Set.ncard_union_eq apart (finite.subset Set.sdiff_subset) finiteA]
  omega

theorem ncard_guard {α : Type} (u : Prop) [Decidable u] (S : Set α) :
    {x | u ∧ x ∈ S}.ncard = if u then S.ncard else 0 := by
  split <;> simp [*]

theorem ofNat_change {m n : Nat} {a b : Bool} (change : m + a.toNat = n + b.toNat) :
    BitVec.ofNat 32 m =
      BitVec.ofNat 32 n + (BitVec.ofNat 32 b.toNat - BitVec.ofNat 32 a.toNat) := by
  bv_omega

/-! A leaf changes its state. -/

def Chunk.count : Chunk :=
  { chunk with suballoc := chunk.suballoc.map f }

@[simp] theorem Chunk.count_id : chunk.count id = chunk := by
  simp [Chunk.count]

@[simp] theorem Chunk.count_count (g : Suballoc → Suballoc) :
    (chunk.count f).count g = chunk.count (g ∘ f) := by
  simp [Chunk.count]

theorem Placed.count : Placed chunk (chunk.count f) :=
  ⟨id,rfl,rfl,rfl,rfl⟩

def Chunk.bare : Chunk := { chunk with suballoc := none }

def busy : Bool := q ≠ .free
def pinned : Bool := q = .tempPinned

end

/-- The counters above a leaf that goes from state `p` to state `q`. -/
def Suballoc.adjust (c x : ChunkId) (p q : ChunkState) (a : Suballoc) : Suballoc where
  allocated := a.allocated + if c.parent = some x then
    BitVec.ofNat 32 (busy q).toNat - BitVec.ofNat 32 (busy p).toNat else 0#32
  pinnedLeafChunks := a.pinnedLeafChunks + if x = rootChunk c then
    BitVec.ofNat 32 (pinned q).toNat - BitVec.ofNat 32 (pinned p).toNat else 0#32

structure Recolored (s s' : State) (c : ChunkId) (q : ChunkState) : Prop where
  others : ∀ x, x ≠ c → (s'.chunk x).bare = (s.chunk x).bare
  state : (s'.chunk c).state = q
  size : (s'.chunk c).log2Size = (s.chunk c).log2Size
  address : (s'.chunk c).address = (s.chunk c).address
  type : c.path ≠ [] → (s'.chunk c).type = (s.chunk c).type
  inEviction : (s'.chunk c).inEviction = (s.chunk c).inEviction
  suballoc : ∀ x, (s'.chunk x).suballoc =
    (s.chunk x).suballoc.map (Suballoc.adjust c x (s.chunk c).state q)

/-- Only leaves change their state, and only roots come from PMA or go back to it. -/
structure Recolors (s : State) (c : ChunkId) (q : ChunkState) : Prop where
  leaf : (s.chunk c).state ≠ .isSplit
  state : q ≠ .isSplit
  used : c.path ≠ [] → (s.chunk c).state ≠ .pmaOwned ∧ q ≠ .pmaOwned

section

variable (r : Recolored s s' c q)
include r

theorem Recolored.chunk_eq (other : x ≠ c) (leaf : (s.chunk x).suballoc = none) :
    s'.chunk x = s.chunk x := by
  have bare := r.others x other
  have suballoc := r.suballoc x
  unfold Chunk.bare at bare
  cases left : s'.chunk x
  cases right : s.chunk x
  simp_all

theorem Recolored.size_eq (x : ChunkId) : (s'.chunk x).log2Size = (s.chunk x).log2Size := by
  by_cases here : x = c
  · exact here ▸ r.size
  · have bare := congrArg Chunk.log2Size (r.others x here)
    exact bare

theorem Recolored.state_eq (other : x ≠ c) : (s'.chunk x).state = (s.chunk x).state := by
  have bare := congrArg Chunk.state (r.others x other)
  exact bare

theorem Recolored.type_eq (other : x ≠ c) : (s'.chunk x).type = (s.chunk x).type := by
  have bare := congrArg Chunk.type (r.others x other)
  exact bare

theorem Recolored.address_eq (x : ChunkId) : (s'.chunk x).address = (s.chunk x).address := by
  by_cases here : x = c
  · exact here ▸ r.address
  · have bare := congrArg Chunk.address (r.others x here)
    exact bare

theorem Recolored.inEviction_eq (x : ChunkId) :
    (s'.chunk x).inEviction = (s.chunk x).inEviction := by
  by_cases here : x = c
  · exact here ▸ r.inEviction
  · have bare := congrArg Chunk.inEviction (r.others x here)
    exact bare

theorem Recolored.numSubchunks_eq (x : ChunkId) : numSubchunks s' x = numSubchunks s x := by
  simp [numSubchunks,r.size_eq]

theorem Recolored.split_iff (allowed : Recolors s c q) (x : ChunkId) :
    (s'.chunk x).state = .isSplit ↔ (s.chunk x).state = .isSplit := by
  by_cases here : x = c
  · subst here
    simp [r.state,allowed.state,allowed.leaf]
  · rw [r.state_eq here]

theorem Recolored.kept (allowed : Recolors s c q) (sub : x = c → c.path ≠ []) :
    Placed (s.chunk x) (s'.chunk x) := by
  by_cases here : x = c
  · subst here
    exact ⟨fun _ => r.state ▸ (allowed.used (sub rfl)).2,r.size,r.address,r.type (sub rfl),r.inEviction⟩
  · exact ⟨by rw [r.state_eq here]; exact id,r.size_eq x,r.address_eq x,r.type_eq here,
      r.inEviction_eq x⟩

theorem Recolored.shaped (allowed : Recolors s c q) (shaped : Shaped cfg s) : Shaped cfg s' := by
  have unused (x : ChunkId) (zero : s.chunk x = Chunk.zeroed) (sub : x.path ≠ []) :
      s'.chunk x = Chunk.zeroed := by
    have other : x ≠ c := by
      rintro rfl
      exact (allowed.used sub).1 (by rw [zero]; rfl)
    rw [r.chunk_eq other (by rw [zero]; rfl),zero]
  refine ⟨fun i => ?_,fun x i leaf => ?_,fun x split => ?_,fun x => ?_,fun i => ?_⟩
  · rw [r.size_eq,r.address_eq]
    exact shaped.root i
  · rw [Ne,r.split_iff allowed] at leaf
    exact unused _ (shaped.leaf x i leaf) (by simp [ChunkId.child])
  · rw [r.split_iff allowed] at split
    have sub (i : Nat) : (x.child i).path ≠ [] := by simp [ChunkId.child]
    exact shaped.split_placed split (r.kept allowed fun here => absurd (here ▸ split) allowed.leaf)
      (fun i => r.kept allowed fun here => here ▸ sub i) fun i zero => unused _ zero (sub i)
  · rw [r.suballoc x,Option.isSome_map,shaped.suballoc x,r.split_iff allowed]
  · apply ((shaped.finite i).insert c).subset
    rintro x ⟨sameRoot,used⟩
    by_cases here : x = c
    · exact .inl here
    · exact .inr ⟨sameRoot,by rwa [r.state_eq here] at used⟩

end

theorem ChunkId.parent_eq : c.parent = some x ↔ ∃ i, c = x.child i := by
  obtain ⟨root,path⟩ := c
  cases path with
  | nil => simp [ChunkId.parent,ChunkId.child]
  | cons i path =>
    obtain ⟨root',path'⟩ := x
    simp [ChunkId.parent,ChunkId.child]

theorem Shaped.pinned_finite (shaped : Shaped cfg s) (r : RootId) : (pinnedLeaves s r).Finite := by
  apply (shaped.finite r).subset
  rintro x ⟨sameRoot,state⟩
  exact ⟨sameRoot,by simp [state]⟩

/-- The chunks of `R` under the root of `c` cease to be pinned, those of `A` become pinned. -/
theorem Shaped.pinned_exchange (shaped : Shaped cfg s) (s' : State) {u v : Prop} [Decidable u] [Decidable v]
    {R A : Set ChunkId} (finiteA : A.Finite)
    (left : ∀ x ∈ R, u → x.root = c.root ∧ (s.chunk x).state = .tempPinned)
    (joined : ∀ x ∈ A, v → x.root = c.root ∧ ((s.chunk x).state = .tempPinned → u ∧ x ∈ R))
    (change : ∀ x, (s'.chunk x).state = .tempPinned ↔
      (s.chunk x).state = .tempPinned ∧ ¬(u ∧ x ∈ R) ∨ v ∧ x ∈ A) (r : RootId) :
    BitVec.ofNat 32 (pinnedLeaves s' r).ncard = BitVec.ofNat 32 (pinnedLeaves s r).ncard +
      if r = c.root then BitVec.ofNat 32 (if v then A.ncard else 0) -
        BitVec.ofNat 32 (if u then R.ncard else 0) else 0#32 := by
  by_cases here : r = c.root
  · subst here
    have exchange := ncard_exchange (T := pinnedLeaves s' c.root) (R := {x | u ∧ x ∈ R})
      (A := {x | v ∧ x ∈ A}) (shaped.pinned_finite c.root) (finiteA.subset fun _ => And.right)
      (fun x member => left x member.2 member.1)
      (Set.disjoint_left.mpr fun x old new => old.2 ((joined x new.2 new.1).2 old.1.2))
      fun x => by
        simp only [pinnedLeaves,Set.mem_ofPred_eq,change]
        have := joined x
        tauto
    rw [ncard_guard,ncard_guard] at exchange
    rw [if_pos rfl]
    bv_omega
  · have same : pinnedLeaves s' r = pinnedLeaves s r := by
      ext x
      simp only [pinnedLeaves,change]
      have := left x
      have := joined x
      refine and_congr_right ?_
      rintro rfl
      tauto
    rw [if_neg here,BitVec.add_zero,same]

theorem ofRoot_eq {r : RootId} : ChunkId.ofRoot r = rootChunk c ↔ r = c.root := by
  simp [rootChunk,ChunkId.ofRoot]

theorem busySubchunks_congr (size : (s'.chunk x).log2Size = (s.chunk x).log2Size)
    (first : (s'.chunk (x.child 0)).log2Size = (s.chunk (x.child 0)).log2Size)
    (free : ∀ i, (s'.chunk (x.child i)).state = .free ↔ (s.chunk (x.child i)).state = .free) :
    busySubchunks s' x = busySubchunks s x := by
  simp [busySubchunks,numSubchunks,size,first,free]

theorem Recolored.counted (r : Recolored s s' c q) (allowed : Recolors s c q)
    (shaped : Shaped cfg s) (counted : Counted s) : Counted s' := by
  constructor
  · intro x a found
    rw [r.suballoc x,Option.map_eq_some_iff] at found
    obtain ⟨old,before,rfl⟩ := found
    simp only [Suballoc.adjust,counted.allocated x old before]
    by_cases parent : c.parent = some x
    · obtain ⟨i,rfl⟩ := ChunkId.parent_eq.mp parent
      obtain ⟨_,bound⟩ := shaped.exists_child.mp (allowed.used (by simp [ChunkId.child])).1
      have change := ofNat_change (countP_range_change bound
        (g := fun j => (s'.chunk (x.child j)).state ≠ .free) fun j other => by
          rw [r.state_eq fun same => other (ChunkId.child_inj.mp same).2])
      simp only [r.state] at change
      simp only [busySubchunks,r.numSubchunks_eq,if_pos parent]
      exact change.symm
    · rw [if_neg parent,BitVec.add_zero,busySubchunks_congr (r.size_eq _) (r.size_eq _) fun j => by
        rw [r.state_eq fun here => parent (ChunkId.parent_eq.mpr ⟨j,here.symm⟩)]]
  · intro i a found
    rw [r.suballoc,Option.map_eq_some_iff] at found
    obtain ⟨old,before,rfl⟩ := found
    have exchange := shaped.pinned_exchange s' (c := c) (R := {c}) (A := {c})
      (u := (s.chunk c).state = .tempPinned) (v := q = .tempPinned) (Set.finite_singleton c)
      (by simp) (by simp) (fun x => by
        by_cases here : x = c
        · simp [here,r.state]
        · simp [here,r.state_eq here]) i
    simp [Suballoc.adjust,counted.pinned i old before,exchange,ofRoot_eq,pinned,
      Bool.toNat,Bool.cond_decide]

/-! The parts of the sections that touch the chunks. -/

@[simp] theorem modify_chunk (s : State) (c x : ChunkId) (f : Chunk → Chunk) :
    (s.modify c f).chunk x = if x = c then f (s.chunk c) else s.chunk x := by
  simp [State.modify,Function.update_apply]

@[simp] theorem modifySuballoc_chunk (s : State) (c x : ChunkId) (f : Suballoc → Suballoc) :
    (s.modifySuballoc c f).chunk x = (s.chunk x).count (if x = c then f else id) := by
  by_cases here : x = c
  · simp [State.modifySuballoc,here,Chunk.count]
  · simp [State.modifySuballoc,here]

theorem modifyParent_chunk (s : State) (c x : ChunkId) (f : Suballoc → Suballoc) :
    (s.modifyParent c f).chunk x = (s.chunk x).count (if c.parent = some x then f else id) := by
  unfold State.modifyParent
  cases c.parent with
  | none => simp
  | some parent => simp [eq_comm]

theorem Shaped.isRoot_iff (shaped : Shaped cfg s) (used : c.path ≠ [] → (s.chunk c).state ≠ .pmaOwned) :
    chunkIsRootChunk s c = true ↔ c.path = [] := by
  unfold chunkIsRootChunk
  constructor
  · intro size
    by_contra sub
    have used := used sub
    obtain ⟨i,path,shape⟩ := exists_cons_of_ne_nil sub
    -- A subchunk is smaller than its parent, and no chunk is larger than its root.
    have bounded (y : ChunkId) (usedY : (s.chunk y).state ≠ .pmaOwned) :
        (s.chunk y).log2Size ≤ chunkSizeMax := by
      refine shaped.under_induction (P := fun y => (s.chunk y).log2Size ≤ chunkSizeMax)
        (shaped.root y.root).1.le ?_ y.root_under usedY
      intro z j _ usedChild ih
      obtain ⟨k,found,_,fits⟩ := shaped.fits usedChild
      rw [fits.size]
      exact (chunkFindPrevSize_some.mp found).1.le.trans ih
    rw [ChunkId.eq_child shape] at used size
    obtain ⟨k,found,_,fits⟩ := shaped.fits used
    have smaller := (chunkFindPrevSize_some.mp found).1
    have parent := bounded _ (shaped.used_above (ChunkId.under_child _ i) used)
    rw [beq_iff_eq,fits.size] at size
    omega
  · intro root
    rw [ChunkId.eq_ofRoot root,beq_iff_eq]
    exact (shaped.root c.root).1

section

variable (root : chunkIsRootChunk s c = true ↔ c.path = [])
include root

/-- A new state for a chunk, counted in the root unless the chunk is the root. -/
theorem setState_chunk (f : Suballoc → Suballoc) (x : ChunkId) :
    (let s := s.modify c fun chunk => { chunk with state := q }
      if chunkIsRootChunk s c then s else s.modifySuballoc (rootChunk c) f).chunk x =
      if x = c then { s.chunk c with state := q }
      else (s.chunk x).count (if x = rootChunk c then f else id) := by
  have same : chunkIsRootChunk (s.modify c fun chunk => { chunk with state := q }) c =
      chunkIsRootChunk s c := by simp [chunkIsRootChunk]
  simp only [same]
  by_cases top : c.path = []
  · have here : rootChunk c = c := (ChunkId.eq_ofRoot top).symm
    simp only [root.mpr top,if_true,modify_chunk,here]
    split
    next => rfl
    next => rw [Chunk.count_id]
  · have other : rootChunk c ≠ c := fun here => top (by rw [← here]; rfl)
    have sub : chunkIsRootChunk s c = false := by
      simpa [top] using root
    by_cases here : x = c
    · simp [sub,here,Ne.symm other]
    · simp [sub,here]

theorem chunkPin_chunk (x : ChunkId) :
    (chunkPin s c).chunk x = if x = c then { s.chunk c with state := .tempPinned }
      else (s.chunk x).count (if x = rootChunk c then fun a =>
        { a with pinnedLeafChunks := a.pinnedLeafChunks + 1 } else id) := setState_chunk root _ x

theorem chunkUnpin_chunk (x : ChunkId) :
    (chunkUnpin s c q).chunk x = if x = c then { s.chunk c with state := q }
      else (s.chunk x).count (if x = rootChunk c then fun a =>
        { a with pinnedLeafChunks := a.pinnedLeafChunks - 1 } else id) := setState_chunk root _ x

end

/-- Fields of a chunk that a section may write without touching the trees. -/
structure Payload (f : Chunk → Chunk) : Prop where
  state : ∀ x, (f x).state = x.state
  size : ∀ x, (f x).log2Size = x.log2Size
  address : ∀ x, (f x).address = x.address
  type : ∀ x, (f x).type = x.type
  suballoc : ∀ x, (f x).suballoc = x.suballoc
  inEviction : ∀ x, (f x).inEviction = x.inEviction

theorem Payload.of {f : Chunk → Chunk} (shape : ∀ x, f x = { f x with
    state := x.state, log2Size := x.log2Size, address := x.address, type := x.type,
    suballoc := x.suballoc, inEviction := x.inEviction }) : Payload f := by
  constructor <;> exact fun x => by rw [shape]

theorem Recolored.after {f : Chunk → Chunk} (r : Recolored s s' c q) (payload : Payload f) :
    Recolored s (s'.modify c f) c q where
  others x other := by simpa [other] using r.others x other
  state := by simpa [payload.state] using r.state
  size := by simpa [payload.size] using r.size
  address := by simpa [payload.address] using r.address
  type sub := by simpa [payload.type] using r.type sub
  inEviction := by simpa [payload.inEviction] using r.inEviction
  suballoc x := by
    rw [← r.suballoc x,modify_chunk]
    split
    next here => rw [payload.suballoc,here]
    next => rfl

theorem Recolored.before {f : Chunk → Chunk} (r : Recolored (s.modify c f) s' c q)
    (payload : Payload f) : Recolored s s' c q where
  others x other := by simpa [other] using r.others x other
  state := r.state
  size := by simpa [payload.size] using r.size
  address := by simpa [payload.address] using r.address
  type sub := by simpa [payload.type] using r.type sub
  inEviction := by simpa [payload.inEviction] using r.inEviction
  suballoc x := by
    rw [r.suballoc x]
    by_cases here : x = c
    · simp [here,payload.suballoc,payload.state]
    · simp [here,payload.state]

/-- A leaf with a new state and adjusted counters above it. -/
theorem Recolored.of_chunk {f : Chunk → Chunk} {g : ChunkId → Suballoc → Suballoc}
    (leaf : (s.chunk c).suballoc = none) (payload : Payload f)
    (here : s'.chunk c = { f (s.chunk c) with state := q })
    (elsewhere : ∀ x, x ≠ c → s'.chunk x = (s.chunk x).count (g x))
    (counters : ∀ x a, g x a = Suballoc.adjust c x (s.chunk c).state q a) :
    Recolored s s' c q where
  others x other := by simp [elsewhere x other,Chunk.count,Chunk.bare]
  state := by rw [here]
  size := by rw [here]; exact payload.size _
  address := by rw [here]; exact payload.address _
  type _ := by rw [here]; exact payload.type _
  inEviction := by rw [here]; exact payload.inEviction _
  suballoc x := by
    by_cases same : x = c
    · subst same
      rw [here,leaf,Option.map_none]
      exact (payload.suballoc _).trans leaf
    · rw [elsewhere x same,← funext (counters x)]
      rfl

theorem ChunkId.parent_ne (c : ChunkId) : c.parent ≠ some c := by
  intro same
  obtain ⟨i,shape⟩ := ChunkId.parent_eq.mp same
  have := congrArg (fun c => c.path.length) shape
  simp [ChunkId.child] at this

theorem Payload.id : Payload id := .of fun _ => rfl

section

variable (root : chunkIsRootChunk s c = true ↔ c.path = [])
include root

section

variable (leaf : (s.chunk c).suballoc = none)
include leaf

/-- A busy chunk gets pinned. -/
theorem chunkPin_recolored (state : (s.chunk c).state = .allocated) : Recolored s (chunkPin s c) c .tempPinned := by
  refine .of_chunk leaf .id (by simp [chunkPin_chunk root])
    (fun x other => (chunkPin_chunk root x).trans (if_neg other)) fun x a => ?_
  simp only [state,Suballoc.adjust]
  split <;> simp [busy,pinned]

/-- A pinned chunk goes to another state that counts as busy. -/
theorem chunkUnpin_recolored (state : (s.chunk c).state = .tempPinned) (new : q = .allocated ∨ q = .pmaOwned) :
    Recolored s (chunkUnpin s c q) c q := by
  refine .of_chunk leaf .id (by simp [chunkUnpin_chunk root])
    (fun x other => (chunkUnpin_chunk root x).trans (if_neg other)) fun x a => ?_
  simp only [state,Suballoc.adjust]
  rcases new with rfl | rfl <;> split <;> simp [busy,pinned,BitVec.sub_eq_add_neg]

/-- A free chunk gets pinned, then counts as allocated. -/
theorem pinFree_recolored (state : (s.chunk c).state = .free) :
    Recolored s ((chunkPin s c).modifyParent c fun a => { a with allocated := a.allocated + 1 })
      c .tempPinned := by
  have elsewhere (x : ChunkId) (other : x ≠ c) :=
    (modifyParent_chunk _ c x fun a => { a with allocated := a.allocated + 1 }).trans
      (congrArg (Chunk.count · _) ((chunkPin_chunk root x).trans (if_neg other)))
  simp only [Chunk.count_count] at elsewhere
  refine .of_chunk leaf .id ?_ elsewhere fun x a => ?_
  · simp [modifyParent_chunk,chunkPin_chunk root,c.parent_ne]
  · simp only [Suballoc.adjust]
    split <;> split <;> simp_all [busy,pinned]

end

theorem modifyParent_root (f : Suballoc → Suballoc) :
    chunkIsRootChunk (s.modifyParent c f) c = true ↔ c.path = [] := by
  rw [← root]
  simp [chunkIsRootChunk,modifyParent_chunk,Chunk.count]

/-- A free chunk counts as allocated, then gets pinned. -/
theorem claim_recolored (leaf : (s.chunk c).suballoc = none) (state : (s.chunk c).state = .free) :
    Recolored s (chunkPin (s.modifyParent c fun a => { a with allocated := a.allocated + 1 }) c)
      c .tempPinned := by
  have root' := modifyParent_root root fun a => { a with allocated := a.allocated + 1 }
  have elsewhere (x : ChunkId) (other : x ≠ c) :=
    ((chunkPin_chunk root' x).trans (if_neg other)).trans
      (congrArg (Chunk.count · _) (modifyParent_chunk s c x _))
  simp only [Chunk.count_count] at elsewhere
  refine .of_chunk leaf .id ?_ elsewhere fun x a => ?_
  · rw [chunkPin_chunk root',if_pos rfl,modifyParent_chunk,if_neg c.parent_ne,Chunk.count_id]
    rfl
  · simp only [Suballoc.adjust]
    split <;> split <;> simp_all [busy,pinned]

/-- A pinned chunk gets free. -/
theorem unpinFree_recolored (leaf : (s.chunk c).suballoc = none)
    (state : (s.chunk c).state = .tempPinned) :
    Recolored s (chunkUnpin (s.modifyParent c fun a => { a with allocated := a.allocated - 1 }) c
      .free) c .free := by
  have root' := modifyParent_root root fun a => { a with allocated := a.allocated - 1 }
  have elsewhere (x : ChunkId) (other : x ≠ c) :=
    ((chunkUnpin_chunk (q := .free) root' x).trans (if_neg other)).trans
      (congrArg (Chunk.count · _) (modifyParent_chunk s c x _))
  simp only [Chunk.count_count] at elsewhere
  refine .of_chunk leaf .id ?_ elsewhere fun x a => ?_
  · rw [chunkUnpin_chunk root',if_pos rfl,modifyParent_chunk,if_neg c.parent_ne,Chunk.count_id]
    rfl
  · simp only [Suballoc.adjust]
    split <;> split <;> simp_all [busy,pinned,BitVec.sub_eq_add_neg]

end

/-- An allocated chunk gets free. -/
theorem allocatedFree_recolored (leaf : (s.chunk c).suballoc = none)
    (state : (s.chunk c).state = .allocated) :
    Recolored s ((s.modifyParent c fun a => { a with allocated := a.allocated - 1 }).modify c
      fun chunk => { chunk with state := .free, vaBlock := none }) c .free := by
  have elsewhere (x : ChunkId) (other : x ≠ c) :=
    ((modify_chunk (s.modifyParent c fun a => { a with allocated := a.allocated - 1 }) c x
      fun chunk => { chunk with state := .free, vaBlock := none }).trans (if_neg other)).trans
      (modifyParent_chunk s c x _)
  refine .of_chunk (f := fun chunk => { chunk with vaBlock := none }) leaf
    (.of fun _ => rfl) ?_ elsewhere
    fun x a => ?_
  · simp [modifyParent_chunk,c.parent_ne]
  · simp only [state,Suballoc.adjust]
    split <;> simp [busy,pinned,BitVec.sub_eq_add_neg]

end GpuExt.Pmm
