import GpuExt.Pmm
import Mathlib.Data.Set.Card
import Mathlib.Algebra.Order.Ring.Nat
import Mathlib.Data.Nat.ModEq
import Mathlib.Order.CompletePartialOrder
import Mathlib.Tactic.Ring

/-! The shape of the chunk trees: every split chunk is divided into subchunks of the next
smaller supported size, and nothing exists below a chunk that is not split. The leaves
of a root then tile its 2 MiB. -/
namespace GpuExt.Pmm

open List

variable {k i a : Nat}

theorem chunkFindPrevSize_some {mask size : Nat} : chunkFindPrevSize mask size = some k ↔
      k < size ∧ mask.testBit k = true ∧ ∀ j, k < j → j < size → mask.testBit j = false := by
  induction size with
  | zero => simp [chunkFindPrevSize]
  | succ n ih =>
    have unfold : chunkFindPrevSize mask (n + 1) =
        if mask.testBit n then some n else chunkFindPrevSize mask n := by
      simp [chunkFindPrevSize,range_succ,find?_cons]
      cases mask.testBit n <;> rfl
    rw [unfold]
    cases bit : mask.testBit n with
    | true =>
      simp only [if_true,Option.some.injEq]
      constructor
      · rintro rfl
        exact ⟨by omega,bit,by omega⟩
      · rintro ⟨bound,_,least⟩
        by_contra different
        have := least n (by omega) (by omega)
        simp [bit] at this
    | false =>
      simp only [Bool.false_eq_true,if_false,ih]
      constructor
      · rintro ⟨bound,set,least⟩
        refine ⟨by omega,set,fun j above below => ?_⟩
        by_cases last : j = n
        · exact last ▸ bit
        · exact least j above (by omega)
      · rintro ⟨bound,set,least⟩
        have inner : k ≠ n := by
          rintro rfl
          simp [bit] at set
        exact ⟨by omega,set,fun j above below => least j above (by omega)⟩

/-- The fields of a subchunk that its parent determines. -/
structure Fits (parent : Chunk) (k i : Nat) (x : Chunk) : Prop where
  exist : x.state ≠ .pmaOwned
  size : x.log2Size = k
  address : x.address = parent.address + i * 2 ^ k
  type : x.type = parent.type

structure Shaped (cfg : Config) (s : State) : Prop where
  root : ∀ r, (s.chunk (.ofRoot r)).log2Size = chunkSizeMax ∧
    (s.chunk (.ofRoot r)).address = r * 2 ^ chunkSizeMax
  leaf : ∀ c i, (s.chunk c).state ≠ .isSplit → s.chunk (c.child i) = Chunk.zeroed
  split : ∀ c, (s.chunk c).state = .isSplit →
    ∃ k, chunkFindPrevSize (cfg.chunkSizes (s.chunk c).type) (s.chunk c).log2Size = some k ∧
      ∀ i, (i < 2 ^ ((s.chunk c).log2Size - k) → Fits (s.chunk c) k i (s.chunk (c.child i))) ∧
        (2 ^ ((s.chunk c).log2Size - k) ≤ i → s.chunk (c.child i) = Chunk.zeroed)
  suballoc : ∀ c, (s.chunk c).suballoc.isSome ↔ (s.chunk c).state = .isSplit
  finite : ∀ r, {c | c.root = r ∧ (s.chunk c).state ≠ .pmaOwned}.Finite

/-- A chunk keeps its place in the tree when it goes from `a` to `b`. -/
structure Placed (a b : Chunk) : Prop where
  exist : a.state ≠ .pmaOwned → b.state ≠ .pmaOwned
  size : b.log2Size = a.log2Size
  address : b.address = a.address
  type : b.type = a.type
  inEviction : b.inEviction = a.inEviction

variable {cfg : Config} {s : State} {c x y : ChunkId}

/-- A split chunk stays in shape when it and its subchunks are kept. -/
theorem Shaped.split_placed {s' : State} (shaped : Shaped cfg s) (split : (s.chunk c).state = .isSplit)
    (parent : Placed (s.chunk c) (s'.chunk c))
    (child : ∀ i, Placed (s.chunk (c.child i)) (s'.chunk (c.child i)))
    (unused : ∀ i, s.chunk (c.child i) = Chunk.zeroed → s'.chunk (c.child i) = Chunk.zeroed) :
    ∃ k, chunkFindPrevSize (cfg.chunkSizes (s'.chunk c).type) (s'.chunk c).log2Size = some k ∧
      ∀ i, (i < 2 ^ ((s'.chunk c).log2Size - k) → Fits (s'.chunk c) k i (s'.chunk (c.child i))) ∧
        (2 ^ ((s'.chunk c).log2Size - k) ≤ i → s'.chunk (c.child i) = Chunk.zeroed) := by
  obtain ⟨k,size,fits⟩ := shaped.split c split
  rw [parent.type,parent.size]
  refine ⟨k,size,fun i => ⟨fun bound => ?_,fun above => unused i ((fits i).2 above)⟩⟩
  have old := (fits i).1 bound
  exact ⟨(child i).exist old.exist,(child i).size.trans old.size,
    by rw [(child i).address,old.address,parent.address],
    by rw [(child i).type,old.type,parent.type]⟩

theorem ChunkId.eq_ofRoot (root : c.path = []) : c = .ofRoot c.root := by
  cases c
  simp_all [ChunkId.ofRoot]

theorem ChunkId.eq_child {path : List Nat} (shape : c.path = i :: path) :
    c = (⟨c.root,path⟩ : ChunkId).child i := by
  cases c
  simp_all [ChunkId.child]

theorem ChunkId.child_inj {j : Nat} : c.child i = x.child j ↔ c = x ∧ i = j := by
  cases c
  cases x
  simp [ChunkId.child]
  tauto

theorem ChunkId.child_ne (c : ChunkId) (i : Nat) : c.child i ≠ c :=
  fun same => cons_ne_self i c.path (congrArg ChunkId.path same)

theorem ChunkId.under_refl (c : ChunkId) : c.Under c := ⟨rfl,suffix_rfl⟩

theorem ChunkId.Under.trans (first : c.Under x) (second : x.Under y) : c.Under y :=
  ⟨second.1.trans first.1,first.2.trans second.2⟩

theorem ChunkId.under_child (c : ChunkId) (i : Nat) : c.Under (c.child i) :=
  ⟨rfl,suffix_cons i c.path⟩

theorem ChunkId.root_under (c : ChunkId) : (ChunkId.ofRoot c.root).Under c :=
  ⟨rfl,nil_suffix⟩

/-- A chunk below another one is reached through one of its subchunks. -/
theorem ChunkId.Under.cases (below : c.Under x) : x = c ∨ ∃ i, (c.child i).Under x := by
  obtain ⟨sameRoot,front,shape⟩ := below
  induction front using reverseRecOn with
  | nil => exact .inl (by cases c; cases x; simp_all)
  | append_singleton front i _ =>
    exact .inr ⟨i,sameRoot,front,by simpa [ChunkId.child] using shape⟩

section

variable (shaped : Shaped cfg s)
include shaped

/-- Below a chunk that is not split there is only unused memory. -/
theorem Shaped.below_leaf (leaf : (s.chunk c).state ≠ .isSplit) (below : c.Under x)
    (other : x ≠ c) : s.chunk x = Chunk.zeroed := by
  obtain ⟨sameRoot,front,shape⟩ := below
  induction front generalizing x with
  | nil => exact absurd (by cases c; cases x; simp_all) other
  | cons i front ih =>
    rw [cons_append] at shape
    rw [ChunkId.eq_child shape.symm]
    apply shaped.leaf
    by_cases parent : (⟨x.root,front ++ c.path⟩ : ChunkId) = c
    · rw [parent]
      exact leaf
    · rw [ih parent sameRoot rfl]
      decide

/-- A used chunk below another one means that the upper one is split. -/
theorem Shaped.split_above (below : c.Under x) (other : x ≠ c)
    (used : (s.chunk x).state ≠ .pmaOwned) : (s.chunk c).state = .isSplit := by
  by_contra leaf
  rw [shaped.below_leaf leaf below other] at used
  exact used rfl

theorem Shaped.numSubchunks (split : (s.chunk c).state = .isSplit)
    (size : chunkFindPrevSize (cfg.chunkSizes (s.chunk c).type) (s.chunk c).log2Size = some k) :
    numSubchunks s c = 2 ^ ((s.chunk c).log2Size - k) := by
  obtain ⟨j,found,fits⟩ := shaped.split c split
  have same := Option.some.inj (size.symm.trans found)
  subst same
  have first := ((fits 0).1 (Nat.two_pow_pos _)).size
  simp [Pmm.numSubchunks,first]

/-- A subchunk is in use exactly if its parent is split and it is among its subchunks. -/
theorem Shaped.exists_child : (s.chunk (c.child i)).state ≠ .pmaOwned ↔
      (s.chunk c).state = .isSplit ∧ i < Pmm.numSubchunks s c := by
  by_cases split : (s.chunk c).state = .isSplit
  · obtain ⟨k,size,fits⟩ := shaped.split c split
    rw [shaped.numSubchunks split size]
    constructor
    · intro used
      refine ⟨split,?_⟩
      by_contra above
      rw [(fits i).2 (by omega)] at used
      exact used rfl
    · rintro ⟨_,bound⟩
      exact ((fits i).1 bound).exist
  · simp [split,shaped.leaf c i split,Chunk.zeroed]

theorem Shaped.fits (used : (s.chunk (c.child i)).state ≠ .pmaOwned) :
    ∃ k, chunkFindPrevSize (cfg.chunkSizes (s.chunk c).type) (s.chunk c).log2Size = some k ∧
      i < 2 ^ ((s.chunk c).log2Size - k) ∧ Fits (s.chunk c) k i (s.chunk (c.child i)) := by
  obtain ⟨split,bound⟩ := shaped.exists_child.mp used
  obtain ⟨k,size,fits⟩ := shaped.split c split
  rw [shaped.numSubchunks split size] at bound
  exact ⟨k,size,bound,(fits i).1 bound⟩

end

/-! Geometry. -/

def Covers (chunk : Chunk) (a : Nat) : Prop :=
  chunk.address ≤ a ∧ a < chunk.address + 2 ^ chunk.log2Size

instance : Decidable (Covers chunk a) := inferInstanceAs (Decidable (_ ∧ _))

/-- Two positions in a tree are above one another or part at some chunk. -/
theorem suffix_or_part (p q : List Nat) :
    p <:+ q ∨ q <:+ p ∨ ∃ path i j, i ≠ j ∧ (i :: path) <:+ p ∧ (j :: path) <:+ q := by
  induction p using reverseRecOn generalizing q with
  | nil => exact .inl nil_suffix
  | append_singleton p a ih =>
    cases q using reverseRecOn with
    | nil => exact .inr (.inl nil_suffix)
    | append_singleton q b =>
      by_cases same : a = b
      · subst same
        have extend {l m : List Nat} (short : l <:+ m) : l ++ [a] <:+ m ++ [a] := by
          obtain ⟨front,rfl⟩ := short
          exact ⟨front,by simp⟩
        rcases ih q with above | above | ⟨path,i,j,apart,left,right⟩
        · exact .inl (extend above)
        · exact .inr (.inl (extend above))
        · exact .inr (.inr ⟨path ++ [a],i,j,apart,extend left,extend right⟩)
      · exact .inr (.inr ⟨[],a,b,same,⟨p,rfl⟩,⟨q,rfl⟩⟩)

theorem Fits.covers {parent chunk : Chunk} (fits : Fits parent k i chunk)
    (smaller : k ≤ parent.log2Size) (bound : i < 2 ^ (parent.log2Size - k))
    (inside : Covers chunk a) : Covers parent a := by
  obtain ⟨low,high⟩ := inside
  rw [fits.size] at high
  rw [fits.address] at low high
  have whole : 2 ^ parent.log2Size = 2 ^ (parent.log2Size - k) * 2 ^ k := by
    rw [← Nat.pow_add,Nat.sub_add_cancel smaller]
  have last : (i + 1) * 2 ^ k ≤ 2 ^ (parent.log2Size - k) * 2 ^ k := Nat.mul_le_mul_right _ bound
  have step : (i + 1) * 2 ^ k = i * 2 ^ k + 2 ^ k := by ring
  exact ⟨by omega,by omega⟩

section

variable (shaped : Shaped cfg s)
include shaped

theorem Shaped.covers_child (used : (s.chunk (c.child i)).state ≠ .pmaOwned)
    (inside : Covers (s.chunk (c.child i)) a) : Covers (s.chunk c) a := by
  obtain ⟨k,size,bound,fits⟩ := shaped.fits used
  exact fits.covers (chunkFindPrevSize_some.mp size).1.le bound inside

theorem Shaped.used_above (below : c.Under x)
    (used : (s.chunk x).state ≠ .pmaOwned) : (s.chunk c).state ≠ .pmaOwned := by
  by_cases same : x = c
  · exact same ▸ used
  · rw [shaped.split_above below same used]
    decide

/-- What holds of a chunk if it holds of its parent holds of everything below. -/
theorem Shaped.under_induction {P : ChunkId → Prop} (top : P c)
    (child : ∀ y i, c.Under y → (s.chunk (y.child i)).state ≠ .pmaOwned → P y → P (y.child i))
    (below : c.Under x) (used : (s.chunk x).state ≠ .pmaOwned) : P x := by
  obtain ⟨sameRoot,front,shape⟩ := below
  induction front generalizing x with
  | nil =>
    have same : x = c := by cases c; cases x; simp_all
    exact same ▸ top
  | cons i front ih =>
    rw [ChunkId.eq_child shape.symm] at used ⊢
    have above : c.Under ⟨x.root,front ++ c.path⟩ := ⟨sameRoot,front,rfl⟩
    apply child _ i above used
    exact ih (shaped.used_above (ChunkId.under_child _ i) used) sameRoot rfl

theorem Shaped.covers_under (below : c.Under x)
    (used : (s.chunk x).state ≠ .pmaOwned) (inside : Covers (s.chunk x) a) :
    Covers (s.chunk c) a := by
  refine shaped.under_induction (P := fun y => ∀ a, Covers (s.chunk y) a → Covers _ a)
    (fun _ h => h) ?_ below used a inside
  intro y i _ usedChild ih a inside
  exact ih a (shaped.covers_child usedChild inside)

end

section

variable (shaped : Shaped cfg s) (used : (s.chunk c).state ≠ .pmaOwned)
include shaped used

theorem Shaped.type_root : (s.chunk c).type = (s.chunk (rootChunk c)).type := by
  refine shaped.under_induction
    (P := fun y => (s.chunk y).type = (s.chunk _).type) rfl ?_ c.root_under used
  intro y i _ usedChild ih
  obtain ⟨_,_,_,fits⟩ := shaped.fits usedChild
  exact fits.type.trans ih

theorem Shaped.supported :
    (cfg.chunkSizes (s.chunk c).type).testBit (s.chunk c).log2Size = true := by
  refine shaped.under_induction
    (P := fun y => (cfg.chunkSizes (s.chunk y).type).testBit (s.chunk y).log2Size = true)
    ?_ ?_ c.root_under used
  · rw [(shaped.root c.root).1]
    exact cfg.largest _
  · intro y i _ usedChild _
    obtain ⟨k,size,_,fits⟩ := shaped.fits usedChild
    rw [fits.type,fits.size]
    exact (chunkFindPrevSize_some.mp size).2.1

theorem Shaped.aligned : 2 ^ (s.chunk c).log2Size ∣ (s.chunk c).address := by
  refine shaped.under_induction
    (P := fun y => 2 ^ (s.chunk y).log2Size ∣ (s.chunk y).address) ?_ ?_ c.root_under used
  · rw [(shaped.root c.root).1,(shaped.root c.root).2]
    exact ⟨c.root,Nat.mul_comm _ _⟩
  · intro y i _ usedChild ih
    obtain ⟨k,size,_,fits⟩ := shaped.fits usedChild
    have smaller : k ≤ (s.chunk y).log2Size := (chunkFindPrevSize_some.mp size).1.le
    rw [fits.size,fits.address]
    exact Nat.dvd_add ((Nat.pow_dvd_pow 2 smaller).trans ih) ⟨i,Nat.mul_comm _ _⟩

end

theorem Fits.apart {parent left right : Chunk} {j : Nat} (fitsLeft : Fits parent k i left)
    (fitsRight : Fits parent k j right) (apart : i ≠ j) (inside : Covers left a) :
    ¬Covers right a := by
  rintro ⟨low,high⟩
  obtain ⟨low',high'⟩ := inside
  rw [fitsLeft.size] at high'
  rw [fitsRight.size] at high
  rw [fitsLeft.address] at low' high'
  rw [fitsRight.address] at low high
  rcases Nat.lt_or_gt_of_ne apart with less | less
  · have := Nat.mul_le_mul_right (2 ^ k) (Nat.succ_le_of_lt less)
    rw [Nat.succ_mul] at this
    omega
  · have := Nat.mul_le_mul_right (2 ^ k) (Nat.succ_le_of_lt less)
    rw [Nat.succ_mul] at this
    omega

section

variable (shaped : Shaped cfg s)
include shaped

/-- Used chunks that are not above one another share no address. -/
theorem Shaped.disjoint (usedX : (s.chunk x).state ≠ .pmaOwned)
    (usedY : (s.chunk y).state ≠ .pmaOwned) (notBelow : ¬x.Under y) (notAbove : ¬y.Under x)
    (insideX : Covers (s.chunk x) a) : ¬Covers (s.chunk y) a := by
  intro insideY
  by_cases sameRoot : x.root = y.root
  · rcases suffix_or_part x.path y.path with above | above | ⟨path,i,j,apart,left,right⟩
    · exact notBelow ⟨sameRoot.symm,above⟩
    · exact notAbove ⟨sameRoot,above⟩
    · let c : ChunkId := ⟨x.root,path⟩
      have underX : (c.child i).Under x := ⟨rfl,left⟩
      have underY : (c.child j).Under y := ⟨sameRoot.symm,right⟩
      obtain ⟨k,size,_,fitsX⟩ := shaped.fits (shaped.used_above underX usedX)
      obtain ⟨k',size',_,fitsY⟩ := shaped.fits (shaped.used_above underY usedY)
      have same := Option.some.inj (size.symm.trans size')
      subst same
      exact fitsX.apart fitsY apart (shaped.covers_under underX usedX insideX)
        (shaped.covers_under underY usedY insideY)
  · have rootX := shaped.covers_under x.root_under usedX insideX
    have rootY := shaped.covers_under y.root_under usedY insideY
    unfold Covers at rootX rootY
    rw [(shaped.root _).1,(shaped.root _).2] at rootX rootY
    have lower := Nat.lt_or_gt_of_ne sameRoot
    simp only [chunkSizeMax] at rootX rootY
    omega

def Leaf (s : State) (c : ChunkId) : Prop :=
  (s.chunk c).state ≠ .pmaOwned ∧ (s.chunk c).state ≠ .isSplit

theorem Shaped.leaves_disjoint (leafX : Leaf s x) (leafY : Leaf s y)
    (apart : x ≠ y) (insideX : Covers (s.chunk x) a) : ¬Covers (s.chunk y) a := by
  apply shaped.disjoint leafX.1 leafY.1 _ _ insideX
  · exact fun below => leafX.2 (shaped.split_above below (Ne.symm apart) leafY.1)
  · exact fun below => leafY.2 (shaped.split_above below apart leafX.1)

/-- Every address of a chunk belongs to a leaf below it. -/
theorem Shaped.leaf_covers (used : (s.chunk c).state ≠ .pmaOwned)
    (inside : Covers (s.chunk c) a) : ∃ x, c.Under x ∧ Leaf s x ∧ Covers (s.chunk x) a := by
  -- On the size of the chunk: a split chunk has smaller subchunks.
  induction size : (s.chunk c).log2Size using Nat.strong_induction_on generalizing c with
  | _ n ih =>
    by_cases split : (s.chunk c).state = .isSplit
    · obtain ⟨k,found,fits⟩ := shaped.split c split
      obtain ⟨smaller,_⟩ := chunkFindPrevSize_some.mp found
      obtain ⟨low,high⟩ := inside
      have whole : 2 ^ (s.chunk c).log2Size = 2 ^ ((s.chunk c).log2Size - k) * 2 ^ k := by
        rw [← Nat.pow_add,Nat.sub_add_cancel smaller.le]
      let i := (a - (s.chunk c).address) / 2 ^ k
      have bound : i < 2 ^ ((s.chunk c).log2Size - k) := by
        apply Nat.div_lt_of_lt_mul
        rw [Nat.mul_comm]
        omega
      have child := (fits i).1 bound
      have covers : Covers (s.chunk (c.child i)) a := by
        unfold Covers
        rw [child.size,child.address]
        have quotient := Nat.div_add_mod (a - (s.chunk c).address) (2 ^ k)
        have product : i * 2 ^ k = 2 ^ k * ((a - (s.chunk c).address) / 2 ^ k) := Nat.mul_comm _ _
        omega
      obtain ⟨x,below,leaf,there⟩ := ih k (size ▸ smaller) child.exist covers child.size
      exact ⟨x,(c.under_child i).trans below,leaf,there⟩
    · exact ⟨c,c.under_refl,⟨used,split⟩,inside⟩

/-- A root and its leaves: every address in exactly one. -/
theorem Shaped.tiles {r : Nat}
    (used : (s.chunk (.ofRoot r)).state ≠ .pmaOwned) (inside : Covers (s.chunk (.ofRoot r)) a) :
    ∃! x, x.root = r ∧ Leaf s x ∧ Covers (s.chunk x) a := by
  obtain ⟨x,below,leaf,there⟩ := shaped.leaf_covers used inside
  refine ⟨x,⟨below.1,leaf,there⟩,?_⟩
  rintro y ⟨_,leafY,thereY⟩
  by_contra apart
  exact shaped.leaves_disjoint leafY leaf apart thereY there

end

end GpuExt.Pmm
