import GpuExt.PmmThreads
import GpuExt.PmmTree

/-! The walks over a tree visit every chunk in use below their start, once. -/
namespace GpuExt.Pmm

open List

variable {cfg : Config} {s : State} {c x : ChunkId} {depth : Nat}

theorem Shaped.child_size (shaped : Shaped cfg s) {i : Nat}
    (used : (s.chunk (c.child i)).state ≠ .pmaOwned) :
    (s.chunk (c.child i)).log2Size < (s.chunk c).log2Size := by
  obtain ⟨k,size,_,fits⟩ := shaped.fits used
  rw [fits.size]
  exact (chunkFindPrevSize_some.mp size).1

theorem mem_walkPreOrder (shaped : Shaped cfg s) (enough : (s.chunk c).log2Size ≤ depth)
    (below : c.Under x) (used : (s.chunk x).state ≠ .pmaOwned) : x ∈ walkPreOrder s depth c := by
  induction depth generalizing c with
  | zero =>
    rcases below.cases with rfl | ⟨i,below⟩
    · simp [walkPreOrder]
    · have := shaped.child_size (shaped.used_above below used)
      omega
  | succ depth ih =>
    unfold walkPreOrder
    rcases below.cases with rfl | ⟨i,below⟩
    · split <;> simp
    · have child := shaped.used_above below used
      obtain ⟨split,bound⟩ := shaped.exists_child.mp child
      have smaller := shaped.child_size child
      rw [if_pos split,mem_cons,mem_flatMap]
      exact .inr ⟨i,mem_range.mpr bound,ih (by omega) below⟩

theorem under_of_mem_walkPreOrder (member : x ∈ walkPreOrder s depth c) : c.Under x := by
  induction depth generalizing c with
  | zero =>
    rw [walkPreOrder,mem_singleton] at member
    exact member ▸ c.under_refl
  | succ depth ih =>
    unfold walkPreOrder at member
    split at member
    · rcases mem_cons.mp member with rfl | member
      · exact x.under_refl
      · obtain ⟨i,_,member⟩ := mem_flatMap.mp member
        exact (c.under_child i).trans (ih member)
    · rw [mem_singleton] at member
      exact member ▸ c.under_refl

theorem used_of_mem_walkPreOrder (shaped : Shaped cfg s) (used : (s.chunk c).state ≠ .pmaOwned)
    (member : x ∈ walkPreOrder s depth c) : (s.chunk x).state ≠ .pmaOwned := by
  induction depth generalizing c with
  | zero =>
    rw [walkPreOrder,mem_singleton] at member
    exact member ▸ used
  | succ depth ih =>
    unfold walkPreOrder at member
    split at member
    next split =>
      rcases mem_cons.mp member with rfl | member
      · exact used
      · obtain ⟨i,bound,member⟩ := mem_flatMap.mp member
        exact ih (shaped.exists_child.mpr ⟨split,mem_range.mp bound⟩) member
    next =>
      rw [mem_singleton] at member
      exact member ▸ used

theorem ChunkId.child_under_inj {i j : Nat} (left : (c.child i).Under x) (right : (c.child j).Under x) :
    i = j := by
  obtain ⟨_,front,shape⟩ := left
  obtain ⟨_,front',shape'⟩ := right
  have suffix : front ++ i :: c.path = front' ++ j :: c.path := shape.trans shape'.symm
  have length : front.length = front'.length := by
    have := congrArg length suffix
    simp at this
    omega
  have tails := (append_inj suffix length).2
  exact (cons.inj tails).1

theorem ChunkId.not_child_under {i : Nat} : ¬(c.child i).Under c := by
  rintro ⟨_,front,shape⟩
  have := congrArg length shape
  simp [ChunkId.child] at this
  omega

theorem nodup_walkPreOrder (s : State) (depth : Nat) (c : ChunkId) :
    (walkPreOrder s depth c).Nodup := by
  induction depth generalizing c with
  | zero => simp [walkPreOrder]
  | succ depth ih =>
    unfold walkPreOrder
    split
    · refine nodup_cons.mpr ⟨fun member => ?_,?_⟩
      · obtain ⟨i,_,member⟩ := mem_flatMap.mp member
        exact ChunkId.not_child_under (under_of_mem_walkPreOrder member)
      · refine nodup_flatMap.mpr ⟨fun i _ => ih _,?_⟩
        refine List.Pairwise.imp_of_mem ?_ nodup_range
        intro i j _ _ apart x left right
        exact apart (ChunkId.child_under_inj (under_of_mem_walkPreOrder left)
          (under_of_mem_walkPreOrder right))
    · simp

theorem mem_preOrder (shaped : Shaped cfg s) (below : c.Under x)
    (used : (s.chunk x).state ≠ .pmaOwned) : x ∈ preOrder s c :=
  mem_walkPreOrder shaped (Nat.le_refl _) below used

theorem under_of_mem_preOrder (member : x ∈ preOrder s c) : c.Under x :=
  under_of_mem_walkPreOrder member

theorem nodup_leaves (s : State) (c : ChunkId) : (leaves s c).Nodup :=
  (nodup_walkPreOrder s _ c).filter _

theorem mem_leaves (shaped : Shaped cfg s) (below : c.Under x) (leaf : Leaf s x) : x ∈ leaves s c :=
  mem_filter.mpr ⟨mem_preOrder shaped below leaf.1,by simp [leaf.2]⟩

theorem of_mem_leaves (member : x ∈ leaves s c) : c.Under x ∧ (s.chunk x).state ≠ .isSplit := by
  obtain ⟨member,leaf⟩ := mem_filter.mp member
  exact ⟨under_of_mem_preOrder member,by simpa using leaf⟩

theorem used_of_mem_leaves (shaped : Shaped cfg s) (used : (s.chunk c).state ≠ .pmaOwned)
    (member : x ∈ leaves s c) : (s.chunk x).state ≠ .pmaOwned :=
  used_of_mem_walkPreOrder shaped used (mem_filter.mp member).1

/-! The next chunk to merge. -/

theorem mem_walkPostOrder (s : State) (depth : Nat) (c : ChunkId) : c ∈ walkPostOrder s depth c := by
  cases depth with
  | zero => simp [walkPostOrder]
  | succ depth =>
    unfold walkPostOrder
    split <;> simp

/-- The first split chunk in post-order has only leaves as subchunks. -/
theorem find_walkPostOrder (shaped : Shaped cfg s) (enough : (s.chunk c).log2Size ≤ depth)
    (found : (walkPostOrder s depth c).find? (fun x => (s.chunk x).state = .isSplit) = some x) :
    c.Under x ∧ (s.chunk x).state = .isSplit ∧
      ∀ i < numSubchunks s x, (s.chunk (x.child i)).state ≠ .isSplit := by
  induction depth generalizing c with
  | zero =>
    have split : (s.chunk x).state = .isSplit := by simpa using find?_some found
    have here : x = c := by simpa [walkPostOrder] using mem_of_find?_eq_some found
    subst here
    obtain ⟨k,size,_⟩ := shaped.split x split
    have := (chunkFindPrevSize_some.mp size).1
    omega
  | succ depth ih =>
    unfold walkPostOrder at found
    split at found
    next split =>
      rw [find?_append] at found
      cases inner : ((range _).flatMap fun i =>
          walkPostOrder s depth _).find? (fun x => (s.chunk x).state = .isSplit) with
      | some y =>
        rw [inner] at found
        cases found
        -- Found below a subchunk: the first subchunk with a split chunk.
        rw [find?_flatMap,findSome?_eq_some_iff] at inner
        obtain ⟨_,i,_,shape,inner,_⟩ := inner
        have bound : i < numSubchunks s c := mem_range.mp (by rw [shape]; simp)
        have smaller := shaped.child_size (shaped.exists_child.mpr ⟨split,bound⟩)
        obtain ⟨below,rest⟩ := ih (by omega) inner
        exact ⟨(c.under_child i).trans below,rest⟩
      | none =>
        rw [inner] at found
        have here : x = c := by simpa using mem_of_find?_eq_some found
        subst here
        refine ⟨x.under_refl,split,fun i bound => ?_⟩
        have none := find?_eq_none.mp inner _
          (mem_flatMap.mpr ⟨i,mem_range.mpr bound,mem_walkPostOrder s depth _⟩)
        simpa using none
    next leaf =>
      have here : x = c := by simpa using mem_of_find?_eq_some found
      have split : (s.chunk x).state = .isSplit := by simpa using find?_some found
      exact absurd (here ▸ split) leaf

theorem nextMerge_some (shaped : Shaped cfg s) (found : nextMerge s c = some x) :
    c.Under x ∧ (s.chunk x).state = .isSplit ∧
      ∀ i < numSubchunks s x, (s.chunk (x.child i)).state ≠ .isSplit :=
  find_walkPostOrder shaped (Nat.le_refl _) found

theorem nextMerge_none (found : nextMerge s c = none) : (s.chunk c).state ≠ .isSplit := by
  have none := find?_eq_none.mp found c (mem_walkPostOrder s _ c)
  simpa using none

end GpuExt.Pmm
