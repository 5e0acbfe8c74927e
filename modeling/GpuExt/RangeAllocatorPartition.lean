import GpuExt.RangeAllocator
import GpuExt.RangeTreeQueries
import Mathlib.Data.List.Count

/-! Free nodes and live allocations partition the allocator's range. Every block is
counted at every address; each call moves addresses between the two kinds. -/
namespace GpuExt.RangeAllocator

open RangeTree
open List hiding drop

/-- An aligned interval of the requested size inside a node. -/
def HasRoom (tree : RangeTree.State) (p : Ptr) (size alignment : NvU64) : Prop :=
  ∃ start, alignment.toNat ∣ start ∧ (tree.node p).start.toNat ≤ start ∧
    start + size.toNat ≤ (tree.node p).finish.toNat + 1

/-- The overflow tests make the 64-bit fit test exact. -/
theorem fits_iff (power : alignment.toNat.isPowerOfTwo) (positive : 0 < size) :
    fits tree size alignment p = true ↔ HasRoom tree p size alignment := by
  simp only [fits,Bool.and_eq_true,Bool.not_eq_true',Bool.or_eq_false_iff,decide_eq_false_iff_not]
  constructor
  · rintro ⟨⟨low,wrap⟩,high⟩
    refine ⟨(Word.alignUp (tree.node p).start alignment).toNat,Word.alignUp_dvd _ _ power,?_,?_⟩
    all_goals bv_omega
  · rintro ⟨start,divides,low,high⟩
    have least := Word.alignUp_least (tree.node p).start alignment power start divides low
    bv_omega

/-- No node ends below the lowest address. -/
theorem iterFirst_zero (valid : WellFormed tree) (last : NvU64) (zero : addr = 0) :
    iterFirst tree addr last =
      tree.head.head?.filter fun p => (tree.node p).start ≤ last := by
  obtain ⟨front,back,located,first⟩ := iterFirst_located valid addr
  have nothing : front = [] := eq_nil_iff_forall_not_mem.mpr fun p member => by
    have := located.before p member
    bv_omega
  rw [first last (by bv_omega),located.contents,nothing,nil_append]

/-- What the loop does from the head of `back` on. -/
theorem firstFit_spec (size alignment last : NvU64) (valid : WellFormed tree)
    (shape : tree.head = front ++ back) (enough : back.length ≤ fuel) :
    match firstFit tree size alignment last fuel
        (back.head?.filter fun p => (tree.node p).start ≤ last) with
    | some p => p ∈ tree.head ∧ fits tree size alignment p = true
    | none => ∀ p ∈ back, (tree.node p).start ≤ last → fits tree size alignment p = false := by
  induction back generalizing front fuel with
  | nil => cases fuel <;> simp [firstFit]
  | cons p back ih =>
    cases fuel with
    | zero => simp at enough
    | succ fuel =>
      by_cases within : (tree.node p).start ≤ last
      · by_cases room : fits tree size alignment p = true
        · simp [firstFit,Option.filter,within,room,shape]
        · have entered : (p :: back).head?.filter (fun q => (tree.node q).start ≤ last) = some p := by
            simp [within]
          have rest := @ih (front ++ [p]) fuel (by simp [shape]) (by simpa using enough)
          rw [entered,firstFit,if_neg room,iterNext_shape valid shape last]
          split at rest
          · exact rest
          · intro q member
            rcases mem_cons.mp member with rfl | later
            · intro _
              simpa using room
            · exact rest q later
      · -- Every later node starts even higher.
        have stop : firstFit tree size alignment last (fuel + 1)
            ((p :: back).head?.filter fun p => (tree.node p).start ≤ last) = none := by
          simp [firstFit,Option.filter,within]
        rw [stop]
        intro q member low
        exact absurd low (starts_above valid shape within q member)

/-- How many of the listed nodes contain an address. -/
def covers (tree : RangeTree.State) (nodes : List Ptr) (addr : NvU64) : Nat :=
  nodes.countP fun p => Contains tree p addr

def Apart (tree : RangeTree.State) (a b : Ptr) : Prop :=
  (tree.node a).finish.toNat + 1 < (tree.node b).start.toNat

@[simp] theorem covers_append :
    covers tree (front ++ back) addr = covers tree front addr + covers tree back addr := by
  simp [covers]

@[simp] theorem covers_cons :
    covers tree (p :: nodes) addr =
      (if Contains tree p addr then 1 else 0) + covers tree nodes addr := by
  simp [covers,countP_cons,Nat.add_comm]

theorem covers_congr (same : ∀ p ∈ nodes, tree'.node p = tree.node p) :
    covers tree' nodes addr = covers tree nodes addr := by
  apply countP_congr
  intro p member
  simp only [Contains,same p member]
  rfl

theorem covers_pos (member : p ∈ nodes) (inside : Contains tree p addr) :
    0 < covers tree nodes addr := by
  apply countP_pos_iff.mpr
  exact ⟨p,member,by simpa using inside⟩

/-- What a merge may change: only `p` grows, over nodes that it absorbs. -/
structure Absorbs (tree tree' : RangeTree.State) (p : Ptr) : Prop where
  valid : WellFormed tree'
  frame : ∀ q, q ≠ p → tree'.node q = tree.node q
  shrinks : ∀ q ∈ tree'.head, q ∈ tree.head
  covered : ∀ addr, covers tree' tree'.head addr = covers tree tree.head addr

theorem Absorbs.refl (valid : WellFormed tree) : Absorbs tree tree p :=
  ⟨valid,fun _ _ => rfl,fun _ member => member,fun _ => rfl⟩

theorem Absorbs.trans (first : Absorbs tree tree' p) (second : Absorbs tree' tree'' p) :
    Absorbs tree tree'' p :=
  ⟨second.valid,fun q other => (second.frame q other).trans (first.frame q other),
    fun q member => first.shrinks q (second.shrinks q member),
    fun addr => (second.covered addr).trans (first.covered addr)⟩

section Merge

variable (rb : RbTree)

/-- Two adjacent nodes become one that contains the same addresses. -/
theorem merged_absorbs (valid : WellFormed tree) (shape : tree.head = front ++ p :: q :: back)
    (pair : Pair p q keep drop)
    (adjacent : (tree.node p).finish.toNat + 1 = (tree.node q).start.toNat) :
    Absorbs tree ((remove rb tree drop).set keep
      ⟨(tree.node p).start,(tree.node q).finish⟩) keep := by
  have head := merged_head rb valid shape pair
  obtain ⟨keepFront,keepBack,_,_⟩ := merged_outside valid shape pair
  have frame : ∀ r, r ≠ keep → ((remove rb tree drop).set keep
      ⟨(tree.node p).start,(tree.node q).finish⟩).node r = tree.node r := fun r other => by
    rw [set_other other,remove_node]
  refine ⟨merged_wellFormed rb valid shape pair,frame,?_,fun addr => ?_⟩
  · intro r member
    exact mem_of_mem_erase member
  · have properP := valid.proper p (by simp [shape])
    have properQ := valid.proper q (by simp [shape])
    rw [set_head, head, shape, covers_append, covers_append, covers_cons, covers_cons,
      covers_cons, covers_congr fun r inFront => frame r fun same => keepFront (same ▸ inFront),
      covers_congr fun r inBack => frame r fun same => keepBack (same ▸ inBack)]
    simp only [Contains,set_same,BitVec.le_def] at *
    split_ifs <;> omega

theorem apart_of_gap (below : (tree.node a).finish < (tree.node b).start)
    (gap : (tree.node a).finish.toNat + 1 ≠ (tree.node b).start.toNat) : Apart tree a b := by
  simp only [Apart]
  bv_omega

/-- Merging backwards absorbs an adjacent predecessor, so that none is left. -/
theorem mergePrev_absorbs (valid : WellFormed tree) (shape : tree.head = front ++ p :: back)
    (separated : front.Pairwise (Apart tree)) :
    Absorbs tree (mergePrev rb tree p).2 p ∧
    ((mergePrev rb tree p).2.node p).finish = (tree.node p).finish ∧
    ∃ front', (mergePrev rb tree p).2.head = front' ++ p :: back ∧ front' <+: front ∧
      ∀ a ∈ front', Apart (mergePrev rb tree p).2 a p := by
  have previous := prev_shape valid shape
  rcases eq_nil_or_concat front with rfl | ⟨front',q,rfl⟩
  · have unchanged : mergePrev rb tree p = (none,tree) := by
      simp [mergePrev,previous]
    rw [unchanged]
    exact ⟨Absorbs.refl valid,rfl,[],shape, nil_prefix,by simp⟩
  rw [concat_eq_append] at *
  have pairShape : tree.head = front' ++ q :: p :: back := by simp [shape]
  have ordered := valid.ordered
  have proper := valid.proper q (by simp [shape])
  rw [pairShape,pairwise_append,pairwise_cons] at ordered
  rw [pairwise_append] at separated
  have below := ordered.2.1.1 p (by simp)
  by_cases adjacent : (tree.node q).finish.toNat + 1 = (tree.node p).start.toNat
  · have merged : mergePrev rb tree p = (some q,(remove rb tree q).set p
        ⟨(tree.node q).start,(tree.node p).finish⟩) := by
      have same : (tree.node q).finish = (tree.node p).start - 1 := by bv_omega
      simp [mergePrev,previous,same]
    rw [merged]
    have pair : Pair q p p q := Or.inr ⟨rfl,rfl⟩
    obtain ⟨keepFront,_,_,_⟩ := merged_outside valid pairShape pair
    refine ⟨merged_absorbs rb valid pairShape pair adjacent,by simp,front',
      merged_head rb valid pairShape pair,prefix_append _ _,?_⟩
    intro a inFront
    have other : a ≠ p := fun same => keepFront (same ▸ inFront)
    have gap := separated.2.2 a inFront q (by simp)
    simpa [Apart,set_other other] using gap
  · have unchanged : mergePrev rb tree p = (none,tree) := by
      have different : (tree.node q).finish ≠ (tree.node p).start - 1 := by bv_omega
      simpa [mergePrev,previous] using different
    rw [unchanged]
    refine ⟨Absorbs.refl valid,rfl,front' ++ [q],shape,prefix_rfl,?_⟩
    intro a inFront
    rcases mem_append.mp inFront with inFront | last
    · have := separated.2.2 a inFront q (by simp)
      simp only [Apart] at this ⊢
      bv_omega
    · obtain rfl := mem_singleton.mp last
      exact apart_of_gap below adjacent

/-- Merging forwards does the same on the other side. -/
theorem mergeNext_absorbs (valid : WellFormed tree) (shape : tree.head = front ++ p :: back)
    (separated : back.Pairwise (Apart tree)) :
    Absorbs tree (mergeNext rb tree p).2 p ∧
    ((mergeNext rb tree p).2.node p).start = (tree.node p).start ∧
    ∃ back', (mergeNext rb tree p).2.head = front ++ p :: back' ∧ back' <:+ back ∧
      ∀ b ∈ back', Apart (mergeNext rb tree p).2 p b := by
  have following := next_shape valid shape
  cases back with
  | nil =>
    have unchanged : mergeNext rb tree p = (none,tree) := by
      simp [mergeNext,following]
    rw [unchanged]
    exact ⟨Absorbs.refl valid,rfl,[],shape,nil_suffix,by simp⟩
  | cons q back' =>
    have ordered := valid.ordered
    have proper := valid.proper q (by simp [shape])
    rw [shape,pairwise_append,pairwise_cons] at ordered
    rw [pairwise_cons] at separated
    have below := ordered.2.1.1 q (by simp)
    by_cases adjacent : (tree.node p).finish.toNat + 1 = (tree.node q).start.toNat
    · have merged : mergeNext rb tree p = (some q,(remove rb tree q).set p
          ⟨(tree.node p).start,(tree.node q).finish⟩) := by
        have same : (tree.node q).start = (tree.node p).finish + 1 := by bv_omega
        simp [mergeNext,following,same]
      rw [merged]
      have pair : Pair p q p q := Or.inl ⟨rfl,rfl⟩
      obtain ⟨_,keepBack,_,_⟩ := merged_outside valid shape pair
      refine ⟨merged_absorbs rb valid shape pair adjacent,by simp,back',
        merged_head rb valid shape pair,suffix_cons _ _,?_⟩
      intro b inBack
      have other : b ≠ p := fun same => keepBack (same ▸ inBack)
      have gap := separated.1 b inBack
      simpa [Apart,set_other other] using gap
    · have unchanged : mergeNext rb tree p = (none,tree) := by
        have different : (tree.node q).start ≠ (tree.node p).finish + 1 := by bv_omega
        simpa [mergeNext,following] using different
      rw [unchanged]
      refine ⟨Absorbs.refl valid,rfl,q :: back',shape,suffix_rfl,?_⟩
      intro b inBack
      rcases mem_cons.mp inBack with rfl | later
      · exact apart_of_gap below adjacent
      · have := separated.1 b later
        simp only [Apart] at this ⊢
        bv_omega

end Merge

/-- A live allocation lies aligned and whole inside its node. -/
structure Granted (tree : RangeTree.State) (g : Grant) : Prop where
  positive : 0 < g.size
  aligned : (effectiveAlignment g.alignment).toNat ∣ g.allocation.alignedStart.toNat
  low : (tree.node g.allocation.node).start.toNat ≤ g.allocation.alignedStart.toNat
  high : g.allocation.alignedStart.toNat + g.size.toNat ≤
    (tree.node g.allocation.node).finish.toNat + 1

abbrev System.tree (s : System) : RangeTree.State := s.allocator.rangeTree

structure Partition (s : System) : Prop where
  tree : WellFormed s.tree
  separated : s.tree.head.Pairwise (Apart s.tree)
  distinct : s.blocks.Nodup
  covered : ∀ addr, covers s.tree s.blocks addr =
    if addr < s.allocator.size then 1 else 0
  granted : ∀ g ∈ s.live, Granted s.tree g

theorem Granted.congr (granted : Granted tree g)
    (same : tree'.node g.allocation.node = tree.node g.allocation.node) : Granted tree' g :=
  ⟨granted.positive,granted.aligned,by rw [same]; exact granted.low,
    by rw [same]; exact granted.high⟩

theorem pairwise_apart_congr {nodes : List Ptr} (separated : nodes.Pairwise (Apart tree))
    (same : ∀ p ∈ nodes, tree'.node p = tree.node p) : nodes.Pairwise (Apart tree') := by
  apply separated.imp_of_mem
  intro a b inA inB gap
  simpa only [Apart,same a inA,same b inB] using gap

theorem effectiveAlignment_power (allowed : alignment = 0 ∨ alignment.toNat.isPowerOfTwo) :
    (effectiveAlignment alignment).toNat.isPowerOfTwo := by
  simp only [effectiveAlignment]
  split
  · exact ⟨0,rfl⟩
  · exact allowed.resolve_left (by assumption)

/-- Free nodes end inside the range, so the bound on the search loop loses nothing. -/
theorem Partition.bounded (valid : Partition s) (member : p ∈ s.blocks)
    (inside : Contains s.tree p addr) : addr < s.allocator.size := by
  have counted := valid.covered addr
  have := covers_pos member inside
  by_contra above
  rw [if_neg above] at counted
  omega

/-- The lower part of free node `p` has moved to node `q` outside the tree. -/
structure Claims (tree tree' : RangeTree.State) (p q : Ptr) (alignedEnd : NvU64) : Prop where
  valid : WellFormed tree'
  separated : tree'.head.Pairwise (Apart tree')
  smaller : tree'.head.Sublist tree.head
  frame : ∀ r, r ≠ p → r ≠ q → tree'.node r = tree.node r
  moved : tree'.node q = ⟨(tree.node p).start,alignedEnd⟩
  covered : ∀ addr, covers tree' (q :: tree'.head) addr = covers tree tree.head addr

section Claim

variable (rb : RbTree)

section

variable (valid : WellFormed tree) (separated : tree.head.Pairwise (Apart tree))
include valid separated

theorem claim_part (shape : tree.head = front ++ p :: back) (fresh : q ∉ tree.head)
    (low : (tree.node p).start ≤ alignedEnd) (shorter : alignedEnd < (tree.node p).finish) :
    Claims tree (claim rb tree p q alignedEnd) p q alignedEnd := by
  have linked : ∀ r ∈ tree.head, r ≠ q := fun r inside same => fresh (same ▸ inside)
  obtain ⟨pFront,pBack⟩ := valid.outside shape
  have result : claim rb tree p q alignedEnd = (tree.set q ⟨(tree.node p).start,alignedEnd⟩).set p
      ⟨alignedEnd + 1,(tree.node p).finish⟩ := by
    simp [claim,shorter,shrinkNode]
  generalize claim rb tree p q alignedEnd = tree' at result ⊢
  have frame : ∀ r, r ≠ p → r ≠ q → tree'.node r = tree.node r :=
    fun r notP notQ => by rw [result,set_other notP,set_other notQ]
  have cut : tree'.node p = ⟨alignedEnd + 1,(tree.node p).finish⟩ := by
    rw [result,set_same]
  have moved : tree'.node q = ⟨(tree.node p).start,alignedEnd⟩ := by
    rw [result,set_other (Ne.symm (linked p (by simp [shape]))),set_same]
  have head : tree'.head = tree.head := by rw [result]; rfl
  refine ⟨?_,?_,?_,frame,moved,fun addr => ?_⟩
  · refine valid.narrow head (by rw [result]; rfl) fun r inside => ?_
    have := valid.proper r inside
    by_cases same : r = p
    · subst same
      rw [cut]
      bv_omega
    · rw [frame r same (linked r inside)]
      bv_omega
  · rw [head]
    apply separated.imp_of_mem
    intro a b inA inB gap
    have aFinish : (tree'.node a).finish = (tree.node a).finish := by
      by_cases same : a = p
      · subst same; rw [cut]
      · rw [frame a same (linked a inA)]
    have bStart : (tree.node b).start ≤ (tree'.node b).start := by
      by_cases same : b = p
      · subst same; rw [cut]; dsimp only; bv_omega
      · rw [frame b same (linked b inB)]; exact BitVec.le_refl _
    simp only [Apart] at gap ⊢
    bv_omega
  · rw [head]
  · have restFront : covers tree' front addr = covers tree front addr :=
      covers_congr fun r inFront => frame r (fun same => pFront (same ▸ inFront))
        (linked r (by simp [shape,inFront]))
    have restBack : covers tree' back addr = covers tree back addr :=
      covers_congr fun r inBack => frame r (fun same => pBack (same ▸ inBack))
        (linked r (by simp [shape,inBack]))
    rw [head,shape,covers_cons,covers_append,covers_append,covers_cons,covers_cons]
    have next : (alignedEnd + 1).toNat = alignedEnd.toNat + 1 := by bv_omega
    simp only [Contains,cut,moved,BitVec.le_def,BitVec.lt_def] at low shorter ⊢
    split_ifs <;> omega

theorem claim_whole (shape : tree.head = front ++ p :: back) (fresh : q ∉ tree.head)
    (whole : alignedEnd = (tree.node p).finish) :
    Claims tree (claim rb tree p q alignedEnd) p q alignedEnd := by
  have linked : ∀ r ∈ tree.head, r ≠ q := fun r inside same => fresh (same ▸ inside)
  obtain ⟨pFront,pBack⟩ := valid.outside shape
  have result : claim rb tree p q alignedEnd =
      remove rb (tree.set q ⟨(tree.node p).start,alignedEnd⟩) p := by
    simp [claim,whole]
  generalize claim rb tree p q alignedEnd = tree' at result ⊢
  have frame : ∀ r, r ≠ q → tree'.node r = tree.node r :=
    fun r notQ => by rw [result,remove_node,set_other notQ]
  have moved : tree'.node q = ⟨(tree.node p).start,alignedEnd⟩ := by
    rw [result,remove_node,set_same]
  have head : tree'.head = front ++ back := by
    rw [result,remove_head,set_head,shape,LinkedList.erase_append pFront]
  have smaller : (front ++ back).Sublist tree.head := by
    rw [shape]
    exact List.Sublist.append_left (sublist_cons_self _ _) _
  have kept : WellFormed (tree.set q ⟨(tree.node p).start,alignedEnd⟩) := by
    refine valid.narrow rfl rfl fun r inside => ?_
    have := valid.proper r inside
    rw [set_other (linked r inside)]
    bv_omega
  refine ⟨?_,?_,?_,fun r _ => frame r,moved,fun addr => ?_⟩
  · rw [result]
    exact remove_wellFormed rb kept
  · rw [head]
    exact pairwise_apart_congr (separated.sublist smaller)
      fun r inside => frame r (linked r (smaller.subset inside))
  · rw [head]
    exact smaller
  · have rest : covers tree' (front ++ back) addr = covers tree (front ++ back) addr :=
      covers_congr fun r inside => frame r (linked r (smaller.subset inside))
    have same : Contains tree' q addr ↔ Contains tree p addr := by simp [Contains,moved,whole]
    rw [head,covers_cons,rest,shape]
    simp only [covers_append,covers_cons,same]
    omega

theorem claim_claims (member : p ∈ tree.head) (fresh : q ∉ tree.head)
    (low : (tree.node p).start ≤ alignedEnd) (high : alignedEnd ≤ (tree.node p).finish) :
    Claims tree (claim rb tree p q alignedEnd) p q alignedEnd := by
  obtain ⟨front,back,shape,_⟩ := valid.position member
  by_cases shorter : alignedEnd < (tree.node p).finish
  · exact claim_part rb valid separated shape fresh low shorter
  · exact claim_whole rb valid separated shape fresh (by bv_omega)

end

/-- The three results of a call to `alloc`, each with what it found. -/
theorem alloc_cases (valid : Partition s)
    (allowed : Call.Allowed s (.alloc size alignment kvmalloc)) :
    (alloc rb s.allocator size alignment kvmalloc = (.error .noMemory,s.allocator) ∧
      kvmalloc = none) ∨
    (alloc rb s.allocator size alignment kvmalloc = (.error .addressInUse,s.allocator) ∧
      ∀ p ∈ s.tree.head,¬HasRoom s.tree p size (effectiveAlignment alignment)) ∨
    ∃ p q alignedStart, p ∈ s.tree.head ∧ kvmalloc = some q ∧
      (effectiveAlignment alignment).toNat ∣ alignedStart.toNat ∧
      (s.tree.node p).start ≤ alignedStart ∧
      alignedStart.toNat + size.toNat ≤ (s.tree.node p).finish.toNat + 1 ∧
      alloc rb s.allocator size alignment kvmalloc = (.ok ⟨alignedStart,q⟩,{ s.allocator with
          rangeTree := claim rb s.tree p q (alignedStart + size - 1) }) := by
  obtain ⟨positive,power,_⟩ := allowed
  have power := effectiveAlignment_power power
  -- A fit ends inside the range, so it starts at most `size` below its end.
  have bounded : ∀ p ∈ s.tree.head,HasRoom s.tree p size (effectiveAlignment alignment) →
      (s.tree.node p).start.toNat + size.toNat ≤ s.allocator.size.toNat := by
    rintro p member ⟨start,_,low,high⟩
    have proper := valid.tree.proper p member
    have contained : Contains s.tree p (s.tree.node p).finish := ⟨proper,BitVec.le_refl _⟩
    have := valid.bounded (by simp [System.blocks,member]) contained
    bv_omega
  simp only [alloc]
  by_cases large : size > s.allocator.size
  · right; left
    refine ⟨by rw [if_pos large],fun p member room => ?_⟩
    have := bounded p member room
    bv_omega
  rw [if_neg large]
  cases kvmalloc with
  | none => exact Or.inl ⟨rfl,rfl⟩
  | some q =>
    right
    have search := firstFit_spec size (effectiveAlignment alignment) (s.allocator.size - size)
      valid.tree (nil_append _).symm (Nat.le_refl _)
    rw [← iterFirst_zero valid.tree _ rfl] at search
    split at search
    next p found =>
      right
      obtain ⟨member,room⟩ := search
      simp only [fits,Bool.and_eq_true,Bool.not_eq_true',Bool.or_eq_false_iff,
        decide_eq_false_iff_not] at room
      refine ⟨p,q,Word.alignUp (s.tree.node p).start _,
        member,rfl,Word.alignUp_dvd _ _ power,?_,?_,by rw [found]⟩
      all_goals bv_omega
    next found =>
      left
      refine ⟨by rw [found],fun p member room => ?_⟩
      have low := bounded p member room
      have refused := search p member (by bv_omega)
      rw [(fits_iff power positive).mpr room] at refused
      contradiction

theorem alloc_partition (valid : Partition s)
    (allowed : Call.Allowed s (.alloc size alignment kvmalloc)) :
    Partition (Call.apply rb s (.alloc size alignment kvmalloc)) := by
  rcases alloc_cases rb valid allowed with ⟨failed,_⟩ | ⟨failed,_⟩ |
    ⟨p,q,alignedStart,member,block,divides,low,high,result⟩
  · simpa only [Call.apply,failed] using valid
  · simpa only [Call.apply,failed] using valid
  obtain ⟨positive,_,unused⟩ := allowed
  have unused := unused q block
  simp only [Call.apply,result]
  simp only [System.blocks,mem_append,not_or] at unused
  have distinct := valid.distinct
  obtain ⟨_,liveDistinct,disjoint⟩ := nodup_append.mp distinct
  have claims : Claims s.tree
      (claim rb s.tree p q (alignedStart + size - 1)) p q (alignedStart + size - 1) :=
    claim_claims rb valid.tree valid.separated member unused.1 (by bv_omega) (by bv_omega)
  generalize claim rb s.tree p q (alignedStart + size - 1) = tree' at claims ⊢
  have liveFrame : ∀ r ∈ s.live.map (·.allocation.node),
      tree'.node r = s.tree.node r := fun r live =>
    claims.frame r (fun same => disjoint p member r live same.symm) (fun same => unused.2 (same ▸ live))
  refine ⟨claims.valid,claims.separated,?_,fun addr => ?_,?_⟩
  · simp only [System.blocks]
    refine nodup_append.mpr ⟨claims.valid.nodup,nodup_cons.mpr ⟨unused.2,liveDistinct⟩,?_⟩
    intro a inHead b inLive
    have inHead := claims.smaller.subset inHead
    rcases mem_cons.mp inLive with rfl | inLive
    · exact fun same => unused.1 (same ▸ inHead)
    · exact disjoint a inHead b inLive
  · have counted := valid.covered addr
    have moved := claims.covered addr
    simp only [System.blocks,System.tree,map_cons,covers_append,covers_cons,
      covers_congr liveFrame] at counted moved ⊢
    omega
  · intro g inLive
    rcases mem_cons.mp inLive with rfl | inLive
    · refine ⟨positive,divides,?_,?_⟩
      all_goals
        simp only [System.tree,claims.moved] at *
        bv_omega
    · exact (valid.granted g inLive).congr
        (liveFrame _ (mem_map_of_mem (f := (·.allocation.node)) inLive))

end Claim

section Free

variable (rb : RbTree)

/-- Adding a node back and merging on both sides restores separation. -/
theorem release_tree (valid : WellFormed tree) (separated : tree.head.Pairwise (Apart tree))
    (proper : (tree.node p).start ≤ (tree.node p).finish) (unlinked : p ∉ tree.head)
    (clear : ∀ q ∈ tree.head, ¬Overlaps tree p q) :
    let tree' := (mergeNext rb
      (mergePrev rb (add rb tree p).2 p).2 p).2
    WellFormed tree' ∧ tree'.head.Pairwise (Apart tree') ∧
    (∀ q ∈ tree'.head, q = p ∨ q ∈ tree.head) ∧
    (∀ q, q ≠ p → tree'.node q = tree.node q) ∧
    ∀ addr, covers tree' tree'.head addr = covers tree (p :: tree.head) addr := by
  have added := add_wellFormed rb valid proper
  rcases add_cases rb valid proper with ⟨⟨q,member,overlap⟩,_⟩ | ⟨front,back,fits,_,node,head,_⟩
  · exact absurd overlap (clear q member)
  generalize (add rb tree p).2 = tree₁ at added node head ⊢
  rw [fits.contents] at separated unlinked
  obtain ⟨frontApart,backApart,cross⟩ := pairwise_append.mp separated
  simp only [mem_append,not_or] at unlinked
  obtain ⟨backwards,finish,front',head₂,initial,lower⟩ := mergePrev_absorbs rb added head
    (pairwise_apart_congr frontApart fun _ _ => by rw [node])
  generalize (mergePrev rb tree₁ p).2 = tree₂ at backwards finish head₂ lower ⊢
  obtain ⟨forwards,start,back',head₃,final,upper⟩ := mergeNext_absorbs rb backwards.valid head₂
    (pairwise_apart_congr backApart fun q inBack => by
      rw [backwards.frame q fun same => unlinked.2 (same ▸ inBack), node])
  generalize (mergeNext rb tree₂ p).2 = tree₃ at forwards start head₃ upper ⊢
  have absorbed := backwards.trans forwards
  have frame : ∀ q, q ≠ p → tree₃.node q = tree.node q := fun q other => by
    rw [absorbed.frame q other,node]
  have inFront : ∀ a ∈ front', a ∈ front := initial.subset
  have inBack : ∀ b ∈ back', b ∈ back := final.subset
  have frontFrame : ∀ a ∈ front', tree₃.node a = tree.node a := fun a member =>
    frame a fun same => unlinked.1 (same ▸ inFront a member)
  have backFrame : ∀ b ∈ back', tree₃.node b = tree.node b := fun b member =>
    frame b fun same => unlinked.2 (same ▸ inBack b member)
  refine ⟨absorbed.valid,?_,?_,frame,fun addr => ?_⟩
  · rw [head₃,pairwise_append,pairwise_cons]
    refine ⟨pairwise_apart_congr (frontApart.sublist initial.sublist) frontFrame,
      ⟨upper,pairwise_apart_congr (backApart.sublist final.sublist) backFrame⟩,?_⟩
    intro a memberA b memberB
    have other : a ≠ p := fun same => unlinked.1 (same ▸ inFront a memberA)
    rcases mem_cons.mp memberB with rfl | memberB
    · have gap := lower a memberA
      simpa only [Apart,start,forwards.frame a other] using gap
    · have gap := cross a (inFront a memberA) b (inBack b memberB)
      simpa only [Apart,frontFrame a memberA,backFrame b memberB] using gap
  · intro q member
    rw [fits.contents]
    grind
  · have same : covers tree₁ tree₁.head addr = covers tree tree₁.head addr :=
      covers_congr fun _ _ => by rw [node]
    rw [absorbed.covered addr,same,head,fits.contents]
    simp only [covers_append,covers_cons]
    omega

theorem free_partition (valid : Partition s) (allowed : Call.Allowed s (.free grant)) :
    Partition (Call.apply rb s (.free grant)) := by
  cases grant with
  | none => exact valid
  | some g =>
    have inLive : g ∈ s.live := allowed g rfl
    have granted := valid.granted g inLive
    have ordered : (s.live.map (·.allocation.node)).Perm
        (g.allocation.node :: (s.live.erase g).map (·.allocation.node)) :=
      (perm_cons_erase inLive).map _
    have distinct := valid.distinct
    obtain ⟨_,liveDistinct,disjoint⟩ := nodup_append.mp distinct
    have nodeLive := mem_map_of_mem (f := (·.allocation.node)) inLive
    have unlinked : g.allocation.node ∉ s.tree.head := fun linked =>
      disjoint _ linked _ nodeLive rfl
    have proper : (s.tree.node g.allocation.node).start ≤
        (s.tree.node g.allocation.node).finish := by
      have := granted.low
      have := granted.high
      have := granted.positive
      bv_omega
    have clear : ∀ q ∈ s.tree.head,¬Overlaps s.tree g.allocation.node q := by
      intro q linked overlap
      obtain ⟨addr,inNode,inQ⟩ := (overlaps_iff proper (valid.tree.proper q linked)).mp overlap
      have counted := valid.covered addr
      have := covers_pos linked inQ
      have := covers_pos nodeLive inNode
      simp only [System.blocks,System.tree,covers_append] at *
      split at counted <;> omega
    obtain ⟨tree,separated,members,frame,covered⟩ :=
      release_tree rb valid.tree valid.separated proper unlinked clear
    have restDistinct := ordered.nodup_iff.mp liveDistinct
    obtain ⟨absent,restDistinct⟩ := nodup_cons.mp restDistinct
    have restFrame : ∀ r ∈ (s.live.erase g).map (·.allocation.node), r ≠ g.allocation.node :=
      fun r member same => absent (same ▸ member)
    simp only [Call.apply,free]
    refine ⟨tree,separated,?_,fun addr => ?_,?_⟩
    · refine nodup_append.mpr ⟨tree.nodup,restDistinct,?_⟩
      intro a inHead b inRest same
      subst same
      rcases members a inHead with rfl | linked
      · exact absent inRest
      · exact disjoint a linked a (ordered.mem_iff.mpr (mem_cons_of_mem _ inRest)) rfl
    · have counted := valid.covered addr
      have released := covered addr
      have permuted := ordered.countP_eq (fun p => Contains s.allocator.rangeTree p addr)
      have rest : covers _ _ addr = covers _ _ addr :=
        covers_congr fun r member => frame r (restFrame r member)
      simp only [System.blocks,System.tree,covers_append,covers_cons,rest] at counted released ⊢
      change covers _ _ _ = covers _ _ _ at permuted
      rw [covers_cons] at permuted
      omega
    · intro h member
      exact (valid.granted h (mem_of_mem_erase member)).congr
        (frame _ (restFrame _ (mem_map_of_mem (f := (·.allocation.node)) member)))

end Free

section Run

variable (rb : RbTree)

theorem init_partition (positive : 0 < size)
    (started : init rb memory size kvmalloc = .ok allocator) :
    Partition ⟨allocator,[]⟩ ∧ allocator.size = size := by
  cases kvmalloc with
  | none => simp [init] at started
  | some p =>
    simp only [init,Except.ok.injEq] at started
    subst started
    have valid : WellFormed ((RangeTree.init memory).set p ⟨0,size - 1⟩) := by
      constructor <;> simp [RangeTree.init,SearchTree.inorder]
    have proper : (((RangeTree.init memory).set p ⟨0,size - 1⟩).node p).start ≤
        (((RangeTree.init memory).set p ⟨0,size - 1⟩).node p).finish := by
      rw [set_same]
      bv_omega
    have added := add_wellFormed rb valid proper
    rcases add_cases rb valid proper with ⟨⟨q,member,_⟩,_⟩ | ⟨front,back,fits,_,node,head,_⟩
    · simp [RangeTree.init] at member
    obtain ⟨rfl,rfl⟩ := append_eq_nil_iff.mp fits.contents.symm
    refine ⟨⟨added,?_,?_,fun addr => ?_,by simp⟩,rfl⟩
    · rw [head]; simp
    · simpa [System.blocks] using added.nodup
    · simp only [System.blocks,System.tree,head,nil_append,map_nil,append_nil,covers_cons]
      simp only [covers,countP_nil,Contains,node,set_same]
      have low : (0 : NvU64) ≤ addr := by bv_omega
      have high : addr ≤ size - 1 ↔ addr < size := by bv_omega
      simp only [low,high,true_and,Nat.add_zero]

theorem apply_partition (valid : Partition s) (allowed : Call.Allowed s call) :
    Partition (call.apply rb s) := by
  cases call with
  | alloc size alignment kvmalloc => exact alloc_partition rb valid allowed
  | free grant => exact free_partition rb valid allowed

theorem alloc_size (s : State) (size alignment : NvU64) (kvmalloc : Option Ptr) :
    (alloc rb s size alignment kvmalloc).2.size = s.size := by
  simp only [alloc]
  split
  · rfl
  · split
    · rfl
    · split <;> rfl

theorem apply_size (call : Call) : (call.apply rb s).allocator.size = s.allocator.size := by
  cases call with
  | alloc size alignment kvmalloc =>
    have fixed := alloc_size rb s.allocator size alignment kvmalloc
    simp only [Call.apply]
    split
    all_goals
      rename_i result
      rw [result] at fixed
      exact fixed
  | free grant => cases grant <;> rfl

theorem execute_partition (calls : List Call) (valid : Partition s)
    (run : execute rb calls s = some final) :
    Partition final ∧ final.allocator.size = s.allocator.size := by
  induction calls generalizing s with
  | nil =>
    obtain rfl : s = final := by simpa [execute] using run
    exact ⟨valid,rfl⟩
  | cons call calls ih =>
    simp only [execute] at run
    split at run
    next allowed =>
      obtain ⟨result,size⟩ := ih (apply_partition rb valid allowed) run
      exact ⟨result,size.trans (apply_size rb call)⟩
    · contradiction

end Run

/-- With nothing live, separation leaves a single free node. -/
theorem Partition.whole (valid : Partition s) (positive : 0 < s.allocator.size)
    (nothing : s.live = []) :
    ∃ p, s.tree.head = [p] ∧
      s.tree.node p = ⟨0,s.allocator.size - 1⟩ := by
  have blocks : s.blocks = s.tree.head := by simp [System.blocks,nothing]
  have located : ∀ addr, addr < s.allocator.size →
      ∃ p ∈ s.tree.head, Contains s.tree p addr := by
    intro addr inside
    have counted := valid.covered addr
    rw [if_pos inside,blocks] at counted
    obtain ⟨p,member,contains⟩ := countP_pos_iff.mp (by rw [← covers,counted]; decide)
    exact ⟨p,member,by simpa using contains⟩
  obtain ⟨p,member,low,high⟩ := located 0 positive
  have separated := valid.separated
  have ordered := valid.tree.ordered
  obtain ⟨front,back,shape,-,-⟩ := valid.tree.position member
  have proper := valid.tree.proper p member
  rw [shape,pairwise_append,pairwise_cons] at separated ordered
  have first : front = [] := by
    cases front with
    | nil => rfl
    | cons a front =>
      have := ordered.2.2 a (by simp) p (by simp)
      bv_omega
  have last : back = [] := by
    cases back with
    | nil => rfl
    | cons r back =>
      -- The address after `p` would have to belong to a node that starts above it.
      have gap := separated.2.1.1 r (by simp)
      have properR := valid.tree.proper r (by simp [shape])
      have contained : Contains s.tree r (s.tree.node r).start := ⟨BitVec.le_refl _,properR⟩
      have := valid.bounded (by simp [blocks,shape]) contained
      simp only [Apart] at gap
      obtain ⟨q,inside,below,above⟩ := located ((s.tree.node p).finish + 1) (by bv_omega)
      rw [shape,first,nil_append,mem_cons] at inside
      rcases inside with rfl | inside
      · bv_omega
      · have := separated.2.1.1 q inside
        simp only [Apart] at this
        bv_omega
  subst first last
  refine ⟨p,shape,?_⟩
  have contained : Contains s.tree p (s.tree.node p).finish := ⟨proper,BitVec.le_refl _⟩
  have below := valid.bounded (by simp [blocks,shape]) contained
  obtain ⟨q,inside,_,above⟩ := located (s.allocator.size - 1) (by bv_omega)
  obtain rfl : q = p := by simpa [shape] using inside
  have start : (s.tree.node q).start = 0 := by bv_omega
  have finish : (s.tree.node q).finish = s.allocator.size - 1 := by bv_omega
  rw [← start,← finish]

/-- Free nodes and live allocations partition the range after any calls. Only a failing
`kvmalloc` can refuse a request that has room. -/
theorem rangeAllocator_partition (rb : RbTree) (memory : Ptr → Node) (size : NvU64)
    (positive : 0 < size) (kvmalloc : Option Ptr) (allocator : State)
    (started : init rb memory size kvmalloc = .ok allocator) (calls : List Call) (s : System)
    (run : execute rb calls ⟨allocator,[]⟩ = some s) :
    (∀ addr, (s.allocator.rangeTree.head.countP fun p => Contains s.allocator.rangeTree p addr) +
      (s.live.countP fun g => Contains s.allocator.rangeTree g.allocation.node addr) =
        if addr < size then 1 else 0) ∧
    (∀ p ∈ s.allocator.rangeTree.head, ∀ q ∈ s.allocator.rangeTree.head,
      (s.allocator.rangeTree.node p).finish.toNat + 1 ≠
        (s.allocator.rangeTree.node q).start.toNat) ∧
    (∀ g ∈ s.live,(effectiveAlignment g.alignment).toNat ∣ g.allocation.alignedStart.toNat ∧
      (s.allocator.rangeTree.node g.allocation.node).start.toNat ≤
        g.allocation.alignedStart.toNat ∧
      g.allocation.alignedStart.toNat + g.size.toNat ≤
        (s.allocator.rangeTree.node g.allocation.node).finish.toNat + 1) ∧
    (∀ size alignment kvmalloc status result,Call.Allowed s (.alloc size alignment kvmalloc) →
      alloc rb s.allocator size alignment kvmalloc = (.error status,result) →
      result = s.allocator ∧
      ((status = .addressInUse ∧ ∀ p ∈ s.allocator.rangeTree.head,
          ¬HasRoom s.allocator.rangeTree p size (effectiveAlignment alignment)) ∨
        (status = .noMemory ∧ kvmalloc = none))) ∧
    (∀ request ≤ size,∀ alignment,
      alloc rb s.allocator request alignment none = (.error .noMemory,s.allocator)) ∧
    (s.live = [] → ∃ p, s.allocator.rangeTree.head = [p] ∧
      s.allocator.rangeTree.node p = ⟨0,size - 1⟩) := by
  obtain ⟨initial,fixed⟩ := init_partition rb positive started
  obtain ⟨valid,kept⟩ := execute_partition rb calls initial run
  have total : s.allocator.size = size := kept.trans fixed
  refine ⟨fun addr => ?_,?_,?_,?_,?_,?_⟩
  · have counted := valid.covered addr
    rw [total] at counted
    simpa [System.blocks,covers,Function.comp_def] using counted
  · intro p hp q hq adjacent
    have separated := pairwise_iff_getElem.mp valid.separated
    obtain ⟨i,hi,rfl⟩ := getElem_of_mem hp
    obtain ⟨j,hj,rfl⟩ := getElem_of_mem hq
    have properI := valid.tree.proper _ hp
    have properJ := valid.tree.proper _ hq
    simp only [Apart,System.tree] at *
    rcases Nat.lt_trichotomy i j with before | same | after
    · have := separated i j hi hj before
      omega
    · subst same
      bv_omega
    · have := separated j i hj hi after
      bv_omega
  · intro g member
    have granted := valid.granted g member
    exact ⟨granted.aligned,granted.low,granted.high⟩
  · intro size alignment kvmalloc status result allowed failed
    rcases alloc_cases rb valid allowed with ⟨outcome,block⟩ | ⟨outcome,full⟩ |
      ⟨_,_,_,_,_,_,_,_,outcome⟩
    all_goals
      rw [outcome] at failed
      cases failed
    · exact ⟨rfl,Or.inr ⟨rfl,block⟩⟩
    · exact ⟨rfl,Or.inl ⟨rfl,full⟩⟩
  · intro request bound alignment
    rw [alloc,if_neg (by rw [total]; exact BitVec.not_lt.mpr bound)]
  · intro nothing
    obtain ⟨p,head,node⟩ := valid.whole (by rw [total]; exact positive) nothing
    exact ⟨p,head,by rw [node,total]⟩

/-- A request that fits is still refused when no tree node can be allocated for it. -/
theorem alloc_without_memory :
    ∃ allocator, init RbTree.unbalanced (fun _ => ⟨0,0⟩) 16 (some 0) = .ok allocator ∧
      Call.Allowed ⟨allocator,[]⟩ (.alloc 4 4 none) ∧
      HasRoom allocator.rangeTree 0 4 (effectiveAlignment 4) ∧ 0 ∈ allocator.rangeTree.head ∧
      (alloc RbTree.unbalanced allocator 4 4 none).1 = .error .noMemory :=
  ⟨_,rfl,by decide,⟨0,by decide,by decide,by decide⟩,by decide,by rfl⟩

def sampleCalls : List Call := [
  .alloc 3 0 (some 1), .alloc 4 8 (some 2), .alloc 9 1 (some 3), .alloc 1 1 none,
  .alloc 4 4 (some 3), .free (some ⟨⟨8,2⟩,4,8⟩), .free none, .free (some ⟨⟨0,1⟩,3,0⟩)]

theorem sample_completes :
    (execute RbTree.unbalanced sampleCalls ⟨⟨16,(add RbTree.unbalanced
      ((RangeTree.init fun _ => ⟨0,0⟩).set 0 ⟨0,16 - 1⟩) 0).2⟩,[]⟩).isSome := by decide +kernel

theorem rangeAllocator_partition_sample :
    ∃ allocator s, init RbTree.unbalanced (fun _ => ⟨0,0⟩) 16 (some 0) = .ok allocator ∧
      execute RbTree.unbalanced sampleCalls ⟨allocator,[]⟩ = some s ∧
      ∀ addr, (s.allocator.rangeTree.head.countP fun p => Contains s.allocator.rangeTree p addr) +
        (s.live.countP fun g => Contains s.allocator.rangeTree g.allocation.node addr) =
          if addr < 16 then 1 else 0 := by
  obtain ⟨s,run⟩ := Option.isSome_iff_exists.mp sample_completes
  exact ⟨_,s,rfl,run,(rangeAllocator_partition RbTree.unbalanced (fun _ => ⟨0,0⟩) 16 (by decide)
    (some 0) _ rfl sampleCalls s run).1⟩

end GpuExt.RangeAllocator
