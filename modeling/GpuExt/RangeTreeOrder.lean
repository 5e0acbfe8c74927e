import GpuExt.RangeTree

/-! Tree, list and intervals stay in step. The walk's failure point determines the
neighbours of a new node, and one comparison with the neighbour decides overlap. -/
namespace GpuExt.RangeTree

open List hiding drop

def Overlaps (s : State) (a b : Ptr) : Prop :=
  (s.node b).start ≤ (s.node a).finish ∧ (s.node a).start ≤ (s.node b).finish

instance : Decidable (Overlaps s a b) := inferInstanceAs (Decidable (_ ∧ _))

@[simp] theorem rangeNodesOverlap_iff : rangeNodesOverlap s a b = true ↔ Overlaps s a b := by
  simp [rangeNodesOverlap,rangesOverlap,Overlaps]

structure WellFormed (s : State) : Prop where
  linked : s.head = s.root.inorder
  ordered : s.head.Pairwise fun a b => (s.node a).finish < (s.node b).start
  proper : ∀ p ∈ s.head, (s.node p).start ≤ (s.node p).finish

theorem init_wellFormed (node : Ptr → Node) : WellFormed (init node) := by
  constructor <;> simp [init,SearchTree.inorder]

theorem WellFormed.nodup (valid : WellFormed s) : s.head.Nodup := by
  have strict := valid.ordered
  have proper := valid.proper
  apply strict.imp_of_mem
  intro a b ha hb before same
  subst same
  have := proper a ha
  bv_omega

section

variable (valid : WellFormed s) (shape : s.head = front ++ p :: back)
include valid shape

theorem WellFormed.outside : p ∉ front ∧ p ∉ back := by
  have distinct := valid.nodup
  rw [shape] at distinct
  obtain ⟨_,tail,apart⟩ := nodup_append.mp distinct
  exact ⟨fun inFront => apart p inFront p (by simp) rfl,(nodup_cons.mp tail).1⟩

theorem prev_shape : prev s p = front.getLast? := by
  obtain ⟨fresh,later⟩ := valid.outside shape
  rw [prev,shape,LinkedList.prev_append fresh later]

theorem next_shape : next s p = back.head? := by
  rw [next,shape,LinkedList.next_append (valid.outside shape).1]

end

theorem WellFormed.monotone (valid : WellFormed s) (addr : NvU64) :
    SearchTree.Monotone (side s addr) s.head := by
  apply valid.ordered.imp_of_mem
  intro a b ha hb before notAfter
  have := valid.proper a ha
  simp only [side] at notAfter ⊢
  split at notAfter
  · rw [if_pos (by bv_omega)]
  · split at notAfter
    · contradiction
    · rw [if_pos (by bv_omega)]

theorem side_lt : side s addr p = .lt ↔ addr < (s.node p).start := by
  simp only [side]; split
  · simp [*]
  · split <;> simp [*]

theorem side_gt (proper : (s.node p).start ≤ (s.node p).finish) :
    side s addr p = .gt ↔ (s.node p).finish < addr := by
  simp only [side]; split
  · simp; bv_omega
  · split <;> simp [*]

theorem side_eq : side s addr p = .eq → (s.node p).start ≤ addr ∧ addr ≤ (s.node p).finish := by
  simp only [side]; split
  · simp
  · split
    · simp
    · intro _; bv_omega

/-- A node that fits: everything before it ends below, everything after starts above. -/
structure Fits (s : State) (p : Ptr) (front back : List Ptr) : Prop where
  contents : s.head = front ++ back
  before : ∀ a ∈ front, (s.node a).finish < (s.node p).start
  after : ∀ b ∈ back, (s.node p).finish < (s.node b).start

theorem Fits.clear (fits : Fits s p front back) (q : Ptr) (member : q ∈ s.head) :
    ¬Overlaps s p q := by
  rw [fits.contents] at member
  simp only [Overlaps]
  rcases mem_append.mp member with hq | hq
  · have := fits.before q hq
    bv_omega
  · have := fits.after q hq
    bv_omega

/-- Only nodes at or after the first one above can overlap from the right, so the
first one decides for all of them. -/
theorem after_of_head (valid : WellFormed s) (contents : s.head = front ++ back)
    (clear : ∀ b, back.head? = some b → (s.node p).finish < (s.node b).start) :
    ∀ b ∈ back, (s.node p).finish < (s.node b).start := by
  cases back with
  | nil => simp
  | cons r back =>
    have first := clear r rfl
    have ordered := valid.ordered
    rw [contents,pairwise_append] at ordered
    have later := (pairwise_cons.mp ordered.2.1).1
    have proper := valid.proper r (by simp [contents])
    intro b hb
    rcases mem_cons.mp hb with rfl | hb
    · exact first
    · have := later b hb
      bv_omega

/-- `add` refused an overlapping node, or linked it between two parts of the list. -/
def AddOutcome (rb : RbTree) (s : State) (p : Ptr) : Prop :=
  ((∃ q ∈ s.head, Overlaps s p q) ∧ add rb s p = (.addressInUse,s)) ∨
  ∃ front back, Fits s p front back ∧ (add rb s p).1 = .ok ∧
    (add rb s p).2.node = s.node ∧ (add rb s p).2.head = front ++ p :: back ∧
    (add rb s p).2.root.inorder = front ++ p :: back

section

variable (rb : RbTree) (valid : WellFormed s)
  (walk : s.root.descend (side s (s.node p).start) none = (none,some q))
include rb valid walk

/-- The walk ended left of the next node in address order. -/
theorem add_left (contents : s.head = front ++ q :: back)
    (before : ∀ a ∈ front, (s.node a).finish < (s.node p).start)
    (above : (s.node p).start < (s.node q).start)
    (linked : (s.root.linkLeft q p).inorder = front ++ p :: q :: back) : AddOutcome rb s p := by
  have member : q ∈ s.head := by simp [contents]
  by_cases overlap : Overlaps s p q
  · exact Or.inl ⟨⟨q,member,overlap⟩,by simp [add,rangeNodeFind,walk,overlap]⟩
  right
  have clear : (s.node p).finish < (s.node q).start := by
    simp only [Overlaps] at overlap
    have := valid.proper q member
    bv_omega
  have fresh := (valid.outside contents).1
  have after := after_of_head (p := p) valid contents (by simpa using clear)
  refine ⟨front,q :: back,⟨contents,before,after⟩,?_,?_,?_,?_⟩
  all_goals simp [add,rangeNodeFind,walk,overlap,above,rb.inorder_insertColor,linked,contents,
    LinkedList.addBefore_append fresh]

/-- The walk ended right of the previous node; its successor is the only other candidate. -/
theorem add_right (shape : s.head = front ++ q :: back)
    (before : ∀ a ∈ front ++ [q], (s.node a).finish < (s.node p).start)
    (above : ∀ b ∈ back, (s.node p).start < (s.node b).start)
    (linked : (s.root.linkRight q p).inorder = front ++ q :: p :: back) : AddOutcome rb s p := by
  have contents : s.head = (front ++ [q]) ++ back := by simp [shape]
  have below := before q (by simp)
  have parentProper := valid.proper q (by simp [shape])
  have order : ¬(s.node p).start < (s.node q).start := by bv_omega
  have apart : ¬Overlaps s p q := by
    simp only [Overlaps]; bv_omega
  have fresh := (valid.outside shape).1
  have successor := next_shape valid shape
  cases back with
  | nil =>
    right
    refine ⟨front ++ [q],[],⟨contents,before,by simp⟩,?_,?_,?_,?_⟩
    all_goals simp [add,rangeNodeFind,walk,apart,order,successor,rb.inorder_insertColor,linked,
      shape,LinkedList.addAfter_append fresh]
  | cons r back =>
    by_cases overlap : Overlaps s p r
    · exact Or.inl ⟨⟨r,by simp [shape],overlap⟩,
        by simp [add,rangeNodeFind,walk,order,successor,overlap]⟩
    right
    have clear : (s.node p).finish < (s.node r).start := by
      have := above r (by simp)
      have := valid.proper r (by simp [shape])
      simp only [Overlaps] at overlap
      bv_omega
    have after := after_of_head (p := p) valid contents (by simpa using clear)
    refine ⟨front ++ [q],r :: back,⟨contents,before,after⟩,?_,?_,?_,?_⟩
    all_goals simp [add,rangeNodeFind,walk,apart,order,successor,overlap,rb.inorder_insertColor,
      linked,shape,LinkedList.addAfter_append fresh]

end

theorem add_cases (rb : RbTree) (valid : WellFormed s)
    (proper : (s.node p).start ≤ (s.node p).finish) : AddOutcome rb s p := by
  have monotone := valid.monotone (s.node p).start
  have distinct := valid.nodup
  rcases walk : s.root.descend (side s (s.node p).start) none with ⟨match?,parent⟩
  cases match? with
  | some q =>
    left
    obtain ⟨member,inside⟩ := SearchTree.descend_found walk
    have inside := side_eq inside
    refine ⟨⟨q,valid.linked ▸ member,?_⟩,by simp [add,rangeNodeFind,walk]⟩
    simp only [Overlaps]
    bv_omega
  | none =>
    cases parent with
    | none =>
      right
      obtain ⟨empty,-⟩ := SearchTree.descend_empty walk
      have nothing : s.head = [] := by rw [valid.linked,empty]; rfl
      refine ⟨[],[],⟨nothing,by simp,by simp⟩,?_,?_,?_,?_⟩
      all_goals simp [add,rangeNodeFind,walk,nothing,rb.inorder_insertColor,SearchTree.inorder]
    | some q =>
      rw [valid.linked] at monotone distinct
      obtain ⟨front,back,gap⟩ := SearchTree.descend_gap distinct monotone (Or.inl rfl) walk
      have contents : s.head = front ++ back := by rw [valid.linked,gap.contents]
      have before : ∀ a ∈ front, (s.node a).finish < (s.node p).start := fun a ha =>
        (side_gt (valid.proper a (by simp [contents,ha]))).mp (gap.before a ha)
      rcases gap.neighbour with ⟨position,head,linked⟩ | ⟨-,last,linked⟩
      · obtain ⟨tail,rfl⟩ := head?_eq_some_iff.mp head
        exact add_left rb valid walk contents before (side_lt.mp position) (linked p)
      · obtain ⟨initial,rfl⟩ := getLast?_eq_some_iff.mp last
        exact add_right rb valid walk (by simp [contents]) before
          (fun b inBack => side_lt.mp (gap.after b inBack)) (by simp [linked])

@[simp] theorem set_head : (State.set s p value).head = s.head := rfl
@[simp] theorem set_root : (State.set s p value).root = s.root := rfl
@[simp] theorem set_same : (State.set s p value).node p = value := by simp [State.set]
@[simp] theorem set_other (h : q ≠ p) : (State.set s p value).node q = s.node q := by
  simp [State.set,h]

@[simp] theorem remove_node : (remove rb s p).node = s.node := rfl
@[simp] theorem remove_head : (remove rb s p).head = s.head.erase p := rfl

theorem add_wellFormed (rb : RbTree) (valid : WellFormed s)
    (proper : (s.node p).start ≤ (s.node p).finish) : WellFormed (add rb s p).2 := by
  rcases add_cases rb valid proper with ⟨_,unchanged⟩ | ⟨front,back,fits,_,node,head,root⟩
  · rw [unchanged]; exact valid
  have ordered := valid.ordered
  have allProper := valid.proper
  rw [fits.contents] at ordered allProper
  obtain ⟨hf,hb,cross⟩ := pairwise_append.mp ordered
  refine ⟨head.trans root.symm,?_,?_⟩
  · rw [head,node,pairwise_append]
    refine ⟨hf,pairwise_cons.mpr ⟨fits.after,hb⟩,?_⟩
    intro a ha b hb
    rcases mem_cons.mp hb with rfl | hb
    · exact fits.before a ha
    · exact cross a ha b hb
  · intro q member
    rw [node]
    rw [head,mem_append,mem_cons] at member
    rcases member with hq | rfl | hq
    · exact allProper q (by simp [hq])
    · exact proper
    · exact allProper q (by simp [hq])

theorem remove_wellFormed (rb : RbTree) (valid : WellFormed s) : WellFormed (remove rb s p) := by
  refine ⟨?_,?_,?_⟩
  · simp [remove,rb.inorder_erase,valid.linked]
  · exact valid.ordered.sublist erase_sublist
  · intro q member
    exact valid.proper q (mem_of_mem_erase member)

/-- State in which `split` calls `add`: the existing node is cut below the new one. -/
@[simp] def splitPrepared (s : State) (existing fresh : Ptr) : State :=
  (s.set fresh ⟨(s.node fresh).start,(s.node existing).finish⟩).set existing
    ⟨(s.node existing).start,(s.node fresh).start - 1⟩

theorem split_eq (rb : RbTree) (different : existing ≠ fresh) :
    split rb s existing fresh = add rb (splitPrepared s existing fresh) fresh := by
  simp [split,different]

section

variable (valid : WellFormed s)
include valid

/-- Narrowing linked nodes in place disturbs neither order nor disjointness. -/
theorem WellFormed.narrow (head : s'.head = s.head) (root : s'.root = s.root)
    (within : ∀ p ∈ s.head, (s.node p).start ≤ (s'.node p).start ∧
      (s'.node p).start ≤ (s'.node p).finish ∧ (s'.node p).finish ≤ (s.node p).finish) :
    WellFormed s' := by
  refine ⟨by rw [head,root,valid.linked],?_,?_⟩
  · rw [head]
    apply valid.ordered.imp_of_mem
    intro a b ha hb before
    have := within a ha
    have := within b hb
    bv_omega
  · intro p member
    exact (within p (head ▸ member)).2.1

theorem WellFormed.disjoint (hp : p ∈ s.head) (hq : q ∈ s.head) (different : p ≠ q) :
    (s.node p).finish < (s.node q).start ∨ (s.node q).finish < (s.node p).start := by
  have ordered := pairwise_iff_getElem.mp valid.ordered
  obtain ⟨i,hi,rfl⟩ := getElem_of_mem hp
  obtain ⟨j,hj,rfl⟩ := getElem_of_mem hq
  rcases Nat.lt_trichotomy i j with h | h | h
  · exact Or.inl (ordered i j hi hj h)
  · subst h; contradiction
  · exact Or.inr (ordered j i hj hi h)

section

variable (allowed : Call.Allowed s (.split existing fresh))
include allowed

/-- The preconditions of `split` already rule out that the new node is linked. -/
theorem split_fresh : fresh ∉ s.head := by
  obtain ⟨member,above,below⟩ := allowed
  intro linked
  have proper := valid.proper fresh linked
  have different : existing ≠ fresh := by
    intro same
    subst same
    bv_omega
  have := valid.disjoint member linked different
  bv_omega

theorem splitPrepared_wellFormed : WellFormed (splitPrepared s existing fresh) := by
  have absent := split_fresh valid allowed
  obtain ⟨member,above,below⟩ := allowed
  refine valid.narrow (by simp) (by simp) ?_
  intro p linked
  have proper := valid.proper p linked
  have other : p ≠ fresh := by intro same; exact absent (same ▸ linked)
  by_cases same : p = existing
  · subst same
    simp only [splitPrepared,set_same]
    bv_omega
  · simp only [splitPrepared,set_other same,set_other other]
    bv_omega

theorem split_clear (q : Ptr) (linked : q ∈ s.head) :
    ¬Overlaps (splitPrepared s existing fresh) fresh q := by
  have absent := split_fresh valid allowed
  obtain ⟨member,above,below⟩ := allowed
  have apart : fresh ≠ existing := by intro same; exact absent (same ▸ member)
  have other : q ≠ fresh := by intro same; exact absent (same ▸ linked)
  by_cases same : q = existing
  · subst same
    simp only [Overlaps,splitPrepared,set_same,set_other apart]
    bv_omega
  · have := valid.disjoint linked member same
    simp only [Overlaps,splitPrepared,set_same,set_other same,set_other apart,set_other other]
    bv_omega

/-- `split` never collides, as its own assertion says. -/
theorem split_ok (rb : RbTree) :
    (split rb s existing fresh).1 = .ok ∧ WellFormed (split rb s existing fresh).2 := by
  have absent := split_fresh valid allowed
  have prepared := splitPrepared_wellFormed valid allowed
  have clear := split_clear valid allowed
  obtain ⟨member,above,below⟩ := allowed
  have apart : fresh ≠ existing := by intro same; exact absent (same ▸ member)
  have proper : ((splitPrepared s existing fresh).node fresh).start ≤
      ((splitPrepared s existing fresh).node fresh).finish := by
    simpa [set_other apart] using below
  rw [split_eq rb (Ne.symm apart)]
  refine ⟨?_,add_wellFormed rb prepared proper⟩
  rcases add_cases rb prepared proper with ⟨⟨q,linked,overlap⟩,_⟩ | ⟨_,_,_,ok,_⟩
  · exact absurd overlap (clear q (by simpa using linked))
  · exact ok

end

/-- A linked node together with what stands before and after it. -/
theorem WellFormed.position (member : p ∈ s.head) :
    ∃ front back, s.head = front ++ p :: back ∧ p ∉ front ∧ p ∉ back := by
  obtain ⟨front,back,shape⟩ := append_of_mem member
  exact ⟨front,back,shape,valid.outside shape⟩

/-- The node linked directly before `p`, when there is one. -/
theorem prev_position (member : p ∈ s.head) (previous : prev s p = some q) :
    ∃ front back, s.head = front ++ q :: p :: back := by
  obtain ⟨front,back,shape,_⟩ := valid.position member
  rw [prev_shape valid shape] at previous
  obtain ⟨initial,rfl⟩ := getLast?_eq_some_iff.mp previous
  exact ⟨initial,back,by simp [shape]⟩

theorem next_position (member : p ∈ s.head) (following : next s p = some q) :
    ∃ front back, s.head = front ++ p :: q :: back := by
  obtain ⟨front,back,shape,_⟩ := valid.position member
  rw [next_shape valid shape] at following
  cases back with
  | nil => simp at following
  | cons r back =>
    obtain rfl : r = q := by simpa using following
    exact ⟨front,back,shape⟩

/-- Which of two neighbours survives a merge. -/
def Pair (p q keep drop : Ptr) : Prop :=
  (keep = p ∧ drop = q) ∨ (keep = q ∧ drop = p)

theorem merged_outside (shape : s.head = front ++ p :: q :: back)
    (pair : Pair p q keep drop) : keep ∉ front ∧ keep ∉ back ∧ drop ∉ front ∧ keep ≠ drop := by
  obtain ⟨pFront,pBack⟩ := valid.outside shape
  have next : s.head = (front ++ [p]) ++ q :: back := by simp [shape]
  obtain ⟨qFront,qBack⟩ := valid.outside next
  simp only [mem_append,mem_cons,not_or] at pBack qFront
  rcases pair with ⟨rfl,rfl⟩ | ⟨rfl,rfl⟩
  · exact ⟨pFront,pBack.2,qFront.1,pBack.1⟩
  · exact ⟨qFront.1,qBack,pFront,Ne.symm pBack.1⟩

end

section

variable (rb : RbTree) (valid : WellFormed s)
include rb valid

theorem merged_head (shape : s.head = front ++ p :: q :: back) (pair : Pair p q keep drop) :
    (remove rb s drop).head = front ++ keep :: back := by
  obtain ⟨_,_,dropFront,apart⟩ := merged_outside valid shape pair
  rcases pair with ⟨rfl,rfl⟩ | ⟨rfl,rfl⟩
  · have outside : drop ∉ front ++ [keep] := by
      simp [dropFront,Ne.symm apart]
    have erased : ((front ++ [keep]) ++ drop :: back).erase drop = (front ++ [keep]) ++ back :=
      LinkedList.erase_append outside
    simpa [shape] using erased
  · simp [shape,LinkedList.erase_append dropFront]

/-- Dropping one of two neighbours and letting the other cover both. -/
theorem merged_wellFormed (shape : s.head = front ++ p :: q :: back) (pair : Pair p q keep drop) :
    WellFormed ((remove rb s drop).set keep ⟨(s.node p).start,(s.node q).finish⟩) := by
  have removed := remove_wellFormed rb (p := drop) valid
  have head := merged_head rb valid shape pair
  obtain ⟨keepFront,keepBack,_,_⟩ := merged_outside valid shape pair
  have ordered := valid.ordered
  have properP := valid.proper p (by simp [shape])
  have properQ := valid.proper q (by simp [shape])
  rw [shape] at ordered
  obtain ⟨hf,hb,cross⟩ := pairwise_append.mp ordered
  obtain ⟨hp,hb⟩ := pairwise_cons.mp hb
  obtain ⟨hq,hb⟩ := pairwise_cons.mp hb
  have pq := hp q (by simp)
  have frontKeep : ∀ a ∈ front, a ≠ keep := fun a ha same => keepFront (same ▸ ha)
  have backKeep : ∀ b ∈ back, b ≠ keep := fun b inBack same => keepBack (same ▸ inBack)
  refine ⟨removed.linked,?_,?_⟩
  · rw [set_head,head,pairwise_append]
    refine ⟨?_,pairwise_cons.mpr ⟨?_,?_⟩,?_⟩
    · apply hf.imp_of_mem
      intro a b ha hb before
      rwa [set_other (frontKeep a ha),set_other (frontKeep b hb)]
    · intro b hb'
      rw [set_same,set_other (backKeep b hb')]
      exact hq b hb'
    · apply hb.imp_of_mem
      intro a b ha hb before
      rwa [set_other (backKeep a ha),set_other (backKeep b hb)]
    · intro a ha b member
      rw [set_other (frontKeep a ha)]
      rcases mem_cons.mp member with rfl | hb
      · rw [set_same]
        exact cross a ha p (by simp)
      · rw [set_other (backKeep b hb)]
        exact cross a ha b (by simp [hb])
  · intro r member
    rw [set_head,head,mem_append,mem_cons] at member
    rcases member with hr | rfl | hr
    · rw [set_other (frontKeep r hr)]
      exact valid.proper r (by simp [shape,hr])
    · rw [set_same]
      bv_omega
    · rw [set_other (backKeep r hr)]
      exact valid.proper r (by simp [shape,hr])

theorem mergePrev_wellFormed (member : p ∈ s.head) : WellFormed (mergePrev rb s p).2 := by
  simp only [mergePrev]
  split
  · exact valid
  next q previous =>
    split
    · exact valid
    · obtain ⟨front,back,shape⟩ := prev_position valid member previous
      exact merged_wellFormed rb valid shape (Or.inr ⟨rfl,rfl⟩)

theorem mergeNext_wellFormed (member : p ∈ s.head) : WellFormed (mergeNext rb s p).2 := by
  simp only [mergeNext]
  split
  · exact valid
  next q following =>
    split
    · exact valid
    · obtain ⟨front,back,shape⟩ := next_position valid member following
      exact merged_wellFormed rb valid shape (Or.inl ⟨rfl,rfl⟩)

theorem apply_wellFormed (allowed : Call.Allowed s call) : WellFormed (call.apply rb s) := by
  cases call with
  | assign p value =>
    refine valid.narrow rfl rfl ?_
    intro q linked
    have other : q ≠ p := by intro same; exact allowed (same ▸ linked)
    have := valid.proper q linked
    simp only [Call.apply,set_other other]
    bv_omega
  | add p => exact add_wellFormed rb valid allowed
  | remove p => exact remove_wellFormed rb valid
  | shrinkNode p newStart newEnd =>
    obtain ⟨member,order,low,high⟩ := allowed
    refine valid.narrow rfl rfl ?_
    intro q linked
    by_cases same : q = p
    · subst same
      simpa [Call.apply,shrinkNode] using ⟨low,order,high⟩
    · have := valid.proper q linked
      simp only [Call.apply,shrinkNode,set_other same]
      bv_omega
  | split existing fresh => exact (split_ok valid allowed rb).2
  | mergePrev p => exact mergePrev_wellFormed rb valid allowed
  | mergeNext p => exact mergeNext_wellFormed rb valid allowed

end

theorem execute_wellFormed (rb : RbTree) (calls : List Call) (valid : WellFormed s)
    (run : execute rb calls s = some final) : WellFormed final := by
  induction calls generalizing s with
  | nil =>
    obtain rfl : s = final := by simpa [execute] using run
    exact valid
  | cons call calls ih =>
    simp only [execute] at run
    split at run
    next allowed =>
      exact ih (apply_wellFormed rb valid allowed) run
    · contradiction

def Contains (s : State) (p : Ptr) (addr : NvU64) : Prop :=
  (s.node p).start ≤ addr ∧ addr ≤ (s.node p).finish

instance : Decidable (Contains s p addr) := inferInstanceAs (Decidable (_ ∧ _))

theorem overlaps_iff (hp : (s.node p).start ≤ (s.node p).finish)
    (hq : (s.node q).start ≤ (s.node q).finish) :
    Overlaps s p q ↔ ∃ addr, Contains s p addr ∧ Contains s q addr := by
  simp only [Overlaps,Contains]
  constructor
  · intro overlap
    by_cases order : (s.node p).start ≤ (s.node q).start
    · exact ⟨(s.node q).start,by bv_omega,by bv_omega⟩
    · exact ⟨(s.node p).start,by bv_omega,by bv_omega⟩
  · bv_omega

/-- `add` refuses exactly the nodes that share an address with a linked one. -/
theorem add_result (rb : RbTree) (valid : WellFormed s)
    (proper : (s.node p).start ≤ (s.node p).finish) :
    ((add rb s p).1 = .addressInUse ↔ ∃ q ∈ s.head, ∃ addr, Contains s p addr ∧ Contains s q addr) ∧
    ((add rb s p).1 = .addressInUse → (add rb s p).2 = s) ∧
    ((add rb s p).1 ≠ .addressInUse → (add rb s p).1 = .ok ∧ (add rb s p).2.node = s.node ∧
      ∀ q, q ∈ (add rb s p).2.head ↔ q = p ∨ q ∈ s.head) := by
  rcases add_cases rb valid proper with ⟨⟨q,member,overlap⟩,refused⟩ |
    ⟨front,back,fits,ok,node,head,_⟩
  · have shared := (overlaps_iff proper (valid.proper q member)).mp overlap
    rw [refused]
    exact ⟨⟨fun _ => ⟨q,member,shared⟩,fun _ => rfl⟩,fun _ => rfl,fun impossible => absurd rfl impossible⟩
  · refine ⟨?_,by simp [ok],fun _ => ⟨ok,node,fun q => ?_⟩⟩
    · simp only [ok,reduceCtorEq,false_iff]
      rintro ⟨q,member,shared⟩
      exact fits.clear q member ((overlaps_iff proper (valid.proper q member)).mpr shared)
    · rw [fits.contents]
      grind

/-- List and tree agree, intervals are proper, increasing and disjoint over the whole
64-bit space after any calls within their preconditions, and `add` is exact there. -/
theorem rangeTree_invariant (rb : RbTree) (node : Ptr → Node) (calls : List Call) (s : State)
    (run : execute rb calls (init node) = some s) :
    s.head = s.root.inorder ∧
    s.head.Pairwise (fun a b => (s.node a).finish < (s.node b).start) ∧
    (∀ p ∈ s.head, (s.node p).start ≤ (s.node p).finish) ∧
    (∀ p ∈ s.head, ∀ q ∈ s.head, p ≠ q → ∀ addr, ¬(Contains s p addr ∧ Contains s q addr)) ∧
    ∀ p, (s.node p).start ≤ (s.node p).finish →
      ((add rb s p).1 = .addressInUse ↔
        ∃ q ∈ s.head, ∃ addr, Contains s p addr ∧ Contains s q addr) ∧
      ((add rb s p).1 = .addressInUse → (add rb s p).2 = s) ∧
      ((add rb s p).1 ≠ .addressInUse → (add rb s p).1 = .ok ∧ (add rb s p).2.node = s.node ∧
        ∀ q, q ∈ (add rb s p).2.head ↔ q = p ∨ q ∈ s.head) := by
  have valid := execute_wellFormed rb calls (init_wellFormed node) run
  refine ⟨valid.linked,valid.ordered,valid.proper,?_,fun p proper => add_result rb valid proper⟩
  intro p hp q hq different addr shared
  have := valid.disjoint hp hq different
  simp only [Contains] at shared
  bv_omega

/-- Both ends of the address space are linked, split and merged again. -/
def extremeCalls : List Call := [
  .assign 0 ⟨0,0⟩, .add 0,
  .assign 1 ⟨BitVec.allOnes 64 - 9,BitVec.allOnes 64⟩, .add 1,
  .assign 2 ⟨BitVec.allOnes 64,0⟩, .split 1 2,
  .mergePrev 2, .shrinkNode 2 (BitVec.allOnes 64 - 1) (BitVec.allOnes 64),
  .mergeNext 0]

theorem extreme_completes :
    (execute RbTree.unbalanced extremeCalls (init fun _ => ⟨5,7⟩)).isSome := by decide +kernel

theorem rangeTree_invariant_extreme :
    ∃ s, execute RbTree.unbalanced extremeCalls (init fun _ => ⟨5,7⟩) = some s ∧
      s.head = s.root.inorder ∧
      s.head.Pairwise (fun a b => (s.node a).finish < (s.node b).start) := by
  obtain ⟨s,run⟩ := Option.isSome_iff_exists.mp extreme_completes
  have invariant := rangeTree_invariant RbTree.unbalanced _ extremeCalls s run
  exact ⟨s,run,invariant.1,invariant.2.1⟩

end GpuExt.RangeTree
