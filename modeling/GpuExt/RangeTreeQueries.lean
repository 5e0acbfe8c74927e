import GpuExt.RangeTreeOrder

/-! Queries of the range tree against the set of its intervals. An address splits the
list into the nodes that end below it and the rest; every query reads its answer off
the two nodes at the split. -/
namespace GpuExt.RangeTree

open List hiding drop

section

variable (s : State) (addr : NvU64)

def find : Option Ptr := (rangeNodeFind s addr).node

def ullongMax : NvU64 := 0xFFFFFFFFFFFFFFFF

theorem le_ullongMax (x : NvU64) : x ≤ ullongMax := by
  simp only [ullongMax]; bv_omega

def last : Option Ptr := s.head.getLast?

/-- The loop of `uvm_range_tree_for_each_in` from a node on; nothing when the fuel is
too small for the loop to end. -/
def forEach (s : State) (finish : NvU64) : Nat → Option Ptr → Option (List Ptr)
  | _, none => some []
  | 0, some _ => none
  | fuel + 1, some p => (forEach s finish fuel (iterNext s p finish)).map (p :: ·)

def forEachIn (start finish : NvU64) (fuel : Nat) : Option (List Ptr) :=
  forEach s finish fuel (iterFirst s start finish)

/-- First address after a node, or the lowest one. -/
def holeStart : Option Ptr → NvU64
  | some p => (s.node p).finish + 1
  | none => 0

def findHole : Except Status (NvU64 × NvU64) :=
  match iterFirst s addr ullongMax with
  | some p =>
    if (s.node p).start ≤ addr then .error .addressInUse
    else .ok (holeStart s (prev s p),(s.node p).start - 1)
  | none => .ok (holeStart s (last s),ullongMax)

def findHoleIn (start finish : NvU64) : Except Status (NvU64 × NvU64) :=
  match findHole s addr with
  | .ok (low,high) =>
    .ok (if low > start then low else start,if high < finish then high else finish)
  | .error status => .error status

end

/-- Nodes that end below the address, then the others. -/
structure Located (s : State) (addr : NvU64) (front back : List Ptr) : Prop where
  contents : s.head = front ++ back
  before : ∀ p ∈ front, (s.node p).finish < addr
  after : ∀ p ∈ back, addr ≤ (s.node p).finish

section

variable (valid : WellFormed s)
include valid

/-- The walk finds the first node at or after the address: as the node itself when it
contains the address, else as the neighbour. -/
theorem locate (addr : NvU64) : ∃ front back, Located s addr front back ∧
      find s addr = back.head?.filter (fun p => (s.node p).start ≤ addr) ∧
      (find s addr = none → (rangeNodeFind s addr).next = back.head?) := by
  rcases walk : s.root.descend (side s addr) none with ⟨match?,parent⟩
  cases match? with
  | some q =>
    obtain ⟨member,inside⟩ := SearchTree.descend_found walk
    have inside := side_eq inside
    obtain ⟨front,back,shape⟩ := append_of_mem (valid.linked ▸ member)
    have ordered := valid.ordered
    rw [shape,pairwise_append,pairwise_cons] at ordered
    refine ⟨front,q :: back,⟨shape,?_,?_⟩,?_,?_⟩
    · intro a inFront
      have := ordered.2.2 a inFront q (by simp)
      bv_omega
    · intro b inBack
      have proper := valid.proper b (by simp [shape,inBack])
      rcases mem_cons.mp inBack with rfl | later
      · exact inside.2
      · have := ordered.2.1.1 b later
        bv_omega
    · simp [find,rangeNodeFind,walk,inside.1,Option.filter]
    · simp [find,rangeNodeFind,walk]
  | none =>
    cases parent with
    | none =>
      obtain ⟨empty,-⟩ := SearchTree.descend_empty walk
      have nothing : s.head = [] := by rw [valid.linked,empty]; rfl
      exact ⟨[],[],⟨nothing,by simp,by simp⟩,by simp [find,rangeNodeFind,walk],
        by simp [rangeNodeFind,walk]⟩
    | some q =>
      obtain ⟨front,back,gap⟩ := SearchTree.descend_gap (valid.linked ▸ valid.nodup)
        (valid.linked ▸ valid.monotone addr) (Or.inl rfl) walk
      have contents : s.head = front ++ back := by rw [valid.linked,gap.contents]
      have before : ∀ a ∈ front, (s.node a).finish < addr := fun a inFront =>
        (side_gt (valid.proper a (by simp [contents,inFront]))).mp (gap.before a inFront)
      have above : ∀ b ∈ back, addr < (s.node b).start := fun b inBack =>
        side_lt.mp (gap.after b inBack)
      refine ⟨front,back,⟨contents,before,?_⟩,?_,fun _ => ?_⟩
      · intro b inBack
        have := above b inBack
        have := valid.proper b (by simp [contents,inBack])
        bv_omega
      · cases back with
        | nil => simp [find,rangeNodeFind,walk]
        | cons b back => simp [find,rangeNodeFind,walk,Option.filter,above b (by simp)]
      · rcases gap.neighbour with ⟨position,head,-⟩ | ⟨-,final,-⟩
        · simp [rangeNodeFind,walk,side_lt.mp position,head]
        · obtain ⟨initial,rfl⟩ := getLast?_eq_some_iff.mp final
          have shape : s.head = initial ++ q :: back := by simp [contents]
          have below := before q (by simp)
          have proper := valid.proper q (by simp [shape])
          have order : ¬addr < (s.node q).start := by bv_omega
          simp [rangeNodeFind,walk,order,next_shape valid shape]

theorem iterFirst_located (addr : NvU64) :
    ∃ front back, Located s addr front back ∧ ∀ finish, addr ≤ finish →
      iterFirst s addr finish = back.head?.filter fun p => (s.node p).start ≤ finish := by
  obtain ⟨front,back,located,node,next⟩ := locate valid addr
  refine ⟨front,back,located,fun finish within => ?_⟩
  simp only [find] at node next
  cases back with
  | nil => simp [iterFirst,node,next (by simp [node])]
  | cons q back =>
    by_cases inside : (s.node q).start ≤ addr
    · have low : (s.node q).start ≤ finish := by bv_omega
      simp [iterFirst,node,Option.filter,inside,low]
    · simp [iterFirst,node,next (by simp [node,Option.filter,inside]),Option.filter,inside]

theorem iterNext_shape (shape : s.head = front ++ p :: back) (finish : NvU64) :
    iterNext s p finish = back.head?.filter fun q => (s.node q).start ≤ finish := by
  rw [iterNext,next_shape valid shape]
  cases back with
  | nil => rfl
  | cons q back => simp [Option.filter]

/-- Past the first node that starts above a bound, all do. -/
theorem starts_above (shape : s.head = front ++ p :: back)
    (above : ¬(s.node p).start ≤ finish) : ∀ q ∈ p :: back, ¬(s.node q).start ≤ finish := by
  intro q member
  have ordered := valid.ordered
  rw [shape,pairwise_append,pairwise_cons] at ordered
  have proper := valid.proper p (by simp [shape])
  rcases mem_cons.mp member with rfl | later
  · exact above
  · have := ordered.2.1.1 q later
    bv_omega

theorem forEach_shape (finish : NvU64) (shape : s.head = front ++ back)
    (enough : back.length ≤ fuel) :
    forEach s finish fuel (back.head?.filter fun p => (s.node p).start ≤ finish) =
      some (back.filter fun p => (s.node p).start ≤ finish) := by
  induction back generalizing front fuel with
  | nil => cases fuel <;> rfl
  | cons p back ih =>
    by_cases low : (s.node p).start ≤ finish
    · cases fuel with
      | zero => simp at enough
      | succ fuel =>
        have rest := @ih (front ++ [p]) fuel (by simp [shape]) (by simpa using enough)
        rw [filter_cons_of_pos (by simpa using low),head?_cons,
          Option.filter_some_pos (by simpa using low),forEach,iterNext_shape valid shape,rest,Option.map_some]
    · have above := starts_above valid shape low
      rw [filter_eq_nil_iff.mpr (by simpa using above)]
      cases fuel <;> simp [Option.filter,forEach,low]

def Intersects (s : State) (start finish : NvU64) (p : Ptr) : Prop :=
  (s.node p).start ≤ finish ∧ start ≤ (s.node p).finish

instance : DecidablePred (Intersects s start finish) :=
  fun _ => inferInstanceAs (Decidable (_ ∧ _))

omit valid in
/-- The nodes before the split end below the range, so only the start is left to test. -/
theorem Located.intersecting (located : Located s start front back) :
    (s.head.filter fun p => Intersects s start finish p) =
      back.filter fun p => (s.node p).start ≤ finish := by
  rw [located.contents,filter_append,filter_eq_nil_iff.mpr]
  · apply filter_congr
    intro p inBack
    simp [Intersects,located.after p inBack]
  · intro p inFront
    have := located.before p inFront
    rw [decide_eq_true_eq]
    rintro ⟨-,upper⟩
    bv_omega

theorem forEachIn_spec (within : start ≤ finish) (enough : s.head.length ≤ fuel) :
    forEachIn s start finish fuel = some (s.head.filter fun p => Intersects s start finish p) := by
  obtain ⟨front,back,located,first⟩ := iterFirst_located valid start
  rw [forEachIn,first finish within,located.intersecting]
  apply forEach_shape valid finish located.contents
  have := congrArg length located.contents
  simp only [length_append] at this
  omega

theorem iterFirst_spec (within : start ≤ finish) :
    iterFirst s start finish = (s.head.filter fun p => Intersects s start finish p).head? := by
  obtain ⟨front,back,located,first⟩ := iterFirst_located valid start
  rw [first finish within,located.intersecting]
  cases back with
  | nil => rfl
  | cons p back =>
    by_cases low : (s.node p).start ≤ finish
    · simp [low]
    · have above := starts_above valid located.contents low
      rw [filter_eq_nil_iff.mpr (by simpa using above)]
      simp [Option.filter,low]

theorem find_spec : find s addr = some p ↔ p ∈ s.head ∧ Contains s p addr := by
  obtain ⟨front,back,located,node,-⟩ := locate valid addr
  rw [node]
  constructor
  · intro found
    obtain ⟨first,low⟩ := Option.filter_eq_some_iff.mp found
    have inBack := mem_of_mem_head? first
    exact ⟨by simp [located.contents,inBack],by simpa using low,located.after p inBack⟩
  · rintro ⟨member,low,high⟩
    rw [located.contents] at member
    rcases mem_append.mp member with inFront | inBack
    · have := located.before p inFront
      bv_omega
    · cases back with
      | nil => simp at inBack
      | cons q back =>
        rcases mem_cons.mp inBack with rfl | later
        · simp [low]
        · -- The first of the rest ends at or after the address, so a later one starts above.
          have ordered := valid.ordered
          rw [located.contents,pairwise_append,pairwise_cons] at ordered
          have := ordered.2.1.1 p later
          have := located.after q (by simp)
          bv_omega

def Covered (s : State) (addr : NvU64) : Prop := ∃ p ∈ s.head, Contains s p addr

/-- A node-free interval around an address. -/
structure Free (s : State) (addr low high : NvU64) : Prop where
  low_le : low ≤ addr
  le_high : addr ≤ high
  clear : ∀ x, low ≤ x → x ≤ high → ¬Covered s x

structure IsHole (s : State) (addr low high : NvU64) : Prop extends Free s addr low high where
  maximal : ∀ low' high', Free s addr low' high' → low ≤ low' ∧ high' ≤ high

/-- The hole starts right after the last node below the address. -/
theorem holeStart_spec (located : Located s addr front back) : holeStart s front.getLast? ≤ addr ∧
    (∀ p ∈ front, (s.node p).finish < holeStart s front.getLast?) ∧
    ∀ x, x < holeStart s front.getLast? → ∃ y, x ≤ y ∧ y < addr ∧ Covered s y := by
  rcases eq_nil_or_concat' front with rfl | ⟨initial,p,rfl⟩
  · refine ⟨?_,by simp,fun x below => ?_⟩ <;> simp only [getLast?_nil,holeStart] at * <;> bv_omega
  · have member : p ∈ s.head := by simp [located.contents]
    have below := located.before p (by simp)
    have ordered := valid.ordered
    rw [located.contents,append_assoc,pairwise_append] at ordered
    have proper := valid.proper p member
    simp only [getLast?_concat,holeStart]
    refine ⟨by bv_omega,fun a inFront => ?_,fun x before =>
      ⟨(s.node p).finish,by bv_omega,below,p,member,proper,by bv_omega⟩⟩
    rcases mem_append.mp inFront with earlier | here
    · have := ordered.2.2 a earlier p (by simp)
      bv_omega
    · rw [mem_singleton.mp here]
      bv_omega

/-- A hole ends below the first node from the split on, which starts above the address. -/
theorem Located.isHole (located : Located s addr front back)
    (high : addr ≤ top) (clear : ∀ p ∈ back, top < (s.node p).start)
    (blocked : ∀ x, top < x → ∃ y, addr < y ∧ y ≤ x ∧ Covered s y) :
    IsHole s addr (holeStart s front.getLast?) top := by
  obtain ⟨low,before,below⟩ := holeStart_spec valid located
  refine ⟨⟨low,high,?_⟩,?_⟩
  · rintro x lower upper ⟨p,member,inside⟩
    rw [located.contents] at member
    simp only [Contains] at inside
    rcases mem_append.mp member with inFront | inBack
    · have := before p inFront
      bv_omega
    · have := clear p inBack
      bv_omega
  · intro low' high' free
    have lower := free.low_le
    have upper := free.le_high
    constructor
    · by_contra outside
      obtain ⟨y,above,under,covered⟩ := below low' (by bv_omega)
      exact free.clear y above (by bv_omega) covered
    · by_contra outside
      obtain ⟨y,above,under,covered⟩ := blocked high' (by bv_omega)
      exact free.clear y (by bv_omega) under covered

theorem findHole_spec (addr : NvU64) : (findHole s addr = .error .addressInUse ∧ Covered s addr) ∨
      ∃ low high, findHole s addr = .ok (low,high) ∧ IsHole s addr low high := by
  obtain ⟨front,back,located,first⟩ := iterFirst_located valid addr
  have first := first ullongMax (le_ullongMax addr)
  cases back with
  | nil =>
    have final : last s = front.getLast? := by simp [last,located.contents]
    have result : findHole s addr = .ok (holeStart s front.getLast?,ullongMax) := by
      simp [findHole,first,final]
    refine .inr ⟨_,_,result,?_⟩
    apply located.isHole valid (le_ullongMax addr) (by simp)
    intro x above
    have := le_ullongMax x
    bv_omega
  | cons p back =>
    have found : iterFirst s addr ullongMax = some p := by
      simp [first,le_ullongMax]
    have member : p ∈ s.head := by simp [located.contents]
    by_cases low : (s.node p).start ≤ addr
    · exact .inl ⟨by simp [findHole,found,low],p,member,low,located.after p (by simp)⟩
    · have result :
          findHole s addr = .ok (holeStart s front.getLast?,(s.node p).start - 1) := by
        simp [findHole,found,low,prev_shape valid located.contents]
      refine .inr ⟨_,_,result,?_⟩
      apply located.isHole valid (by bv_omega)
      · intro q inBack
        have := starts_above valid located.contents
          (show ¬(s.node p).start ≤ (s.node p).start - 1 by bv_omega) q inBack
        bv_omega
      · intro x above
        exact ⟨(s.node p).start,by bv_omega,by bv_omega,p,member,by bv_omega,valid.proper p member⟩

end

/-- Queries of any tree that calls can build, for any 64-bit bounds. The list is in
address order, so the first intersecting node is the lowest. -/
theorem queries_exact (rb : RbTree) (node : Ptr → Node) (calls : List Call) (s : State)
    (run : execute rb calls (init node) = some s) :
    s.head.Pairwise (fun a b => (s.node a).finish < (s.node b).start) ∧
    (∀ addr p, find s addr = some p ↔ p ∈ s.head ∧ Contains s p addr) ∧
    (∀ start finish, start ≤ finish →
      iterFirst s start finish = (s.head.filter fun p => Intersects s start finish p).head? ∧
      ∀ fuel, s.head.length ≤ fuel → forEachIn s start finish fuel =
        some (s.head.filter fun p => Intersects s start finish p)) ∧
    ∀ addr, (Covered s addr ∧ findHole s addr = .error .addressInUse ∧
        ∀ start finish, findHoleIn s addr start finish = .error .addressInUse) ∨
      ∃ low high, findHole s addr = .ok (low,high) ∧ IsHole s addr low high ∧
        ∀ start finish, ∃ low' high', findHoleIn s addr start finish = .ok (low',high') ∧
          ∀ x, (low' ≤ x ∧ x ≤ high') ↔ (low ≤ x ∧ x ≤ high) ∧ start ≤ x ∧ x ≤ finish := by
  have valid := execute_wellFormed rb calls (init_wellFormed node) run
  refine ⟨valid.ordered,fun _ _ => find_spec valid,fun _ _ within =>
    ⟨iterFirst_spec valid within,fun _ enough => forEachIn_spec valid within enough⟩,fun addr => ?_⟩
  rcases findHole_spec valid addr with ⟨refused,covered⟩ | ⟨low,high,found,hole⟩
  · exact .inl ⟨covered,refused,fun _ _ => by simp [findHoleIn,refused]⟩
  · refine .inr ⟨low,high,found,hole,fun start finish => ?_⟩
    simp only [findHoleIn,found]
    refine ⟨_,_,rfl,fun x => ?_⟩
    split <;> split <;> bv_omega

theorem queries_exact_extreme :
    ∃ s, execute RbTree.unbalanced extremeCalls (init fun _ => ⟨5,7⟩) = some s ∧
      forEachIn s 0 ullongMax s.head.length =
        some (s.head.filter fun p => Intersects s 0 ullongMax p) := by
  obtain ⟨s,run⟩ := Option.isSome_iff_exists.mp extreme_completes
  have exact := queries_exact RbTree.unbalanced _ extremeCalls s run
  exact ⟨s,run,(exact.2.2.1 0 _ (le_ullongMax 0)).2 _ (Nat.le_refl _)⟩

end GpuExt.RangeTree
