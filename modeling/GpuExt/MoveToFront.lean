import Mathlib.Data.Finset.Card
import Mathlib.Data.List.Nodup
import Mathlib.Logic.Relation

/-! A walk over an acyclic graph that moves every node it meets to the front of one list, and
then goes on with the successors of the node. A node can be moved many times; in the end every
node stands behind its successors. -/
namespace GpuExt.MoveToFront

open List

variable {α : Type} (next : α → List α)

/-- No path from the node has more than so many nodes. -/
def Bounded : Nat → α → Prop
  | 0, _ => False
  | fuel + 1, x => ∀ y ∈ next x, Bounded fuel y

def Edge (x y : α) : Prop := y ∈ next x

def Reach : α → α → Prop := Relation.ReflTransGen (Edge next)

/-- No node stands before one that it leads to. -/
def Settled (list : List α) : Prop := list.Pairwise fun x y => y ∉ next x

variable {next}

variable {fuel : Nat} {x : α} {next' : α → List α} {walk : List α → List α} {list : List α}

theorem Bounded.mono : ∀ {x : α}, Bounded next fuel x → Bounded next (fuel + 1) x := by
  induction fuel with
  | zero => exact fun impossible => impossible.elim
  | succ fuel ih => exact fun bounded y edge => ih (bounded y edge)

theorem Bounded.reach {y : α} (bounded : Bounded next fuel x) (path : Reach next x y) :
    Bounded next fuel y := by
  induction path with
  | refl => exact bounded
  | tail _ edge ih =>
    cases fuel with
    | zero => exact ih.elim
    | succ fuel => exact (ih _ edge).mono

/-- From a bounded node no cycle can be reached. -/
theorem Bounded.irreflexive : ∀ {x y : α}, Bounded next fuel x → y ∈ next x →
    ¬Reach next y x := by
  induction fuel with
  | zero => exact fun impossible => impossible.elim
  | succ fuel ih =>
    intro x y bounded edge path
    have back := (bounded y edge).reach path
    exact ih back edge path

theorem reach_iff {y : α} : Reach next x y ↔ x = y ∨ ∃ z ∈ next x, Reach next z y :=
  Relation.ReflTransGen.cases_head_iff

/-- On a finite set that is closed under successors, the absence of cycles bounds the paths. -/
theorem bounded_of_acyclic {n : Nat} : ∀ {nodes : Finset α}, nodes.card ≤ n →
    (∀ x ∈ nodes, ∀ y ∈ next x, y ∈ nodes) →
    (∀ x ∈ nodes, ¬Relation.TransGen (Edge next) x x) → ∀ x ∈ nodes, Bounded next n x := by
  induction n with
  | zero =>
    intro nodes empty _ _ x member
    exact absurd (Finset.card_pos.mpr ⟨x,member⟩) (by omega)
  | succ n ih =>
    classical
    intro nodes small closed acyclic x member y edge
    have within : ∀ z, Reach next y z → z ∈ nodes := by
      intro z path
      induction path with
      | refl => exact closed x member y edge
      | tail _ step inside => exact closed _ inside _ step
    -- The node itself is not among those reached from its successor.
    have missing : nodes.filter (Reach next y) ⊆ nodes.erase x := by
      intro z inside
      obtain ⟨inside,path⟩ := Finset.mem_filter.mp inside
      refine Finset.mem_erase.mpr ⟨?_,inside⟩
      rintro rfl
      exact acyclic z member (Relation.TransGen.head' edge path)
    have smaller : (nodes.filter (Reach next y)).card ≤ n := by
      have size := Finset.card_le_card missing
      rw [Finset.card_erase_of_mem member] at size
      omega
    refine ih smaller ?_ ?_ y (Finset.mem_filter.mpr ⟨within y .refl,.refl⟩)
    · intro z inside w step
      obtain ⟨-,path⟩ := Finset.mem_filter.mp inside
      have further : Reach next y w := path.tail step
      exact Finset.mem_filter.mpr ⟨within w further,further⟩
    · intro z inside
      exact acyclic z (Finset.mem_filter.mp inside).1

/-- With one more edge, a path is an old one or goes over the edge. -/
theorem reach_added {a b : α} (added : ∀ x y,y ∈ next' x → y ∈ next x ∨ x = a ∧ y = b) {y : α}
    (path : Reach next' x y) : Reach next x y ∨ Reach next x a ∧ Reach next b y := by
  induction path with
  | refl => exact .inl .refl
  | tail _ edge ih =>
    rcases added _ _ edge with old | ⟨rfl,rfl⟩
    · exact ih.imp (·.tail old) fun past => ⟨past.1,past.2.tail old⟩
    · exact .inr ⟨ih.elim id (·.1),.refl⟩

/-- An edge to a node that does not lead back closes no cycle. -/
theorem acyclic_added {a b : α} (added : ∀ x y,y ∈ next' x → y ∈ next x ∨ x = a ∧ y = b)
    (apart : ¬Reach next b a) (acyclic : ¬Relation.TransGen (Edge next) x x) :
    ¬Relation.TransGen (Edge next') x x := by
  intro cycle
  obtain ⟨y,edge,path⟩ := Relation.TransGen.head'_iff.mp cycle
  rcases added _ _ edge with old | ⟨rfl,rfl⟩
  · rcases reach_added added path with back | ⟨there,onward⟩
    · exact acyclic (.head' old back)
    · exact apart (onward.trans (.head old there))
  · rcases reach_added added path with back | ⟨there,_⟩
    · exact apart back
    · exact apart there

variable [DecidableEq α]

variable (next) in
/-- Move a node to the front, then what can be reached from it. -/
def visit : Nat → α → List α → List α
  | 0, _, list => list
  | fuel + 1, x, list => (next x).foldl (fun list y => visit fuel y list) (x :: list.erase x)

variable (next) in
def visitAll (fuel : Nat) (xs list : List α) : List α :=
  xs.foldl (fun list x => visit next fuel x list) list

/-- What a walk puts in front of a list: all that it reaches, each node once and settled. -/
structure Front (next : α → List α) (starts front : List α) (walk : List α → List α) : Prop where
  mem : ∀ y, y ∈ front ↔ ∃ x ∈ starts, Reach next x y
  nodup : front.Nodup
  settled : Settled next front
  walk_eq : ∀ list : List α, list.Nodup → walk list = front ++ list.filter (· ∉ front)

theorem Front.closed {starts front : List α} (isFront : Front next starts front walk) {y : α}
    (member : x ∈ front) (edge : y ∈ next x) : y ∈ front := by
  obtain ⟨start,isStart,path⟩ := (isFront.mem x).mp member
  exact (isFront.mem y).mpr ⟨start,isStart,path.tail edge⟩

theorem Front.walk_nodup {starts front : List α} (isFront : Front next starts front walk)
    (nodup : list.Nodup) : (walk list).Nodup := by
  rw [isFront.walk_eq list nodup]
  refine nodup_append'.mpr ⟨isFront.nodup,nodup.filter _,?_⟩
  intro y inFront inList
  simpa [inFront] using (mem_filter.mp inList).2

theorem Front.walk_settled {starts front : List α} (isFront : Front next starts front walk)
    (nodup : list.Nodup) (settled : Settled next list) : Settled next (walk list) := by
  rw [isFront.walk_eq list nodup]
  refine pairwise_append.mpr ⟨isFront.settled,settled.filter _,?_⟩
  intro y inFront z inRest edge
  have reached := isFront.closed inFront edge
  simpa [reached] using (mem_filter.mp inRest).2

theorem visitAll_front (xs : List α)
    (each : ∀ x ∈ xs, ∃ front, Front next [x] front (visit next fuel x)) :
    ∃ front, Front next xs front (visitAll next fuel xs) := by
  induction xs with
  | nil => exact ⟨[],by simp,by simp,by simp [Settled],by simp [visitAll]⟩
  | cons x xs ih =>
    obtain ⟨early,isEarly⟩ := each x (by simp)
    obtain ⟨late,isLate⟩ := ih fun y member => each y (by simp [member])
    refine ⟨late ++ early.filter (· ∉ late),?_,?_,?_,?_⟩
    · intro y
      have inEarly := isEarly.mem y
      simp only [mem_singleton,exists_eq_left] at inEarly
      have inLate := isLate.mem y
      simp only [mem_append,mem_filter,decide_eq_true_eq,exists_mem_cons_iff,← inLate]
      tauto
    · refine nodup_append'.mpr ⟨isLate.nodup,isEarly.nodup.filter _,?_⟩
      intro y inLate inRest
      simpa [inLate] using (mem_filter.mp inRest).2
    · refine pairwise_append.mpr ⟨isLate.settled,isEarly.settled.filter _,?_⟩
      intro y inLate z inRest edge
      have reached := isLate.closed inLate edge
      simpa [reached] using (mem_filter.mp inRest).2
    · intro list nodup
      have first := isEarly.walk_eq list nodup
      have after := isLate.walk_eq _ (isEarly.walk_nodup nodup)
      simp only [visitAll,foldl_cons] at after ⊢
      rw [after,first]
      simp only [filter_append,filter_filter,append_assoc]
      congr 2
      refine filter_congr fun y _ => ?_
      by_cases inLate : y ∈ late <;> simp [inLate]

theorem visit_front : ∀ {x : α}, Bounded next fuel x →
    ∃ front, Front next [x] (front ++ [x]) (visit next fuel x) ∧
      Front next (next x) front (visitAll next (fuel - 1) (next x)) := by
  induction fuel with
  | zero => exact fun impossible => impossible.elim
  | succ fuel ih =>
    intro x bounded
    have each : ∀ y ∈ next x, ∃ front, Front next [y] front (visit next fuel y) := by
      intro y edge
      obtain ⟨front,isFront,-⟩ := ih (bounded y edge)
      exact ⟨front ++ [y],isFront⟩
    obtain ⟨front,isFront⟩ := visitAll_front _ each
    have absent : x ∉ front := by
      intro member
      obtain ⟨y,edge,path⟩ := (isFront.mem x).mp member
      exact bounded.irreflexive edge path
    refine ⟨front,⟨?_,?_,?_,?_⟩,isFront⟩
    · intro y
      rw [mem_append,isFront.mem y]
      simp only [mem_singleton,exists_eq_left]
      rw [reach_iff (x := x),or_comm,eq_comm]
    · exact nodup_append'.mpr ⟨isFront.nodup,by simp,by simpa using absent⟩
    · refine pairwise_append.mpr ⟨isFront.settled,by simp,?_⟩
      intro y member z isX edge
      rw [mem_singleton.mp isX] at edge
      exact absent (isFront.closed member edge)
    · intro list nodup
      have moved : (x :: list.erase x).Nodup := nodup_cons.mpr ⟨nodup.not_mem_erase,nodup.erase x⟩
      have walked := isFront.walk_eq _ moved
      simp only [visitAll] at walked
      simp only [visit]
      rw [walked,filter_cons_of_pos (by simpa using absent),nodup.erase_eq_filter,
        filter_filter,append_assoc]
      congr 2
      refine filter_congr fun y _ => ?_
      by_cases same : y = x <;> simp [same]

/-- In a settled list that has no node twice, a node stands behind the nodes it leads to. -/
theorem Settled.idxOf_lt (settled : Settled next list) {y : α} (inX : x ∈ list) (inY : y ∈ list)
    (edge : y ∈ next x) (differ : x ≠ y) : list.idxOf y < list.idxOf x := by
  have boundX := idxOf_lt_length_of_mem inX
  have boundY := idxOf_lt_length_of_mem inY
  have distinct : list.idxOf y ≠ list.idxOf x := fun same =>
    differ ((idxOf_inj inY).mp same).symm
  by_contra before
  have ordered : list.idxOf x < list.idxOf y := by omega
  have apart := pairwise_iff_getElem.mp settled _ _ boundX boundY ordered
  rw [getElem_idxOf boundX,getElem_idxOf boundY] at apart
  exact apart edge

end GpuExt.MoveToFront
