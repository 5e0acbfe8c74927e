import Mathlib.Data.List.Basic

/-! Iterators over a range of a vector. Each call sets the index of the other direction without a
look at the ends of the range. Vectors have fewer than 2^31 elements, as the header says. -/
namespace GpuExt.VectorIter

open List

structure Iter where
  nextIndex : Int
  prevIndex : Int
  firstIndex : Int
  lastIndex : Int
  bForward : Bool
  deriving DecidableEq, Repr

/-- Of the elements at two indices, which are `~0U` for null pointers. -/
def vectIterRange (size first last : Nat) : Iter :=
  if size = 0 ∨ size ≤ first ∨ size ≤ last then ⟨-1,-1,-1,-1,true⟩
  else ⟨first,last,first,last,first ≤ last⟩

section

variable (it : Iter)

def vectIterNext : Option Int × Iter :=
  if it.nextIndex = -1 then (none,it)
  else (some it.nextIndex,{ it with
    prevIndex := if it.bForward then it.nextIndex - 1 else it.nextIndex + 1
    nextIndex := if it.nextIndex = it.lastIndex then -1
      else if it.bForward then it.nextIndex + 1 else it.nextIndex - 1 })

def vectIterPrev : Option Int × Iter :=
  if it.prevIndex = -1 then (none,it)
  else (some it.prevIndex,{ it with
    nextIndex := if it.bForward then it.prevIndex + 1 else it.prevIndex - 1
    prevIndex := if it.prevIndex = it.firstIndex then -1
      else if it.bForward then it.prevIndex - 1 else it.prevIndex + 1 })

end

inductive Call where
  | next
  | prev
  deriving DecidableEq, Repr

def call : Call → Iter → Option Int × Iter
  | .next,it => vectIterNext it
  | .prev,it => vectIterPrev it

/-- The indices of the elements that are returned. -/
def returned : List Call → Iter → List Int
  | [],_ => []
  | c :: calls,it => (call c it).1.toList ++ returned calls (call c it).2

variable {first last : Nat} {latest : Option (Call × Int)} {it : Iter}

def InRange (first last : Nat) (i : Int) : Prop :=
  min (first : Int) last ≤ i ∧ i ≤ max (first : Int) last

def step (first last : Nat) : Int := if first ≤ last then 1 else -1

/-- A call back over the end at which the latest element was returned, unless the index behind it
is that of an iterator at its end. -/
def leaves (first last : Nat) : Option (Call × Int) → Call → Bool
  | some (.next,i),.prev => i = first && first - step first last ≠ -1
  | some (.prev,i),.next => i = last && last + step first last ≠ -1
  | _,_ => false

/-- No call leaves the range, after the latest one that returned an element. -/
def stays (first last : Nat) : Option (Call × Int) → Iter → List Call → Bool
  | _,_,[] => true
  | latest,it,c :: calls => !leaves first last latest c &&
    stays first last (((call c it).1.map (c,·)).or latest) (call c it).2 calls

/-- Where the indices are after the latest call that returned an element. -/
def Indices (first last : Nat) (it : Iter) : Option (Call × Int) → Prop
  | none => it.nextIndex = first ∧ it.prevIndex = last
  | some (.next,i) => InRange first last i ∧ it.prevIndex = i - step first last ∧
    it.nextIndex = if i = last then -1 else i + step first last
  | some (.prev,i) => InRange first last i ∧ it.nextIndex = i + step first last ∧
    it.prevIndex = if i = first then -1 else i - step first last

structure Tracks (first last : Nat) (latest : Option (Call × Int)) (it : Iter) : Prop where
  firstIndex : it.firstIndex = first
  lastIndex : it.lastIndex = last
  bForward : it.bForward = decide (first ≤ last)
  indices : Indices first last it latest

theorem Tracks.outside {c : Call} (tracks : Tracks first last latest it)
    (leaves : leaves first last latest c = true) :
    ∃ i, (call c it).1 = some i ∧ ¬InRange first last i := by
  obtain ⟨-,-,-,indices⟩ := tracks
  rcases latest with _ | ⟨_ | _,i⟩ <;> cases c <;> simp [VectorIter.leaves] at leaves
  all_goals
    obtain ⟨rfl,notEnd⟩ := leaves
    simp only [Indices] at indices
    refine ⟨_,by simp only [call,vectIterNext,vectIterPrev,indices,notEnd,if_false]; rfl,?_⟩
    simp only [InRange,step]
    split <;> omega

theorem Tracks.inside {c : Call} (tracks : Tracks first last latest it)
    (stays : leaves first last latest c = false) :
    (∀ i, (call c it).1 = some i → InRange first last i) ∧
      Tracks first last (((call c it).1.map (c,·)).or latest) (call c it).2 := by
  obtain ⟨firstEq,lastEq,forward,indices⟩ := tracks
  cases c <;> simp only [call,vectIterNext,vectIterPrev] <;> split
  case next.isTrue | prev.isTrue => exact ⟨by simp,firstEq,lastEq,forward,indices⟩
  all_goals
    refine ⟨fun i same => ?_,firstEq,lastEq,forward,?_⟩
    all_goals
      rcases latest with _ | ⟨_ | _,j⟩ <;> simp only [leaves,Indices,Bool.and_eq_false_iff,
        decide_eq_false_iff_not] at stays indices ⊢ <;> grind [InRange,step]

theorem returned_iff (tracks : Tracks first last latest it) (calls : List Call) :
    (∀ i ∈ returned calls it, InRange first last i) ↔ stays first last latest it calls = true := by
  induction calls generalizing latest it with
  | nil => simp [returned,stays]
  | cons c calls ih =>
    rw [stays]
    cases leaves : leaves first last latest c with
    | true =>
      obtain ⟨i,result,outside⟩ := tracks.outside leaves
      refine iff_of_false (fun inside => outside (inside i ?_)) (by simp)
      simp [returned,result]
    | false =>
      obtain ⟨here,next⟩ := tracks.inside leaves
      simp only [returned,mem_append,Option.mem_toList,or_imp,forall_and,Bool.not_false,
        Bool.true_and,← ih next]
      exact and_iff_right here

/-! Calls of one kind only. -/

section

variable (it) (c : Call)

/-- The index that the next call returns. -/
def Iter.ahead : Int := if c = .next then it.nextIndex else it.prevIndex

def Iter.final : Int := if c = .next then it.lastIndex else it.firstIndex

def Iter.turn : Int := if it.bForward = (c = .next) then 1 else -1

theorem call_ahead : it.ahead c ≠ -1 → (call c it).1 = some (it.ahead c) ∧
    (call c it).2.ahead c = (if it.ahead c = it.final c then -1 else it.ahead c + it.turn c) ∧
    (call c it).2.final c = it.final c ∧ (call c it).2.turn c = it.turn c := by
  cases c <;> grind [Iter.ahead,Iter.final,Iter.turn,call,vectIterNext,vectIterPrev]

theorem returned_ended (ended : it.ahead c = -1) (m : Nat) : returned (replicate m c) it = [] := by
  have none : call c it = (none,it) := by
    cases c <;> exact if_pos ended
  induction m with
  | zero => rfl
  | succ m ih => simpa [replicate_succ,returned,none] using ih

end

theorem returned_replicate (c : Call) (n m : Nat) (ends : it.final c = it.ahead c + it.turn c * n)
    (low : 0 ≤ it.ahead c) (high : 0 ≤ it.final c) : returned (replicate m c) it =
      ((range (n + 1)).take m).map fun k : Nat => it.ahead c + it.turn c * k := by
  induction m generalizing it n with
  | zero => rfl
  | succ m ih =>
    obtain ⟨result,ahead,final,turn⟩ := call_ahead it c (by omega)
    simp only [replicate_succ,returned,result,Option.toList_some,singleton_append]
    cases n with
    | zero =>
      rw [returned_ended _ _ (by simp_all)]
      simp
    | succ n =>
      have one : it.turn c = 1 ∨ it.turn c = -1 := by simp only [Iter.turn]; split <;> simp
      rw [if_neg (by grind)] at ahead
      rw [ih n (by grind) (by grind) (by grind)]
      rw [range_succ_eq_map (n := n + 1),take_succ_cons,map_cons,← map_take,map_map,ahead,turn]
      exact congrArg₂ cons (by simp) (map_congr_left fun k _ => by grind)

/-- The elements that are returned are in the range just if no call goes back over an end of it.
Calls of one kind return the range once, in their order. -/
theorem iterators_in_range (size first last : Nat) (firstIn : first < size) (lastIn : last < size) :
    (∀ calls, (∀ i ∈ returned calls (vectIterRange size first last), InRange first last i) ↔
      stays first last none (vectIterRange size first last) calls = true) ∧
    ∀ m, returned (replicate m .next) (vectIterRange size first last) =
        ((range (max first last - min first last + 1)).take m).map
          (fun k : Nat => first + step first last * k) ∧
      returned (replicate m .prev) (vectIterRange size first last) =
        ((range (max first last - min first last + 1)).take m).map
          fun k : Nat => last - step first last * k := by
  have range : vectIterRange size first last = ⟨first,last,first,last,first ≤ last⟩ :=
    if_neg (by omega)
  rw [range]
  refine ⟨returned_iff ⟨rfl,rfl,rfl,rfl,rfl⟩,fun m => ⟨?_,?_⟩⟩
  · rw [returned_replicate .next (max first last - min first last) m] <;>
      grind [Iter.ahead,Iter.final,Iter.turn,step]
  · rw [returned_replicate .prev (max first last - min first last) m] <;>
      grind [Iter.ahead,Iter.final,Iter.turn,step]

theorem iterators_in_range_sample :
    returned (replicate 3 .prev) (vectIterRange 4 1 2) = [2,1] ∧
      ∀ i ∈ returned [.next,.next,.prev] (vectIterRange 4 1 2), InRange 1 2 i :=
  ⟨((iterators_in_range 4 1 2 (by decide) (by decide)).2 3).2,
    ((iterators_in_range 4 1 2 (by decide) (by decide)).1 _).mpr (by decide)⟩

/-- An element in front of the range, and one that is not in the vector. -/
theorem iterator_leaves : returned [.next,.prev] (vectIterRange 4 1 2) = [1,0] ∧
    returned [.prev,.next] (vectIterRange 3 0 2) = [2,3] := by
  decide

end GpuExt.VectorIter
