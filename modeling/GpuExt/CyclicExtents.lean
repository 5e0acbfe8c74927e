import Mathlib.Data.List.Basic
import Mathlib.Data.List.Perm.Basic

/-! Extents of a buffer in the order in which they were placed. Each follows the one before
or starts over at a lower address, below the oldest; so the list is ascending once it is cut
at the place where it started over. -/
namespace GpuExt.CyclicExtents

open List

structure Extent where
  start : Nat
  stop : Nat
  deriving DecidableEq, Repr

def Extent.Before (a b : Extent) : Prop := a.stop ≤ b.start

def Extent.Apart (a b : Extent) : Prop := a.Before b ∨ b.Before a

/-- `lower` was placed after `upper`, at lower addresses. -/
def Cyclic (extents : List Extent) : Prop :=
  ∃ upper lower, extents = upper ++ lower ∧ (lower ++ upper).Pairwise Extent.Before

variable {extents kept : List Extent} {a b w w' : Extent}

theorem Extent.Before.start_le (before : a.Before w) (later : w.start ≤ w'.start) : a.Before w' :=
  Nat.le_trans before later

theorem Extent.Before.stop_le (before : w.Before b) (shorter : w'.stop ≤ w.stop) : w'.Before b :=
  Nat.le_trans shorter before

theorem cyclic_nil : Cyclic [] := ⟨[],[],rfl,.nil⟩

theorem cyclic_single : Cyclic [w] := ⟨[w],[],rfl,pairwise_singleton _ _⟩

/-- Extents may go away in any order. -/
theorem Cyclic.sublist (cyclic : Cyclic extents) (sub : kept.Sublist extents) : Cyclic kept := by
  obtain ⟨upper,lower,rfl,ascending⟩ := cyclic
  obtain ⟨keptUpper,keptLower,rfl,subUpper,subLower⟩ := sublist_append_iff.mp sub
  exact ⟨keptUpper,keptLower,rfl,ascending.sublist (subLower.append subUpper)⟩

theorem Cyclic.apart (cyclic : Cyclic extents) : extents.Pairwise Extent.Apart := by
  obtain ⟨upper,lower,rfl,ascending⟩ := cyclic
  exact (perm_append_comm.pairwise_iff Or.symm).mp (ascending.imp Or.inl)

/-- The newest extent may turn out shorter than planned. -/
theorem Cyclic.shrink (cyclic : Cyclic (extents ++ [w])) (start : w'.start = w.start)
    (stop : w'.stop ≤ w.stop) : Cyclic (extents ++ [w']) := by
  obtain ⟨upper,lower,whole,ascending⟩ := cyclic
  rcases eq_nil_or_concat lower with rfl | ⟨lower,last,rfl⟩
  · rw [append_nil] at whole
    subst whole
    rw [nil_append,pairwise_append] at ascending
    refine ⟨extents ++ [w'],[],by simp,?_⟩
    rw [nil_append,pairwise_append]
    refine ⟨ascending.1,pairwise_singleton _ _,fun a inside b here => ?_⟩
    cases mem_singleton.mp here
    exact (ascending.2.2 a inside w (by simp)).start_le (Nat.le_of_eq start.symm)
  · rw [concat_eq_append,← append_assoc] at whole
    obtain ⟨rfl,same⟩ := append_inj' whole rfl
    cases same
    rw [concat_eq_append,append_assoc,pairwise_append] at ascending
    obtain ⟨low,high,between⟩ := ascending
    obtain ⟨above,rest⟩ := pairwise_cons.mp high
    refine ⟨upper,lower ++ [w'],by simp,?_⟩
    rw [append_assoc,pairwise_append]
    refine ⟨low,pairwise_cons.mpr ⟨fun b inside => (above b inside).stop_le stop,rest⟩,?_⟩
    intro a inside b there
    rcases mem_cons.mp there with rfl | there
    · exact (between a inside w (by simp)).start_le (Nat.le_of_eq start.symm)
    · exact between a inside b (mem_cons_of_mem w there)

/-- Where the next extent may go: between the newest and the oldest, or, if the extents have
not started over, after the newest or below the oldest. -/
def Room (first last w : Extent) : Prop :=
  last.stop ≤ w.start ∧ w.stop ≤ first.start ∨
    first.start < last.stop ∧ (last.stop ≤ w.start ∨ w.stop ≤ first.start)

variable {first last : Extent} {rest : List Extent}

theorem below_all (ascending : (first :: rest).Pairwise Extent.Before)
    (positive : ∀ a ∈ first :: rest, a.start < a.stop) (below : w.stop ≤ first.start) :
    ∀ a ∈ first :: rest, w.Before a := by
  intro a member
  rcases mem_cons.mp member with rfl | later
  · exact below
  · have order : first.stop ≤ a.start := (pairwise_cons.mp ascending).1 a later
    have short := positive first (by simp)
    exact Nat.le_trans below (Nat.le_trans (Nat.le_of_lt short) order)

theorem above_all (ascending : extents.Pairwise Extent.Before)
    (positive : ∀ a ∈ extents, a.start < a.stop) (newest : extents.getLast? = some last)
    (above : last.stop ≤ w.start) : ∀ a ∈ extents, a.Before w := by
  intro a member
  obtain ⟨initial,rfl⟩ := getLast?_eq_some_iff.mp newest
  rcases mem_append.mp member with earlier | here
  · have order : a.stop ≤ last.start := (pairwise_append.mp ascending).2.2 a earlier last (by simp)
    have long := positive last (by simp)
    exact Nat.le_trans order (Nat.le_trans (Nat.le_of_lt long) above)
  · cases mem_singleton.mp here
    exact above

/-- An ascending list takes the new extent at either end. -/
theorem cyclic_ascending (ascending : (first :: rest).Pairwise Extent.Before)
    (positive : ∀ a ∈ first :: rest, a.start < a.stop)
    (newest : (first :: rest).getLast? = some last)
    (room : last.stop ≤ w.start ∨ w.stop ≤ first.start) : Cyclic (first :: rest ++ [w]) := by
  rcases room with above | below
  · refine ⟨first :: rest ++ [w],[],by simp,?_⟩
    rw [nil_append,pairwise_append]
    refine ⟨ascending,pairwise_singleton _ _,fun a inside b here => ?_⟩
    cases mem_singleton.mp here
    exact above_all ascending positive newest above a inside
  · exact ⟨first :: rest,[w],rfl,pairwise_cons.mpr ⟨below_all ascending positive below,ascending⟩⟩

theorem Cyclic.append (cyclic : Cyclic extents) (positive : ∀ a ∈ extents, a.start < a.stop)
    (oldest : extents.head? = some first) (newest : extents.getLast? = some last)
    (room : Room first last w) : Cyclic (extents ++ [w]) := by
  obtain ⟨upper,lower,rfl,ascending⟩ := cyclic
  have either : last.stop ≤ w.start ∨ w.stop ≤ first.start := by
    rcases room with ⟨above,_⟩ | ⟨_,room⟩
    · exact .inl above
    · exact room
  cases upper with
  | nil =>
    rw [append_nil] at ascending
    cases lower with
    | nil => cases oldest
    | cons a rest =>
      cases oldest
      exact cyclic_ascending ascending positive newest either
  | cons a rest =>
    cases oldest
    cases lower with
    | nil =>
      rw [append_nil] at *
      exact cyclic_ascending ascending positive newest either
    | cons b others =>
      -- The list has started over, so the gap between newest and oldest is all there is.
      have lastLower : (b :: others).getLast? = some last := by
        rw [getLast?_append] at newest
        rcases shape : (b :: others).getLast? with _ | other
        · simp at shape
        · rw [shape] at newest
          exact newest
      obtain ⟨low,high,between⟩ := pairwise_append.mp ascending
      have order : last.stop ≤ first.start :=
        between last (mem_of_getLast? lastLower) first (by simp)
      obtain ⟨above,below⟩ : last.stop ≤ w.start ∧ w.stop ≤ first.start := by
        rcases room with gap | ⟨wrong,_⟩
        · exact gap
        · omega
      refine ⟨first :: rest,b :: others ++ [w],by simp,?_⟩
      rw [append_assoc,pairwise_append]
      have lowPositive : ∀ a ∈ b :: others, a.start < a.stop := fun a inside =>
        positive a (mem_append_right _ inside)
      have highPositive : ∀ a ∈ first :: rest, a.start < a.stop := fun a inside =>
        positive a (mem_append_left _ inside)
      refine ⟨low,pairwise_cons.mpr ⟨below_all high highPositive below,high⟩,?_⟩
      intro x inside y there
      rcases mem_cons.mp there with rfl | there
      · exact above_all low lowPositive lastLower above x inside
      · exact between x inside y there

end GpuExt.CyclicExtents
