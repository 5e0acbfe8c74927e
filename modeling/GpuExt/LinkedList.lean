import Mathlib.Data.List.Basic

/-! An intrusive doubly linked list seen from its head: the list of the linked
elements in order. Each operation is stated for an element found at its first
occurrence, so a duplicate-free list determines every result. -/
namespace GpuExt.LinkedList

open List

variable {α : Type} [DecidableEq α] {p node : α} {front back : List α}

def next (p : α) : List α → Option α
  | [] => none
  | x :: rest => if x = p then rest.head? else next p rest

def prev (p : α) : List α → Option α
  | x :: y :: rest => if y = p then some x else prev p (y :: rest)
  | _ => none

def addAfter (node position : α) : List α → List α
  | [] => []
  | x :: rest => if x = position then x :: node :: rest else x :: addAfter node position rest

def addBefore (node position : α) : List α → List α
  | [] => []
  | x :: rest => if x = position then node :: x :: rest else x :: addBefore node position rest

theorem next_append (fresh : p ∉ front) : next p (front ++ p :: back) = back.head? := by
  induction front with
  | nil => simp [next]
  | cons x front ih =>
    simp only [mem_cons,not_or] at fresh
    simp [next,Ne.symm fresh.1,ih fresh.2]

theorem prev_absent (absent : p ∉ back) : prev p (x :: back) = none := by
  induction back generalizing x with
  | nil => rfl
  | cons y back ih =>
    simp only [mem_cons,not_or] at absent
    simp [prev,Ne.symm absent.1,ih absent.2]

section

variable (fresh : p ∉ front)
include fresh

theorem prev_append (later : p ∉ back) : prev p (front ++ p :: back) = front.getLast? := by
  induction front with
  | nil => simpa using prev_absent later
  | cons x front ih =>
    simp only [mem_cons,not_or] at fresh
    cases front with
    | nil => simp [prev]
    | cons y front =>
      have apart : y ≠ p := by
        intro same
        exact fresh.2 (by simp [same])
      have rest := ih fresh.2
      simp only [cons_append] at rest
      simp [prev,apart,rest]

theorem addAfter_append : addAfter node p (front ++ p :: back) = front ++ p :: node :: back := by
  induction front with
  | nil => simp [addAfter]
  | cons x front ih =>
    simp only [mem_cons,not_or] at fresh
    simp [addAfter,Ne.symm fresh.1,ih fresh.2]

theorem addBefore_append : addBefore node p (front ++ p :: back) = front ++ node :: p :: back := by
  induction front with
  | nil => simp [addBefore]
  | cons x front ih =>
    simp only [mem_cons,not_or] at fresh
    simp [addBefore,Ne.symm fresh.1,ih fresh.2]

theorem erase_append : (front ++ p :: back).erase p = front ++ back := by
  rw [erase_append_right _ fresh,erase_cons_head]

end

end GpuExt.LinkedList
