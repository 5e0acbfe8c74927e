import GpuExt.ListHead

/-! Circles of list nodes without a distinguished head: any node may stand for the list, and
`list_replace` puts another node in its place. -/
namespace GpuExt.ListHead

open List

variable {H E : Type}

/-- Starting at `x`, the entries in order and back to `x`, none of them twice. -/
structure Circle (l : Links H E) (x : E) (es : List E) : Prop where
  linked : Segment l (.entry x) es (.entry x)
  nodup : (x :: es).Nodup

variable {l m : Links H E} {x new e : E} {es : List E}

theorem circle_iff : Circle l x es ↔ Ring l ↑((.entry x : Node H E) :: es.map .entry) := by
  rw [ring_iff,← map_cons,nodup_map_iff fun _ _ => Node.entry.inj]
  exact ⟨fun circle => ⟨circle.linked,circle.nodup⟩,fun ⟨linked,nodup⟩ => ⟨linked,nodup⟩⟩

theorem Circle.frame (circle : Circle l x es)
    (nexts : ∀ e ∈ x :: es, m.next (.entry e) = l.next (.entry e))
    (prevs : ∀ e ∈ x :: es, m.prev (.entry e) = l.prev (.entry e)) : Circle m x es := by
  refine circle_iff.mpr ((circle_iff.mp circle).frame fun n inside => ?_)
  rw [← map_cons] at inside
  obtain ⟨e,member,rfl⟩ := mem_map.mp inside
  exact ⟨nexts e member,prevs e member⟩

theorem Circle.neighbours (circle : Circle l x es) :
    (∃ e ∈ x :: es, .entry e = l.prev (.entry x)) ∧ ∃ e ∈ x :: es, .entry e = l.next (.entry x) := by
  obtain ⟨before,after⟩ := (circle_iff.mp circle).neighbours (n := .entry x) (by simp)
  exact ⟨mem_map.mp (Cycle.mem_coe_iff.mp before),mem_map.mp (Cycle.mem_coe_iff.mp after)⟩

variable [DecidableEq H] [DecidableEq E]

def listReplace (l : Links H E) (old new : Node H E) : Links H E :=
  let l := l.setNext new (l.next old)
  let l := l.setPrev (l.next new) new
  let l := l.setPrev new (l.prev old)
  l.setNext (l.prev new) new

theorem circle_init (l : Links H E) (x : E) : Circle (initListHead l (.entry x)) x [] :=
  circle_iff.mpr ring_single

theorem initListHead_other (l : Links H E) (other : e ≠ x) :
    (initListHead l (.entry x)).next (.entry e) = l.next (.entry e) ∧
      (initListHead l (.entry x)).prev (.entry e) = l.prev (.entry e) :=
  join_other (by simpa using other) (by simpa using other)

section

variable (circle : Circle l x es)
include circle

/-- `list_add` puts the new node right after the one that stands for the list. -/
theorem Circle.add (fresh : new ∉ x :: es) :
    Circle (listAdd l (.entry new) (.entry x)) x (new :: es) := by
  have ring := circle_iff.mp circle
  rw [circle_iff]
  rw [Cycle.coe_cons_eq_coe_append] at ring ⊢
  exact ring.insertAfter (by simpa [or_comm] using fresh)

/-- Nodes outside the circle keep their links. -/
theorem Circle.add_other (other : e ≠ new) (outside : e ∉ x :: es) :
    (listAdd l (.entry new) (.entry x)).next (.entry e) = l.next (.entry e) ∧
      (listAdd l (.entry new) (.entry x)).prev (.entry e) = l.prev (.entry e) := by
  obtain ⟨_,first,member,next⟩ := circle.neighbours
  have notFirst : e ≠ first := fun same => outside (same ▸ member)
  have notX : e ≠ x := fun same => outside (by simp [same])
  exact addBetween_other (by simpa) (by simpa) (by simpa [← next])

/-- `list_replace` lets the new node stand for the list. -/
theorem Circle.replace (fresh : new ∉ x :: es) :
    Circle (listReplace l (.entry x) (.entry new)) new es := by
  have joins (n : Node H E) (next : l.next (.entry x) = n) : listReplace l (.entry x) (.entry new) =
      (l.join (.entry new) n).join ((l.join (.entry new) n).prev (.entry x)) (.entry new) := by
    simp [listReplace,Links.join,next]
  obtain ⟨path,last⟩ := (circle_iff.mp circle).path
  rw [circle_iff]
  cases es with
  | nil =>
    rw [joins _ last.1,linked_join.2]
    exact ring_single
  | cons f rest =>
    obtain ⟨first,path⟩ := isChain_cons_cons.mp path
    have apart : (Node.entry x : Node H E) ≠ .entry f := by
      have := circle.nodup
      simp_all
    have back : (l.join (.entry new) (.entry f)).prev (.entry x) = l.prev (.entry x) :=
      Function.update_of_ne apart _ _
    rw [joins _ first.1,back,last.2]
    refine path_insert path ?_
    refine Nodup.map (fun _ _ => Node.entry.inj) (nodup_cons.mpr ⟨?_,circle.nodup.of_cons⟩)
    exact fun member => fresh (mem_cons_of_mem x member)

theorem Circle.replace_other (other : e ≠ new) (outside : e ∉ x :: es) :
    (listReplace l (.entry x) (.entry new)).next (.entry e) = l.next (.entry e) ∧
      (listReplace l (.entry x) (.entry new)).prev (.entry e) = l.prev (.entry e) := by
  obtain ⟨⟨last,lastMember,prev⟩,first,firstMember,next⟩ := circle.neighbours
  have notFirst : e ≠ first := fun same => outside (same ▸ firstMember)
  have notLast : e ≠ last := fun same => outside (same ▸ lastMember)
  by_cases alone : x = first
  · subst alone
    simp [listReplace,← next,other,notFirst]
  · simp [listReplace,← next,← prev,other,notFirst,notLast,alone]

end

end GpuExt.ListHead
