import Mathlib.Data.List.Cycle
import Mathlib.Logic.Function.Basic

/-! Circular doubly linked lists with embedded links. A node is the head of a list or
an entry; every write goes to one link of one node, so a misused operation leaves the
damaged links that the real one leaves. -/
namespace GpuExt.ListHead

open Function List

inductive Node (H E : Type) where
  | head (h : H)
  | entry (e : E)
  deriving DecidableEq, Repr

structure Links (H E : Type) where
  next : Node H E → Node H E
  prev : Node H E → Node H E

variable {H E : Type}

/-- `x`, then the entries in order, then `y`, linked in both directions. -/
def Segment (l : Links H E) (x : Node H E) : List E → Node H E → Prop
  | [], y => l.next x = y ∧ l.prev y = x
  | e :: rest, y => l.next x = .entry e ∧ l.prev (.entry e) = x ∧ Segment l (.entry e) rest y

/-- Every head starts a circle through the entries of its list, and an entry of no list
is linked to itself. -/
structure Represents (l : Links H E) (lists : H → List E) : Prop where
  circle : ∀ h, Segment l (.head h) (lists h) (.head h)
  nodup : ∀ h, (lists h).Nodup
  apart : ∀ h k e, e ∈ lists h → e ∈ lists k → h = k
  alone : ∀ e, (∀ h, e ∉ lists h) → l.next (.entry e) = .entry e ∧ l.prev (.entry e) = .entry e

variable {l m : Links H E} {x y n a b : Node H E} {ns : List (Node H E)} {c : Cycle (Node H E)}
  {e : E} {es : List E} {lists : H → List E} {h : H}

def Linked (l : Links H E) (x y : Node H E) : Prop := l.next x = y ∧ l.prev y = x

/-- The nodes of a cycle are linked in both directions. -/
structure Ring (l : Links H E) (c : Cycle (Node H E)) : Prop where
  linked : c.Chain (Linked l)
  nodup : c.Nodup

theorem Ring.frame (ring : Ring l c) (same : ∀ n ∈ c, m.next n = l.next n ∧ m.prev n = l.prev n) :
    Ring m c := by
  refine ⟨?_,ring.nodup⟩
  have linked := ring.linked
  induction c using Cycle.induction_on with
  | nil => exact .nil _
  | cons a ns =>
    have member {n : Node H E} (inside : n ∈ a :: (ns ++ [a])) : n ∈ (↑(a :: ns) : Cycle (Node H E)) := by
      simpa [or_comm] using inside
    exact linked.imp_of_mem_imp fun x y inX inY linked =>
      ⟨(same x (member inX)).1.trans linked.1,(same y (member inY)).2.trans linked.2⟩

theorem Ring.path (ring : Ring l ↑(a :: ns)) :
    (a :: ns).IsChain (Linked l) ∧ Linked l ((a :: ns).getLast (cons_ne_nil _ _)) a := by
  have linked := (Cycle.chain_coe_cons ..).mp ring.linked
  rw [← cons_append,isChain_append] at linked
  exact ⟨linked.1,linked.2.2 _ (getLast?_eq_getLast_of_ne_nil _) _ rfl⟩

section Join

variable [DecidableEq H] [DecidableEq E]

@[simp] def Links.setNext (l : Links H E) (n value : Node H E) : Links H E :=
  { l with next := update l.next n value }

@[simp] def Links.setPrev (l : Links H E) (n value : Node H E) : Links H E :=
  { l with prev := update l.prev n value }

/-- Let `y` follow `x`. -/
def Links.join (l : Links H E) (x y : Node H E) : Links H E := (l.setPrev y x).setNext x y

theorem join_other (first : n ≠ x) (second : n ≠ y) :
    (l.join x y).next n = l.next n ∧ (l.join x y).prev n = l.prev n :=
  ⟨update_of_ne first _ _,update_of_ne second _ _⟩

theorem linked_join : Linked (l.join x y) x y := ⟨update_self .., update_self ..⟩

theorem chain_join (chain : ns.IsChain (Linked l)) (start : x ∉ ns.dropLast) (stop : y ∉ ns.tail) :
    ns.IsChain (Linked (l.join x y)) := by
  induction chain with
  | nil => exact .nil
  | singleton => exact .singleton _
  | cons_cons linked _ ih =>
    rw [dropLast_cons_cons,mem_cons,not_or] at start
    rw [tail_cons,mem_cons,not_or] at stop
    refine .cons_cons ⟨?_,?_⟩ (ih start.2 fun member => stop.2 member)
    · exact (update_of_ne (Ne.symm start.1) _ _).trans linked.1
    · exact (update_of_ne (Ne.symm stop.1) _ _).trans linked.2

theorem ring_close (path : (a :: ns).IsChain (Linked l)) (nodup : (a :: ns).Nodup) :
    Ring (l.join ((a :: ns).getLast (cons_ne_nil _ _)) a) ↑(a :: ns) := by
  refine ⟨?_,nodup⟩
  have last := dropLast_append_getLast (cons_ne_nil a ns)
  rw [Cycle.chain_coe_cons,← cons_append,isChain_append]
  refine ⟨chain_join path ?_ (nodup_cons.mp nodup).1,.singleton _,?_⟩
  · rw [← last,nodup_append] at nodup
    exact fun member => nodup.2.2 _ member _ (mem_singleton_self _) rfl
  · rintro _ ⟨⟩ _ ⟨⟩
    exact linked_join

theorem ring_single : Ring (l.join n n) ↑[n] := ring_close (.singleton n) (nodup_singleton n)

/-- A node takes its place before another one. -/
theorem path_insert (path : (a :: ns).IsChain (Linked l)) (nodup : (n :: a :: ns).Nodup) :
    Ring ((l.join n a).join ((a :: ns).getLast (cons_ne_nil _ _)) n) ↑(n :: a :: ns) := by
  obtain ⟨fresh,rest⟩ := nodup_cons.mp nodup
  have longer : (n :: a :: ns).IsChain (Linked (l.join n a)) := .cons_cons linked_join
    (chain_join path (fun member => fresh (mem_of_mem_dropLast member)) (nodup_cons.mp rest).1)
  exact ring_close longer nodup

theorem Ring.erase (ring : Ring l ↑(n :: ns)) (rest : ns ≠ []) :
    Ring (l.join (l.prev n) (l.next n)) ↑ns := by
  obtain ⟨a,ns,rfl⟩ := exists_cons_of_ne_nil rest
  obtain ⟨path,last⟩ := ring.path
  obtain ⟨first,path⟩ := isChain_cons_cons.mp path
  rw [last.2,first.1]
  exact ring_close path (nodup_cons.mp (Cycle.nodup_coe_iff.mp ring.nodup)).2

theorem Ring.insert (ring : Ring l ↑(a :: ns)) (fresh : n ∉ a :: ns) :
    Ring ((l.join n a).join (l.prev a) n) ↑(n :: a :: ns) := by
  obtain ⟨path,last⟩ := ring.path
  rw [last.2]
  exact path_insert path (nodup_cons.mpr ⟨fresh,Cycle.nodup_coe_iff.mp ring.nodup⟩)

theorem Ring.insertAfter (ring : Ring l ↑(ns ++ [x])) (fresh : n ∉ ns ++ [x]) :
    Ring ((l.join n (l.next x)).join x n) ↑(n :: (ns ++ [x])) := by
  obtain ⟨a,rest,shape⟩ := exists_cons_of_ne_nil (concat_ne_nil x ns)
  have last : (a :: rest).getLast (cons_ne_nil _ _) = x := by simp [← shape]
  rw [shape] at ring fresh ⊢
  have linked := ring.path.2
  rw [last] at linked
  rw [linked.1]
  exact linked.2 ▸ ring.insert fresh

end Join

theorem mem_rotate (member : n ∈ c) : ∃ ns, c = ↑(n :: ns) := by
  induction c using Cycle.induction_on with
  | nil => exact absurd member (Cycle.notMem_nil n)
  | cons a ns =>
    obtain ⟨front,back,shape⟩ := append_of_mem (Cycle.mem_coe_iff.mp member)
    exact ⟨back ++ front,by rw [shape]; exact Cycle.coe_eq_coe.mpr isRotated_append⟩

theorem Ring.neighbours (ring : Ring l c) (member : n ∈ c) : l.prev n ∈ c ∧ l.next n ∈ c := by
  obtain ⟨ns,rfl⟩ := mem_rotate member
  obtain ⟨path,last⟩ := ring.path
  refine ⟨?_,?_⟩
  · rw [last.2]
    exact getLast_mem _
  · cases ns with
    | nil => simpa using last.1
    | cons b ns =>
      rw [(isChain_cons_cons.mp path).1.1]
      simp

/-! Lists of entries. -/

theorem segment_chain : Segment l x es y ↔ (x :: (es.map .entry ++ [y])).IsChain (Linked l) := by
  induction es generalizing x with
  | nil => simp [Segment,Linked]
  | cons e es ih => simp [Segment,Linked,ih,and_assoc]

theorem ring_iff : Ring l ↑(x :: es.map .entry) ↔ Segment l x es x ∧ (x :: es.map .entry).Nodup := by
  rw [segment_chain]
  exact ⟨fun ring => ⟨ring.linked,ring.nodup⟩,fun ⟨linked,nodup⟩ => ⟨linked,nodup⟩⟩

theorem segment_unique {fs : List E} (left : Segment l x es (.head h))
    (right : Segment l x fs (.head h)) : es = fs := by
  induction es generalizing x fs with
  | nil =>
    cases fs with
    | nil => rfl
    | cons f fs => cases left.1.symm.trans right.1
  | cons e es ih =>
    cases fs with
    | nil => cases left.1.symm.trans right.1
    | cons f fs =>
      cases left.1.symm.trans right.1
      rw [ih left.2.2 right.2.2]

/-- The links determine the lists. -/
theorem Represents.unique {lists' : H → List E} (left : Represents l lists)
    (right : Represents l lists') : lists = lists' :=
  funext fun h => segment_unique (left.circle h) (right.circle h)

/-- The first node after a head belongs to the head's list. -/
theorem Represents.first (rep : Represents l lists) :
    l.next (.head h) = (match (lists h).head? with | some e => .entry e | none => .head h) := by
  have circle := rep.circle h
  cases shape : lists h with
  | nil =>
    rw [shape] at circle
    exact circle.1
  | cons e rest =>
    rw [shape] at circle
    exact circle.1

def unlinked (H E : Type) : Links H E := ⟨id,id⟩

theorem represents_unlinked : Represents (unlinked H E) (fun _ => []) :=
  ⟨fun _ => ⟨rfl,rfl⟩,fun _ => nodup_nil,by simp,fun _ _ => ⟨rfl,rfl⟩⟩

/-- The head of a list and its entries. -/
def nodes (h : H) (es : List E) : Cycle (Node H E) := ↑(.head h :: es.map Node.entry)

theorem ring_nodes : Ring l (nodes h es) ↔ Segment l (.head h) es (.head h) ∧ es.Nodup := by
  rw [nodes,ring_iff,nodup_cons,nodup_map_iff fun _ _ => Node.entry.inj]
  simp

@[simp] theorem mem_nodes : n ∈ nodes h es ↔ n = .head h ∨ ∃ e ∈ es, .entry e = n := by
  simp [nodes]

/-- Like `Represents`, but entry `e` is on no list and its own links may be stale. -/
structure Detached (l : Links H E) (lists : H → List E) (e : E) : Prop where
  ring : ∀ h, Ring l (nodes h (lists h))
  apart : ∀ h k f, f ∈ lists h → f ∈ lists k → h = k
  absent : ∀ h, e ∉ lists h
  alone : ∀ f, f ≠ e → (∀ h, f ∉ lists h) →
    l.next (.entry f) = .entry f ∧ l.prev (.entry f) = .entry f

theorem Represents.ring (rep : Represents l lists) (h : H) : Ring l (nodes h (lists h)) :=
  ring_nodes.mpr ⟨rep.circle h,rep.nodup h⟩

theorem Represents.detached (rep : Represents l lists) (absent : ∀ h, e ∉ lists h) :
    Detached l lists e :=
  ⟨rep.ring,rep.apart,absent,fun f _ => rep.alone f⟩

theorem nodes_apart (apart : ∀ h k f, f ∈ lists h → f ∈ lists k → h = k) {k : H}
    (left : n ∈ nodes h (lists h)) (right : n ∈ nodes k (lists k)) : h = k := by
  rcases mem_nodes.mp left with rfl | ⟨e,inH,rfl⟩
  · simpa using right
  · exact apart h k e inH (by simpa using right)

section Operations

variable [DecidableEq H] [DecidableEq E]

section

variable (l : Links H E) (n head : Node H E)

def initListHead : Links H E :=
  (l.setNext n n).setPrev n n

/-- The entries after `n` up to the head, if there are at most `fuel`. -/
def entriesFrom (l : Links H E) (h : H) : Nat → Node H E → Option (List E)
  | fuel, n =>
    match l.next n with
    | .head k => if k = h then some [] else none
    | .entry e =>
      match fuel with
      | 0 => none
      | fuel + 1 => (entriesFrom l h fuel (.entry e)).map (e :: ·)

def entries (h : H) (fuel : Nat) : Option (List E) := entriesFrom l h fuel (.head h)

/-- Join the two neighbours of a removed node. -/
def listDelBetween (before after : Node H E) : Links H E :=
  (l.setPrev after before).setNext before after

def listDelEntry : Links H E :=
  listDelBetween l (l.prev n) (l.next n)

def listDelInit : Links H E :=
  initListHead (listDelEntry l n) n

def listAddBetween (before after : Node H E) : Links H E :=
  (((l.setPrev after n).setNext n after).setPrev n before).setNext before n

def listAdd : Links H E :=
  listAddBetween l n head (l.next head)

def listAddTail : Links H E :=
  listAddBetween l n (l.prev head) head

def listMove : Links H E :=
  listAdd (listDelEntry l n) n head

def listMoveTail : Links H E :=
  listAddTail (listDelEntry l n) n head

end

variable {fuel : Nat}

theorem Detached.init (rep : Detached l lists e) :
    Represents (initListHead l (.entry e)) lists := by
  have other (n : Node H E) (other : n ≠ .entry e) := join_other (l := l) other other
  refine ⟨fun h => ?_,fun h => (ring_nodes.mp (rep.ring h)).2,rep.apart,fun f absent => ?_⟩
  · refine (ring_nodes.mp ((rep.ring h).frame fun n inside => other n ?_)).1
    rintro rfl
    exact rep.absent h (by simpa using inside)
  · by_cases same : f = e
    · subst same
      exact linked_join
    · obtain ⟨next,prev⟩ := other (.entry f) (by simpa using same)
      exact ⟨next.trans (rep.alone f same absent).1,prev.trans (rep.alone f same absent).2⟩

theorem Represents.delEntry (rep : Represents l lists) (e : E) :
    Detached (listDelEntry l (.entry e)) (fun h => (lists h).erase e) e := by
  have apart (h k : H) (f : E) (inH : f ∈ (lists h).erase e) (inK : f ∈ (lists k).erase e) :
      h = k := rep.apart h k f (mem_of_mem_erase inH) (mem_of_mem_erase inK)
  have absent (h : H) : e ∉ (lists h).erase e := (rep.nodup h).not_mem_erase
  by_cases listed : ∃ h, e ∈ lists h
  · obtain ⟨h,member⟩ := listed
    have here : .entry e ∈ nodes h (lists h) := mem_nodes.mpr (.inr ⟨e,member,rfl⟩)
    obtain ⟨before,after⟩ := (rep.ring h).neighbours here
    have other (n : Node H E) (outside : n ∉ nodes h (lists h)) := join_other (l := l)
      (ne_of_mem_of_not_mem before outside).symm (ne_of_mem_of_not_mem after outside).symm
    refine ⟨fun k => ?_,apart,absent,fun f notE missing => ?_⟩
    · by_cases same : k = h
      · subst same
        obtain ⟨front,back,shape⟩ := append_of_mem member
        have ring := rep.ring k
        have nodup := rep.nodup k
        rw [shape,nodup_middle] at nodup
        have turn (ns : List (Node H E)) : (↑(Node.head k :: (front.map .entry ++ ns)) :
            Cycle (Node H E)) = ↑(ns ++ Node.head k :: front.map .entry) :=
          Cycle.coe_eq_coe.mpr (by rw [← cons_append]; exact isRotated_append)
        rw [nodes,shape,map_append,turn] at ring
        have shorter : (lists k).erase e = front ++ back := by
          rw [shape,erase_append_right _ fun inside => (nodup_cons.mp nodup).1 (by simp [inside]),
            erase_cons_head]
        simp only [shorter]
        rw [nodes,map_append,turn]
        exact ring.erase (by simp)
      · have untouched : (lists k).erase e = lists k :=
          erase_of_not_mem fun inK => same (rep.apart k h e inK member)
        simp only [untouched]
        exact (rep.ring k).frame fun n inside =>
          other n fun inH => same (nodes_apart rep.apart inside inH)
    · have unlisted (h : H) : f ∉ lists h :=
        fun member => missing h ((mem_erase_of_ne notE).mpr member)
      obtain ⟨next,prev⟩ := other (.entry f) (by simp [unlisted])
      exact ⟨next.trans (rep.alone f unlisted).1,prev.trans (rep.alone f unlisted).2⟩
  · have unlisted (h : H) : e ∉ lists h := fun member => listed ⟨h,member⟩
    obtain ⟨next,prev⟩ := rep.alone e unlisted
    have same : listDelEntry l (.entry e) = l := by
      have nexts := update_eq_self (.entry e) l.next
      have prevs := update_eq_self (.entry e) l.prev
      rw [next] at nexts
      rw [prev] at prevs
      simp [listDelEntry,listDelBetween,next,prev,nexts,prevs]
    have untouched : (fun h => (lists h).erase e) = lists :=
      funext fun h => erase_of_not_mem (unlisted h)
    rw [same,untouched]
    exact rep.detached unlisted

theorem Represents.delInit (rep : Represents l lists) (e : E) :
    Represents (listDelInit l (.entry e)) (fun h => (lists h).erase e) :=
  (rep.delEntry e).init

omit [DecidableEq E] in
/-- A new circle for `h` and frames for everything else make a representation. -/
theorem Detached.attach (rep : Detached l lists e)
    (members : ∀ f, f ∈ es ↔ f = e ∨ f ∈ lists h) (ring : Ring m (nodes h es))
    (frame : ∀ n, n ≠ .entry e → n ∉ nodes h (lists h) →
      m.next n = l.next n ∧ m.prev n = l.prev n) :
    Represents m (update lists h es) := by
  have part (k : H) : Ring m (nodes k (update lists h es k)) := by
    by_cases same : k = h
    · subst same
      rwa [update_self]
    · rw [update_of_ne same]
      refine (rep.ring k).frame fun n inside => frame n ?_ fun inH =>
        same (nodes_apart rep.apart inside inH)
      rintro rfl
      exact rep.absent k (by simpa using inside)
  have member (k : H) (f : E) : f ∈ update lists h es k ↔ (k = h ∧ f = e) ∨ f ∈ lists k := by
    by_cases same : k = h
    · subst same
      simp [members]
    · simp [same]
  refine ⟨fun k => (ring_nodes.mp (part k)).1,fun k => (ring_nodes.mp (part k)).2,
    fun k j f inK inJ => ?_,fun f missing => ?_⟩
  · rw [member] at inK inJ
    rcases inK with ⟨isH,rfl⟩ | inK
    · rcases inJ with ⟨alsoH,_⟩ | inJ
      · exact isH.trans alsoH.symm
      · exact absurd inJ (rep.absent j)
    · rcases inJ with ⟨_,rfl⟩ | inJ
      · exact absurd inK (rep.absent k)
      · exact rep.apart k j f inK inJ
  · simp only [member,not_or,not_and] at missing
    have fresh : f ≠ e := (missing h).1 rfl
    obtain ⟨next,prev⟩ := frame (.entry f) (by simpa using fresh) (by simp [(missing h).2])
    obtain ⟨stays,back⟩ := rep.alone f fresh fun k => (missing k).2
    exact ⟨next.trans stays,prev.trans back⟩

theorem addBetween_other {before after : Node H E} (notN : n ≠ a) (first : n ≠ before)
    (second : n ≠ after) : (listAddBetween l a before after).next n = l.next n ∧
      (listAddBetween l a before after).prev n = l.prev n := by
  simp [listAddBetween,notN,first,second]

theorem Detached.addTail (rep : Detached l lists e) (h : H) :
    Represents (listAddTail l (.entry e) (.head h)) (update lists h (lists h ++ [e])) := by
  have fresh : .entry e ∉ Node.head h :: (lists h).map .entry := by simpa using rep.absent h
  have here : .head h ∈ nodes h (lists h) := mem_nodes.mpr (.inl rfl)
  refine rep.attach (by simp [or_comm]) ?_ fun n notE outside => addBetween_other notE ?_ ?_
  · rw [nodes,map_append,map_singleton,← cons_append,← Cycle.coe_cons_eq_coe_append]
    exact (rep.ring h).insert fresh
  · exact fun same => outside (same ▸ ((rep.ring h).neighbours here).1)
  · exact fun same => outside (same ▸ here)

theorem Detached.add (rep : Detached l lists e) (h : H) :
    Represents (listAdd l (.entry e) (.head h)) (update lists h (e :: lists h)) := by
  have fresh : .entry e ∉ (lists h).map .entry ++ [Node.head h] := by simpa using rep.absent h
  have here : .head h ∈ nodes h (lists h) := mem_nodes.mpr (.inl rfl)
  refine rep.attach (by simp) ?_ fun n notE outside => addBetween_other notE ?_ ?_
  · have ring := rep.ring h
    rw [nodes,Cycle.coe_cons_eq_coe_append] at ring ⊢
    exact ring.insertAfter fresh
  · exact fun same => outside (same ▸ here)
  · exact fun same => outside (same ▸ ((rep.ring h).neighbours here).2)

section

variable (rep : Represents l lists)
include rep

theorem Represents.moveTail (e : E) (h : H) : Represents (listMoveTail l (.entry e) (.head h))
      (update (fun k => (lists k).erase e) h ((lists h).erase e ++ [e])) :=
  (rep.delEntry e).addTail h

theorem Represents.move (e : E) (h : H) : Represents (listMove l (.entry e) (.head h))
      (update (fun k => (lists k).erase e) h (e :: (lists h).erase e)) :=
  (rep.delEntry e).add h

theorem Represents.init (absent : ∀ h, e ∉ lists h) :
    Represents (initListHead l (.entry e)) lists :=
  (rep.detached absent).init

theorem Represents.addTail (absent : ∀ h, e ∉ lists h) (h : H) :
    Represents (listAddTail l (.entry e) (.head h)) (update lists h (lists h ++ [e])) :=
  (rep.detached absent).addTail h

end

omit [DecidableEq E] in
theorem entriesFrom_eq {xs : List E} (linked : Segment l x es (.head h))
    (found : entriesFrom l h fuel x = some xs) : xs = es := by
  induction es generalizing x fuel xs with
  | nil =>
    unfold entriesFrom at found
    simpa [linked.1] using found.symm
  | cons e rest ih =>
    unfold entriesFrom at found
    rw [linked.1] at found
    cases fuel with
    | zero => cases found
    | succ fuel =>
      obtain ⟨ys,tail,rfl⟩ := Option.map_eq_some_iff.mp found
      rw [ih linked.2.2 tail]

omit [DecidableEq E] in
/-- A walk that ends has seen the entries of the list. -/
theorem Represents.entries {xs : List E} (rep : Represents l lists)
    (found : ListHead.entries l h fuel = some xs) : xs = lists h :=
  entriesFrom_eq (rep.circle h) found

end Operations

end GpuExt.ListHead
