import GpuExt.LinkedList
import GpuExt.NvTypes
import GpuExt.SearchTree

/-! The UVM range tree: a search tree and a linked list over the same caller-owned
nodes. Tree and list are separate components that every operation updates on its
own; nothing here assumes that they agree. -/
namespace GpuExt.RangeTree

abbrev Ptr := Nat

inductive Status where
  | ok
  | addressInUse
  | noMemory
  deriving DecidableEq, Repr

structure Node where
  start : NvU64
  /-- Inclusive. -/
  finish : NvU64
  deriving DecidableEq, Repr

/-- The kernel's red-black primitives. `insertColor` and `erase` may reshape the
tree, but keep its in-order contents. -/
structure RbTree where
  insertColor : Ptr → SearchTree Ptr → SearchTree Ptr
  erase : Ptr → SearchTree Ptr → SearchTree Ptr
  inorder_insertColor : ∀ p t, (insertColor p t).inorder = t.inorder
  inorder_erase : ∀ p t, (erase p t).inorder = t.inorder.erase p

/-- Primitives that never rebalance. -/
def RbTree.unbalanced : RbTree where
  insertColor := fun _ t => t
  erase := SearchTree.erase
  inorder_insertColor := fun _ _ => rfl
  inorder_erase := SearchTree.inorder_erase

structure State where
  node : Ptr → Node
  root : SearchTree Ptr
  head : List Ptr

def init (node : Ptr → Node) : State := ⟨node,.nil,[]⟩

section

variable (s : State) (addr : NvU64) (p : Ptr)

def State.set (value : Node) : State :=
  { s with node := fun q => if q = p then value else s.node q }

def rangesOverlap (aStart aEnd bStart bEnd : NvU64) : Bool :=
  aEnd ≥ bStart && bEnd ≥ aStart

def rangeNodesOverlap (a b : Ptr) : Bool :=
  rangesOverlap (s.node a).start (s.node a).finish (s.node b).start (s.node b).finish

/-- Position of an address relative to a node, in the order the walk tests it. -/
def side : Ordering :=
  if addr < (s.node p).start then .lt
  else if addr > (s.node p).finish then .gt
  else .eq

def prev : Option Ptr := LinkedList.prev p s.head
def next : Option Ptr := LinkedList.next p s.head

structure Found where
  node : Option Ptr
  parent : Option Ptr
  next : Option Ptr
  deriving DecidableEq, Repr

def rangeNodeFind : Found :=
  let (node,parent) := s.root.descend (side s addr) none
  ⟨node,parent,match node,parent with
    | some p, _ => RangeTree.next s p
    | none, some q => if (s.node q).start > addr then some q else RangeTree.next s q
    | none, none => none⟩

def iterFirst (start finish : NvU64) : Option Ptr :=
  let found := rangeNodeFind s start
  match found.node,found.next with
  | some p, _ => some p
  | none, some q => if (s.node q).start ≤ finish then some q else none
  | none, none => none

def iterNext (finish : NvU64) : Option Ptr :=
  match next s p with
  | some q => if (s.node q).start ≤ finish then some q else none
  | none => none

end

variable (rb : RbTree)

section

variable (s : State) (p : Ptr)

def add : Status × State :=
  let found := rangeNodeFind s (s.node p).start
  match found.node with
  | some _ => (.addressInUse,s)
  | none =>
    match found.parent with
    | none => (.ok,{ s with
        root := rb.insertColor p (.node .nil p .nil)
        head := p :: s.head })
    | some q =>
      if rangeNodesOverlap s p q then (.addressInUse,s)
      else if (s.node p).start < (s.node q).start then
        (.ok,{ s with
          root := rb.insertColor p (s.root.linkLeft q p)
          head := LinkedList.addBefore p q s.head })
      else
        match next s q with
        | some r =>
          if rangeNodesOverlap s p r then (.addressInUse,s)
          else (.ok,{ s with
            root := rb.insertColor p (s.root.linkRight q p)
            head := LinkedList.addAfter p q s.head })
        | none => (.ok,{ s with
            root := rb.insertColor p (s.root.linkRight q p)
            head := LinkedList.addAfter p q s.head })

def remove : State :=
  { s with root := rb.erase p s.root, head := s.head.erase p }

def shrinkNode (newStart newEnd : NvU64) : State :=
  s.set p ⟨newStart,newEnd⟩

/-- The new node takes the upper part. Only its start is the caller's. -/
def split (existing fresh : Ptr) : Status × State :=
  let s := s.set fresh ⟨(s.node fresh).start,(s.node existing).finish⟩
  let s := s.set existing ⟨(s.node existing).start,(s.node fresh).start - 1⟩
  add rb s fresh

def mergePrev : Option Ptr × State :=
  match prev s p with
  | none => (none,s)
  | some q =>
    if (s.node q).finish ≠ (s.node p).start - 1 then (none,s)
    else (some q,(remove rb s q).set p ⟨(s.node q).start,(s.node p).finish⟩)

def mergeNext : Option Ptr × State :=
  match next s p with
  | none => (none,s)
  | some q =>
    if (s.node q).start ≠ (s.node p).finish + 1 then (none,s)
    else (some q,(remove rb s q).set p ⟨(s.node p).start,(s.node q).finish⟩)

/-- `assign` is the caller filling in a node that it still owns. -/
inductive Call where
  | assign (p : Ptr) (value : Node)
  | add (p : Ptr)
  | remove (p : Ptr)
  | shrinkNode (p : Ptr) (newStart newEnd : NvU64)
  | split (existing fresh : Ptr)
  | mergePrev (p : Ptr)
  | mergeNext (p : Ptr)
  deriving DecidableEq, Repr

/-- Asserted preconditions; a node named as existing is in the tree. -/
def Call.Allowed : Call → Prop
  | .assign p _ => p ∉ s.head
  | .add p => (s.node p).start ≤ (s.node p).finish
  | .remove p => p ∈ s.head
  | .shrinkNode p newStart newEnd => p ∈ s.head ∧ newStart ≤ newEnd ∧
      (s.node p).start ≤ newStart ∧ newEnd ≤ (s.node p).finish
  | .split existing fresh => existing ∈ s.head ∧
      (s.node existing).start < (s.node fresh).start ∧
      (s.node fresh).start ≤ (s.node existing).finish
  | .mergePrev p => p ∈ s.head
  | .mergeNext p => p ∈ s.head

end

instance : Decidable (Call.Allowed s call) :=
  match call with
  | .assign _ _ => inferInstanceAs (Decidable (_ ∉ _))
  | .add _ => inferInstanceAs (Decidable (_ ≤ _))
  | .remove _ => inferInstanceAs (Decidable (_ ∈ _))
  | .shrinkNode _ _ _ => inferInstanceAs (Decidable (_ ∧ _))
  | .split _ _ => inferInstanceAs (Decidable (_ ∧ _))
  | .mergePrev _ => inferInstanceAs (Decidable (_ ∈ _))
  | .mergeNext _ => inferInstanceAs (Decidable (_ ∈ _))

def Call.apply (s : State) : Call → State
  | .assign p value => s.set p value
  | .add p => (RangeTree.add rb s p).2
  | .remove p => RangeTree.remove rb s p
  | .shrinkNode p newStart newEnd => RangeTree.shrinkNode s p newStart newEnd
  | .split existing fresh => (RangeTree.split rb s existing fresh).2
  | .mergePrev p => (RangeTree.mergePrev rb s p).2
  | .mergeNext p => (RangeTree.mergeNext rb s p).2

/-- A finite sequence of calls, each within its preconditions when it is made. -/
def execute : List Call → State → Option State
  | [], s => some s
  | call :: calls, s => if call.Allowed s then execute calls (call.apply rb s) else none

end GpuExt.RangeTree
