import GpuExt.RangeTree
import GpuExt.Word

/-! The UVM range allocator: first fit over a range tree of free nodes. Heap blocks
for tree nodes come from the caller's environment, so a failing `kvmalloc` is an
input of the call that makes it. -/
namespace GpuExt.RangeAllocator

open RangeTree (Ptr Status Node RbTree)

structure State where
  size : NvU64
  rangeTree : RangeTree.State

structure Allocation where
  alignedStart : NvU64
  /-- Tree node kept aside for the time the range is freed. -/
  node : Ptr
  deriving DecidableEq, Repr

variable (rb : RbTree)

def init (memory : Ptr → Node) (size : NvU64) (kvmalloc : Option Ptr) : Except Status State :=
  match kvmalloc with
  | none => .error .noMemory
  | some p =>
    let tree := (RangeTree.init memory).set p ⟨0,size - 1⟩
    .ok ⟨size,(RangeTree.add rb tree p).2⟩

/-- Both overflow tests and the test against the node's end. -/
def fits (tree : RangeTree.State) (size alignment : NvU64) (p : Ptr) : Bool :=
  let alignedStart := Word.alignUp (tree.node p).start alignment
  let alignedEnd := alignedStart + size - 1
  !(alignedStart < (tree.node p).start || alignedEnd < alignedStart) &&
    !(alignedEnd > (tree.node p).finish)

/-- The search loop, entered at `current`. The fuel bounds the number of nodes visited. -/
def firstFit (tree : RangeTree.State) (size alignment last : NvU64) :
    Nat → Option Ptr → Option Ptr
  | 0, _ => none
  | _ + 1, none => none
  | fuel + 1, some p =>
    if fits tree size alignment p then some p
    else firstFit tree size alignment last fuel (RangeTree.iterNext tree p last)

/-- The lower part of free node `p`, padding included, moves to node `fresh`. -/
def claim (tree : RangeTree.State) (p fresh : Ptr) (alignedEnd : NvU64) : RangeTree.State :=
  let finish := (tree.node p).finish
  let tree := tree.set fresh ⟨(tree.node p).start,alignedEnd⟩
  if alignedEnd < finish then RangeTree.shrinkNode tree p (alignedEnd + 1) finish
  else RangeTree.remove rb tree p

def effectiveAlignment (alignment : NvU64) : NvU64 :=
  if alignment = 0 then 1 else alignment

def alloc (s : State) (size alignment : NvU64) (kvmalloc : Option Ptr) :
    Except Status Allocation × State :=
  let alignment := effectiveAlignment alignment
  if size > s.size then (.error .addressInUse,s)
  else match kvmalloc with
    | none => (.error .noMemory,s)
    | some fresh =>
      let last := s.size - size
      match firstFit s.rangeTree size alignment last s.rangeTree.head.length
          (RangeTree.iterFirst s.rangeTree 0 last) with
      | none => (.error .addressInUse,s)
      | some p =>
        let alignedStart := Word.alignUp (s.rangeTree.node p).start alignment
        (.ok ⟨alignedStart,fresh⟩,
          { s with rangeTree := claim rb s.rangeTree p fresh (alignedStart + size - 1) })

def free (s : State) : Option Allocation → State
  | none => s
  | some rangeAlloc =>
    let tree := (RangeTree.add rb s.rangeTree rangeAlloc.node).2
    let tree := (RangeTree.mergePrev rb tree rangeAlloc.node).2
    { s with rangeTree := (RangeTree.mergeNext rb tree rangeAlloc.node).2 }

/-- An allocation together with the request that it answered. -/
structure Grant where
  allocation : Allocation
  size : NvU64
  alignment : NvU64
  deriving DecidableEq, Repr

/-- The allocator and the allocations its callers have not freed yet. -/
structure System where
  allocator : State
  live : List Grant

/-- Tree nodes currently allocated on the heap. -/
def System.blocks (s : System) : List Ptr :=
  s.allocator.rangeTree.head ++ s.live.map (·.allocation.node)

inductive Call where
  | alloc (size alignment : NvU64) (kvmalloc : Option Ptr)
  | free (grant : Option Grant)
  deriving DecidableEq, Repr

/-- Asserted preconditions; `kvmalloc` never returns a block that is in use. -/
def Call.Allowed (s : System) : Call → Prop
  | .alloc size alignment kvmalloc => 0 < size ∧ (alignment = 0 ∨ alignment.toNat.isPowerOfTwo) ∧
      ∀ p ∈ kvmalloc, p ∉ s.blocks
  | .free grant => ∀ g ∈ grant, g ∈ s.live

instance : Decidable (Call.Allowed s call) :=
  match call with
  | .alloc _ _ none => inferInstanceAs (Decidable (_ ∧ _ ∧ ∀ _ ∈ none, _))
  | .alloc _ _ (some _) => inferInstanceAs (Decidable (_ ∧ _ ∧ ∀ _ ∈ some _, _))
  | .free none => inferInstanceAs (Decidable (∀ _ ∈ none, _))
  | .free (some _) => inferInstanceAs (Decidable (∀ _ ∈ some _, _))

def Call.apply (s : System) : Call → System
  | .alloc size alignment kvmalloc =>
    match RangeAllocator.alloc rb s.allocator size alignment kvmalloc with
    | (.ok allocation,allocator) => ⟨allocator,⟨allocation,size,alignment⟩ :: s.live⟩
    | (.error _,allocator) => ⟨allocator,s.live⟩
  | .free none => ⟨RangeAllocator.free rb s.allocator none,s.live⟩
  | .free (some grant) => ⟨RangeAllocator.free rb s.allocator (some grant.allocation),s.live.erase grant⟩

def execute : List Call → System → Option System
  | [], s => some s
  | call :: calls, s => if call.Allowed s then execute calls (call.apply rb s) else none

end GpuExt.RangeAllocator
