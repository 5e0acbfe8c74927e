import GpuExt.ListHead
import GpuExt.Transition

/-! The physical memory manager of a GPU: the tree of chunks below every 2 MiB root, the
lists that the roots and the free subchunks are on, and the critical sections of
`list_lock`. A chunk is named by its position, so its memory is reused by the next
chunk split off at the same place. Unused chunk memory is all zeros. -/
namespace GpuExt.Pmm

open ListHead Transition

abbrev RootId := Nat
abbrev VaBlock := Nat

/-- A root and the subchunk indices on the way up to it, innermost first. -/
structure ChunkId where
  root : RootId
  path : List Nat
  deriving DecidableEq, Repr

def ChunkId.ofRoot (r : RootId) : ChunkId := ⟨r,[]⟩

def ChunkId.child (c : ChunkId) (i : Nat) : ChunkId := ⟨c.root,i :: c.path⟩

def ChunkId.parent (c : ChunkId) : Option ChunkId :=
  match c.path with
  | [] => none
  | _ :: path => some ⟨c.root,path⟩

def ChunkId.Under (c x : ChunkId) : Prop := x.root = c.root ∧ c.path <:+ x.path

instance : Decidable (ChunkId.Under c x) := inferInstanceAs (Decidable (_ ∧ _))

inductive MemoryType where
  | user
  | kernel
  deriving DecidableEq, Repr

inductive ChunkState where
  | pmaOwned
  | free
  | isSplit
  | tempPinned
  | allocated
  deriving DecidableEq, Repr

inductive ListState where
  | none
  | free
  | vaBlockUsed
  | vaBlockUnused
  | eviction
  | lazyFree
  deriving DecidableEq, Repr

inductive ListId where
  | vaBlockUsed
  | vaBlockUnused
  | vaBlockLazyFree
  | freeList (type : MemoryType) (idx : Nat) (zero : Bool)
  deriving DecidableEq, Repr

/-- Only the operations that link a chunk somewhere have a destination. -/
inductive ListOp where
  | init
  | delInit
  | addTail (destination : ListId)
  | moveHead (destination : ListId)
  | moveTail (destination : ListId)
  deriving DecidableEq, Repr

/-- Sizes are exponents of two. A mask has bit `k` set if chunks of size `2 ^ k` are
supported. -/
def chunkSizeMax : Nat := 21

def pageShift : Nat := 12

/-- `PAGES_PER_UVM_VA_BLOCK`, the page index of a chunk without a VA block. -/
def pagesPerVaBlock : Nat := 512

structure Config where
  chunkSizes : MemoryType → Nat
  largest : ∀ type, (chunkSizes type).testBit chunkSizeMax = true
  bounded : ∀ type, chunkSizes type < 2 ^ (chunkSizeMax + 1)

def chunkFindPrevSize (chunkSizes size : Nat) : Option Nat :=
  (List.range size).reverse.find? chunkSizes.testBit

/-- `hweight_long(chunk_sizes & (chunk_size - 1))` -/
def freeListIdx (chunkSizes size : Nat) : Nat := (List.range size).countP chunkSizes.testBit

structure Suballoc where
  allocated : NvU32
  pinnedLeafChunks : NvU32
  deriving DecidableEq, Repr

structure Chunk where
  address : Nat
  log2Size : Nat
  type : MemoryType
  state : ChunkState
  suballoc : Option Suballoc
  vaBlock : Option VaBlock
  vaBlockPageIndex : Nat
  isReferenced : Bool
  isZero : Bool
  inEviction : Bool
  deriving DecidableEq, Repr

def Chunk.zeroed : Chunk := ⟨0,0,.user,.pmaOwned,none,none,0,false,false,false⟩

structure Root where
  listState : ListState
  listGeneration : NvU64
  deriving DecidableEq, Repr

/-- One call of the list update on a root: its list state before and after. -/
structure Update where
  root : RootId
  before : ListState
  after : ListState
  deriving DecidableEq, Repr

structure State where
  id : Nat
  chunk : ChunkId → Chunk
  root : RootId → Root
  links : Links ListId ChunkId
  /-- Calls of `rootListUpdateLocked` on roots, last one first; read by no code. -/
  updates : List Update

/-- What `uvm_pmm_gpu_init` leaves in a root. -/
def Chunk.initial (r : RootId) : Chunk :=
  { Chunk.zeroed with
    address := r * 2 ^ chunkSizeMax
    log2Size := chunkSizeMax
    vaBlockPageIndex := pagesPerVaBlock }

def init (id : Nat) : State where
  id := id
  chunk := fun c => if c.path = [] then Chunk.initial c.root else Chunk.zeroed
  root := fun _ => ⟨.none,0⟩
  links := unlinked ListId ChunkId
  updates := []

section

variable (s : State) (c : ChunkId)

def State.modify (f : Chunk → Chunk) : State :=
  { s with chunk := Function.update s.chunk c (f (s.chunk c)) }

def State.modifySuballoc (f : Suballoc → Suballoc) : State :=
  s.modify c fun chunk => { chunk with suballoc := chunk.suballoc.map f }

/-- Update the counters of a subchunk's parent. -/
def State.modifyParent (f : Suballoc → Suballoc) : State :=
  match c.parent with
  | none => s
  | some parent => s.modifySuballoc parent f

def rootChunk : ChunkId := .ofRoot c.root

def chunkIsRootChunk : Bool := (s.chunk c).log2Size == chunkSizeMax

def chunkIsUser : Bool := (s.chunk c).type == .user

def linkUpdate (links : Links ListId ChunkId) (c : ChunkId) : ListOp → Links ListId ChunkId
  | .init => initListHead links (.entry c)
  | .delInit => listDelInit links (.entry c)
  | .addTail destination => listAddTail links (.entry c) (.head destination)
  | .moveHead destination => listMove links (.entry c) (.head destination)
  | .moveTail destination => listMoveTail links (.entry c) (.head destination)

def rootListUpdateLocked (rootState : ListState) (operation : ListOp) : State :=
  let s := { s with links := linkUpdate s.links c operation }
  if chunkIsRootChunk s c then
    let root := s.root c.root
    { s with
      root := Function.update s.root c.root
        ⟨rootState,
          if root.listState ≠ rootState then root.listGeneration + 1 else root.listGeneration⟩
      updates := ⟨c.root,root.listState,rootState⟩ :: s.updates }
  else s

end

/-! The policy hooks. A callback can record any requests and return any value; it cannot
touch the lists itself. -/

structure Policy where
  requests : List (NvU64 × NvU64)
  rawAction : Int
  deriving DecidableEq, Repr

abbrev Hook := State → ChunkId → Policy

structure DecisionCtx where
  pmm : Nat
  rootChunk : RootId
  observed : PmmSnapshot ListState
  request : PmmRequest
  deriving DecidableEq, Repr

section

variable (hook : Hook) (s : State) (c : ChunkId)

def snapshot (r : RootId) : PmmSnapshot ListState :=
  ⟨s.id,r,(s.root r).listGeneration,(s.root r).listState⟩

def decisionCtx (policy : Policy) : DecisionCtx where
  pmm := s.id
  rootChunk := c.root
  observed := snapshot s c.root
  request := policy.requests.foldl (fun request r => (recordPmm request r.1 r.2).2) .zero

section

variable (ctx : DecisionCtx)

/-- The destination list and state of an applied request. -/
def bpfValidateReorderLocked : Result × Option (ListId × ListState) :=
  if !chunkIsRootChunk s c ∨ c ≠ rootChunk c then (.rejectIdentity,none)
  else
    match validatePmm ctx.observed (snapshot s c.root) ctx.request with
    | .apply =>
      if ctx.pmm ≠ s.id ∨ ctx.rootChunk ≠ c.root then (.rejectIdentity,none)
      else if (s.root c.root).listState ≠ .vaBlockUsed ∧
          (s.root c.root).listState ≠ .vaBlockUnused then (.noopStale,none)
      else if ctx.request.destination = destinationUsed then
        (.apply,some (.vaBlockUsed,.vaBlockUsed))
      else (.apply,some (.vaBlockUnused,.vaBlockUnused))
    | result => (result,none)

def bpfCommitReorderLocked : Result × State :=
  match bpfValidateReorderLocked s c ctx with
  | (.apply,some (destination,state)) =>
    (.apply,rootListUpdateLocked s c state
      (if ctx.request.position = positionHead then .moveHead destination
        else .moveTail destination))
  | (result,_) => (result,s)

def bpfApplyAccessLocked (rawAction : Int) : AccessEffect × State :=
  let effect := pmmAccessEffect rawAction (bpfValidateReorderLocked s c ctx).1
  if effect = .commit then
    match bpfCommitReorderLocked s c ctx with
    | (.apply,s) => (.commit,s)
    | (_,s) => (.preserve,s)
  else (effect,s)

def bpfApplyActivateLocked : State :=
  if pmmActivateEffect (bpfValidateReorderLocked s c ctx).1 = .commit then
    (bpfCommitReorderLocked s c ctx).2
  else s

end

def bpfCallGpuBlockActivate : State :=
  bpfApplyActivateLocked s c (decisionCtx s c (hook s c))

def bpfCallGpuBlockAccess : AccessEffect × State :=
  bpfApplyAccessLocked s c (decisionCtx s c (hook s c)) (hook s c).rawAction

/-! Pins and lists. -/

def chunkIsRootChunkPinned : Bool :=
  let chunk := s.chunk (rootChunk c)
  match chunk.state with
  | .tempPinned => true
  | .isSplit => chunk.suballoc.any fun suballoc => suballoc.pinnedLeafChunks > 0
  | _ => false

def chunkPin : State :=
  let s := s.modify c fun chunk => { chunk with state := .tempPinned }
  if chunkIsRootChunk s c then s
  else s.modifySuballoc (rootChunk c) fun suballoc =>
    { suballoc with pinnedLeafChunks := suballoc.pinnedLeafChunks + 1 }

def chunkUnpin (newState : ChunkState) : State :=
  let s := s.modify c fun chunk => { chunk with state := newState }
  if chunkIsRootChunk s c then s
  else s.modifySuballoc (rootChunk c) fun suballoc =>
    { suballoc with pinnedLeafChunks := suballoc.pinnedLeafChunks - 1 }

def chunkIsInEviction : Bool := (s.chunk (rootChunk c)).inEviction

def setInEviction (inEviction : Bool) : State :=
  s.modify c fun chunk => { chunk with inEviction }

end

section Sized

variable (cfg : Config) (hook : Hook) (s : State) (c : ChunkId)

def findFreeList (type : MemoryType) (size : Nat) (zero : Bool) : ListId :=
  .freeList type (freeListIdx (cfg.chunkSizes type) size) zero

def findFreeListChunk : ListId :=
  findFreeList cfg (s.chunk c).type (s.chunk c).log2Size (s.chunk c).isZero

def chunkUpdateListsLocked : State :=
  let root := rootChunk c
  let s :=
    if chunkIsUser s c then
      if chunkIsRootChunkPinned s c then rootListUpdateLocked s root .none .delInit
      else if (s.chunk root).state ≠ .free then
        bpfCallGpuBlockActivate hook
          (rootListUpdateLocked s root .vaBlockUsed (.moveTail .vaBlockUsed)) root
      else s
    else s
  match (s.chunk c).state with
  | .free => rootListUpdateLocked s c .free (.moveTail (findFreeListChunk cfg s c))
  | .tempPinned => rootListUpdateLocked s c .none .delInit
  | _ => s

/-- The caller has set the page index while the chunk was pinned. -/
def gpuUnpinTemp (vaBlock : VaBlock) (pageIndex : Nat) (isReferenced : Bool) : State :=
  let s := s.modify c fun chunk => { chunk with vaBlockPageIndex := pageIndex }
  let s := rootListUpdateLocked s c .none .init
  let s := chunkUnpin s c .allocated
  let s := s.modify c fun chunk => { chunk with isReferenced, vaBlock := some vaBlock }
  chunkUpdateListsLocked cfg hook s c

/-- The unpin loop of `uvm_pmm_gpu_alloc_kernel`. -/
def unpinKernel : State :=
  (chunkUnpin s c .allocated).modify c fun chunk => { chunk with isReferenced := false }

def numSubchunks (parent : ChunkId) : Nat :=
  2 ^ ((s.chunk parent).log2Size - (s.chunk (parent.child 0)).log2Size)

/-- Is `x` one of the first `count` subchunks of `parent`? -/
def ChunkId.IsSubchunk (parent : ChunkId) (count : Nat) (x : ChunkId) : Prop :=
  x.root = parent.root ∧ ∃ i < count, x.path = i :: parent.path

instance : Decidable (ChunkId.IsSubchunk parent count x) :=
  decidable_of_iff (x.root = parent.root ∧ x.path.tail = parent.path ∧
      ∃ i ∈ x.path.head?, i < count) <| by
    cases x with
    | mk root path =>
      cases path with
      | nil => simp [ChunkId.IsSubchunk]
      | cons i path =>
        simp only [ChunkId.IsSubchunk,List.head?_cons,Option.mem_def,
          Option.some.injEq,exists_eq_left',List.cons.injEq]
        constructor
        · rintro ⟨sameRoot,samePath,bound⟩
          exact ⟨sameRoot,i,bound,rfl,samePath⟩
        · rintro ⟨sameRoot,j,bound,rfl,samePath⟩
          exact ⟨sameRoot,samePath,bound⟩

/-- The merged chunk inherits the state of its subchunks, which are given back. -/
def mergeGpuChunk : State :=
  let count := numSubchunks s c
  let subchunk := s.chunk (c.child 0)
  let s :=
    if subchunk.state = .allocated ∧ subchunk.type = .user then
      s.modify c fun chunk => { chunk with
        vaBlock := subchunk.vaBlock
        vaBlockPageIndex := subchunk.vaBlockPageIndex
        isReferenced := subchunk.isReferenced }
    else if subchunk.state = .tempPinned then
      s.modifySuballoc (rootChunk c) fun suballoc =>
        { suballoc with
          pinnedLeafChunks := suballoc.pinnedLeafChunks + (1 - BitVec.ofNat 32 count) }
    else s
  let s := s.modify c fun chunk =>
    { chunk with state := subchunk.state, suballoc := none, isZero := false }
  { s with chunk := fun x => if c.IsSubchunk count x then Chunk.zeroed else s.chunk x }

def subchunkOf (chunk : Chunk) (size i : Nat) : Chunk :=
  let mapped := chunk.state = .allocated ∧ chunk.type = .user
  { Chunk.zeroed with
    address := chunk.address + i * 2 ^ size
    log2Size := size
    type := chunk.type
    state := chunk.state
    isZero := chunk.isZero
    vaBlock := if mapped then chunk.vaBlock else none
    vaBlockPageIndex :=
      if mapped then chunk.vaBlockPageIndex + i * 2 ^ size / 2 ^ pageShift else pagesPerVaBlock
    isReferenced := if mapped then chunk.isReferenced else false }

/-- The subchunks of the given size take the place of the chunk. -/
def divideChunk (size : Nat) : State :=
  let chunk := s.chunk c
  let count := 2 ^ (chunk.log2Size - size)
  let s := { s with
    chunk := fun x =>
      if c.IsSubchunk count x then subchunkOf chunk size (x.path.headD 0) else s.chunk x
    links := (List.range count).foldl (fun links i => initListHead links (.entry (c.child i)))
      s.links }
  let s := s.modify c fun chunk => { chunk with suballoc := some ⟨BitVec.ofNat 32 count,0⟩ }
  let s :=
    if chunk.state = .allocated then
      s.modify c fun chunk => { chunk with
        vaBlock := none
        vaBlockPageIndex := pagesPerVaBlock
        isReferenced := false }
    else if chunk.state = .tempPinned then
      let s := s.modifySuballoc (rootChunk c) fun suballoc =>
        { suballoc with
          pinnedLeafChunks := suballoc.pinnedLeafChunks + (BitVec.ofNat 32 count - 1) }
      if chunkIsRootChunk s c then
        s.modifySuballoc (rootChunk c) fun suballoc =>
          { suballoc with pinnedLeafChunks := suballoc.pinnedLeafChunks + 1 }
      else s
    else s
  s.modify c fun chunk => { chunk with state := .isSplit }

/-- Without `memory` for the subchunks nothing changes. -/
def splitGpuChunk (memory : Bool) : Option State :=
  match chunkFindPrevSize (cfg.chunkSizes (s.chunk c).type) (s.chunk c).log2Size with
  | none => none
  | some size => if memory then some (divideChunk s c size) else none

def chunkIsLastAllocatedChild : Bool :=
  match c.parent with
  | none => false
  | some parent => (s.chunk parent).suballoc.any fun suballoc => suballoc.allocated == 1

/-- A root in eviction keeps its chunks: they are pinned for the evicting thread. -/
def chunkFreeLocked : State :=
  if chunkIsInEviction s c then
    chunkPin (s.modify c fun chunk => { chunk with
      vaBlock := none
      vaBlockPageIndex := pagesPerVaBlock
      isZero := false }) c
  else
    let s := s.modifyParent c fun suballoc =>
      { suballoc with allocated := suballoc.allocated - 1 }
    let s :=
      if (s.chunk c).state = .tempPinned then chunkUnpin s c .free
      else s.modify c fun chunk => { chunk with state := .free, vaBlock := none }
    let s := s.modify c fun chunk => { chunk with
      vaBlockPageIndex := pagesPerVaBlock
      isZero := false }
    chunkUpdateListsLocked cfg hook s c

/-- `none` if the chunk needs a merge. -/
def tryChunkFree : Option State :=
  if chunkIsLastAllocatedChild s c then none else some (chunkFreeLocked cfg hook s c)

def pinSubchunk (subchunk : ChunkId) : State :=
  (rootListUpdateLocked s subchunk .none .delInit).modify subchunk fun chunk =>
    { chunk with state := .tempPinned }

/-- The parent to merge, with all its subchunks pinned, if this was its last one. -/
def freeOrPrepareForMerge : State × Option ChunkId :=
  match c.parent with
  | none => ((tryChunkFree cfg hook s c).getD s,none)
  | some parent =>
    let last := chunkIsLastAllocatedChild s c
    let s := chunkFreeLocked cfg hook s c
    if !last then (s,none)
    else
      let count := numSubchunks s parent
      let s := (List.range count).foldl (fun s i => pinSubchunk s (parent.child i)) s
      let s := s.modifySuballoc (rootChunk c) fun suballoc =>
        { suballoc with pinnedLeafChunks := suballoc.pinnedLeafChunks + BitVec.ofNat 32 count }
      let s := s.modifySuballoc parent fun suballoc =>
        { suballoc with allocated := BitVec.ofNat 32 count }
      (s,some parent)

/-- The section of `alloc_chunk_with_splits` that frees all subchunks but the first. -/
def freeSiblings (parent : ChunkId) : State :=
  (List.range' 1 (numSubchunks s parent - 1)).foldl
    (fun s i => chunkFreeLocked cfg hook s (parent.child i)) s

section

variable (list : ListId) (elevated : RootId → Bool) (type : MemoryType) (r : RootId)

def listFirstChunk : Option ChunkId :=
  match s.links.next (.head list) with
  | .entry c => some c
  | .head _ => none

/-- Walk over the entries of a free list. Chunks picked for eviction leave it, chunks of
a root with an elevated page are skipped. -/
def findFreeChunkLocked (elevated : RootId → Bool) : State → List ChunkId → State × Option ChunkId
  | s, [] => (s,none)
  | s, c :: rest =>
    if chunkIsInEviction s c then
      findFreeChunkLocked elevated (rootListUpdateLocked s c .eviction .delInit) rest
    else if elevated c.root then findFreeChunkLocked elevated s rest
    else (s,some c)

/-- The zeroed list comes first. `none` if the lists are longer than `fuel`. -/
def findFreeChunk (fuel : Nat) (s : State) (type : MemoryType)
    (size : Nat) : Option (State × Option ChunkId) :=
  (entries s.links (findFreeList cfg type size true) fuel).bind fun zero =>
    match findFreeChunkLocked elevated s zero with
    | (s,some c) => some (s,some c)
    | (s,none) => (entries s.links (findFreeList cfg type size false) fuel).map
        (findFreeChunkLocked elevated s)

/-- A found chunk becomes pinned and counts as allocated. -/
def claimChunk : State :=
  let s := s.modifyParent c fun suballoc => { suballoc with allocated := suballoc.allocated + 1 }
  chunkUpdateListsLocked cfg hook (chunkPin s c) c

def claimFreeChunk (fuel : Nat) (s : State)
    (type : MemoryType) (size : Nat) : Option (State × Option ChunkId) :=
  (findFreeChunk cfg elevated fuel s type size).map fun
    | (s,some c) => (claimChunk cfg hook s c,some c)
    | (s,none) => (s,none)

def initRootChunk (initialState : ChunkState) (isZero : Bool) : State :=
  let s := s.modify (.ofRoot r) fun chunk => { chunk with type, state := initialState, isZero }
  chunkUpdateListsLocked cfg hook s (.ofRoot r)

/-- The section of `free_root_chunk`. -/
def freeRootChunk : State := chunkUnpin s (.ofRoot r) .pmaOwned

/-- The section of `free_next_available_root_chunk`. -/
def popFreeRootChunk : Option (State × RootId) := do
  let c ← (listFirstChunk s (findFreeList cfg type chunkSizeMax false)).orElse fun _ =>
    listFirstChunk s (findFreeList cfg type chunkSizeMax true)
  return (chunkPin (rootListUpdateLocked s c .none .delInit) c,c.root)

/-! Eviction. -/

def chunkIsEvictable : Bool :=
  (s.chunk (rootChunk c)).state != .pmaOwned && !chunkIsRootChunkPinned s c &&
    !chunkIsInEviction s c

def chunkStartEviction : State :=
  setInEviction (rootListUpdateLocked s (rootChunk c) .eviction .delInit) (rootChunk c) true

/-- The prepare hook can only look at the lists. -/
def pickRootChunkToEvict : Option (State × RootId) := do
  let c ← (listFirstChunk s (findFreeList cfg .user chunkSizeMax false)).orElse fun _ =>
    (listFirstChunk s (findFreeList cfg .user chunkSizeMax true)).orElse fun _ =>
    (listFirstChunk s .vaBlockUnused).orElse fun _ =>
    listFirstChunk s .vaBlockUsed
  return (chunkStartEviction s c,c.root)

/-- The first section of `uvm_pmm_gpu_pma_evict_range` for a root. -/
def startRangeEviction : Option State :=
  if (s.chunk (.ofRoot r)).state ≠ .pmaOwned ∧ chunkIsEvictable s (.ofRoot r) then
    some (chunkStartEviction s (.ofRoot r))
  else none

def pinFreeChunksFunc : State :=
  if (s.chunk c).state = .free then
    (chunkPin (rootListUpdateLocked s c .eviction .delInit) c).modifyParent c fun suballoc =>
      { suballoc with allocated := suballoc.allocated + 1 }
  else s

def markChunkEvicted : State :=
  chunkPin (s.modify c fun chunk => { chunk with
    vaBlock := none
    vaBlockPageIndex := pagesPerVaBlock }) c

/-- The section after all chunks of the root are merged. -/
def finishEviction : State :=
  (setInEviction s (.ofRoot r) false).modify (.ofRoot r) fun chunk => { chunk with isZero := false }

/-- The section on the error path. -/
def abandonEviction : State :=
  chunkUpdateListsLocked cfg hook (setInEviction s (.ofRoot r) false) (.ofRoot r)

def rootChunkUpdateEvictionList (destinationState : ListState) (invokeAccessHook : Bool) : State :=
  if !chunkIsRootChunkPinned s c && !chunkIsInEviction s c then
    let (effect,s) := if invokeAccessHook then bpfCallGpuBlockAccess hook s c else (.native,s)
    if effect = .native then rootListUpdateLocked s c destinationState (.moveTail list) else s
  else s

end

def markRootChunkUsed : State :=
  rootChunkUpdateEvictionList hook s c .vaBlockUsed .vaBlockUsed true

def markRootChunkUnused : State :=
  rootChunkUpdateEvictionList hook s c .vaBlockUnused .vaBlockUnused false

/-! Walks. A chunk has at most as many levels below it as its size exponent. -/

def walkPreOrder (s : State) : Nat → ChunkId → List ChunkId
  | 0, c => [c]
  | depth + 1, c =>
    if (s.chunk c).state = .isSplit then
      c :: (List.range (numSubchunks s c)).flatMap fun i => walkPreOrder s depth (c.child i)
    else [c]

def walkPostOrder (s : State) : Nat → ChunkId → List ChunkId
  | 0, c => [c]
  | depth + 1, c =>
    if (s.chunk c).state = .isSplit then
      ((List.range (numSubchunks s c)).flatMap fun i => walkPostOrder s depth (c.child i)) ++ [c]
    else [c]

def preOrder : List ChunkId := walkPreOrder s (s.chunk c).log2Size c
def postOrder : List ChunkId := walkPostOrder s (s.chunk c).log2Size c

def leaves : List ChunkId :=
  (preOrder s c).filter fun x => (s.chunk x).state ≠ .isSplit

end Sized

end GpuExt.Pmm
