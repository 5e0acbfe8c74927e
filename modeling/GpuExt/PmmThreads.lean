import GpuExt.Pmm

/-! Threads running PMM operations. Each step is one critical section of `list_lock` of
one thread, or the acquisition of the PMM mutex; the mutex is released together with the
last section that holds it. Between its sections a thread keeps only what the local
variables of the source keep. -/
namespace GpuExt.Pmm

abbrev Thread := Nat

/-- A chunk in the hands of the code that allocated it. `pinned` until it is unpinned. -/
structure Handle where
  chunk : ChunkId
  pinned : Bool
  deriving DecidableEq, Repr

/-- Whom PMA has given a root to. -/
inductive PmaOwner where
  | free
  | uvm
  | rm
  deriving DecidableEq, Repr

/-- A call of `alloc_chunk`; `evict` if the flag is set and the GPU supports eviction. -/
structure Request where
  type : MemoryType
  size : Nat
  evict : Bool
  deriving DecidableEq, Repr

/-- Why a root is evicted. -/
inductive Goal where
  | alloc (request : Request)
  | pages
  | range
  deriving DecidableEq, Repr

/-- Where `free_chunk_with_merges` returns to. -/
inductive AfterFree where
  | freed (type : MemoryType)
  | splitFailed (request : Request)
  | cleanup (goal : Goal) (r : RootId)
  deriving DecidableEq, Repr

/-- Where `free_next_available_root_chunk` and `free_root_chunk` return to. -/
inductive AfterRoot where
  | done
  | evictFailed (goal : Goal)
  | retry (goal : Goal)
  deriving DecidableEq, Repr

inductive AfterMerge where
  | caller (pinned : Bool)
  | evict (goal : Goal)
  deriving DecidableEq, Repr

inductive Pc where
  | idle
  -- alloc_chunk
  | lockWait (request : Request)
  | withSplits (request : Request) (sizes : List Nat)
  | allocRoot (request : Request)
  | initRoots (request : Request) (isZero : Bool) (first : Option RootId) (pending : List RootId)
  | splitDown (request : Request) (size : Nat) (c : ChunkId)
  | freeSiblings (request : Request) (size : Nat) (parent : ChunkId)
  -- free_chunk
  | freeWait (type : MemoryType) (c : ChunkId)
  | freeMerge (after : AfterFree) (c : ChunkId)
  | mergeParent (after : AfterFree) (parent : ChunkId)
  | freeNext (type : MemoryType) (after : AfterRoot)
  | freeRoot (r : RootId) (owner : PmaOwner) (after : AfterRoot)
  -- uvm_pmm_gpu_split_chunk and uvm_pmm_gpu_merge_chunk
  | splitWalk (c : ChunkId) (pinned : Bool) (minSize : Nat) (todo : List ChunkId)
  | mergeWalk (c : ChunkId) (after : AfterMerge)
  -- evict_root_chunk and its callers
  | pickWait (goal : Goal)
  | pick (goal : Goal)
  | evictWait (r : RootId)
  | evictPin (goal : Goal) (r : RootId) (todo : List ChunkId)
  | evictFind (goal : Goal) (r : RootId) (todo : List ChunkId)
  | evictBlock (goal : Goal) (r : RootId)
  | evictDone (goal : Goal) (r : RootId)
  | evicted (goal : Goal) (r : RootId)
  | evictError (goal : Goal) (r : RootId)
  | cleanup (goal : Goal) (r : RootId) (todo : List ChunkId)
  deriving DecidableEq, Repr

structure System where
  pmm : State
  lock : Option Thread
  pc : Thread → Pc
  held : List Handle
  pma : RootId → PmaOwner

def System.start (id : Nat) : System := ⟨init id,none,fun _ => .idle,[],fun _ => .free⟩

/-- The answers of the environment in one section: policy, page counts, memory, PMA and
the VA block that is evicted. -/
structure Oracle where
  hook : Hook
  elevated : RootId → Bool
  fuel : Nat
  memory : Bool
  granted : List RootId
  isZero : Bool
  evicted : Option ChunkId
  success : Bool
  inUse : Bool
  inRange : Bool

inductive Action where
  | alloc (request : Request)
  | unpin (c : ChunkId) (vaBlock : VaBlock) (pageIndex : Nat) (isReferenced : Bool)
  | unpinKernel (c : ChunkId)
  | free (c : ChunkId) (pinned : Bool)
  | split (c : ChunkId) (pinned : Bool) (size : Nat)
  | merge (c : ChunkId) (pinned : Bool)
  | markUsed (c : ChunkId)
  | markUnused (c : ChunkId)
  | evictPages
  | evictRange (r : RootId)
  /-- The next section of the operation in progress. -/
  | advance
  deriving DecidableEq, Repr

variable (cfg : Config)

section

variable (o : Oracle) (s : System) (t : Thread)

def System.goto (pc : Pc) : System :=
  { s with pc := Function.update s.pc t pc }

def System.unlock : System := { s with lock := none }

section

variable (c : ChunkId) (pinned : Bool) (request : Request) (r : RootId)

def System.hold : System :=
  { s with held := ⟨c,pinned⟩ :: s.held }

def System.drop : System :=
  { s with held := s.held.erase ⟨c,pinned⟩ }

/-- Take the mutex, if it is free, and go on. -/
def System.acquire (pc : Pc) : Option System :=
  if s.lock = none then some ({ s with lock := some t }.goto t pc) else none

/-- A pinned root is there for an allocation; the mutex is held unless a root was asked for. -/
def gotRoot : System :=
  if request.size = chunkSizeMax then (s.hold (.ofRoot r) true).goto t .idle
  else s.goto t (.splitDown request chunkSizeMax (.ofRoot r))

def afterFree : AfterFree → System
  | .freed type => s.unlock.goto t (.freeNext type .done)
  | .splitFailed request => s.unlock.goto t (.freeNext request.type .done)
  | .cleanup goal r => s.goto t (.cleanup goal r (preOrder s.pmm (.ofRoot r)))

/-- An allocation with splits frees a root after its failure. -/
def evictFailed : Goal → System
  | .alloc request =>
    if request.size = chunkSizeMax then s.unlock.goto t .idle
    else s.unlock.goto t (.freeNext request.type .done)
  | .pages => s.unlock.goto t .idle
  | .range => s.unlock.goto t .idle

def afterRoot : AfterRoot → System
  | .done => s.goto t .idle
  | .evictFailed goal => evictFailed s t goal
  | .retry .range => s.unlock.goto t .idle
  | .retry goal => s.goto t (.pick goal)

/-- A successful eviction. The chunk goes to the allocation or back to PMA. -/
def evictedRoot (goal : Goal) : System :=
  if o.elevated r then s.goto t (.freeRoot r .free (.retry goal))
  else
    match goal with
    | .range => s.unlock.goto t (.freeRoot r .free .done)
    | .pages =>
      if o.inUse then s.goto t (.freeRoot r .free (.retry goal))
      else
        let s := { s with pmm := s.pmm.modify (.ofRoot r) fun chunk => { chunk with type := .kernel } }
        s.unlock.goto t (.freeRoot r (if o.inRange then .rm else .free) .done)
    | .alloc request =>
      let unlocked (s : System) := if request.size = chunkSizeMax then s.unlock else s
      if request.type = .user then gotRoot (unlocked s) t request r
      else if o.inUse then s.goto t (.freeRoot r .free (.retry goal))
      else
        let s := { s with pmm := s.pmm.modify (.ofRoot r) fun chunk => { chunk with type := .kernel } }
        gotRoot (unlocked s) t request r

/-- The section after a failed or empty allocation from PMA. -/
def pmaFailed : System :=
  if request.size = chunkSizeMax then
    s.goto t (if request.evict then .pickWait (.alloc request) else .idle)
  else if request.evict then s.goto t (.pick (.alloc request))
  else s.unlock.goto t (.freeNext request.type .done)

def nextMerge (s : State) (c : ChunkId) : Option ChunkId :=
  (postOrder s c).find? fun x => (s.chunk x).state = .isSplit

def supported (type : MemoryType) (size : Nat) : Bool := (cfg.chunkSizes type).testBit size

/-- Sizes tried by `alloc_chunk_with_splits`: the requested one again, then upwards from it. -/
def triedSizes : List Nat :=
  request.size :: (List.range' request.size (chunkSizeMax + 1 - request.size)).filter
    (cfg.chunkSizes request.type).testBit

end

/-- The first section of an operation. The caller names chunks that it holds. -/
def begin (s : System) : Action → Option System
  | .alloc request =>
    if supported cfg request.type request.size then do
      let (pmm,found) ← claimFreeChunk cfg o.hook o.elevated o.fuel s.pmm request.type request.size
      let s := { s with pmm }
      match found with
      | some c => return s.hold c true
      | none =>
        return s.goto t (if request.size = chunkSizeMax then .allocRoot request else .lockWait request)
    else none
  | .unpin c vaBlock pageIndex isReferenced =>
    if ⟨c,true⟩ ∈ s.held ∧ (s.pmm.chunk c).type = .user then
      let pmm := gpuUnpinTemp cfg o.hook s.pmm c vaBlock pageIndex isReferenced
      some (({ s with pmm }.drop c true).hold c false)
    else none
  | .unpinKernel c =>
    if ⟨c,true⟩ ∈ s.held ∧ (s.pmm.chunk c).type = .kernel then
      some (({ s with pmm := unpinKernel s.pmm c }.drop c true).hold c false)
    else none
  | .free c pinned =>
    if ⟨c,pinned⟩ ∈ s.held then
      let type := (s.pmm.chunk c).type
      match tryChunkFree cfg o.hook s.pmm c with
      | some pmm =>
        some (({ s with pmm }.drop c pinned).goto t
          (if chunkIsRootChunk s.pmm c then .freeNext type .done else .idle))
      | none => some ((s.drop c pinned).goto t (.freeWait type c))
    else none
  | .split c pinned size =>
    if ⟨c,pinned⟩ ∈ s.held ∧ supported cfg (s.pmm.chunk c).type size ∧
        size < (s.pmm.chunk c).log2Size then
      (s.drop c pinned).acquire t (.splitWalk c pinned size [c])
    else none
  | .merge c pinned =>
    let chunks := leaves s.pmm c
    if (∀ x ∈ chunks, ⟨x,pinned⟩ ∈ s.held) ∧ chunks ≠ [] then
      { s with held := s.held.filter fun handle => handle.chunk ∉ chunks }.acquire t
        (.mergeWalk c (.caller pinned))
    else none
  | .markUsed c =>
    if (∃ pinned, ⟨c,pinned⟩ ∈ s.held) ∧ chunkIsRootChunk s.pmm c ∧ (s.pmm.chunk c).type = .user then
      some { s with pmm := markRootChunkUsed o.hook s.pmm c }
    else none
  | .markUnused c =>
    if (∃ pinned, ⟨c,pinned⟩ ∈ s.held) ∧ chunkIsRootChunk s.pmm c ∧ (s.pmm.chunk c).type = .user then
      some { s with pmm := markRootChunkUnused o.hook s.pmm c }
    else none
  | .evictPages => some (s.goto t (.pickWait .pages))
  | .evictRange r => do
    -- PMA asks only for memory that was not allocated pinned.
    if (s.pmm.chunk (.ofRoot r)).type ≠ .user then none
    let pmm ← startRangeEviction s.pmm r
    return { s with pmm }.goto t (.evictWait r)
  | .advance => none

/-- The next section of an operation in progress. -/
def advance (s : System) : Pc → Option System
  | .idle => none
  | .lockWait request => s.acquire t (.withSplits request (triedSizes cfg request))
  | .withSplits request [] => some (s.goto t (.allocRoot request))
  | .withSplits request (size :: sizes) => do
    let (pmm,found) ← claimFreeChunk cfg o.hook o.elevated o.fuel s.pmm request.type size
    let s := { s with pmm }
    match found with
    | some c => return s.goto t (.splitDown request size c)
    | none => return s.goto t (.withSplits request sizes)
  | .allocRoot request =>
    if o.granted = [] then some (pmaFailed s t request)
    else if o.granted.Nodup ∧ ∀ r ∈ o.granted, s.pma r = .free then
      let pma := fun r => if r ∈ o.granted then .uvm else s.pma r
      some ({ s with pma }.goto t (.initRoots request o.isZero none o.granted))
    else none
  | .initRoots request isZero none (r :: pending) =>
    let pmm := initRootChunk cfg o.hook s.pmm request.type r .tempPinned isZero
    some ({ s with pmm }.goto t (.initRoots request isZero (some r) pending))
  | .initRoots request isZero (some first) (r :: pending) =>
    let pmm := initRootChunk cfg o.hook s.pmm request.type r .free isZero
    some ({ s with pmm }.goto t (.initRoots request isZero (some first) pending))
  | .initRoots request _ (some first) [] => some (gotRoot s t request first)
  | .initRoots _ _ none [] => none
  | .splitDown request size c =>
    if size = request.size then some ((s.unlock.hold c true).goto t .idle)
    else
      match splitGpuChunk cfg s.pmm c o.memory with
      | some pmm => some ({ s with pmm }.goto t (.freeSiblings request size c))
      | none => some (s.goto t (.freeMerge (.splitFailed request) c))
  | .freeSiblings request size parent => do
    let smaller ← chunkFindPrevSize (cfg.chunkSizes request.type) size
    let pmm := freeSiblings cfg o.hook s.pmm parent
    return { s with pmm }.goto t (.splitDown request smaller (parent.child 0))
  | .freeWait type c => s.acquire t (.freeMerge (.freed type) c)
  | .freeMerge after c =>
    match freeOrPrepareForMerge cfg o.hook s.pmm c with
    | (pmm,none) => some (afterFree { s with pmm } t after)
    | (pmm,some parent) => some ({ s with pmm }.goto t (.mergeParent after parent))
  | .mergeParent after parent =>
    some ({ s with pmm := mergeGpuChunk s.pmm parent }.goto t (.freeMerge after parent))
  | .freeNext type after =>
    match popFreeRootChunk cfg s.pmm type with
    | some (pmm,r) => some ({ s with pmm }.goto t (.freeRoot r .free after))
    | none => some (afterRoot s t after)
  | .freeRoot r owner after =>
    let s := { s with pmm := freeRootChunk s.pmm r, pma := Function.update s.pma r owner }
    some (afterRoot s t after)
  | .splitWalk c pinned _ [] =>
    let handles := (leaves s.pmm c).map fun x => ⟨x,pinned⟩
    some ({ s with held := handles ++ s.held }.unlock.goto t .idle)
  | .splitWalk c pinned minSize (x :: todo) =>
    match splitGpuChunk cfg s.pmm x o.memory with
    | none => some (s.goto t (.mergeWalk c (.caller pinned)))
    | some pmm =>
      let subchunks := (List.range (numSubchunks pmm x)).map x.child
      let todo := if (pmm.chunk (x.child 0)).log2Size = minSize then todo else subchunks ++ todo
      some ({ s with pmm }.goto t (.splitWalk c pinned minSize todo))
  | .mergeWalk c after =>
    match nextMerge s.pmm c with
    | some x => some { s with pmm := mergeGpuChunk s.pmm x }
    | none =>
      match after with
      | .caller pinned => some ((s.unlock.hold c pinned).goto t .idle)
      | .evict goal => some (s.goto t (.evictDone goal c.root))
  | .pickWait goal => s.acquire t (.pick goal)
  | .pick goal =>
    match pickRootChunkToEvict cfg s.pmm with
    | some (pmm,r) => some ({ s with pmm }.goto t (.evictPin goal r (preOrder pmm (.ofRoot r))))
    | none => some (evictFailed s t goal)
  | .evictWait r => s.acquire t (.evictPin .range r (preOrder s.pmm (.ofRoot r)))
  | .evictPin goal r [] => some (s.goto t (.evictFind goal r (preOrder s.pmm (.ofRoot r))))
  | .evictPin goal r (c :: todo) =>
    some ({ s with pmm := pinFreeChunksFunc s.pmm c }.goto t (.evictPin goal r todo))
  | .evictFind goal r [] => some (s.goto t (.mergeWalk (.ofRoot r) (.evict goal)))
  | .evictFind goal r (c :: todo) =>
    if (s.pmm.chunk c).state = .allocated then some (s.unlock.goto t (.evictBlock goal r))
    else some (s.goto t (.evictFind goal r todo))
  | .evictBlock goal r =>
    match o.evicted with
    | some c =>
      if ⟨c,false⟩ ∈ s.held ∧ c.root = r ∧ (s.pmm.chunk c).vaBlock.isSome then
        some ({ s with pmm := markChunkEvicted s.pmm c }.drop c false)
      else none
    | none =>
      s.acquire t (if o.success then .evictFind goal r (preOrder s.pmm (.ofRoot r))
        else .evictError goal r)
  | .evictDone goal r =>
    some ({ s with pmm := finishEviction s.pmm r }.goto t (.evicted goal r))
  | .evicted goal r => some (evictedRoot o s t r goal)
  | .evictError goal r =>
    let pmm := abandonEviction cfg o.hook s.pmm r
    some ({ s with pmm }.goto t (.cleanup goal r (preOrder pmm (.ofRoot r))))
  | .cleanup goal _ [] =>
    -- Only user memory is evicted.
    some (s.goto t (.freeNext .user (.evictFailed goal)))
  | .cleanup goal r (c :: todo) =>
    if (s.pmm.chunk c).state = .tempPinned then some (s.goto t (.freeMerge (.cleanup goal r) c))
    else some (s.goto t (.cleanup goal r todo))

end

/-- A step of thread `t`, or of PMA and the resource manager among themselves. -/
inductive Event where
  | thread (t : Thread) (action : Action) (oracle : Oracle)
  | rmAlloc (r : RootId)
  | rmFree (r : RootId)

def step (s : System) : Event → Option System
  | .thread t .advance o => advance cfg o t s (s.pc t)
  | .thread t action o => if s.pc t = .idle then begin cfg o t s action else none
  | .rmAlloc r => if s.pma r = .free then some { s with pma := Function.update s.pma r .rm } else none
  | .rmFree r => if s.pma r = .rm then some { s with pma := Function.update s.pma r .free } else none

def execute : List Event → System → Option System
  | [], s => some s
  | event :: events, s => (step cfg s event).bind (execute events)

attribute [local simp] advance

end GpuExt.Pmm
