import GpuExt.FaultBatch
import GpuExt.ListCircle

/-! Fetching faults from the ring into the fault cache. Faults on one page are coalesced: the
last fault of the batch and the last fault of each uTLB are remembered, and a new fault is
merged into one of them, or takes its place if its access type is higher. -/
namespace GpuExt.FaultFetch

open Function
open FaultBatch ListHead

inductive FaultType where
  | invalidPde
  | invalidPte
  | atomic
  | write
  | read
  | pdeSize
  | vaLimitViolation
  | unboundInstBlock
  | privViolation
  | pitchMaskViolation
  | workCreation
  | unsupportedAperture
  | compressionFailure
  | unsupportedKind
  | regionViolation
  | poisoned
  | ccViolation
  deriving DecidableEq, Repr

def FaultType.isFatal : FaultType → Bool
  | .invalidPde | .invalidPte | .atomic | .write | .read => false
  | _ => true

structure InstancePtr where
  aperture : Nat
  address : Nat
  deriving DecidableEq, Repr

/-- What `parse_replayable_entry` reads from an entry of the ring. -/
structure Parsed (utlbCount : Nat) where
  faultAddress : Nat
  instancePtr : InstancePtr
  veId : Nat
  utlbId : Fin utlbCount
  faultType : FaultType
  accessType : AccessType
  deriving DecidableEq, Repr

structure Entry (utlbCount : Nat) extends Parsed utlbCount where
  isFatal : Bool
  fatalReason : FatalReason
  vaSpace : Option Nat
  gpu : Option Nat
  filtered : Bool
  cancelVaMode : CancelVaMode
  numInstances : Nat
  accessTypeMask : Finset AccessType

structure Utlb where
  numPendingFaults : Nat
  hasFatalFaults : Bool
  lastFault : Nat

/-- The batch context and the cached ends of the ring. Entries of the cache are named by their
index, and `links` holds their `merged_instances_list` nodes. -/
structure Context (utlbCount : Nat) where
  faultCache : Nat → Entry utlbCount
  links : Links Empty Nat
  utlbs : Fin utlbCount → Utlb
  maxUtlbId : Nat
  isSingleInstancePtr : Bool
  lastFault : Option Nat
  numCachedFaults : Nat
  numCoalescedFaults : Nat
  cachedGet : Nat
  cachedPut : Nat

inductive FetchMode where
  | batchReady
  | all
  deriving DecidableEq, Repr

structure Config where
  pageSize : Nat
  maxFaults : Nat
  maxBatchSize : Nat
  faultCoalesce : Bool
  faultCancelVaSupported : Bool

/-- An entry of the ring: whether it is valid when first polled, and what parsing it gives. The
wait for a later entry ends with the entry or with the global error. -/
structure Arrival (utlbCount : Nat) where
  isValid : Bool
  outcome : Except NvStatus (Parsed utlbCount)

variable {utlbCount : Nat}

/-- `cmp_fault_instance_ptr` finds no difference. -/
def sameInstancePtr (a b : Parsed utlbCount) : Bool := a.instancePtr = b.instancePtr ∧ a.veId = b.veId

variable (cfg : Config)

def pageAlignDown (address : Nat) : Nat := address / cfg.pageSize * cfg.pageSize

def alignAddress (parsed : Parsed utlbCount) : Parsed utlbCount :=
  { parsed with faultAddress := pageAlignDown cfg parsed.faultAddress }

/-- A cache entry as it is before coalescing. The number of instances and the mask are those of
the entry that was in this place before. -/
def initEntry (old : Entry utlbCount) (parsed : Parsed utlbCount) : Entry utlbCount where
  toParsed := alignAddress cfg parsed
  isFatal := parsed.faultType.isFatal
  fatalReason := if parsed.faultType.isFatal then .invalidFaultType else .invalid
  vaSpace := none
  gpu := none
  filtered := false
  cancelVaMode := .all
  numInstances := old.numInstances
  accessTypeMask := old.accessTypeMask

variable (ctx : Context utlbCount)

/-- The last fault counts one more instance, of the access type of the current one. -/
def countInstance (current last : Entry utlbCount) : Entry utlbCount :=
  { last with
    numInstances := last.numInstances + 1
    accessTypeMask := insert current.accessType last.accessTypeMask }

section

variable (current last : Nat) (mode : FetchMode) (index : Nat)

def supersede : Context utlbCount :=
  let counted := countInstance (ctx.faultCache current) (ctx.faultCache last)
  { ctx with
    faultCache := update
      (update ctx.faultCache last { counted with filtered := true })
      current { ctx.faultCache current with
        accessTypeMask := counted.accessTypeMask
        numInstances := counted.numInstances }
    links := listAdd (listReplace ctx.links (.entry last) (.entry current))
      (.entry last) (.entry current) }

def join : Context utlbCount :=
  { ctx with
    faultCache := update
      (update ctx.faultCache last
        (countInstance (ctx.faultCache current) (ctx.faultCache last)))
      current { ctx.faultCache current with filtered := true }
    links := listAdd ctx.links (.entry current) (.entry last) }

def mergeEntry : Context utlbCount :=
  if (ctx.faultCache last).accessType < (ctx.faultCache current).accessType then
    supersede ctx current last
  else join ctx current last

def setLastFault (ctx : Context utlbCount) (id : Fin utlbCount) (index : Nat) : Context utlbCount :=
  { ctx with utlbs := update ctx.utlbs id { ctx.utlbs id with lastFault := index } }

def lastTlbEntry : Nat := (ctx.utlbs (ctx.faultCache current).utlbId).lastFault

def isLastTlbFault : Bool :=
  let last := ctx.faultCache (lastTlbEntry ctx current)
  0 < (ctx.utlbs (ctx.faultCache current).utlbId).numPendingFaults ∧
    sameInstancePtr (ctx.faultCache current).toParsed last.toParsed ∧
    (ctx.faultCache current).faultAddress = last.faultAddress

def isLastFault : Bool :=
  sameInstancePtr (ctx.faultCache current).toParsed (ctx.faultCache last).toParsed ∧
    (ctx.faultCache current).faultAddress = (ctx.faultCache last).faultAddress ∧
    (ctx.faultCache current).accessType ≤ (ctx.faultCache last).accessType

/-- `fetch_fault_buffer_try_merge_entry`. The last fault of the batch is never replaced here:
in the second branch the new access type is not higher. -/
def tryMergeEntry : Option (Context utlbCount) :=
  if isLastTlbFault ctx current then
    let lastTlb := lastTlbEntry ctx current
    let merged := mergeEntry ctx current lastTlb
    if (ctx.faultCache lastTlb).accessType < (ctx.faultCache current).accessType then
      some (setLastFault merged (ctx.faultCache current).utlbId current)
    else some merged
  else if isLastFault ctx current last then some (mergeEntry ctx current last)
  else none

def addEntry (isSameInstancePtr : Bool) : Context utlbCount :=
  let entry := ctx.faultCache current
  let tlb := ctx.utlbs entry.utlbId
  { ctx with
    faultCache := update ctx.faultCache current
      { entry with numInstances := 1, accessTypeMask := {entry.accessType} }
    links := initListHead ctx.links (.entry current)
    utlbs := update ctx.utlbs entry.utlbId
      { tlb with numPendingFaults := tlb.numPendingFaults + 1, lastFault := current }
    isSingleInstancePtr := ctx.isSingleInstancePtr && isSameInstancePtr
    lastFault := some current
    numCoalescedFaults := ctx.numCoalescedFaults + 1 }

/-- Coalescing is on, and this is not the cancel path of Pascal. -/
def mayFilter : Bool :=
  cfg.faultCoalesce && !(!cfg.faultCancelVaSupported && mode = .all)

/-- The entry is parsed into its place in the cache. -/
@[simp] def cacheEntry (parsed : Parsed utlbCount) : Context utlbCount :=
  { ctx with
    faultCache := update ctx.faultCache index
      (initEntry cfg (ctx.faultCache index) parsed)
    maxUtlbId := max ctx.maxUtlbId parsed.utlbId }

/-- The cached entry is merged or added. There is a last fault from the second entry on. -/
def coalesceEntry : Context utlbCount :=
  match ctx.lastFault with
  | none => addEntry ctx index true
  | some last =>
    let isSame := sameInstancePtr (ctx.faultCache index).toParsed (ctx.faultCache last).toParsed
    if mayFilter cfg mode ∧ (ctx.faultCache index).isFatal = false then
      (tryMergeEntry ctx index last).getD (addEntry ctx index isSame)
    else addEntry ctx index isSame

def advanceGet : Context utlbCount :=
  { ctx with cachedGet := if ctx.cachedGet + 1 = cfg.maxFaults then 0 else ctx.cachedGet + 1 }

def fetchEntry (parsed : Parsed utlbCount) : Context utlbCount :=
  advanceGet cfg (coalesceEntry cfg (cacheEntry cfg ctx index parsed) mode index)

inductive Poll (utlbCount : Nat) where
  | stop (status : NvStatus)
  | entry (parsed : Parsed utlbCount)

/-- Whether the loop goes on with the entry at GET, which is not PUT. -/
def poll (arrival : Arrival utlbCount) (index : Nat) : Poll utlbCount :=
  if mode = .batchReady ∧ cfg.maxBatchSize ≤ index then .stop .ok
  -- There is some entry to work on, the rest is done later.
  else if arrival.isValid = false ∧ mode = .batchReady ∧ 0 < index then .stop .ok
  else
    match arrival.outcome with
    | .error status => .stop status
    | .ok parsed => .entry parsed

/-- The loop over the entries from GET to PUT. It returns the status, the number of entries
fetched and the context. -/
def fetchLoop (mode : FetchMode) (ring : Nat → Arrival utlbCount) :
    Nat → Nat → Context utlbCount → NvStatus × Nat × Context utlbCount
  | 0, index, ctx => (.ok,index,ctx)
  | entries + 1, index, ctx =>
    match poll cfg mode (ring ctx.cachedGet) index with
    | .stop status => (status,index,ctx)
    | .entry parsed =>
      fetchLoop mode ring entries (index + 1) (fetchEntry cfg ctx mode index parsed)

/-- The counters of the uTLBs are cleared up to the highest id of the previous batch. -/
def resetBatch : Context utlbCount :=
  { ctx with
    utlbs := fun id =>
      if id ≤ ctx.maxUtlbId then
        { ctx.utlbs id with numPendingFaults := 0, hasFatalFaults := false }
      else ctx.utlbs id
    maxUtlbId := 0
    isSingleInstancePtr := true
    lastFault := none
    numCoalescedFaults := 0 }

/-- PUT is read from the GPU when the entries before the cached one are used up. -/
def updatePut (put : Nat) : Context utlbCount :=
  if ctx.cachedGet = ctx.cachedPut then { ctx with cachedPut := put } else ctx

def entriesBeforePut : Nat := (ctx.cachedPut + cfg.maxFaults - ctx.cachedGet) % cfg.maxFaults

def fetchFaultBufferEntries (put : Nat) (ring : Nat → Arrival utlbCount) :
    NvStatus × Context utlbCount :=
  let start := resetBatch (updatePut ctx put)
  let fetched := fetchLoop cfg mode ring (entriesBeforePut cfg start) 0 start
  (fetched.1,{ fetched.2.2 with numCachedFaults := fetched.2.1 })

end

end GpuExt.FaultFetch
