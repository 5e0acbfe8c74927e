import GpuExt.FaultBatch
import GpuExt.PageMask

/-! Servicing of ATS faults: the faults of a batch are gathered into sub-batches of one VA
block, the pages of a sub-batch are requested from the kernel region by region, and the
entries whose page was not serviced are marked. The kernel's answers and the pages it chooses
to prefetch are oracles that see every earlier request. -/
namespace GpuExt.AtsFaults

open FaultBatch PageMask

def vaBlockSize : Nat := 2 ^ 21

/-- `PAGE_SIZE` of the kernel. -/
structure PageSize where
  size : Nat
  atLeast : 4096 ≤ size
  divides : size ∣ vaBlockSize

def PageSize.pagesPerBlock (page : PageSize) : Nat := vaBlockSize / page.size

def blockAlignDown (address : Nat) : Nat := address - address % vaBlockSize

/-- `base + UVM_VA_BLOCK_SIZE` in 64 bits. -/
def blockOuter (base : Nat) : Nat := (base + vaBlockSize) % 2 ^ 64

/-- `(address - base) / PAGE_SIZE`, computed in 64 bits and stored in a `uvm_page_index_t`. -/
def PageSize.index (page : PageSize) (base address : Nat) : Nat :=
  (address + (2 ^ 64 - base)) % 2 ^ 64 / page.size % 2 ^ 16

/-- A VMA of a user process, which lies in the lower half of the address space. -/
structure Vma where
  vmStart : Nat
  vmEnd : Nat
  vmRead : Bool
  vmWrite : Bool
  user : vmEnd ≤ 2 ^ 63
  deriving DecidableEq, Repr

inductive ReplayPolicy where
  | block
  | batch
  | batchFlush
  | once
  deriving DecidableEq, Repr

inductive ClientType where
  | gpc
  | hub
  deriving DecidableEq, Repr

structure Request where
  access : AccessType
  base : Nat
  region : Region
  status : NvStatus
  deriving DecidableEq, Repr

structure Kernel where
  page : PageSize
  request : List Request → AccessType → Nat → Region → NvStatus
  /-- The pages `ats_compute_prefetch` adds, none if it fails or prefetching is off. -/
  prefetch : List Request → Nat → Finset Nat → Finset Nat

structure FaultMasks where
  readFault : Finset Nat
  writeFault : Finset Nat
  prefetchOnly : Finset Nat
  deriving DecidableEq

def FaultMasks.zero : FaultMasks := ⟨∅,∅,∅⟩

def FaultMasks.isEmpty (masks : FaultMasks) : Bool :=
  masks.readFault = ∅ ∧ masks.writeFault = ∅ ∧ masks.prefetchOnly = ∅

/-- The pages a sub-batch accesses other than by prefetch. -/
def accessedPages (masks : FaultMasks) : Finset Nat := masks.writeFault ∪ masks.readFault

/-- The masks that the servicing fills, and those of the faults, which it edits in place. -/
structure Serviced where
  faultsServiced : Finset Nat
  readsServiced : Finset Nat
  masks : FaultMasks
  log : List Request

variable (kernel : Kernel)

section

variable (access : AccessType) (vma : Vma) (base : Nat) (clientType : ClientType)

/-- `uvm_ats_service_faults_region`: the mask it fills and the log of requests. -/
def serviceFaultsRegion (region : Region)
    (serviced : Finset Nat) (log : List Request) : NvStatus × Finset Nat × List Request :=
  let status := kernel.request log access base region
  let log := log ++ [⟨access,base,region,status⟩]
  match status with
  | .ok => (.ok,serviced ∪ region.pages,log)
  -- The faults stay unserviced, but this is no global error.
  | .invalidAddress => (.ok,serviced,log)
  | status => (status,serviced,log)

def serviceFaultsRegions (access : AccessType) (base : Nat) :
    List Region → Finset Nat → List Request → NvStatus × Finset Nat × List Request
  | [], serviced, log => (.ok,serviced,log)
  | region :: regions, serviced, log =>
    match serviceFaultsRegion kernel access base region serviced log with
    | (.ok,serviced,log) => serviceFaultsRegions access base regions serviced log
    | failed => failed

def serviceMask (mask serviced : Finset Nat)
    (log : List Request) : NvStatus × Finset Nat × List Request :=
  serviceFaultsRegions kernel access base (subregions mask kernel.page.pagesPerBlock) serviced log

/-- Whether something is left to service after the permission check of the VMA, and the masks. -/
def permittedMasks (masks : FaultMasks) : Bool × FaultMasks :=
  if !vma.vmRead then (false,masks)
  else if !vma.vmWrite then
    -- Writes are fatal; they stay only where a read is pending too.
    let writeFault := if clientType = .gpc then masks.writeFault ∩ masks.readFault else ∅
    (masks.readFault ≠ ∅,{ masks with writeFault })
  else (true,masks)

def computePrefetch (accessed : Finset Nat) (log : List Request)
    (masks : FaultMasks) : FaultMasks :=
  if accessed = ∅ then masks
  else
    let prefetch := kernel.prefetch log base accessed
    { masks with
      readFault := masks.readFault ∪ prefetch
      writeFault := if vma.vmWrite then masks.writeFault ∪ prefetch else masks.writeFault }

/-- The three loops of `uvm_ats_service_faults`: writes, remaining reads, prefetches only. -/
def serviceMasks (masks : FaultMasks) (log : List Request) : NvStatus × Serviced :=
  -- Without write permission the mask holds the pages that are read too, serviced as reads.
  let written := serviceMask kernel (if vma.vmWrite then .write else .read) base masks.writeFault ∅
    log
  let faults := if vma.vmWrite then written.2.1 else ∅
  let reads := if vma.vmWrite then ∅ else written.2.1
  if written.1 ≠ .ok then (written.1,⟨faults,reads,masks,written.2.2⟩)
  else
    let masks := { masks with readFault := masks.readFault \ masks.writeFault }
    let read := serviceMask kernel .read base masks.readFault faults written.2.2
    if read.1 ≠ .ok then (read.1,⟨read.2.1,reads,masks,read.2.2⟩)
    else
      let prefetched := serviceMask kernel .prefetch base masks.prefetchOnly read.2.1 read.2.2
      (prefetched.1,⟨prefetched.2.1,reads,masks,prefetched.2.2⟩)

def uvmAtsServiceFaults (accessed : Finset Nat)
    (masks : FaultMasks) (log : List Request) : NvStatus × Serviced :=
  let permitted := permittedMasks vma clientType masks
  if permitted.1 then
    serviceMasks kernel vma base (computePrefetch kernel vma base accessed log permitted.2) log
  else (.ok,⟨∅,∅,permitted.2,log⟩)

end

structure Call where
  base : Nat
  faultIndexStart : Nat
  faultIndexEnd : Nat
  deriving DecidableEq, Repr

def Call.Covers (call : Call) (index : Nat) : Prop :=
  call.faultIndexStart ≤ index ∧ index < call.faultIndexEnd

instance (call : Call) (index : Nat) : Decidable (call.Covers index) :=
  inferInstanceAs (Decidable (_ ∧ _))

structure State where
  ctx : BatchContext
  masks : FaultMasks
  blockFaults : Nat
  log : List Request
  calls : List Call

variable (faults : List Fault)

def previousFault (index : Nat) : Option Fault :=
  if 0 < index then faults[index - 1]? else none

section

variable (state : State) (index : Nat) (fault : Fault) (status : NvStatus)

def serviceFaultBatchFatal (mode : CancelVaMode) : State :=
  let ctx :=
    if checkFaultEntryDuplicate fault (previousFault faults index) then
      faultEntryDuplicateFlags state.ctx index fault (state.ctx.marks (index - 1))
    else state.ctx
  let ctx :=
    if fault.accessType = .prefetch then markFaultInvalidPrefetch ctx index fault
    else markFaultFatal ctx index fault (statusToFatalFaultReason status) mode
  { state with ctx := ctx, blockFaults := state.blockFaults + 1 }

def serviceFaultBatchFatalNotify (mode : CancelVaMode) : State :=
  let isDuplicate := checkFaultEntryDuplicate fault (previousFault faults index)
  let state := serviceFaultBatchFatal faults state index fault status mode
  { state with ctx := updateBatch state.ctx fault isDuplicate }

def cancelMode (readServiced : Bool) : CancelVaMode :=
  if fault.accessType ≤ .read then .all
  else if .read ∈ fault.accessTypeMask ∧ !readServiced then .all
  else .writeAndAtomic

end

/-- One turn of the attribution loop of `service_fault_batch_ats_sub_vma`. -/
def attributeFault (base : Nat) (serviced : Serviced) (state : State) (index : Nat) : State :=
  match faults[index]? with
  | none => state
  | some fault =>
    let pageIndex := kernel.page.index base fault.faultAddress
    if pageIndex ∈ serviced.faultsServiced then
      { state with blockFaults := state.blockFaults + 1 }
    else
      serviceFaultBatchFatal faults state index fault .invalidAddress
        (cancelMode fault (pageIndex ∈ serviced.readsServiced))

def serviceFaultBatchAtsSubVma (vma : Vma) (base start outer : Nat) (state : State) :
    NvStatus × State :=
  let accessed := accessedPages state.masks
  let (status,serviced) :=
    uvmAtsServiceFaults kernel vma base .gpc accessed state.masks state.log
  let serviced := { serviced with faultsServiced := serviced.faultsServiced ∩ accessed }
  let state := { state with
    masks := serviced.masks
    log := serviced.log
    calls := state.calls ++ [⟨base,start,outer⟩] }
  if status ≠ .ok ∨ serviced.faultsServiced = accessed then
    (status,{ state with blockFaults := state.blockFaults + (outer - start) })
  else
    (.ok,(List.range' start (outer - start)).foldl
      (attributeFault kernel faults base serviced) state)

def gatherFault (base : Nat) (masks : FaultMasks) (fault : Fault) : FaultMasks :=
  let pageIndex := kernel.page.index base fault.faultAddress
  { prefetchOnly :=
      if fault.accessType = .prefetch ∧ maskHighest fault.accessTypeMask = some .prefetch then
        insert pageIndex masks.prefetchOnly
      else masks.prefetchOnly
    readFault :=
      if fault.accessType = .read ∨ .read ∈ fault.accessTypeMask then
        insert pageIndex masks.readFault
      else masks.readFault
    writeFault :=
      if .write ≤ fault.accessType then insert pageIndex masks.writeFault
      else masks.writeFault }

/-- The local variables of `service_fault_batch_ats_sub`. -/
structure Sub where
  state : State
  status : NvStatus
  index : Nat
  subBatchFaultIndex : Nat
  subBatchBase : Nat

@[simp] def startNewSubBatch (sub : Sub) (address index : Nat) : Sub :=
  { sub with
    state := { sub.state with masks := .zero }
    subBatchFaultIndex := index
    subBatchBase := blockAlignDown address }

def gatherCurrent (sub : Sub) (current : Fault) : Sub :=
  { sub with state := { sub.state with
      masks := gatherFault kernel sub.subBatchBase sub.state.masks current } }

/-- `i++` and the notification of the current fault. -/
def notifyCurrent (sub : Sub) (previous : Option Fault) (current : Fault) : Sub :=
  { sub with
    index := sub.index + 1
    state := { sub.state with
      ctx := updateBatch sub.state.ctx current (checkFaultEntryDuplicate current previous) } }

/-- The faults gathered so far, without the current one, are serviced. -/
def serviceGathered (vma : Vma) (sub : Sub) : Sub :=
  let serviced := serviceFaultBatchAtsSubVma kernel faults vma sub.subBatchBase
    sub.subBatchFaultIndex (sub.index - 1) sub.state
  { sub with status := serviced.1, state := serviced.2 }

/-- One turn of the loop of `service_fault_batch_ats_sub`, with whether it leaves the loop. -/
def subTurn (vma : Vma) (replayPerVaBlock : Bool) (previous : Option Fault) (current : Fault)
    (sub : Sub) : Bool × Sub :=
  let sub := notifyCurrent sub previous current
  if blockOuter sub.subBatchBase ≤ current.faultAddress then
    let sub := serviceGathered kernel faults vma sub
    if sub.status ≠ .ok ∨ replayPerVaBlock then (true,sub)
    else
      (false,gatherCurrent kernel (startNewSubBatch sub current.faultAddress (sub.index - 1))
        current)
  else (false,gatherCurrent kernel sub current)

def subLoop (vma : Vma) (replayPerVaBlock : Bool) (outer : Nat) :
    Nat → Option Fault → Fault → Sub → Sub
  | 0, _, _, sub => sub
  | fuel + 1, previous, current, sub =>
    let turn := subTurn kernel faults vma replayPerVaBlock previous current sub
    if turn.1 then turn.2
    else
      match faults[turn.2.index]? with
      | none => turn.2
      | some next =>
        if next.faultAddress < outer ∧ current.vaSpace = next.vaSpace then
          subLoop vma replayPerVaBlock outer fuel (some current) next turn.2
        else turn.2

def serviceFaultBatchAtsSub (policy : ReplayPolicy) (vma : Vma) (faultIndex : Nat) (current : Fault)
    (outer : Nat) (state : State) : NvStatus × State :=
  let outer := min outer vma.vmEnd
  let sub := startNewSubBatch ⟨state,.ok,faultIndex,0,0⟩ current.faultAddress faultIndex
  let sub := subLoop kernel faults vma (policy = .block) outer faults.length none current sub
  if sub.status = .ok ∧ !sub.state.masks.isEmpty then
    -- Service the last sub-batch.
    serviceFaultBatchAtsSubVma kernel faults vma sub.subBatchBase sub.subBatchFaultIndex sub.index
      sub.state
  else (sub.status,sub.state)

/-- `find_vma_intersection(mm, address, address + 1)`. -/
structure AddressSpace where
  findVma : Nat → Option Vma
  contains : ∀ address vma, findVma address = some vma →
    vma.vmStart ≤ address ∧ address < vma.vmEnd

/-- The entry before is of another VA space or GPU; the first entry has none before it. -/
def otherRun (firstFaultIndex index : Nat) (current : Fault) : Bool :=
  (if firstFaultIndex < index then faults[index - 1]? else none).any fun previous =>
    previous.vaSpace ≠ current.vaSpace ∨ previous.gpu ≠ current.gpu

def atsLoop (mm : AddressSpace) (policy : ReplayPolicy) (firstFaultIndex outer : Nat) :
    Nat → Nat → State → Option (NvStatus × State)
  | 0, _, _ => none
  | fuel + 1, index, state =>
    match faults[index]? with
    | none => some (.ok,state)
    | some current =>
      if otherRun faults firstFaultIndex index current then some (.ok,state)
      else if outer ≤ current.faultAddress then some (.ok,state)
      else
        match mm.findVma current.faultAddress with
        | none =>
          some (.ok,serviceFaultBatchFatalNotify faults state index current .invalidAddress .all)
        | some vma =>
          let serviced :=
            serviceFaultBatchAtsSub kernel faults policy vma index current outer state
          if serviced.1 = .ok then
            atsLoop mm policy firstFaultIndex outer fuel
              (index + (serviced.2.blockFaults - state.blockFaults)) serviced.2
          else some serviced

def serviceFaultBatchAts (mm : AddressSpace) (policy : ReplayPolicy) (firstFaultIndex outer : Nat)
    (state : State) : Option (NvStatus × State) :=
  atsLoop kernel faults mm policy firstFaultIndex outer (faults.length + 1) firstFaultIndex state

end GpuExt.AtsFaults
