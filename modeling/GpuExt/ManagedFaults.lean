import GpuExt.FaultBatch
import Mathlib.Data.Finset.Basic

/-! Servicing the faults of a batch on one managed VA block. A pass scans the run of faults on
the block, checks each against the logical permissions and gathers the pages to be serviced;
the pass is repeated while the allocation of memory asks for a retry. -/
namespace GpuExt.ManagedFaults

open FaultBatch

inductive Prot where
  | none
  | readOnly
  | readWrite
  | readWriteAtomic
  deriving DecidableEq, Repr

def Prot.rank : Prot → Nat
  | .none => 0
  | .readOnly => 1
  | .readWrite => 2
  | .readWriteAtomic => 3

theorem Prot.rank_injective : Function.Injective Prot.rank := by
  intro a b same
  cases a <;> cases b <;> simp_all [Prot.rank]

instance : LinearOrder Prot := LinearOrder.lift' Prot.rank Prot.rank_injective

def faultAccessTypeToProt : AccessType → Prot
  | .atomicStrong => .readWriteAtomic
  | .atomicWeak | .write => .readWrite
  | .read | .prefetch => .readOnly

theorem faultAccessTypeToProt_mono : Monotone faultAccessTypeToProt := by
  intro low high
  cases low <;> cases high <;> decide

/-- The mapping bits of the GPU in the block: a write mapping can be read, an atomic one written. -/
structure PteBits where
  read : Finset Nat
  write : Finset Nat
  atomic : Finset Nat
  write_read : write ⊆ read
  atomic_write : atomic ⊆ write

/-- The mask that `get_gpu_pte_bit_index` selects; no access needs `none`. -/
def PteBits.mask (bits : PteBits) : Prot → Finset Nat
  | .readWriteAtomic => bits.atomic
  | .readWrite => bits.write
  | .readOnly => bits.read
  | .none => ∅

/-- `uvm_va_block_page_is_gpu_authorized`; without a state the GPU has no mapping. -/
def pageIsGpuAuthorized (bits : Option PteBits) (page : Nat) (required : Prot) : Bool :=
  match bits with
  | none => false
  | some bits => page ∈ bits.mask required

/-- Which accesses the block allows at an address, with the reason for those it does not. A
higher access type is never allowed where a lower one is not. -/
structure Permissions where
  check : Nat → AccessType → NvStatus
  lower : ∀ (address : Nat) {low high : AccessType}, low ≤ high →
    check address high = .ok → check address low = .ok

/-- What the check reads of a block: `checksVma` if a mm is registered or the tests are on,
`migratable` from the range groups. -/
structure LogicalState where
  isZombie : Bool
  checksVma : Bool
  logicalProt : Nat → Prot
  migratable : Nat → Bool
  preferredLocationAccessible : Bool

section

variable (block : Block) (state : LogicalState) (address : Nat)

/-- `uvm_va_block_check_logical_permissions` for a GPU. -/
def checkLogicalPermissions (access : AccessType) : NvStatus :=
  if state.isZombie then .invalidAddress
  else if state.checksVma ∧ state.logicalProt address < faultAccessTypeToProt access then
    .invalidAccessType
  else if state.migratable address = false then
    if state.preferredLocationAccessible then .ok else .invalidAccessType
  else .ok

def logicalPermissions : Permissions where
  check := checkLogicalPermissions state
  lower := by
    intro address low high ordered
    have prots := faultAccessTypeToProt_mono ordered
    simp only [checkLogicalPermissions]
    split
    · exact fun refused => refused
    · split
      · exact fun refused => absurd refused (by decide)
      next enough =>
        have less : ¬(state.checksVma = true ∧
            state.logicalProt address < faultAccessTypeToProt low) := fun lacking =>
          enough ⟨lacking.1,lacking.2.trans_le prots⟩
        rw [if_neg less]
        exact fun allowed => allowed

structure Block where
  vaSpace : Nat
  pageSize : Nat
  pagesPerBlock : Nat
  start : Nat
  stop : Nat
  isHmm : Bool
  policyEnd : Nat → Nat
  pageSize_pos : 0 < pageSize
  start_aligned : pageSize ∣ start
  size : stop < start + pagesPerBlock * pageSize
  policyEnd_le : ∀ address, policyEnd address ≤ stop

/-- The last address of the run that begins with this fault. -/
def Block.runEnd : Nat :=
  if block.isHmm then block.policyEnd address else block.stop

def Block.cpuPageIndex : Nat :=
  (address - block.start) / block.pageSize

end

inductive ThrashingHint where
  | none
  | pin
  | throttle
  deriving DecidableEq, Repr

structure ServiceContext where
  numRetries : Nat
  residentProcessors : Finset Nat
  newResidency : Nat → Finset Nat
  thrashingPinCount : Nat
  thrashingPinMask : Finset Nat
  readDuplicateCount : Nat
  readDuplicateMask : Finset Nat
  accessType : Nat → AccessType
  first : Nat
  outer : Nat

/-- What a pass meets outside of this code. The lock of the block may be dropped between two
passes, so the mappings can differ; hints and residencies are asked for entry by entry. -/
structure Pass where
  bits : Option PteBits
  hint : Nat → ThrashingHint
  selectResidency : Nat → Finset AccessType → Nat × Bool
  serviceLocked : ServiceContext → NvStatus × ServiceContext
  setCancel : NvStatus

structure Scan where
  batch : BatchContext
  service : ServiceContext
  pageFaultCount : Nat
  firstPageIndex : Nat
  lastPageIndex : Nat

variable (permissions : Permissions) (block : Block) (pass : Pass)

/-- `check_fault_access_permissions`: the access type to service, if there is one. -/
def checkFaultAccessPermissions (numRetries : Nat) (ctx : BatchContext) (index : Nat)
    (fault : Fault) : Option AccessType × BatchContext :=
  let status := permissions.check fault.faultAddress fault.accessType
  if status = .ok then (some fault.accessType,ctx)
  else if fault.accessType = .prefetch then
    (none,if numRetries = 0 then markFaultInvalidPrefetch ctx index fault else ctx)
  else if .read < fault.accessType then
    -- Pending reads are serviced before the write is cancelled.
    if .read ∈ fault.accessTypeMask then
      let readStatus := permissions.check fault.faultAddress .read
      if readStatus = .ok then
        (some .read,
          markFaultFatal ctx index fault (statusToFatalFaultReason status) .writeAndAtomic)
      else (none,markFaultFatal ctx index fault (statusToFatalFaultReason readStatus) .all)
    else (none,markFaultFatal ctx index fault (statusToFatalFaultReason status) .writeAndAtomic)
  else (none,markFaultFatal ctx index fault (statusToFatalFaultReason status) .all)

section

variable (index : Nat) (fault : Fault) (scan : Scan) (service : ServiceContext)

def pinPage (page : Nat) : ServiceContext :=
  { service with
    thrashingPinMask :=
      if service.thrashingPinCount = 0 then {page} else insert page service.thrashingPinMask
    thrashingPinCount := service.thrashingPinCount + 1 }

/-- The page is set in the mask of its new residency. Masks of processors that are not yet
resident hold pages of an earlier pass. -/
def setResidency (residency page : Nat) : ServiceContext :=
  { service with
    residentProcessors := insert residency service.residentProcessors
    newResidency := Function.update service.newResidency residency
      (if residency ∈ service.residentProcessors then insert page (service.newResidency residency)
        else {page}) }

def setReadDuplicate (page : Nat) : ServiceContext :=
  { service with
    readDuplicateMask :=
      if service.readDuplicateCount = 0 then {page} else insert page service.readDuplicateMask
    readDuplicateCount := service.readDuplicateCount + 1 }

/-- The page will be serviced. -/
def handPage (page : Nat) (access : AccessType) (selected : Nat × Bool) : Scan :=
  let service := setResidency scan.service selected.1 page
  let service := if selected.2 then setReadDuplicate service page else service
  { scan with
    service := { service with accessType := Function.update service.accessType page access }
    pageFaultCount := scan.pageFaultCount + 1
    firstPageIndex := min scan.firstPageIndex page
    lastPageIndex := max scan.lastPageIndex page }

/-- The access is serviced unless the GPU has the right already or the page is throttled. -/
def serviceAccess (access : AccessType) (scan : Scan) : Scan :=
  let page := block.cpuPageIndex fault.faultAddress
  let mask := if access ≠ fault.accessType then {access} else fault.accessTypeMask
  if pageIsGpuAuthorized pass.bits page (faultAccessTypeToProt access) then scan
  else
    match pass.hint index with
    | .throttle =>
      if scan.service.numRetries = 0 then
        { scan with batch := markFaultThrottled scan.batch index }
      else scan
    | .pin =>
      handPage { scan with service := pinPage scan.service page } page access
        (pass.selectResidency index mask)
    | .none => handPage scan page access (pass.selectResidency index mask)

def serviceEntry : Scan :=
  let checked := checkFaultAccessPermissions permissions scan.service.numRetries scan.batch index
    fault
  let scan := { scan with batch := checked.2 }
  match checked.1 with
  | none => scan
  | some access => serviceAccess block pass index fault access scan

/-- The flags are cleared, the fault is counted on the first pass, and a duplicate takes over
flags of the previous fault on the page. -/
def noteFault (numRetries : Nat) (ctx : BatchContext) (index : Nat) (fault : Fault)
    (isDuplicate : Bool) : BatchContext :=
  let ctx := setMark ctx index
    { ctx.marks index with isThrottled := false, isInvalidPrefetch := false }
  let ctx := if numRetries = 0 then updateBatch ctx fault isDuplicate else ctx
  if isDuplicate then faultEntryDuplicateFlags ctx index fault (ctx.marks (index - 1)) else ctx

/-- One turn of the scan. The previous fault is the one before in the run. -/
def scanEntry (previous : Option Fault) (scan : Scan) : Scan :=
  let isDuplicate := checkFaultEntryDuplicate fault previous
  let scan := { scan with
    batch := noteFault scan.service.numRetries scan.batch index fault isDuplicate }
  -- The previous fault was not fatal, so the page has been serviced already.
  if isDuplicate ∧ (scan.batch.marks (index - 1)).isFatal = false then scan
  else serviceEntry permissions block pass index fault scan

def inRun (gpu stop : Nat) (fault : Fault) : Bool :=
  fault.vaSpace = block.vaSpace ∧ fault.gpu = gpu ∧ fault.faultAddress ≤ stop

def scanLoop (gpu stop : Nat) : List Fault → Nat → Option Fault → Scan → Nat × Scan
  | [], index, _, scan => (index,scan)
  | fault :: faults, index, previous, scan =>
    if inRun block gpu stop fault then
      scanLoop gpu stop faults (index + 1) (some fault)
        (scanEntry permissions block pass index fault previous scan)
    else (index,scan)

/-- The outcome of a pass: what was handed to `uvm_va_block_service_locked`, if there was a page
to be serviced, and the contexts afterwards. -/
structure Passed where
  status : NvStatus
  blockFaults : Nat
  handed : Option ServiceContext
  batch : BatchContext
  service : ServiceContext

def startScan (batch : BatchContext) (service : ServiceContext) : Scan where
  batch := batch
  service := { service with
    residentProcessors := ∅, thrashingPinCount := 0, readDuplicateCount := 0 }
  pageFaultCount := 0
  firstPageIndex := block.pagesPerBlock
  lastPageIndex := 0

/-- `uvm_va_block_service_locked` on the pages of the scan. -/
def servicePages : NvStatus × Option ServiceContext × ServiceContext :=
  if 0 < scan.pageFaultCount then
    let service := { scan.service with
      first := scan.firstPageIndex, outer := scan.lastPageIndex + 1 }
    let served := pass.serviceLocked service
    (served.1,some service,served.2)
  else (.ok,none,scan.service)

end

section

variable (faults : List Fault) (first : Nat) (fault : Fault)

def serviceFaultBatchBlockLocked (batch : BatchContext) (service : ServiceContext) : Passed :=
  let scanned := scanLoop permissions block pass fault.gpu (block.runEnd fault.faultAddress)
    (faults.drop first) first none (startScan block batch service)
  let served := servicePages pass scanned.2
  { status :=
      if served.1 = .ok ∧ scanned.2.batch.fatalVaSpace.isSome then pass.setCancel else served.1
    blockFaults := scanned.1 - first
    handed := served.2.1
    batch := scanned.2.batch
    service := { served.2.2 with numRetries := scanned.2.service.numRetries + 1 } }

/-- The passes of `UVM_VA_BLOCK_RETRY_LOCKED`, as many of the given ones as are needed, with what
each of them handed over. -/
def retryLocked (faults : List Fault) (first : Nat) (fault : Fault) :
    Pass → List Pass → BatchContext → ServiceContext →
      Passed × List (Pass × Option ServiceContext)
  | pass, [], batch, service =>
    let passed := serviceFaultBatchBlockLocked permissions block pass faults first fault batch
      service
    (passed,[(pass,passed.handed)])
  | pass, next :: later, batch, service =>
    let passed := serviceFaultBatchBlockLocked permissions block pass faults first fault batch
      service
    if passed.status = .errMoreProcessingRequired then
      let rest := retryLocked faults first fault next later passed.batch passed.service
      (rest.1,(pass,passed.handed) :: rest.2)
    else (passed,[(pass,passed.handed)])

def serviceFaultBatchBlock (next : List Pass)
    (trackerStatus : NvStatus) (batch : BatchContext) (service : ServiceContext) :
    NvStatus × Passed × List (Pass × Option ServiceContext) :=
  let retried := retryLocked permissions block faults first fault pass next batch
    { service with numRetries := 0 }
  (if retried.1.status = .ok then trackerStatus else retried.1.status,retried)

end

end GpuExt.ManagedFaults
