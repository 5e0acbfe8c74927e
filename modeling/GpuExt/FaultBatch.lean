import Mathlib.Data.Finset.Basic
import Mathlib.Algebra.Group.Nat.Defs
import GpuExt.NvTypes

/-! A batch of replayable GPU faults after preprocessing. The faults are sorted by VA space,
GPU, address and access type and do not change any more; servicing only writes the marks of
the entries and the counters of the batch. -/
namespace GpuExt.FaultBatch

open Function

/-- Access types in the order of their intrusiveness. -/
inductive AccessType where
  | prefetch
  | read
  | write
  | atomicWeak
  | atomicStrong
  deriving DecidableEq, Repr

def AccessType.rank : AccessType → Nat
  | .prefetch => 0
  | .read => 1
  | .write => 2
  | .atomicWeak => 3
  | .atomicStrong => 4

theorem AccessType.rank_injective : Function.Injective AccessType.rank := by
  intro a b same
  cases a <;> cases b <;> simp_all [AccessType.rank]

instance : LinearOrder AccessType := LinearOrder.lift' AccessType.rank AccessType.rank_injective

theorem AccessType.le_iff (a b : AccessType) : a ≤ b ↔ a.rank ≤ b.rank := Iff.rfl

/-- `uvm_fault_access_type_mask_highest`: the position of the last bit set. -/
def maskHighest (mask : Finset AccessType) : Option AccessType :=
  [.atomicStrong,.atomicWeak,.write,.read,.prefetch].find? (· ∈ mask)

theorem maskHighest_mem {mask : Finset AccessType} {access : AccessType}
    (highest : maskHighest mask = some access) : access ∈ mask := by
  simpa using List.find?_some highest

inductive CancelVaMode where
  | all
  | writeAndAtomic
  deriving DecidableEq, Repr

inductive FatalReason where
  | invalid
  | invalidAddress
  | invalidPermissions
  | invalidFaultType
  | outOfMemory
  | internalError
  | invalidOperation
  deriving DecidableEq, Repr

def statusToFatalFaultReason : NvStatus → FatalReason
  | .ok => .invalid
  | .noMemory => .outOfMemory
  | .invalidAddress => .invalidAddress
  | .invalidAccessType => .invalidPermissions
  | .invalidOperation => .invalidOperation
  | _ => .internalError

/-- An entry of the ordered fault cache. The mask of a coalesced entry holds its own access
type as the highest one. -/
structure Fault where
  vaSpace : Nat
  gpu : Nat
  faultAddress : Nat
  accessType : AccessType
  accessTypeMask : Finset AccessType
  numInstances : Nat
  utlbId : Nat
  highest : maskHighest accessTypeMask = some accessType

structure Mark where
  isFatal : Bool
  isThrottled : Bool
  isInvalidPrefetch : Bool
  fatalReason : FatalReason
  cancelVaMode : CancelVaMode
  deriving DecidableEq, Repr

/-- What parsing leaves of a fault that is not fatal by its type. -/
def Mark.parsed : Mark := ⟨false,false,false,.invalid,.all⟩

structure BatchContext where
  marks : Nat → Mark
  numDuplicateFaults : Nat
  numInvalidPrefetchFaults : Nat
  hasThrottledFaults : Bool
  /-- `fatal_va_space` and `fatal_gpu`, which are set together. -/
  fatalVaSpace : Option (Nat × Nat)
  utlbHasFatalFaults : Nat → Bool

def BatchContext.start : BatchContext := ⟨fun _ => .parsed,0,0,false,none,fun _ => false⟩

def cmpDefault (a b : Nat) : Int := if a < b then -1 else if a > b then 1 else 0

def cmpAccessType (a b : AccessType) : Int := (b.rank : Int) - a.rank

def cmpSortFaultEntry (a b : Fault) : Int :=
  if cmpDefault a.vaSpace b.vaSpace ≠ 0 then cmpDefault a.vaSpace b.vaSpace
  else if cmpDefault a.gpu b.gpu ≠ 0 then cmpDefault a.gpu b.gpu
  else if cmpDefault a.faultAddress b.faultAddress ≠ 0 then
    cmpDefault a.faultAddress b.faultAddress
  else cmpAccessType a.accessType b.accessType

def Sorted (faults : List Fault) : Prop := faults.Pairwise fun a b => cmpSortFaultEntry a b ≤ 0

instance (faults : List Fault) : Decidable (Sorted faults) :=
  inferInstanceAs (Decidable (List.Pairwise _ _))

theorem cmpDefault_self (a : Nat) : cmpDefault a a = 0 := by simp [cmpDefault]

theorem cmpDefault_le {a b : Nat} (ordered : cmpDefault a b ≤ 0) : a ≤ b := by
  simp only [cmpDefault] at ordered
  split at ordered
  · omega
  · split at ordered <;> omega

theorem cmpDefault_eq_zero {a b : Nat} (same : cmpDefault a b = 0) : a = b := by
  simp only [cmpDefault] at same
  split at same
  · omega
  · split at same <;> omega

variable {faults : List Fault}

section

variable (sorted : Sorted faults) {i j : Nat} {f g : Fault}
include sorted

theorem Sorted.ordered (before : i < j) (atI : faults[i]? = some f) (atJ : faults[j]? = some g) :
    cmpSortFaultEntry f g ≤ 0 := by
  obtain ⟨iBound,rfl⟩ := List.getElem?_eq_some_iff.mp atI
  obtain ⟨jBound,rfl⟩ := List.getElem?_eq_some_iff.mp atJ
  exact List.pairwise_iff_getElem.mp sorted i j iBound jBound before

variable (before : i ≤ j) (atI : faults[i]? = some f) (atJ : faults[j]? = some g)
  (sameSpace : f.vaSpace = g.vaSpace) (sameGpu : f.gpu = g.gpu)
include before atI atJ sameSpace sameGpu

theorem Sorted.address_le : f.faultAddress ≤ g.faultAddress := by
  rcases before.eq_or_lt with rfl | before
  · simp_all
  · have ordered := sorted.ordered before atI atJ
    simp only [cmpSortFaultEntry,sameSpace,sameGpu,cmpDefault_self,ne_eq,not_true,
      ↓reduceIte] at ordered
    split at ordered
    · exact cmpDefault_le ordered
    next same => exact (cmpDefault_eq_zero (by omega)).le

/-- Of the entries on one page the most intrusive comes first. -/
theorem Sorted.access_le (samePage : f.faultAddress = g.faultAddress) :
    g.accessType ≤ f.accessType := by
  rcases before.eq_or_lt with rfl | before
  · simp_all
  · have ordered := sorted.ordered before atI atJ
    simp only [cmpSortFaultEntry,sameSpace,sameGpu,samePage,cmpDefault_self,
      cmpAccessType] at ordered
    rw [AccessType.le_iff]
    omega

end

section

variable (ctx : BatchContext) (current : Fault) (index : Nat) (fault : Fault)

def checkFaultEntryDuplicate (previous : Option Fault) : Bool :=
  match previous with
  | some previous =>
    current.vaSpace = previous.vaSpace ∧ current.faultAddress = previous.faultAddress
  | none => false

/-- The counter part of `update_batch_and_notify_fault`. -/
def updateBatch (isDuplicate : Bool) : BatchContext :=
  { ctx with
    numDuplicateFaults :=
      if isDuplicate then ctx.numDuplicateFaults + current.numInstances
      else ctx.numDuplicateFaults + (current.numInstances - 1) }

def setMark (mark : Mark) : BatchContext :=
  { ctx with marks := update ctx.marks index mark }

def markFaultInvalidPrefetch : BatchContext :=
  let ctx := setMark ctx index { ctx.marks index with isInvalidPrefetch := true }
  { ctx with numInvalidPrefetchFaults := ctx.numInvalidPrefetchFaults + fault.numInstances }

def markFaultThrottled : BatchContext :=
  let ctx := setMark ctx index { ctx.marks index with isThrottled := true }
  { ctx with hasThrottledFaults := true }

def markFaultFatal (reason : FatalReason) (mode : CancelVaMode) : BatchContext :=
  let ctx := setMark ctx index
    { ctx.marks index with isFatal := true, fatalReason := reason, cancelVaMode := mode }
  { ctx with
    utlbHasFatalFaults := update ctx.utlbHasFatalFaults fault.utlbId true
    fatalVaSpace := ctx.fatalVaSpace.or (some (fault.vaSpace,fault.gpu)) }

/-- Flags of the previous entry on the page that hold for this one too. -/
def faultEntryDuplicateFlags (previous : Mark) : BatchContext :=
  let ctx := if previous.isInvalidPrefetch then markFaultInvalidPrefetch ctx index fault else ctx
  if previous.isThrottled then markFaultThrottled ctx index else ctx

end

section Marks

variable (ctx : BatchContext) (index : Nat) (fault : Fault)

@[simp] theorem updateBatch_marks (isDuplicate : Bool) :
    (updateBatch ctx fault isDuplicate).marks = ctx.marks := rfl

@[simp] theorem markFaultInvalidPrefetch_marks : (markFaultInvalidPrefetch ctx index fault).marks =
      update ctx.marks index { ctx.marks index with isInvalidPrefetch := true } := rfl

@[simp] theorem markFaultThrottled_marks : (markFaultThrottled ctx index).marks =
      update ctx.marks index { ctx.marks index with isThrottled := true } := rfl

@[simp] theorem markFaultFatal_marks (reason : FatalReason) (mode : CancelVaMode) :
    (markFaultFatal ctx index fault reason mode).marks =
      update ctx.marks index
        { ctx.marks index with isFatal := true, fatalReason := reason, cancelVaMode := mode } :=
  rfl

theorem faultEntryDuplicateFlags_other (previous : Mark) {other : Nat} (different : other ≠ index) :
    (faultEntryDuplicateFlags ctx index fault previous).marks other = ctx.marks other := by
  simp only [faultEntryDuplicateFlags]
  split <;> split <;> simp [different]

@[simp] theorem faultEntryDuplicateFlags_isFatal (previous : Mark) :
    ((faultEntryDuplicateFlags ctx index fault previous).marks index).isFatal =
      (ctx.marks index).isFatal := by
  simp only [faultEntryDuplicateFlags]
  split <;> split <;> simp

end Marks

end GpuExt.FaultBatch
