import GpuExt.NvTypes

/-! The transition validator: what a policy callback may record about a value or a root chunk, and
when the driver acts on it. -/
namespace GpuExt.Transition

inductive Result where
  | apply
  | noopDefault
  | noopRepeat
  | noopStale
  | noopConflict
  | rejectAction
  | rejectRange
  | rejectIdentity
  deriving DecidableEq, Repr

inductive AccessEffect where
  | native
  | preserve
  | commit
  deriving DecidableEq, Repr

def destinationUsed : NvU64 := 1
def destinationUnused : NvU64 := 2
def positionHead : NvU64 := 1
def positionTail : NvU64 := 2
def actionDefault : Int := 0
def actionBypass : Int := 1

/-- A value that a policy asks for (`nv_gpu_transition_u64_request_t` and its 32 bit twin). -/
structure Request (α : Type) where
  attempted : Bool
  conflict : Bool
  value : α
  deriving DecidableEq, Repr

section

variable {α : Type} [DecidableEq α]

def record (request : Request α) (value : α) : Result × Request α :=
  if !request.attempted then (.apply,{ request with attempted := true, value })
  else if request.conflict then (.noopConflict,request)
  else if request.value = value then (.noopRepeat,request)
  else (.noopConflict,{ request with conflict := true })

def recordAll (request : Request α) (values : List α) : Request α :=
  values.foldl (fun request value => (record request value).2) request

theorem recordAll_attempted (values : List α) (conflict : Bool) (value : α) :
    recordAll ⟨true,conflict,value⟩ values = ⟨true,conflict || values.any (· ≠ value),value⟩ := by
  induction values generalizing conflict with
  | nil => simp [recordAll]
  | cons next values ih =>
    show recordAll (record ⟨true,conflict,value⟩ next).2 values = _
    cases conflict with
    | true => exact ih true
    | false =>
      by_cases same : value = next
      · simpa [record,same] using ih false
      · simpa [record,same,Ne.symm same] using ih true

/-- The first value stays; the others count only if they differ. -/
theorem recordAll_cons (zero value : α) (values : List α) :
    recordAll ⟨false,false,zero⟩ (value :: values) = ⟨true,values.any (· ≠ value),value⟩ :=
  recordAll_attempted values false value

end

structure PmmRequest where
  attempted : Bool
  conflict : Bool
  destination : NvU64
  position : NvU64
  deriving DecidableEq, Repr

def PmmRequest.zero : PmmRequest := ⟨false,false,0,0⟩

/-- `source` is the root's list state. -/
structure PmmSnapshot (Source : Type) where
  ownerId : Nat
  rootId : Nat
  generation : NvU64
  source : Source
  deriving DecidableEq, Repr

def recordPmm (request : PmmRequest) (destination position : NvU64) : Result × PmmRequest :=
  if !request.attempted then
    (.apply,{ request with attempted := true, destination, position })
  else if request.conflict then (.noopConflict,request)
  else if request.destination == destination && request.position == position then
    (.noopRepeat,request)
  else (.noopConflict,{ request with conflict := true })

def validatePmm {Source : Type} [DecidableEq Source] (expected observed : PmmSnapshot Source)
    (request : PmmRequest) : Result :=
  if expected.ownerId ≠ observed.ownerId ∨ expected.rootId ≠ observed.rootId then .rejectIdentity
  else if expected.generation ≠ observed.generation ∨ expected.source ≠ observed.source then
    .noopStale
  else if request.conflict then .noopConflict
  else if !request.attempted then .noopDefault
  else if (request.destination ≠ destinationUsed ∧ request.destination ≠ destinationUnused) ∨
      (request.position ≠ positionHead ∧ request.position ≠ positionTail) then .rejectRange
  else .apply

def pmmAccessEffect (rawAction : Int) (result : Result) : AccessEffect :=
  if rawAction ≠ actionDefault ∧ rawAction ≠ actionBypass then .preserve
  else if result = .apply then .commit
  else if result = .noopDefault ∧ rawAction = actionDefault then .native
  else .preserve

def pmmActivateEffect (result : Result) : AccessEffect :=
  if result = .apply then .commit else .preserve

end GpuExt.Transition
