import Mathlib.Data.BitVec

/-! Types that the modules of the driver share. -/
namespace GpuExt

abbrev NvU16 := BitVec 16
abbrev NvU32 := BitVec 32
abbrev NvU64 := BitVec 64

inductive NvStatus where
  | ok
  | noMemory
  | insufficientResources
  | invalidAddress
  | invalidAccessType
  | invalidArgument
  | invalidLockState
  | invalidObject
  | invalidObjectHandle
  | invalidOperation
  | invalidState
  | notSupported
  | resetRequired
  | warnMoreProcessingRequired
  | warnMismatchedTarget
  | errMoreProcessingRequired
  | other (code : Nat)
  deriving DecidableEq, Repr

end GpuExt
