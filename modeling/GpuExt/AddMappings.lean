import GpuExt.ManagedFaults
import GpuExt.PageMask
import Mathlib.Data.Fintype.Defs
import Mathlib.Data.List.FinRange

/-! Mappings for the other processors after pages have been migrated. The processors that shall
keep access are mapped one by one; a status that is not `NV_OK` ends the loop it comes from. -/
namespace GpuExt.AddMappings

open FaultBatch ManagedFaults PageMask List

/-- Processors are numbered; the CPU is the first. -/
abbrev Processor (gpus : Nat) := Fin (gpus + 1)

def cpu (gpus : Nat) : Processor gpus := 0

inductive ReadDuplication where
  | unset
  | enabled
  | disabled
  deriving DecidableEq, Repr

structure Policy (gpus : Nat) where
  readDuplication : ReadDuplication
  accessedBy : Finset (Processor gpus)
  preferredLocation : Option (Processor gpus)
  preferredNid : Int

structure VaSpace (gpus : Nat) where
  canReadDuplicate : Bool
  hasIntegratedGpu : Bool
  registeredGpus : Finset (Processor gpus)
  accessibleFrom : Processor gpus → Finset (Processor gpus)
  hasNativeAtomics : Processor gpus → Finset (Processor gpus)
  systemWideAtomicsEnabled : Finset (Processor gpus)
  hasMemory : Processor gpus → Bool

structure Block (gpus : Nat) where
  vaSpace : VaSpace gpus
  policy : Policy gpus
  readDuplicatedPages : Finset Nat
  uvmLiteGpus : Finset (Processor gpus)
  /-- Whether the range group of a page lets it migrate. -/
  migratable : Nat → Bool

inductive MapRemoteCause where
  | coherence
  | policy
  | thrashing
  deriving DecidableEq, Repr

structure MapCall (gpus : Nat) where
  processor : Processor gpus
  region : Region
  mask : Finset Nat
  prot : Prot
  cause : MapRemoteCause

/-- What comes from outside: the result of each call of `uvm_va_block_map` by its number, whether
the processor masks can be allocated, and the status of the tracker. -/
structure Outside where
  mapResult : Nat → NvStatus
  allocOther : Bool
  allocLite : Bool
  allocCpu : Bool
  allocRest : Bool
  trackerStatus : NvStatus

structure Request (gpus : Nat) where
  newResidency : Processor gpus
  processor : Processor gpus
  region : Region
  mapPageMask : Finset Nat
  maxProt : Prot
  thrashingProcessors : Option (Finset (Processor gpus))
  destNid : Int

variable {gpus : Nat}

abbrev Mapped (gpus : Nat) := NvStatus × List (MapCall gpus)

def blockMap (out : Outside) (calls : List (MapCall gpus)) (call : MapCall gpus) : Mapped gpus :=
  (out.mapResult calls.length,calls ++ [call])

def mapEach (out : Outside) (call : Processor gpus → MapCall gpus) :
    List (Processor gpus) → List (MapCall gpus) → Mapped gpus
  | [], calls => (.ok,calls)
  | id :: ids, calls =>
    let mapped := blockMap out calls (call id)
    if mapped.1 = .ok then mapEach out call ids mapped.2 else mapped

def idsInMask (mask : Finset (Processor gpus)) : List (Processor gpus) :=
  (finRange (gpus + 1)).filter (· ∈ mask)

variable {id : Processor gpus} {call : Processor gpus → MapCall gpus} {ids : List (Processor gpus)}
  {calls : List (MapCall gpus)} {page : Nat}

theorem mem_idsInMask {mask : Finset (Processor gpus)} : id ∈ idsInMask mask ↔ id ∈ mask := by
  simp [idsInMask]

variable (block : Block gpus) (request : Request gpus)

section

variable (id : Processor gpus) (out : Outside) (calls : List (MapCall gpus))

def mapCause : MapRemoteCause :=
  match request.thrashingProcessors with
  | some processors => if id ∈ processors then .thrashing else .policy
  | none => .policy

def nativeAtomics : Finset (Processor gpus) :=
  block.vaSpace.hasNativeAtomics request.newResidency

/-- Atomic mappings are handled separately if the faulting processor has native atomics. -/
def mapsAtomics : Bool :=
  request.maxProt = .readWriteAtomic ∧ request.processor ∈ nativeAtomics block request

def newMapProt : Prot :=
  if request.maxProt = .readWriteAtomic then
    if request.processor ∈ nativeAtomics block request then .readWrite
    else if request.processor = cpu gpus then .readWrite
    else .readOnly
  else request.maxProt

/-- Write mappings of processors without system-wide atomics are treated like atomics. -/
def finalMapProt : Prot :=
  if newMapProt block request = .readWrite ∧ id ∉ block.vaSpace.systemWideAtomicsEnabled then
    .readWriteAtomic
  else newMapProt block request

/-- `do_block_add_mappings_after_migration`. Both loops leave with `goto out` when a call fails,
and the label returns `NV_OK`. -/
def doBlockAddMappings (alloc : Bool) (mapProcessors : Finset (Processor gpus))
    (mask : Finset Nat) (calls : List (MapCall gpus)) : Mapped gpus :=
  if alloc = false then (.noMemory,calls)
  else
    let native := nativeAtomics block request
    let atomics :=
      if mapsAtomics block request then
        mapEach out (fun id => ⟨id,request.region,mask,.readWriteAtomic,mapCause request id⟩)
          (idsInMask (mapProcessors ∩ native)) calls
      else (.ok,calls)
    let rest := if mapsAtomics block request then mapProcessors \ native else mapProcessors
    if atomics.1 ≠ .ok then (.ok,atomics.2)
    else
      (.ok,(mapEach out
        (fun id => ⟨id,request.region,mask,finalMapProt block request id,mapCause request id⟩)
        (idsInMask rest) atomics.2).2)

def isReadDuplicate : Bool :=
  block.policy.readDuplication = .enabled ∧ block.vaSpace.canReadDuplicate

/-- Pages that were read-duplicated by the heuristics are left out. -/
def finalPageMask : Finset Nat :=
  if block.policy.readDuplication = .unset then
    request.mapPageMask \ block.readDuplicatedPages
  else request.mapPageMask

/-- The preferred location gets no remote mapping. -/
def isOtherPreferred : Bool :=
  block.policy.preferredLocation = some id ∧ request.newResidency ≠ id ∧ block.vaSpace.hasMemory id

def mapOtherProcessors : Finset (Processor gpus) :=
  let chosen := block.policy.accessedBy ∪ request.thrashingProcessors.getD ∅
  let chosen :=
    if block.vaSpace.hasIntegratedGpu then insert (cpu gpus) (chosen ∪ block.vaSpace.registeredGpus)
    else chosen
  ((chosen ∩ block.vaSpace.accessibleFrom request.newResidency).erase request.processor).filter
    fun id => isOtherPreferred block request id = false

def isPreferredLocation : Bool :=
  block.policy.preferredLocation = some request.newResidency ∧
    (request.newResidency = cpu gpus → block.policy.preferredNid = request.destNid)

/-- UVM-Lite GPUs are mapped if the new location is the preferred one. -/
def mapUvmLiteGpus : List (Processor gpus) :=
  if isPreferredLocation block request then
    idsInMask (mapOtherProcessors block request ∩ block.uvmLiteGpus)
  else []

def mapLite : Mapped gpus :=
  mapEach out (fun id =>
      ⟨id,request.region,finalPageMask block request,.readWriteAtomic,.coherence⟩)
    (mapUvmLiteGpus block request) []

def allMigratable : Bool := ∀ page ∈ request.region.pages, block.migratable page

/-- The CPU is mapped separately if some pages are not migratable. -/
def splitsCpu (processors : Finset (Processor gpus)) : Bool :=
  cpu gpus ∈ processors ∧ allMigratable block request = false

def migratableMask : Finset Nat :=
  (request.region.pages.filter fun page => block.migratable page = true) ∩
    finalPageMask block request

def mapCpu : Mapped gpus :=
  if migratableMask block request = ∅ then (.ok,calls)
  else
    doBlockAddMappings block request out out.allocCpu {cpu gpus} (migratableMask block request)
      calls

def mapOthers : Mapped gpus :=
  let others := mapOtherProcessors block request \ block.uvmLiteGpus
  if splitsCpu block request others then
    let mapped := mapCpu block request out calls
    if mapped.1 ≠ .ok then mapped
    else
      doBlockAddMappings block request out out.allocRest (others.erase (cpu gpus))
        (finalPageMask block request) mapped.2
  else
    doBlockAddMappings block request out out.allocRest others (finalPageMask block request) calls

/-- The body up to the cleanup label. -/
def addMappings : Mapped gpus :=
  if out.allocOther = false then (.noMemory,[])
  else if out.allocLite = false then (.noMemory,[])
  else if isReadDuplicate block then (.ok,[])
  else
    let lite := mapLite block request out
    if lite.1 ≠ .ok then lite else mapOthers block request out lite.2

/-- `uvm_va_block_add_mappings_after_migration`. -/
def addMappingsAfterMigration : Mapped gpus :=
  let mapped := addMappings block request out
  (if mapped.1 = .ok then out.trackerStatus else mapped.1,mapped.2)

end

variable {block : Block gpus} {request : Request gpus} {out : Outside}

theorem mapEach_cons_ok (first : out.mapResult calls.length = .ok) :
    mapEach out call (id :: ids) calls = mapEach out call ids (calls ++ [call id]) := if_pos first

theorem mapEach_cons_failed (first : out.mapResult calls.length ≠ .ok) :
    mapEach out call (id :: ids) calls = (out.mapResult calls.length,calls ++ [call id]) :=
  if_neg first

/-- The calls made are added behind the earlier ones, at most one for each processor. -/
theorem mapEach_length : calls.length ≤ (mapEach out call ids calls).2.length ∧
    (mapEach out call ids calls).2.length ≤ calls.length + ids.length := by
  induction ids generalizing calls with
  | nil => simp [mapEach]
  | cons id ids ih =>
    by_cases first : out.mapResult calls.length = .ok
    · have rest := @ih (calls ++ [call id])
      rw [mapEach_cons_ok first]
      simp only [length_append,length_cons,length_nil] at rest ⊢
      omega
    · rw [mapEach_cons_failed first]
      simp

theorem mapEach_calls (mapped : (mapEach out call ids calls).1 = .ok) :
    (mapEach out call ids calls).2 = calls ++ ids.map call ∧
      ∀ number, calls.length ≤ number → number < calls.length + ids.length →
        out.mapResult number = .ok := by
  induction ids generalizing calls with
  | nil => exact ⟨by simp [mapEach],fun number above below => absurd below (by simpa using above)⟩
  | cons id ids ih =>
    by_cases first : out.mapResult calls.length = .ok
    · rw [mapEach_cons_ok first] at mapped ⊢
      obtain ⟨made,succeeded⟩ := ih mapped
      refine ⟨by simpa using made,fun number above below => ?_⟩
      by_cases here : number = calls.length
      · exact here ▸ first
      · exact succeeded number (by simp; omega) (by simp at below ⊢; omega)
    · rw [mapEach_cons_failed first] at mapped
      exact absurd mapped first

/-- A call with a number among those made succeeds. -/
def Succeed (out : Outside) (calls made : List (MapCall gpus)) : Prop :=
  ∀ number,calls.length ≤ number → number < made.length → out.mapResult number = .ok

theorem mapEach_of_ok (succeed : Succeed out calls (mapEach out call ids calls).2) :
    mapEach out call ids calls = (.ok,calls ++ ids.map call) := by
  induction ids generalizing calls with
  | nil => simp [mapEach]
  | cons id ids ih =>
    have first : out.mapResult calls.length = .ok := by
      by_contra failed
      exact failed (succeed calls.length le_rfl (by rw [mapEach_cons_failed failed]; simp))
    rw [mapEach_cons_ok first] at succeed ⊢
    rw [ih fun number above => succeed number (by simp at above; omega)]
    simp

def Asked (calls : List (MapCall gpus)) (id : Processor gpus) (page : Nat) : Prop :=
  ∃ call ∈ calls, call.processor = id ∧ page ∈ call.region.pages ∧ page ∈ call.mask

theorem Asked.mono {more : List (MapCall gpus)} (asked : Asked calls id page)
    (kept : calls ⊆ more) : Asked more id page := by
  obtain ⟨call,made,facts⟩ := asked
  exact ⟨call,kept made,facts⟩

section

variable {alloc : Bool} {processors : Finset (Processor gpus)} {mask : Finset Nat}

/-- If no call fails, `do_block_add_mappings_after_migration` asks for all its processors. -/
theorem doBlockAddMappings_spec
    (returned : (doBlockAddMappings block request out alloc processors mask calls).1 = .ok)
    (succeed : Succeed out calls
      (doBlockAddMappings block request out alloc processors mask calls).2) :
    ∃ more, (doBlockAddMappings block request out alloc processors mask calls).2 = calls ++ more ∧
      ∀ id ∈ processors, ∀ page ∈ request.region.pages, page ∈ mask → Asked more id page := by
  cases alloc with
  | false => cases returned
  | true =>
    simp only [doBlockAddMappings] at succeed ⊢
    cases atomics : mapsAtomics block request with
    | false =>
      simp only [atomics,Bool.true_eq_false,Bool.false_eq_true,if_false,ne_eq,not_true_eq_false]
        at succeed ⊢
      rw [mapEach_of_ok succeed]
      refine ⟨_,rfl,fun id member page inRegion inMask => ?_⟩
      exact ⟨_,mem_map_of_mem (mem_idsInMask.mpr member),rfl,inRegion,inMask⟩
    | true =>
      simp only [atomics,Bool.true_eq_false,if_false,if_true] at succeed ⊢
      -- The calls of the first loop are among those made, whether or not the second one runs.
      have first : mapEach out
          (fun id => ⟨id,request.region,mask,.readWriteAtomic,mapCause request id⟩)
          (idsInMask (processors ∩ nativeAtomics block request)) calls = _ :=
        mapEach_of_ok fun number above below => succeed number above (by
          split
          · exact below
          · exact below.trans_le mapEach_length.1)
      rw [first] at succeed ⊢
      simp only [ne_eq,not_true_eq_false,if_false] at succeed ⊢
      rw [mapEach_of_ok fun number above => succeed number (by simp at above; omega)]
      refine ⟨_,append_assoc ..,fun id member page inRegion inMask => ?_⟩
      by_cases native : id ∈ nativeAtomics block request
      · have listed := mem_idsInMask.mpr (Finset.mem_inter.mpr ⟨member,native⟩)
        exact ⟨_,mem_append_left _ (mem_map_of_mem listed),rfl,inRegion,inMask⟩
      · have listed := mem_idsInMask.mpr (Finset.mem_sdiff.mpr ⟨member,native⟩)
        exact ⟨_,mem_append_right _ (mem_map_of_mem listed),rfl,inRegion,inMask⟩

/-- Only the allocation of its mask makes it fail, and the calls only become more. -/
theorem doBlockAddMappings_status :
    let mapped := doBlockAddMappings block request out alloc processors mask calls
    (mapped.1 = .ok ∨ alloc = false ∧ mapped.2 = calls) ∧ calls.length ≤ mapped.2.length := by
  cases alloc with
  | false => exact ⟨.inr ⟨rfl,rfl⟩,le_rfl⟩
  | true =>
    simp only [doBlockAddMappings,Bool.true_eq_false,if_false]
    cases mapsAtomics block request with
    | false => exact ⟨.inl rfl,mapEach_length.1⟩
    | true =>
      simp only [if_true]
      split
      · exact ⟨.inl rfl,mapEach_length.1⟩
      · exact ⟨.inl rfl,mapEach_length.1.trans mapEach_length.1⟩

end

theorem mapCpu_status :
    let mapped := mapCpu block request out calls
    (mapped.1 = .ok ∨ mapped.2 = calls) ∧ calls.length ≤ mapped.2.length := by
  unfold mapCpu
  split
  · exact ⟨.inl rfl,le_rfl⟩
  · exact ⟨doBlockAddMappings_status.1.imp_right And.right,doBlockAddMappings_status.2⟩

theorem mapOthers_status (rest : out.allocRest = true) :
    (mapOthers block request out calls).1 = .ok ∨ (mapOthers block request out calls).2 = calls := by
  have completes {processors : Finset (Processor gpus)} {calls : List (MapCall gpus)} :
      (doBlockAddMappings block request out out.allocRest processors
        (finalPageMask block request) calls).1 = .ok :=
    doBlockAddMappings_status.1.resolve_right fun ⟨failed,_⟩ => by simp [rest] at failed
  unfold mapOthers
  dsimp only
  split
  · split
    next failed => exact mapCpu_status.1.imp_left (absurd · failed)
    · exact .inl completes
  · exact .inl completes

/-- Without memory for the last mask the function fails. -/
theorem mapOthers_failed (rest : out.allocRest = false) :
    (mapOthers block request out calls).1 ≠ .ok := by
  unfold mapOthers
  dsimp only
  split
  · split
    next failed => exact failed
    · simp [doBlockAddMappings,rest]
  · simp [doBlockAddMappings,rest]

theorem mapCpu_spec (returned : (mapCpu block request out calls).1 = .ok)
    (succeed : Succeed out calls (mapCpu block request out calls).2) :
    ∃ more, (mapCpu block request out calls).2 = calls ++ more ∧
      ∀ page ∈ request.region.pages, page ∈ finalPageMask block request →
        block.migratable page = true → Asked more (cpu gpus) page := by
  have migrates {page : Nat} (inRegion : page ∈ request.region.pages)
      (inMask : page ∈ finalPageMask block request) (moves : block.migratable page = true) :
      page ∈ migratableMask block request :=
    Finset.mem_inter.mpr ⟨Finset.mem_filter.mpr ⟨inRegion,moves⟩,inMask⟩
  unfold mapCpu at returned succeed ⊢
  by_cases none : migratableMask block request = ∅
  · refine ⟨[],by simp [none],fun page inRegion inMask moves => ?_⟩
    exact absurd (none ▸ migrates inRegion inMask moves) (Finset.notMem_empty page)
  · rw [if_neg none] at returned succeed ⊢
    obtain ⟨more,made,asked⟩ := doBlockAddMappings_spec returned succeed
    exact ⟨more,made,fun page inRegion inMask moves =>
      asked _ (Finset.mem_singleton_self _) page inRegion (migrates inRegion inMask moves)⟩

/-- The CPU is asked on the migratable pages only, the others on every page. -/
theorem mapOthers_asked (returned : (mapOthers block request out calls).1 = .ok)
    (succeed : Succeed out calls (mapOthers block request out calls).2)
    (member : id ∈ mapOtherProcessors block request) (full : id ∉ block.uvmLiteGpus)
    (inRegion : page ∈ request.region.pages) (inMask : page ∈ finalPageMask block request)
    (moves : id = cpu gpus → block.migratable page = true) :
    Asked (mapOthers block request out calls).2 id page := by
  have other : id ∈ mapOtherProcessors block request \ block.uvmLiteGpus :=
    Finset.mem_sdiff.mpr ⟨member,full⟩
  unfold mapOthers at returned succeed ⊢
  dsimp only at returned succeed ⊢
  split at returned
  case isFalse whole =>
    rw [if_neg whole] at succeed ⊢
    obtain ⟨more,made,asked⟩ := doBlockAddMappings_spec returned succeed
    rw [made]
    exact (asked id other page inRegion inMask).mono (subset_append_right ..)
  case isTrue separate =>
    rw [if_pos separate] at succeed ⊢
    split at returned
    case isTrue failed => exact absurd returned failed
    case isFalse first =>
      rw [if_neg first] at succeed ⊢
      obtain ⟨forCpu,cpuMade,cpuAsked⟩ := mapCpu_spec (of_not_not first)
        fun number above below => succeed number above
          (below.trans_le doBlockAddMappings_status.2)
      rw [cpuMade] at returned succeed ⊢
      obtain ⟨more,made,asked⟩ := doBlockAddMappings_spec returned
        fun number above => succeed number (by simp at above; omega)
      rw [made]
      by_cases isCpu : id = cpu gpus
      · have asked := cpuAsked page inRegion inMask (moves isCpu)
        exact isCpu ▸ asked.mono fun call member => by simp [member]
      · have asked := asked id (Finset.mem_erase.mpr ⟨isCpu,other⟩) page inRegion inMask
        exact asked.mono (subset_append_right ..)

/-- What the function does once its masks are allocated. -/
theorem addMappings_eq (returned : (addMappings block request out).1 = .ok)
    (mapped : isReadDuplicate block = false) :
    (mapLite block request out).1 = .ok ∧
      addMappings block request out =
        mapOthers block request out (mapLite block request out).2 := by
  unfold addMappings at returned ⊢
  cases other : out.allocOther with
  | false => simp [other] at returned
  | true =>
    cases lite : out.allocLite with
    | false => simp [lite] at returned
    | true =>
      simp only [other,lite,mapped,Bool.true_eq_false,Bool.false_eq_true,if_false] at returned ⊢
      split at returned
      case isTrue failed => exact absurd returned failed
      case isFalse first => exact ⟨of_not_not first,if_neg first⟩

theorem addMappings_readDuplicate (duplicate : isReadDuplicate block = true) :
    (addMappings block request out).2 = [] := by
  unfold addMappings
  split
  · rfl
  · split <;> rfl

theorem addMappings_ok (returned : (addMappingsAfterMigration block request out).1 = .ok) :
    (addMappings block request out).1 = .ok := by
  by_contra failed
  simp only [addMappingsAfterMigration,if_neg failed] at returned
  exact failed returned

theorem mapLite_spec (mapped : (mapLite block request out).1 = .ok) :
    (mapLite block request out).2.length = (mapUvmLiteGpus block request).length ∧
      ∀ number < (mapUvmLiteGpus block request).length, out.mapResult number = .ok := by
  obtain ⟨made,succeeded⟩ := mapEach_calls mapped
  refine ⟨by rw [mapLite,made]; simp,fun number below => ?_⟩
  exact succeeded number (Nat.zero_le _) (by simpa using below)

/-- The processors of the policy or the thrashing hint that have to be mapped remotely. -/
structure Wanted (block : Block gpus) (request : Request gpus) (id : Processor gpus) : Prop where
  chosen : id ∈ block.policy.accessedBy ∨ id ∈ request.thrashingProcessors.getD ∅
  accessible : id ∈ block.vaSpace.accessibleFrom request.newResidency
  other : id ≠ request.processor
  full : id ∉ block.uvmLiteGpus
  remote : ¬(block.policy.preferredLocation = some id ∧ block.vaSpace.hasMemory id = true ∧
    id ≠ request.newResidency)

theorem Wanted.mem (wanted : Wanted block request id) : id ∈ mapOtherProcessors block request := by
  obtain ⟨chosen,accessible,other,-,remote⟩ := wanted
  have kept : isOtherPreferred block request id = false := by
    exact decide_eq_false fun ⟨preferred,differs,memory⟩ =>
      remote ⟨preferred,memory,Ne.symm differs⟩
  refine Finset.mem_filter.mpr ⟨Finset.mem_erase.mpr ⟨other,?_⟩,kept⟩
  refine Finset.mem_inter.mpr ⟨?_,accessible⟩
  have chosen : id ∈ block.policy.accessedBy ∪ request.thrashingProcessors.getD ∅ :=
    Finset.mem_union.mpr chosen
  split
  · exact Finset.mem_insert_of_mem (Finset.mem_union_left _ chosen)
  · exact chosen

section

variable (block request out)

/-- A failed call is reported, and success means that every wanted processor was asked for every
page. -/
def CompleteOrReported : Prop :=
  let result := addMappingsAfterMigration block request out
  ((∃ number < result.2.length, out.mapResult number ≠ .ok) → result.1 ≠ .ok) ∧
    (result.1 = .ok → isReadDuplicate block = false →
      ∀ id, Wanted block request id → ∀ page ∈ request.region.pages,
        page ∈ request.mapPageMask → page ∉ block.readDuplicatedPages →
          (id = cpu gpus → block.migratable page = true) → Asked result.2 id page)

/-- Of the calls that are made, only those for UVM-Lite GPUs fail; or the function fails for
another reason after the last of them. -/
def OnlyLiteFail : Prop :=
  (∀ number, (mapUvmLiteGpus block request).length ≤ number →
    number < (addMappingsAfterMigration block request out).2.length →
      out.mapResult number = .ok) ∨ out.allocRest = false ∨ out.trackerStatus ≠ .ok

end

/-- A call behind those for the UVM-Lite GPUs is made only if these succeeded, and from there on
nothing but an allocation is reported. -/
theorem addMappings_silent (rest : out.allocRest = true)
    (more : (mapUvmLiteGpus block request).length < (addMappings block request out).2.length) :
    (addMappings block request out).1 = .ok := by
  have lite : (mapLite block request out).2.length ≤ (mapUvmLiteGpus block request).length :=
    mapEach_length.2.trans (by simp)
  unfold addMappings at more ⊢
  split at more
  · exact absurd more (by simp)
  next first =>
    split at more
    · exact absurd more (by simp)
    next second =>
      rw [if_neg first,if_neg second]
      split at more
      · exact absurd more (by simp)
      next mapped =>
        rw [if_neg mapped]
        dsimp only at more ⊢
        split at more
        · exact absurd more (by omega)
        next succeeded =>
          rw [if_neg succeeded]
          refine (mapOthers_status rest).resolve_right fun none => ?_
          rw [none] at more
          omega

theorem mappings_reported (only : OnlyLiteFail block request out) {number : Nat}
    (made : number < (addMappingsAfterMigration block request out).2.length)
    (failed : out.mapResult number ≠ .ok) :
    (addMappingsAfterMigration block request out).1 ≠ .ok := by
  intro returned
  have ended := addMappings_ok returned
  cases duplicate : isReadDuplicate block with
  | true => simp [addMappingsAfterMigration,addMappings_readDuplicate duplicate] at made
  | false =>
    obtain ⟨lite,whole⟩ := addMappings_eq ended duplicate
    obtain ⟨-,succeeded⟩ := mapLite_spec lite
    have above : (mapUvmLiteGpus block request).length ≤ number :=
      not_lt.mp fun below => failed (succeeded number below)
    rcases only with succeed | rest | tracker
    · exact failed (succeed number above made)
    · rw [whole] at ended
      exact mapOthers_failed rest ended
    · rw [addMappingsAfterMigration,if_pos ended] at returned
      exact tracker returned

/-- The function does what it is for just when only calls for UVM-Lite GPUs fail, or another error
is returned in any case. -/
theorem mappings_complete_or_reported {gpus : Nat} (block : Block gpus) (request : Request gpus)
    (out : Outside) :
    CompleteOrReported block request out ↔ OnlyLiteFail block request out := by
  constructor
  · rintro ⟨reported,-⟩
    by_contra silent
    simp only [OnlyLiteFail,not_or,not_forall,Bool.not_eq_false,not_not] at silent
    obtain ⟨⟨number,above,made,failed⟩,rest,tracker⟩ := silent
    refine reported ⟨number,made,failed⟩ ?_
    rw [addMappingsAfterMigration,if_pos (addMappings_silent rest (above.trans_lt made))]
    exact tracker
  · intro only
    refine ⟨fun ⟨number,made,failed⟩ => mappings_reported only made failed,?_⟩
    intro returned mapped id wanted page inRegion inMask single moves
    have succeed (number : Nat)
        (made : number < (addMappingsAfterMigration block request out).2.length) :
        out.mapResult number = .ok :=
      by_contra fun failed => mappings_reported only made failed returned
    obtain ⟨-,whole⟩ := addMappings_eq (addMappings_ok returned) mapped
    have inFinal : page ∈ finalPageMask block request := by
      unfold finalPageMask
      split
      · exact Finset.mem_sdiff.mpr ⟨inMask,single⟩
      · exact inMask
    have asked := mapOthers_asked (whole ▸ addMappings_ok returned)
      (fun number _ made => succeed number (whole.symm ▸ made :)) wanted.mem wanted.full inRegion inFinal
      moves
    rw [← whole] at asked
    exact asked

/-- Two GPUs that can access each other's memory; the second is in the accessed-by set. -/
def sampleBlock : Block 2 where
  vaSpace :=
    { canReadDuplicate := true
      hasIntegratedGpu := false
      registeredGpus := {1,2}
      accessibleFrom := fun _ => {1,2}
      hasNativeAtomics := fun _ => ∅
      systemWideAtomicsEnabled := ∅
      hasMemory := fun _ => true }
  policy := ⟨.unset,{2},none,-1⟩
  readDuplicatedPages := ∅
  uvmLiteGpus := ∅
  migratable := fun _ => true

def sampleRequest : Request 2 where
  newResidency := 1
  processor := 1
  region := ⟨0,1⟩
  mapPageMask := {0}
  maxProt := .readWrite
  thrashingProcessors := none
  destNid := -1

/-- The outside where every call of `uvm_va_block_map` has one result. -/
def sampleOutside (result : NvStatus) : Outside := ⟨fun _ => result,true,true,true,true,.ok⟩

theorem mappings_complete_or_reported_sample :
    (addMappingsAfterMigration sampleBlock sampleRequest (sampleOutside .ok)).1 = .ok ∧
      Asked (addMappingsAfterMigration sampleBlock sampleRequest (sampleOutside .ok)).2 2 0 := by
  have wanted : Wanted sampleBlock sampleRequest 2 :=
    ⟨by decide,by decide,by decide,by decide,by decide⟩
  have returned :
      (addMappingsAfterMigration sampleBlock sampleRequest (sampleOutside .ok)).1 = .ok := by
    decide
  have complete := (mappings_complete_or_reported sampleBlock sampleRequest (sampleOutside .ok)).mpr
    (.inl fun _ _ _ => rfl)
  exact ⟨returned,complete.2 returned (by decide) 2 wanted 0 (by decide) (by decide) (by decide)
    (by decide)⟩

/-- The only call runs out of memory, and the function returns `NV_OK`. -/
theorem failed_mapping_not_reported :
    let result := addMappingsAfterMigration sampleBlock sampleRequest (sampleOutside .noMemory)
    result.2.length = 1 ∧ (sampleOutside .noMemory).mapResult 0 = .noMemory ∧ result.1 = .ok := by
  decide

end GpuExt.AddMappings
