import GpuExt.AtsFaults
import Mathlib.Data.List.Range

/-! The loop of `service_fault_batch_ats_sub`. Sub-batches tile the entries from the first one on,
each with the base of its own VA block; with replays per block the loop is left behind the first. -/
namespace GpuExt.AtsFaults

open FaultBatch PageMask List

variable {kernel : Kernel} {faults : List Fault} {vma : Vma}

section SubVma

variable (base : Nat) (serviced : Serviced) (state : State)

theorem attributeFault_frame {index : Nat} (inBatch : index < faults.length) :
    let next := attributeFault kernel faults base serviced state index
    next.log = state.log ∧ next.masks = state.masks ∧ next.calls = state.calls ∧
      next.blockFaults = state.blockFaults + 1 := by
  simp only [attributeFault,getElem?_eq_getElem inBatch]
  split <;> exact ⟨rfl,rfl,rfl,rfl⟩

variable {base serviced state}

theorem attributeFaults_frame (start count : Nat) (inBatch : start + count ≤ faults.length) :
    let final := (range' start count).foldl (attributeFault kernel faults base serviced) state
    final.log = state.log ∧ final.masks = state.masks ∧ final.calls = state.calls ∧
      final.blockFaults = state.blockFaults + count := by
  induction count generalizing start state with
  | zero => simp
  | succ count ih =>
    simp only [range'_succ,foldl_cons]
    obtain ⟨log,masks,calls,blockFaults⟩ := @ih _ (start + 1) (by omega)
    have next := @attributeFault_frame kernel faults base serviced state start (by omega)
    exact ⟨log.trans next.1,masks.trans next.2.1,calls.trans next.2.2.1,by omega⟩

/-- A sub-batch is counted entry by entry, whatever the kernel answered. -/
theorem subVma_frame {start outer : Nat} (ordered : start ≤ outer)
    (inBatch : outer ≤ faults.length) :
    let final := serviceFaultBatchAtsSubVma kernel faults vma base start outer state
    let serviced := uvmAtsServiceFaults kernel vma base .gpc (accessedPages state.masks) state.masks
      state.log
    final.1 = serviced.1 ∧ final.2.log = serviced.2.log ∧ final.2.masks = serviced.2.masks ∧
      final.2.calls = state.calls ++ [⟨base,start,outer⟩] ∧
      final.2.blockFaults = state.blockFaults + (outer - start) := by
  simp only [serviceFaultBatchAtsSubVma]
  split
  · exact ⟨rfl,rfl,rfl,rfl,rfl⟩
  next late => exact ⟨(not_not.mp (not_or.mp late).1).symm,attributeFaults_frame start _ (by omega)⟩

end SubVma

theorem blockAlignDown_le (address : Nat) : blockAlignDown address ≤ address := Nat.sub_le ..

theorem lt_blockAlignDown (address : Nat) : address < blockAlignDown address + vaBlockSize := by
  simp only [blockAlignDown,vaBlockSize]
  omega

variable {address i : Nat} {calls : List Call}

theorem blockAlignDown_eq {base : Nat} (low : blockAlignDown base ≤ address)
    (high : address < blockAlignDown base + vaBlockSize) :
    blockAlignDown address = blockAlignDown base := by
  simp only [blockAlignDown,vaBlockSize] at *
  omega

theorem PageSize.index_lt (page : PageSize) (bound : address < 2 ^ 64) :
    page.index (blockAlignDown address) address < page.pagesPerBlock := by
  have low := blockAlignDown_le address
  have high := lt_blockAlignDown address
  refine lt_of_le_of_lt (Nat.mod_le ..) ?_
  exact Nat.div_lt_div_of_lt_of_dvd page.divides (by omega)

/-- Consecutive sub-batches from `start` on, each in the block of its base. -/
inductive Tiles (faults : List Fault) (start : Nat) : List Call → Nat → Prop where
  | nil : Tiles faults start [] start
  | snoc {calls : List Call} {base middle last : Nat} : Tiles faults start calls middle →
      middle < last →
      (∀ i f, middle ≤ i → i < last → faults[i]? = some f →
        blockAlignDown f.faultAddress = base) →
      Tiles faults start (calls ++ [⟨base,middle,last⟩]) last

theorem Tiles.le {start last : Nat} (tiles : Tiles faults start calls last) : start ≤ last := by
  induction tiles with
  | nil => exact le_rfl
  | snoc _ grows _ ih => omega

theorem Tiles.within {start last : Nat} (tiles : Tiles faults start calls last) :
    ∀ call ∈ calls, start ≤ call.faultIndexStart ∧ call.faultIndexEnd ≤ last := by
  induction tiles with
  | nil => simp
  | snoc tiles grows _ ih =>
    intro call member
    rcases mem_append.mp member with earlier | new
    · have := ih call earlier
      omega
    · obtain rfl := mem_singleton.mp new
      have := tiles.le
      simp only
      omega

/-- The entry was passed to exactly one call, with the base of its own block. -/
def ServicedOnce (page : PageSize) (calls : List Call) (i : Nat) (f : Fault) : Prop :=
  ∃ call, calls.filter (fun call => call.Covers i) = [call] ∧
    call.base = blockAlignDown f.faultAddress ∧
    page.index call.base f.faultAddress < page.pagesPerBlock

theorem filter_covers_eq_nil
    (outside : ∀ call ∈ calls, i < call.faultIndexStart ∨ call.faultIndexEnd ≤ i) :
    calls.filter (fun call => call.Covers i) = [] := by
  rw [filter_eq_nil_iff]
  intro call member covered
  have := outside call member
  have covers : call.Covers i := of_decide_eq_true covered
  simp only [Call.Covers] at covers
  omega

variable {page : PageSize} {f : Fault}

theorem servicedOnce_append {calls later : List Call}
    (after : ∀ call ∈ later, i < call.faultIndexStart) :
    ServicedOnce page (calls ++ later) i f ↔ ServicedOnce page calls i f := by
  rw [ServicedOnce,ServicedOnce,filter_append,
    filter_covers_eq_nil fun call member => .inl (after call member),append_nil]

theorem servicedOnce_prepend {earlier calls : List Call}
    (before : ∀ call ∈ earlier, call.faultIndexEnd ≤ i) :
    ServicedOnce page (earlier ++ calls) i f ↔ ServicedOnce page calls i f := by
  rw [ServicedOnce,ServicedOnce,filter_append,
    filter_covers_eq_nil fun call member => .inr (before call member),nil_append]

theorem Tiles.once {start last : Nat} (tiles : Tiles faults start calls last) (low : start ≤ i)
    (high : i < last) (atI : faults[i]? = some f) (bound : f.faultAddress < 2 ^ 64) :
    ServicedOnce page calls i f := by
  induction tiles with
  | nil => omega
  | @snoc calls base middle last tiles grows sameBlock ih =>
    by_cases earlier : i < middle
    · exact (servicedOnce_append (by simpa using earlier)).mpr (ih earlier)
    · have own := sameBlock i f (by omega) high atI
      refine ⟨⟨base,middle,last⟩,?_,own.symm,own ▸ page.index_lt bound⟩
      rw [filter_append, filter_covers_eq_nil fun call member => ?_]
      · simp [Call.Covers,high]
        omega
      · exact .inr ((tiles.within call member).2.trans (by omega))

/-- What a successful call took: entries of the VA space and GPU below the bound, each
serviced once. -/
structure Consumed (faults : List Fault) (page : PageSize) (first : Fault) (start count bound : Nat)
    (calls : List Call) : Prop where
  inBatch : start + count ≤ faults.length
  within : ∀ call ∈ calls, start ≤ call.faultIndexStart ∧ call.faultIndexEnd ≤ start + count
  taken : ∀ i f, start ≤ i → i < start + count → faults[i]? = some f →
    f.vaSpace = first.vaSpace ∧ f.gpu = first.gpu ∧ f.faultAddress < bound
  once : ∀ i f, start ≤ i → i < start + count → faults[i]? = some f → ServicedOnce page calls i f

def InSub (faults : List Fault) (start outer i : Nat) (f : Fault) : Prop :=
  start ≤ i ∧ i < outer ∧ faults[i]? = some f

/-- The masks `service_fault_batch_ats_sub` has gathered from the entries. -/
def gathered (kernel : Kernel) (faults : List Fault) (base start outer : Nat) : FaultMasks :=
  ((faults.drop start).take (outer - start)).foldl (gatherFault kernel base) .zero

section Gathering

variable {f : Fault} {base start outer page : Nat}

theorem mem_slice :
    f ∈ (faults.drop start).take (outer - start) ↔ ∃ i, InSub faults start outer i f := by
  simp only [mem_iff_getElem?,getElem?_take,getElem?_drop]
  constructor
  · rintro ⟨k,at_k⟩
    split at at_k
    next bound => exact ⟨start + k,by omega,by omega,at_k⟩
    · simp at at_k
  · rintro ⟨i,low,high,at_i⟩
    exact ⟨i - start,by rw [if_pos (by omega),Nat.add_sub_cancel' low]; exact at_i⟩

theorem exists_slice {p : Fault → Prop} :
    (∃ f ∈ (faults.drop start).take (outer - start), p f) ↔
      ∃ i f, InSub faults start outer i f ∧ p f := by
  simp only [mem_slice]
  constructor
  · rintro ⟨f,⟨i,inSub⟩,rest⟩; exact ⟨i,f,inSub,rest⟩
  · rintro ⟨i,f,inSub,rest⟩; exact ⟨f,⟨i,inSub⟩,rest⟩

theorem Fault.read_mem (reads : f.accessType = .read) : .read ∈ f.accessTypeMask :=
  maskHighest_mem (reads ▸ f.highest)

theorem mem_ite_insert {c : Prop} [Decidable c] {new page : Nat} {pages : Finset Nat} :
    page ∈ (if c then insert new pages else pages) ↔ page ∈ pages ∨ c ∧ new = page := by
  split <;> simp_all [or_comm,eq_comm]

/-- A mask of the pages of some of the entries. -/
theorem mem_gathered_of (mask : FaultMasks → Finset Nat) (adds : Fault → Prop)
    (step : ∀ masks f page, page ∈ mask (gatherFault kernel base masks f) ↔
      page ∈ mask masks ∨ adds f ∧ kernel.page.index base f.faultAddress = page)
    (empty : mask .zero = ∅) : page ∈ mask (gathered kernel faults base start outer) ↔
      ∃ i f, InSub faults start outer i f ∧ adds f ∧
        kernel.page.index base f.faultAddress = page := by
  have fold (fs : List Fault) masks : page ∈ mask (fs.foldl (gatherFault kernel base) masks) ↔
      page ∈ mask masks ∨ ∃ f ∈ fs, adds f ∧ kernel.page.index base f.faultAddress = page := by
    induction fs generalizing masks with
    | nil => simp
    | cons f fs ih => simp [ih,step,or_assoc]
  simp [gathered,fold,exists_slice,empty]

theorem mem_gathered : let masks := gathered kernel faults base start outer
    (page ∈ masks.readFault ↔ ∃ i f, InSub faults start outer i f ∧ .read ∈ f.accessTypeMask ∧
      kernel.page.index base f.faultAddress = page) ∧
    (page ∈ masks.writeFault ↔ ∃ i f, InSub faults start outer i f ∧ .write ≤ f.accessType ∧
      kernel.page.index base f.faultAddress = page) ∧
    (page ∈ masks.prefetchOnly ↔ ∃ i f, InSub faults start outer i f ∧ f.accessType = .prefetch ∧
      kernel.page.index base f.faultAddress = page) := by
  refine ⟨mem_gathered_of _ _ (fun masks f page => ?_) rfl,
    mem_gathered_of _ _ (fun masks f page => ?_) rfl,
    mem_gathered_of _ _ (fun masks f page => ?_) rfl⟩
  · simp only [gatherFault,or_iff_right_of_imp Fault.read_mem,mem_ite_insert]
  · simp only [gatherFault,mem_ite_insert]
  · have prefetching : f.accessType = .prefetch ∧ maskHighest f.accessTypeMask = some .prefetch ↔
        f.accessType = .prefetch := and_iff_left_of_imp fun same => same ▸ f.highest
    simp only [gatherFault,prefetching,mem_ite_insert]

theorem gathered_succ (ordered : start ≤ outer) (atOuter : faults[outer]? = some f) :
    gathered kernel faults base start (outer + 1) =
      gatherFault kernel base (gathered kernel faults base start outer) f := by
  have last : (faults.drop start)[outer - start]? = some f := by
    rw [getElem?_drop,Nat.add_sub_of_le ordered,atOuter]
  rw [gathered,gathered,Nat.sub_add_comm ordered,take_add_one,last,foldl_append]
  rfl

theorem gatherFault_isEmpty (base : Nat) (masks : FaultMasks) (fault : Fault) :
    (gatherFault kernel base masks fault).isEmpty = false := by
  have highest := fault.highest
  cases access : fault.accessType <;>
    simp_all [gatherFault,FaultMasks.isEmpty,AccessType.le_iff,AccessType.rank]

/-- The open sub-batch has nothing but writes, and no pending reads. -/
theorem gathered_writes : let masks := gathered kernel faults base start outer
    masks.readFault = ∅ ∧ masks.prefetchOnly = ∅ ↔ ∀ i f, InSub faults start outer i f →
      .write ≤ f.accessType ∧ .read ∉ f.accessTypeMask := by
  simp only [Finset.eq_empty_iff_forall_notMem,mem_gathered]
  constructor
  · rintro ⟨noReads,noPrefetch⟩ i f inSub
    have notRead := fun reads => noReads _ ⟨i,f,inSub,reads,rfl⟩
    have notPrefetch := fun prefetch => noPrefetch _ ⟨i,f,inSub,prefetch,rfl⟩
    refine ⟨?_,notRead⟩
    cases access : f.accessType with
    | prefetch => exact absurd access notPrefetch
    | read => exact absurd (Fault.read_mem access) notRead
    | write | atomicWeak | atomicStrong => decide
  · intro writes
    refine ⟨fun page ⟨i,f,inSub,reads,_⟩ => (writes i f inSub).2 reads,
      fun page ⟨i,f,inSub,prefetch,_⟩ => ?_⟩
    exact absurd (prefetch ▸ (writes i f inSub).1) (by decide)

end Gathering

/-! The masks that the servicing of a sub-batch leaves. -/

section Edited

variable {base : Nat} {accessed : Finset Nat} {masks : FaultMasks} {log : List Request}

theorem serviceMasks_masks (ok : (serviceMasks kernel vma base masks log).1 = .ok) :
    (serviceMasks kernel vma base masks log).2.masks =
      { masks with readFault := masks.readFault \ masks.writeFault } := by
  simp only [serviceMasks] at ok ⊢
  generalize serviceMask kernel _ base masks.writeFault ∅ log = written at ok ⊢
  by_cases failed : written.1 ≠ .ok
  · rw [if_pos failed] at ok
    exact absurd ok failed
  · rw [if_neg failed]
    simp only [apply_ite Prod.snd,apply_ite Serviced.masks,ite_self]

variable (kernel) in
theorem computePrefetch_spec (vma : Vma) (base : Nat) (accessed : Finset Nat) (log : List Request)
    (masks : FaultMasks) :
    let asked := computePrefetch kernel vma base accessed log masks
    asked.prefetchOnly = masks.prefetchOnly ∧
    masks.writeFault ⊆ asked.writeFault ∧
    (vma.vmWrite = false → asked.writeFault = masks.writeFault) ∧
    masks.readFault ⊆ asked.readFault := by
  simp only [computePrefetch]
  split
  · exact ⟨rfl,subset_rfl,fun _ => rfl,subset_rfl⟩
  · refine ⟨rfl,?_,fun readOnly => by simp [readOnly],Finset.subset_union_left⟩
    split
    · exact Finset.subset_union_left
    · exact subset_rfl

theorem isEmpty_iff : masks.isEmpty = true ↔
    masks.readFault = ∅ ∧ masks.writeFault = ∅ ∧ masks.prefetchOnly = ∅ := by
  simp [FaultMasks.isEmpty]

/-- The masks that are asked for do not get empty. -/
theorem asked_isEmpty (ok : (serviceMasks kernel vma base
      (computePrefetch kernel vma base accessed log masks) log).1 = .ok)
    (empty : (serviceMasks kernel vma base
      (computePrefetch kernel vma base accessed log masks) log).2.masks.isEmpty = true) :
    masks.isEmpty = true := by
  obtain ⟨prefetches,writes,-,reads⟩ := computePrefetch_spec kernel vma base accessed log masks
  rw [serviceMasks_masks ok,isEmpty_iff] at empty
  obtain ⟨noReads,noWrites,noPrefetches⟩ := empty
  simp only at noReads noWrites noPrefetches
  rw [noWrites,Finset.sdiff_empty] at noReads
  exact isEmpty_iff.mpr ⟨Finset.subset_empty.mp (noReads ▸ reads),
    Finset.subset_empty.mp (noWrites ▸ writes),prefetches ▸ noPrefetches⟩

/-- Only writes that are forbidden are dropped from the masks. -/
theorem serviceFaults_isEmpty (some : masks.isEmpty = false)
    (ok : (uvmAtsServiceFaults kernel vma base .gpc accessed masks log).1 = .ok) :
    (uvmAtsServiceFaults kernel vma base .gpc accessed masks log).2.masks.isEmpty = true ↔
      vma.vmRead = true ∧ vma.vmWrite = false ∧ masks.readFault = ∅ ∧ masks.prefetchOnly = ∅ := by
  simp only [uvmAtsServiceFaults] at ok ⊢
  cases readable : vma.vmRead with
  | false => simp [permittedMasks,readable,some]
  | true =>
    cases writable : vma.vmWrite with
    | true =>
      simp only [permittedMasks,readable,writable,Bool.not_true,Bool.false_eq_true,if_false,if_true]
        at ok ⊢
      exact iff_of_false (fun empty => by simp [asked_isEmpty ok empty] at some) (by simp)
    | false =>
      by_cases reads : masks.readFault = ∅
      · simp [permittedMasks,readable,writable,reads,FaultMasks.isEmpty]
      · simp only [permittedMasks,readable,writable,reads,Bool.not_true,Bool.not_false,ne_eq,
          Bool.false_eq_true,if_false,if_true,not_false_eq_true,decide_true] at ok ⊢
        refine iff_of_false (fun empty => reads ?_) (by simp)
        exact (isEmpty_iff.mp (asked_isEmpty ok empty)).1

end Edited

section Run

variable (faults) (first : Fault) (start bound stop : Nat)

/-- The entries up to `stop` are of the VA space and below the bound, as the loop asks of them. -/
def Run : Prop :=
  ∀ i, start ≤ i → i < stop → ∃ f, faults[i]? = some f ∧ f.vaSpace = first.vaSpace ∧
    f.faultAddress < bound

def OneGpu : Prop :=
  ∀ i f, start ≤ i → i < stop → faults[i]? = some f → f.gpu = first.gpu

/-- None of them is behind the block of the first. -/
def OneBlock : Prop :=
  ∀ i f, start ≤ i → i < stop → faults[i]? = some f →
    f.faultAddress < blockAlignDown first.faultAddress + vaBlockSize

/-- Of the entries that the loop gets to, none is on another GPU. When replays are issued per
block and there is a next block, those of the first one are writes that the VMA forbids, on pages
without a pending read. -/
structure Clean (policy : ReplayPolicy) (vma : Vma) : Prop where
  oneGpu : ∀ stop, Run faults first start bound stop →
    (policy = .block → OneBlock faults first start stop) → OneGpu faults first start stop
  drained : policy = .block → ∀ stop, Run faults first start bound stop →
    ¬OneBlock faults first start stop → vma.vmRead = true ∧ vma.vmWrite = false ∧
      ∀ last, Run faults first start bound last → OneBlock faults first start last →
        ∀ i f, InSub faults start last i f → .write ≤ f.accessType ∧ .read ∉ f.accessTypeMask

end Run

section Loop

variable {policy : ReplayPolicy} {first current : Fault} {start bound stop : Nat} {initial : State}
  {sub : Sub}

theorem Run.mono (run : Run faults first start bound stop) {less : Nat} (le : less ≤ stop) :
    Run faults first start bound less := fun i low high => run i low (by omega)

theorem OneGpu.mono (one : OneGpu faults first start stop) {less : Nat} (le : less ≤ stop) :
    OneGpu faults first start less := fun i f low high => one i f low (by omega)

theorem OneBlock.mono (one : OneBlock faults first start stop) {less : Nat} (le : less ≤ stop) :
    OneBlock faults first start less := fun i f low high => one i f low (by omega)

theorem Run.succ (run : Run faults first start bound stop) (atStop : faults[stop]? = some current)
    (space : current.vaSpace = first.vaSpace) (below : current.faultAddress < bound) :
    Run faults first start bound (stop + 1) := by
  intro i low high
  rcases (Nat.lt_succ_iff.mp high).eq_or_lt with rfl | before
  · exact ⟨current,atStop,space,below⟩
  · exact run i low before

/-- The entries of a run on one GPU are sorted by their addresses. -/
theorem Run.address_le (run : Run faults first start bound stop) (one : OneGpu faults first start stop)
    (sorted : Sorted faults) {i j : Nat} {f g : Fault} (low : start ≤ i) (before : i ≤ j)
    (high : j < stop) (atI : faults[i]? = some f) (atJ : faults[j]? = some g) :
    f.faultAddress ≤ g.faultAddress := by
  obtain ⟨f',atI',spaceF,-⟩ := run i low (by omega)
  obtain ⟨g',atJ',spaceG,-⟩ := run j (by omega) high
  cases atI.symm.trans atI'
  cases atJ.symm.trans atJ'
  exact sorted.address_le before atI atJ (spaceF.trans spaceG.symm)
    ((one i f low (by omega) atI).trans (one j g (by omega) high atJ).symm)

/-- The loop invariant of `service_fault_batch_ats_sub`: the entries before the open sub-batch are
counted and, on one GPU, tiled; those of the open one are in the masks and in its block. -/
structure Gathered (kernel : Kernel) (faults : List Fault) (policy : ReplayPolicy) (first : Fault)
    (start bound : Nat) (initial : State) (sub : Sub) : Prop where
  ok : sub.status = .ok
  low : start ≤ sub.subBatchFaultIndex
  ordered : sub.subBatchFaultIndex ≤ sub.index
  inBatch : sub.index ≤ faults.length
  run : Run faults first start bound sub.index
  base : ∀ f, faults[sub.subBatchFaultIndex]? = some f →
    sub.subBatchBase = blockAlignDown f.faultAddress
  masks : sub.state.masks =
    gathered kernel faults sub.subBatchBase sub.subBatchFaultIndex sub.index
  count : sub.state.blockFaults = initial.blockFaults + (sub.subBatchFaultIndex - start)
  perBlock : policy = .block → sub.subBatchFaultIndex = start ∧
    sub.state.calls = initial.calls ∧ OneBlock faults first start sub.index
  tiled : ∃ calls, sub.state.calls = initial.calls ++ calls ∧
    (∀ call ∈ calls, start ≤ call.faultIndexStart) ∧
    (OneGpu faults first start sub.index → Tiles faults start calls sub.subBatchFaultIndex)
  sameBlock : OneGpu faults first start sub.index → ∀ i f, sub.subBatchFaultIndex ≤ i →
    i < sub.index → faults[i]? = some f → blockAlignDown f.faultAddress = sub.subBatchBase

/-- With replays per block, the loop was left at entry `k` of the next block. -/
structure Left (faults : List Fault) (vma : Vma) (first : Fault) (start bound : Nat)
    (initial : State) (sub : Sub) (k : Nat) : Prop where
  nonempty : start < k
  run : Run faults first start bound (k + 1)
  inside : OneBlock faults first start k
  next : ¬OneBlock faults first start (k + 1)
  index : sub.subBatchFaultIndex = start ∧ sub.index = k + 1
  base : sub.subBatchBase = blockAlignDown first.faultAddress
  count : sub.state.blockFaults = initial.blockFaults + (k - start)
  calls : sub.state.calls = initial.calls ++ [⟨sub.subBatchBase,start,k⟩]
  drained : sub.state.masks.isEmpty = true ↔ vma.vmRead = true ∧ vma.vmWrite = false ∧
    ∀ i f, InSub faults start k i f → .write ≤ f.accessType ∧ .read ∉ f.accessTypeMask

section

variable (gathered : Gathered kernel faults policy first start bound initial sub)
include gathered

theorem Gathered.isEmpty (nonempty : sub.subBatchFaultIndex < sub.index) :
    sub.state.masks.isEmpty = false := by
  obtain ⟨n,last⟩ : ∃ n, sub.index = n + 1 := ⟨sub.index - 1,by omega⟩
  obtain ⟨f,atF,-⟩ := gathered.run n (by have := gathered.low; omega) (by omega)
  rw [gathered.masks,last,gathered_succ (by omega) atF]
  exact gatherFault_isEmpty _ _ _

variable (atIndex : faults[sub.index]? = some current)
include atIndex

/-- The fault the open sub-batch starts with. -/
theorem Gathered.opened (below : current.faultAddress < bound) :
    ∃ f, faults[sub.subBatchFaultIndex]? = some f ∧ f.faultAddress < bound := by
  rcases gathered.ordered.eq_or_lt with same | before
  · exact ⟨current,same ▸ atIndex,below⟩
  · obtain ⟨f,atF,-,belowF⟩ := gathered.run _ gathered.low before
    exact ⟨f,atF,belowF⟩

variable (space : current.vaSpace = first.vaSpace) (below : current.faultAddress < bound)
include space below

/-- A fault that does not end the open sub-batch joins it. -/
theorem Gathered.gather (sorted : Sorted faults) (atStart : faults[start]? = some first)
    (previous : Option Fault)
    (before : current.faultAddress < sub.subBatchBase + vaBlockSize) :
    Gathered kernel faults policy first start bound initial
      (gatherCurrent kernel (notifyCurrent sub previous current) current) where
  ok := gathered.ok
  low := gathered.low
  ordered := Nat.le_succ_of_le gathered.ordered
  inBatch := (List.getElem?_eq_some_iff.mp atIndex).1
  run := gathered.run.succ atIndex space below
  base := gathered.base
  masks := (congrArg (gatherFault kernel sub.subBatchBase · current) gathered.masks).trans
    (gathered_succ gathered.ordered atIndex).symm
  count := gathered.count
  perBlock policyEq := by
    obtain ⟨same,calls,one⟩ := gathered.perBlock policyEq
    refine ⟨same,calls,fun i f low high atI => ?_⟩
    rcases (Nat.lt_succ_iff.mp high).eq_or_lt with rfl | earlier
    · cases atIndex.symm.trans atI
      rwa [gathered.base first (same ▸ atStart)] at before
    · exact one i f low earlier atI
  tiled := gathered.tiled.imp fun calls tiled =>
    ⟨tiled.1,tiled.2.1,fun one => tiled.2.2 (one.mono (Nat.le_succ _))⟩
  sameBlock one i f low high atI := by
    rcases (Nat.lt_succ_iff.mp high).eq_or_lt with rfl | earlier
    · cases atIndex.symm.trans atI
      obtain ⟨g,atG,-⟩ := gathered.opened atIndex below
      have above := (gathered.run.succ atIndex space below).address_le one sorted gathered.low
        gathered.ordered (Nat.lt_succ_self _) atG atIndex
      have baseEq := gathered.base g atG
      show blockAlignDown current.faultAddress = sub.subBatchBase
      rw [baseEq] at before ⊢
      exact blockAlignDown_eq ((blockAlignDown_le _).trans above) before
    · exact gathered.sameBlock (one.mono (Nat.le_succ _)) i f low earlier atI

/-- The open sub-batch is serviced and the current entry starts a new one. -/
theorem Gathered.close (previous : Option Fault) (notPerBlock : policy ≠ .block)
    (nonempty : sub.subBatchFaultIndex < sub.index)
    (ok : (serviceGathered kernel faults vma (notifyCurrent sub previous current)).status = .ok) :
    Gathered kernel faults policy first start bound initial
      (gatherCurrent kernel (startNewSubBatch
        (serviceGathered kernel faults vma (notifyCurrent sub previous current))
        current.faultAddress sub.index) current) := by
  have inBatch := (List.getElem?_eq_some_iff.mp atIndex).1
  have low := gathered.low
  obtain ⟨-,-,-,calls,count⟩ := @subVma_frame kernel faults vma sub.subBatchBase
    (notifyCurrent sub previous current).state sub.subBatchFaultIndex sub.index gathered.ordered
    gathered.inBatch
  obtain ⟨earlier,callsEq,lows,tiles⟩ := gathered.tiled
  have isCurrent : ∀ f, faults[sub.index]? = some f → current = f := fun f atF => by
    simpa [atIndex] using atF
  refine ⟨ok,low.trans gathered.ordered,Nat.le_succ _,inBatch,gathered.run.succ atIndex space below,
    fun f atF => by rw [← isCurrent f atF]; rfl,?_,?_,fun policyEq => absurd policyEq notPerBlock,
    ⟨_,calls.trans (by rw [← append_assoc]; exact congrArg (· ++ _) callsEq),
      by simpa [or_imp,forall_and] using ⟨lows,low⟩,fun one => (tiles (one.mono (Nat.le_succ _))).snoc nonempty
        (gathered.sameBlock (one.mono (Nat.le_succ _)))⟩,?_⟩
  · refine Eq.trans ?_ (gathered_succ le_rfl atIndex).symm
    simp [gatherCurrent,startNewSubBatch,GpuExt.AtsFaults.gathered]
  · refine count.trans ?_
    have counted : (notifyCurrent sub previous current).state.blockFaults = _ := gathered.count
    simp only [startNewSubBatch,gatherCurrent]
    omega
  · intro _ i f (lowI : sub.index ≤ i) (high : i < sub.index + 1) atI
    obtain rfl : i = sub.index := by omega
    rw [← isCurrent f atI]
    rfl

/-- The open sub-batch is serviced, and the loop is left. -/
theorem Gathered.leave (atStart : faults[start]? = some first) (previous : Option Fault)
    (perBlock : policy = .block) (nonempty : sub.subBatchFaultIndex < sub.index)
    (behind : sub.subBatchBase + vaBlockSize ≤ current.faultAddress)
    (ok : (serviceGathered kernel faults vma (notifyCurrent sub previous current)).status = .ok) :
    Left faults vma first start bound initial
      (serviceGathered kernel faults vma (notifyCurrent sub previous current)) sub.index := by
  obtain ⟨same,callsEq,inside⟩ := gathered.perBlock perBlock
  have baseEq := gathered.base first (same ▸ atStart)
  obtain ⟨status,-,masks,calls,count⟩ := @subVma_frame kernel faults vma sub.subBatchBase
    (notifyCurrent sub previous current).state sub.subBatchFaultIndex sub.index gathered.ordered
    gathered.inBatch
  refine ⟨same ▸ nonempty,gathered.run.succ atIndex space below,inside,fun one => ?_,⟨same,rfl⟩,
    baseEq,?_,?_,?_⟩
  · have := one sub.index current (gathered.low.trans gathered.ordered) (Nat.lt_succ_self _) atIndex
    omega
  · refine count.trans ?_
    have counted : (notifyCurrent sub previous current).state.blockFaults = _ := gathered.count
    rw [counted,same]
    omega
  · exact calls.trans (by rw [same]; exact congrArg (· ++ _) callsEq)
  · have edited := serviceFaults_isEmpty (gathered.isEmpty nonempty) (status.symm.trans ok)
    refine (congrArg (·.isEmpty = true) masks).to_iff.trans (edited.trans ?_)
    rw [gathered.masks,same]
    exact and_congr_right fun _ => and_congr_right fun _ => gathered_writes

end

section

variable (sorted : Sorted faults) (atStart : faults[start]? = some first) (user : bound ≤ 2 ^ 63)
include sorted atStart user

/-- One turn of the loop keeps the invariant, or leaves the loop. -/
theorem subTurn_spec (gathered : Gathered kernel faults policy first start bound initial sub)
    (atIndex : faults[sub.index]? = some current) (space : current.vaSpace = first.vaSpace)
    (below : current.faultAddress < bound) (previous : Option Fault) :
    ∃ leave sub', subTurn kernel faults vma (policy = .block) previous current sub = (leave,sub') ∧
      (leave = true → sub'.status = .ok → policy = .block ∧
        Left faults vma first start bound initial sub' sub.index) ∧
      (leave = false → sub'.index = sub.index + 1 ∧ sub'.subBatchFaultIndex < sub'.index ∧
        Gathered kernel faults policy first start bound initial sub') := by
  obtain ⟨f,atF,belowF⟩ := gathered.opened atIndex below
  have baseEq := gathered.base f atF
  have baseLow := blockAlignDown_le f.faultAddress
  have noWrap : blockOuter sub.subBatchBase = sub.subBatchBase + vaBlockSize :=
    Nat.mod_eq_of_lt (by simp only [vaBlockSize]; omega)
  have notified : (notifyCurrent sub previous current).subBatchBase = sub.subBatchBase := rfl
  by_cases newBlock : blockOuter sub.subBatchBase ≤ current.faultAddress
  · -- The current fault is behind the block of the open sub-batch, which is not empty.
    have nonempty : sub.subBatchFaultIndex < sub.index := by
      rcases gathered.ordered.eq_or_lt with same | before
      · rw [same,atIndex] at atF
        cases atF
        have := lt_blockAlignDown current.faultAddress
        omega
      · exact before
    by_cases ok : (serviceGathered kernel faults vma (notifyCurrent sub previous current)).status
        = .ok
    · by_cases perBlock : policy = .block
      · refine ⟨true,_,?_,fun _ _ => ⟨perBlock,gathered.leave atIndex space below atStart previous
          perBlock nonempty (noWrap ▸ newBlock) ok⟩,by simp⟩
        simp only [subTurn,notified,if_pos newBlock,ok,perBlock]
        rfl
      · refine ⟨false,_,?_,by simp,fun _ => ⟨rfl,Nat.lt_succ_self sub.index,
          gathered.close atIndex space below previous perBlock nonempty ok⟩⟩
        simp only [subTurn,notified,if_pos newBlock,ok,perBlock]
        rfl
    · refine ⟨true,_,?_,fun _ isOk => absurd isOk ok,by simp⟩
      simp [subTurn,notified,if_pos newBlock,ok]
  · refine ⟨false,gatherCurrent kernel (notifyCurrent sub previous current) current,?_,by simp,
      fun _ => ⟨rfl,Nat.lt_succ_of_le gathered.ordered,
        gathered.gather atIndex space below sorted atStart previous (by omega)⟩⟩
    simp [subTurn,notified,newBlock]

theorem subLoop_spec (gathered : Gathered kernel faults policy first start bound initial sub)
    (atIndex : faults[sub.index]? = some current) (space : current.vaSpace = first.vaSpace)
    (below : current.faultAddress < bound) (fuel : Nat) (enough : faults.length ≤ sub.index + fuel)
    (previous : Option Fault) {final : Sub}
    (result : subLoop kernel faults vma (policy = .block) bound fuel previous current sub = final)
    (ok : final.status = .ok) :
    (final.subBatchFaultIndex < final.index ∧ ¬Run faults first start bound (final.index + 1) ∧
      Gathered kernel faults policy first start bound initial final) ∨
    policy = .block ∧ ∃ k, Left faults vma first start bound initial final k := by
  induction fuel generalizing sub previous current with
  | zero =>
    have := (List.getElem?_eq_some_iff.mp atIndex).1
    omega
  | succ fuel ih =>
    obtain ⟨leave,sub',turn,left,stayed⟩ := @subTurn_spec kernel faults vma policy first current
      start bound initial sub sorted atStart user gathered atIndex space below previous
    simp only [subLoop,turn] at result
    cases leave with
    | true =>
      cases result
      obtain ⟨perBlock,left⟩ := left rfl ok
      exact .inr ⟨perBlock,_,left⟩
    | false =>
      obtain ⟨advanced,nonempty,gathered'⟩ := stayed rfl
      have low : start ≤ sub'.index := gathered'.low.trans gathered'.ordered
      simp only [Bool.false_eq_true,↓reduceIte] at result
      split at result
      next atEnd =>
        cases result
        refine .inl ⟨nonempty,fun run => ?_,gathered'⟩
        obtain ⟨f,atF,-⟩ := run _ low (Nat.lt_succ_self _)
        exact nomatch atEnd.symm.trans atF
      next next atNext =>
        split at result
        next same =>
          exact ih gathered' atNext (same.2.symm.trans space) same.1 (by omega) _ result
        next stops =>
          cases result
          refine .inl ⟨nonempty,fun run => stops ?_,gathered'⟩
          obtain ⟨f,atF,spaceF,belowF⟩ := run _ low (Nat.lt_succ_self _)
          cases atNext.symm.trans atF
          exact ⟨belowF,space.trans spaceF.symm⟩

end

end Loop

end GpuExt.AtsFaults
