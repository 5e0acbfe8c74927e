import GpuExt.AtsFaultConsumption

/-! Which entries of an ATS sub-batch are marked fatal. The masks handed to the kernel and the
masks it fills are followed page by page: every page is serviced by the requests of its own
mask only, and an entry is judged by the mask its page was recorded in. -/
namespace GpuExt.AtsFaults

open FaultBatch PageMask List

section

variable (requests : List Request) (page : Nat)

def Succeeded : Prop :=
  ∃ request ∈ requests, request.status = .ok ∧ page ∈ request.region.pages

def RequestsFor (access : AccessType) (mask : Finset Nat) (requests : List Request) : Prop :=
  ∀ request ∈ requests, request.access = access ∧ ∀ page ∈ request.region.pages, page ∈ mask

theorem succeeded_nil : ¬Succeeded [] page := by simp [Succeeded]

end

/-- The page was serviced by a request of an access type that is allowed. -/
def ServicedWith (allowed : AccessType → Prop) (requests : List Request) (page : Nat) : Prop :=
  ∃ request ∈ requests, allowed request.access ∧ request.status = .ok ∧
    page ∈ request.region.pages

/-- Prefetches ask the kernel for the same permissions as reads. -/
def ServicedForRead : List Request → Nat → Prop := ServicedWith (· < .write)

def ServicedForWrite : List Request → Nat → Prop := ServicedWith (.write ≤ ·)

def ServicedByPrefetch : List Request → Nat → Prop := ServicedWith (· = .prefetch)

theorem servicedWith_append {allowed : AccessType → Prop} {front back : List Request}
    {page : Nat} : ServicedWith allowed (front ++ back) page ↔
      ServicedWith allowed front page ∨ ServicedWith allowed back page := by
  simp [ServicedWith,or_and_right,exists_or]

section Requests

variable {access : AccessType} {mask : Finset Nat} {requests : List Request} {page : Nat}

theorem requestsFor_nil : RequestsFor access mask [] := by simp [RequestsFor]

section

variable (only : RequestsFor access mask requests)
include only

theorem RequestsFor.mem (succeeded : Succeeded requests page) : page ∈ mask := by
  obtain ⟨request,member,_,covered⟩ := succeeded
  exact (only request member).2 page covered

theorem RequestsFor.servicedWith {allowed : AccessType → Prop} :
    ServicedWith allowed requests page ↔ allowed access ∧ Succeeded requests page := by
  constructor
  · rintro ⟨request,member,ok,rest⟩
    exact ⟨(only request member).1 ▸ ok,request,member,rest⟩
  · rintro ⟨ok,request,member,rest⟩
    exact ⟨request,member,(only request member).1 ▸ ok,rest⟩

end

end Requests

variable {kernel : Kernel} {faults : List Fault} {vma : Vma} {base : Nat}

variable (kernel) in
theorem serviceFaultsRegions_spec (access : AccessType) (base : Nat) (regions : List Region)
    (serviced : Finset Nat) (log : List Request) :
    ∃ requests,
      (serviceFaultsRegions kernel access base regions serviced log).2.2 = log ++ requests ∧
      (∀ request ∈ requests, request.access = access ∧ request.region ∈ regions) ∧
      ∀ page, page ∈ (serviceFaultsRegions kernel access base regions serviced log).2.1 ↔
        page ∈ serviced ∨ Succeeded requests page := by
  induction regions generalizing serviced log with
  | nil => exact ⟨[],by simp [serviceFaultsRegions],by simp,by simp [serviceFaultsRegions,Succeeded]⟩
  | cons region regions ih =>
    simp only [serviceFaultsRegions,serviceFaultsRegion]
    generalize answer : kernel.request log access base region = status
    have asked {requests : List Request}
        (only : ∀ request ∈ requests, request.access = access ∧ request.region ∈ regions) :
        ∀ request ∈ ⟨access,base,region,status⟩ :: requests,
          request.access = access ∧ request.region ∈ region :: regions := by
      refine forall_mem_cons.mpr ⟨⟨rfl,mem_cons_self⟩,fun request later => ?_⟩
      exact ⟨(only request later).1,mem_cons_of_mem _ (only request later).2⟩
    cases status
    case ok =>
      obtain ⟨requests,logged,only,covered⟩ := ih (serviced ∪ region.pages)
        (log ++ [⟨access,base,region,.ok⟩])
      refine ⟨_,by simp [logged],asked only,fun page => ?_⟩
      rw [covered page]
      simp [Succeeded,or_assoc]
    case invalidAddress =>
      obtain ⟨requests,logged,only,covered⟩ := ih serviced
        (log ++ [⟨access,base,region,.invalidAddress⟩])
      refine ⟨_,by simp [logged],asked only,fun page => ?_⟩
      rw [covered page]
      simp [Succeeded]
    all_goals exact ⟨[⟨access,base,region,_⟩],rfl,by simp,by simp [Succeeded]⟩

variable (kernel) in
theorem serviceMask_spec (access : AccessType) (base : Nat) (mask serviced : Finset Nat)
    (log : List Request) :
    ∃ requests, (serviceMask kernel access base mask serviced log).2.2 = log ++ requests ∧
      RequestsFor access mask requests ∧
      ∀ page, page ∈ (serviceMask kernel access base mask serviced log).2.1 ↔
        page ∈ serviced ∨ Succeeded requests page := by
  obtain ⟨requests,logged,only,covered⟩ := serviceFaultsRegions_spec kernel access base
    _ serviced log
  refine ⟨requests,logged,fun request member => ⟨(only request member).1,?_⟩,covered⟩
  intro page inside
  have bound := subregions_outer (only request member).2
  exact (mem_subregions (by rw [Region.mem_pages] at inside; omega)).mp
    ⟨_,(only request member).2,inside⟩

/-- What the three loops recorded: writes, the reads left, and the prefetches. -/
structure Recorded (vma : Vma) (masks : FaultMasks) (serviced : Serviced) (log written read
    prefetched : List Request) : Prop where
  logged : serviced.log = log ++ (written ++ (read ++ prefetched))
  writeRequests : RequestsFor (if vma.vmWrite then .write else .read) masks.writeFault written
  readRequests : RequestsFor .read (masks.readFault \ masks.writeFault) read
  prefetchRequests : RequestsFor .prefetch masks.prefetchOnly prefetched
  faults : ∀ page, page ∈ serviced.faultsServiced ↔
    (vma.vmWrite = true ∧ Succeeded written page) ∨ Succeeded read page ∨ Succeeded prefetched page
  reads : ∀ page, page ∈ serviced.readsServiced ↔ vma.vmWrite = false ∧ Succeeded written page

variable (kernel) in
theorem serviceMasks_recorded (vma : Vma) (base : Nat) (masks : FaultMasks) (log : List Request) :
    ∃ written read prefetched,
      Recorded vma masks (serviceMasks kernel vma base masks log).2 log written read prefetched := by
  obtain ⟨written,loggedW,onlyW,coveredW⟩ := serviceMask_spec kernel
    _ base masks.writeFault ∅ log
  simp only [serviceMasks]
  generalize serviceMask kernel (if vma.vmWrite then .write else .read) base masks.writeFault ∅ log
    = first at loggedW coveredW ⊢
  have faultsW : ∀ page, page ∈ (if vma.vmWrite then first.2.1 else ∅) ↔
      vma.vmWrite = true ∧ Succeeded written page := by
    split
    next writable => simp [coveredW,writable]
    next readOnly => simp [readOnly]
  have readsW : ∀ page, page ∈ (if vma.vmWrite then ∅ else first.2.1) ↔
      vma.vmWrite = false ∧ Succeeded written page := by
    split
    next writable => simp [writable]
    next readOnly => simp [coveredW,readOnly]
  split
  · refine ⟨written,[],[],⟨by simp [loggedW],onlyW,requestsFor_nil,requestsFor_nil,?_,readsW⟩⟩
    simp [faultsW,succeeded_nil]
  · obtain ⟨read,loggedR,onlyR,coveredR⟩ := serviceMask_spec kernel .read base
      _ _ first.2.2
    generalize serviceMask kernel .read base _ _ first.2.2 = second at loggedR coveredR ⊢
    split
    · refine ⟨written,read,[],⟨by simp [loggedR,loggedW],onlyW,onlyR,requestsFor_nil,?_,readsW⟩⟩
      intro page
      simp [coveredR,faultsW,succeeded_nil]
    · obtain ⟨prefetched,loggedP,onlyP,coveredP⟩ := serviceMask_spec kernel .prefetch base
        masks.prefetchOnly second.2.1 second.2.2
      refine ⟨written,read,prefetched,⟨?_,onlyW,onlyR,onlyP,?_,readsW⟩⟩
      · exact loggedP.trans (by rw [loggedR,loggedW,append_assoc,append_assoc])
      · intro page
        rw [coveredP,coveredR,faultsW,or_assoc]

variable {f : Fault} {masks : FaultMasks} {serviced : Serviced} {prefetch : Finset Nat}
  {i start outer page : Nat} {state : State}

/-- What the serviced masks say of a page. -/
structure Told (vma : Vma) (masks : FaultMasks) (serviced : Serviced) (requests : List Request)
    (page : Nat) : Prop where
  write : page ∈ masks.writeFault → (page ∈ serviced.faultsServiced ↔
    ServicedForWrite requests page ∨ ServicedByPrefetch requests page ∨
      (vma.vmWrite = false ∧ page ∉ masks.readFault ∧ ServicedForRead requests page))
  read : page ∈ masks.readFault → page ∉ masks.writeFault →
    (page ∈ serviced.faultsServiced ↔
      ServicedForRead requests page ∨ ServicedForWrite requests page)
  pending : page ∈ masks.writeFault → vma.vmWrite = true ∨ page ∈ masks.readFault →
    ServicedForRead requests page →
    page ∈ serviced.readsServiced ∨ ServicedByPrefetch requests page
  writable : vma.vmWrite = true → page ∉ serviced.readsServiced

theorem ServicedByPrefetch.read {requests : List Request}
    (serviced : ServicedByPrefetch requests page) : ServicedForRead requests page := by
  obtain ⟨request,member,access,rest⟩ := serviced
  exact ⟨request,member,by rw [access]; decide,rest⟩

section Recorded

variable {asked : FaultMasks} {log written read prefetched : List Request}
  (recorded : Recorded vma asked serviced log written read prefetched)
include recorded

theorem Recorded.servicedWith (allowed : AccessType → Prop) :
    ServicedWith allowed (written ++ (read ++ prefetched)) page ↔
      (allowed (if vma.vmWrite then .write else .read) ∧ Succeeded written page) ∨
        (allowed .read ∧ Succeeded read page) ∨ (allowed .prefetch ∧ Succeeded prefetched page) := by
  rw [servicedWith_append,servicedWith_append,recorded.writeRequests.servicedWith,
    recorded.readRequests.servicedWith,recorded.prefetchRequests.servicedWith]

theorem Recorded.read_iff : ServicedForRead (written ++ (read ++ prefetched)) page ↔
      (vma.vmWrite = false ∧ Succeeded written page) ∨ Succeeded read page ∨
        Succeeded prefetched page := by
  refine (recorded.servicedWith (· < .write)).trans ?_
  cases vma.vmWrite <;> simp +decide

theorem Recorded.write_iff : ServicedForWrite (written ++ (read ++ prefetched)) page ↔
      vma.vmWrite = true ∧ Succeeded written page := by
  refine (recorded.servicedWith _).trans ?_
  cases vma.vmWrite <;> simp +decide

theorem Recorded.prefetch_iff : ServicedByPrefetch (written ++ (read ++ prefetched)) page ↔
      Succeeded prefetched page := by
  refine (recorded.servicedWith _).trans ?_
  cases vma.vmWrite <;> simp

/-- Written pages are not asked for again as reads, and without write permission only pages with a
pending read are asked for in their place. -/
theorem Recorded.told
    (asksWrites : page ∈ masks.writeFault → vma.vmWrite = true ∨ page ∈ masks.readFault →
      page ∈ asked.writeFault)
    (asksPending : vma.vmWrite = false → page ∈ asked.writeFault →
      page ∈ masks.writeFault ∧ page ∈ masks.readFault) :
    Told vma masks serviced (written ++ (read ++ prefetched)) page := by
  have once (asks : page ∈ asked.writeFault) : ¬Succeeded read page := fun succeeded =>
    (Finset.mem_sdiff.mp (recorded.readRequests.mem succeeded)).2 asks
  have pending (readOnly : vma.vmWrite = false) (succeeded : Succeeded written page) :=
    asksPending readOnly (recorded.writeRequests.mem succeeded)
  constructor
  all_goals simp only [recorded.faults,recorded.reads,recorded.read_iff,recorded.write_iff,
    recorded.prefetch_iff]
  all_goals cases writable : vma.vmWrite <;>
    simp only [writable,true_or,false_or,true_and,false_and,reduceCtorEq,true_imp_iff] at *
  all_goals tauto

end Recorded

theorem told_nothing (vma : Vma) (masks edited : FaultMasks) (log : List Request) (page : Nat) :
    Told vma masks ⟨∅,∅,edited,log⟩ [] page := by
  constructor <;> simp [ServicedForWrite,ServicedForRead,ServicedByPrefetch,ServicedWith]

/-- The masks `uvm_ats_service_faults` fills tell how each page was serviced. -/
theorem service_told (base : Nat) (accessed : Finset Nat) (masks : FaultMasks)
    (log : List Request) :
    ∃ requests,
      (uvmAtsServiceFaults kernel vma base .gpc accessed masks log).2.log = log ++ requests ∧
      ∀ page, Told vma masks (uvmAtsServiceFaults kernel vma base .gpc accessed masks log).2 requests
        page := by
  simp only [uvmAtsServiceFaults]
  split
  next permitted =>
    obtain ⟨written,read,prefetched,recorded⟩ := serviceMasks_recorded kernel vma base
      (computePrefetch kernel vma base accessed log (permittedMasks vma .gpc masks).2) log
    obtain ⟨-,writes,same,-⟩ := computePrefetch_spec kernel vma base accessed log
      (permittedMasks vma .gpc masks).2
    refine ⟨_,recorded.logged,fun page => recorded.told ?_ fun readOnly asks => ?_⟩
    · refine fun write asks => writes ?_
      cases readable : vma.vmRead <;> cases writable : vma.vmWrite <;>
        simp_all [permittedMasks]
    · rw [same readOnly] at asks
      cases readable : vma.vmRead <;> simp_all [permittedMasks]
  next => exact ⟨[],by simp,told_nothing vma masks _ log⟩

/-- How one entry is marked, given the pages that were serviced. -/
structure Attributed (kernel : Kernel) (base : Nat) (serviced : Serviced) (f : Fault)
    (before after : Mark) : Prop where
  kept : kernel.page.index base f.faultAddress ∈ serviced.faultsServiced ∨
    f.accessType = .prefetch → after.isFatal = before.isFatal
  fatal : kernel.page.index base f.faultAddress ∉ serviced.faultsServiced →
    f.accessType ≠ .prefetch → after.isFatal = true ∧ after.cancelVaMode =
      cancelMode f (kernel.page.index base f.faultAddress ∈ serviced.readsServiced)

theorem attributeFault_other (serviced : Serviced) (state : State) {j : Nat} (different : j ≠ i) :
    (attributeFault kernel faults base serviced state i).ctx.marks j = state.ctx.marks j := by
  simp only [attributeFault]
  split
  · rfl
  · split
    · rfl
    · simp only [serviceFaultBatchFatal]
      split <;> split <;> simp [different,faultEntryDuplicateFlags_other]

theorem attributeFault_at (serviced : Serviced) (state : State) (atI : faults[i]? = some f) :
    Attributed kernel base serviced f (state.ctx.marks i)
      ((attributeFault kernel faults base serviced state i).ctx.marks i) := by
  simp only [attributeFault,atI]
  split
  next done => exact ⟨fun _ => rfl,fun undone => absurd done undone⟩
  next undone =>
    simp only [serviceFaultBatchFatal]
    constructor
    · rintro (done | prefetch)
      · exact absurd done undone
      · rw [if_pos prefetch]
        split <;> simp
    · intro _ notPrefetch
      simp [notPrefetch]

theorem attributeFaults_marks (serviced : Serviced) (state : State) (start count : Nat)
    (inBatch : start + count ≤ faults.length) (i : Nat) :
    let final := (range' start count).foldl (attributeFault kernel faults base serviced) state
    (i < start ∨ start + count ≤ i → final.ctx.marks i = state.ctx.marks i) ∧
    ∀ f, start ≤ i → i < start + count → faults[i]? = some f →
      Attributed kernel base serviced f (state.ctx.marks i) (final.ctx.marks i) := by
  induction count generalizing start state with
  | zero => exact ⟨fun _ => rfl,fun f low high => by omega⟩
  | succ count ih =>
    simp only [range'_succ,foldl_cons]
    obtain ⟨outside,inside⟩ := ih _ (start + 1) (by omega)
    constructor
    · intro away
      rw [outside (by omega),attributeFault_other _ _ (by omega)]
    · intro f low high atI
      rcases low.eq_or_lt with rfl | after
      · rw [outside (by omega)]
        exact attributeFault_at serviced state atI
      · rw [← attributeFault_other serviced state (by omega : i ≠ start)]
        exact inside f after (by omega) atI

/-- The verdict on one entry of the sub-batch: what it is and how its page was serviced. -/
structure Verdict (requests : List Request) (page : Nat) (f : Fault) (mark : Mark) : Prop where
  read : f.accessType = .read →
    (mark.isFatal = true ↔ ¬ServicedForRead requests page ∧ ¬ServicedForWrite requests page)
  write : .write ≤ f.accessType → (mark.isFatal = true ↔ ¬ServicedForWrite requests page)
  prefetch : f.accessType = .prefetch → mark.isFatal = false
  cancelAll : .write ≤ f.accessType → mark.isFatal = true → mark.cancelVaMode = .all →
    .read ∈ f.accessTypeMask ∧ ¬ServicedForRead requests page

/-- Where a write was not serviced, the page was not serviced by a prefetch request, and for no
read if the VMA is not writable and a read entry is on the page, or no entry reads it. -/
def Apart (kernel : Kernel) (faults : List Fault) (vma : Vma) (base start outer : Nat)
    (requests : List Request) : Prop :=
  ∀ j g, InSub faults start outer j g → .write ≤ g.accessType →
    let page := kernel.page.index base g.faultAddress
    ¬ServicedForWrite requests page → ¬ServicedByPrefetch requests page ∧
      (vma.vmWrite = false →
        (∃ i f, InSub faults start outer i f ∧ f.accessType = .read ∧
          kernel.page.index base f.faultAddress = page) ∨
        (∀ i f, InSub faults start outer i f → .read ∈ f.accessTypeMask →
          kernel.page.index base f.faultAddress ≠ page) →
        ¬ServicedForRead requests page)

theorem write_not_prefetch (writes : .write ≤ f.accessType) : f.accessType ≠ .prefetch := by
  intro prefetch
  rw [prefetch] at writes
  exact absurd writes (by decide)

variable (kernel base) in
theorem InSub.reads (inSub : InSub faults start outer i f) (reads : .read ∈ f.accessTypeMask) :
    kernel.page.index base f.faultAddress ∈ (gathered kernel faults base start outer).readFault :=
  mem_gathered.1.mpr ⟨i,f,inSub,reads,rfl⟩

variable (kernel base) in
theorem InSub.writes (inSub : InSub faults start outer i f) (writes : .write ≤ f.accessType) :
    kernel.page.index base f.faultAddress ∈ (gathered kernel faults base start outer).writeFault :=
  mem_gathered.2.1.mpr ⟨i,f,inSub,writes,rfl⟩

section Verdict

variable {requests : List Request} {before after : Nat → Mark}
  (fresh : ∀ i f, InSub faults start outer i f → (before i).isFatal = false)
  (attributed : ∀ i f, InSub faults start outer i f →
    Attributed kernel base serviced f (before i) (after i))
  (told : ∀ page, Told vma (gathered kernel faults base start outer) serviced requests page)

section

include fresh attributed

theorem fatal_iff (inSub : InSub faults start outer i f) (notPrefetch : f.accessType ≠ .prefetch) :
    (after i).isFatal = true ↔
      kernel.page.index base f.faultAddress ∉ serviced.faultsServiced := by
  constructor
  · intro fatal done
    rw [(attributed i f inSub).kept (.inl done),fresh i f inSub] at fatal
    exact absurd fatal (by decide)
  · exact fun undone => ((attributed i f inSub).fatal undone notPrefetch).1

end

section

include told

/-- The verdict on a read entry whose page is written too. -/
theorem Apart.read (apart : Apart kernel faults vma base start outer requests)
    (inSub : InSub faults start outer i f) (reads : f.accessType = .read) :
    kernel.page.index base f.faultAddress ∈ serviced.faultsServiced ↔
      ServicedForRead requests (kernel.page.index base f.faultAddress) ∨
        ServicedForWrite requests (kernel.page.index base f.faultAddress) := by
  have page := told (kernel.page.index base f.faultAddress)
  have readPage := inSub.reads kernel base (Fault.read_mem reads)
  by_cases written : kernel.page.index base f.faultAddress ∈
      (gathered kernel faults base start outer).writeFault
  · obtain ⟨j,g,inSubJ,writes,same⟩ := mem_gathered.2.1.mp written
    have apartHere := apart j g inSubJ writes
    simp only [same] at apartHere
    rw [page.write written]
    constructor
    · rintro (write | prefetch | ⟨-,notRead,-⟩)
      · exact .inr write
      · exact .inl prefetch.read
      · exact absurd readPage notRead
    · rintro (read | write)
      · by_contra unserviced
        obtain ⟨notWritten,rest⟩ := not_or.mp unserviced
        obtain ⟨notPrefetched,notRead⟩ := apartHere notWritten
        cases writable : vma.vmWrite with
        | true =>
          exact (page.pending written (.inl writable) read).elim (page.writable writable)
            notPrefetched
        | false => exact notRead writable (.inl ⟨i,f,inSub,reads,rfl⟩) read
      · exact .inl write
  · exact page.read readPage written

theorem Apart.write (apart : Apart kernel faults vma base start outer requests)
    (inSub : InSub faults start outer i f) (writes : .write ≤ f.accessType) :
    kernel.page.index base f.faultAddress ∈ serviced.faultsServiced ↔
      ServicedForWrite requests (kernel.page.index base f.faultAddress) := by
  rw [(told _).write (inSub.writes kernel base writes)]
  refine ⟨?_,.inl⟩
  rintro (write | wrong)
  · exact write
  · by_contra notWritten
    obtain ⟨notPrefetched,notRead⟩ := apart i f inSub writes notWritten
    rcases wrong with prefetch | ⟨readOnly,noRead,read⟩
    · exact notPrefetched prefetch
    · refine notRead readOnly (.inr fun j g inSubJ reads same => noRead ?_) read
      exact mem_gathered.1.mpr ⟨j,g,inSubJ,reads,same⟩

end

include fresh attributed told

/-- A pending read that was not serviced. -/
theorem Attributed.cancelAll (inSub : InSub faults start outer i f)
    (writes : .write ≤ f.accessType) (fatal : (after i).isFatal = true)
    (all : (after i).cancelVaMode = .all) :
    .read ∈ f.accessTypeMask ∧
      ¬ServicedForRead requests (kernel.page.index base f.faultAddress) := by
  have page := told (kernel.page.index base f.faultAddress)
  have written := inSub.writes kernel base writes
  have undone := (fatal_iff fresh attributed inSub (write_not_prefetch writes)).mp fatal
  rw [((attributed i f inSub).fatal undone (write_not_prefetch writes)).2,cancelMode,
    if_neg (by rw [not_le]; exact lt_of_lt_of_le (by decide) writes)] at all
  split at all
  next pending =>
    refine ⟨pending.1,fun read => ?_⟩
    have readPage := inSub.reads kernel base pending.1
    rcases page.pending written (.inr readPage) read with recorded | prefetch
    · simp [recorded] at pending
    · exact undone ((page.write written).mpr (.inr (.inl prefetch)))
  · exact absurd all (by decide)

theorem verdicts_iff :
    (∀ i f, InSub faults start outer i f →
        Verdict requests (kernel.page.index base f.faultAddress) f (after i)) ↔
      Apart kernel faults vma base start outer requests := by
  have fatal {i : Nat} {f : Fault} := @fatal_iff kernel faults base f serviced i start outer before
    after fresh attributed
  constructor
  · intro verdicts j g inSub writes page notWritten
    have undone := (fatal inSub (write_not_prefetch writes)).mp
      (((verdicts j g inSub).write writes).mpr notWritten)
    rw [(told _).write (inSub.writes kernel base writes)] at undone
    have unserviced := undone
    simp only [not_or,not_and] at undone
    refine ⟨undone.2.1,fun readOnly beside => ?_⟩
    rcases beside with ⟨i,f,inSubI,reads,same⟩ | noRead
    · have readFatal := (fatal inSubI (by rw [reads]; decide)).mpr (by
        rw [same,(told _).write (inSub.writes kernel base writes)]
        exact unserviced)
      exact same ▸ (((verdicts i f inSubI).read reads).mp readFatal).1
    · refine undone.2.2 readOnly fun readPage => ?_
      obtain ⟨i,f,inSubI,reads,same⟩ := mem_gathered.1.mp readPage
      exact noRead i f inSubI reads same
  · intro apart i f inSub
    refine ⟨fun reads => ?_,fun writes => ?_,fun prefetches => ?_,
      Attributed.cancelAll fresh attributed told inSub⟩
    · rw [fatal inSub (by rw [reads]; decide),apart.read told inSub reads,
        not_or]
    · rw [fatal inSub (write_not_prefetch writes),apart.write told inSub writes]
    · rw [(attributed i f inSub).kept (.inr prefetches),fresh i f inSub]

end Verdict

theorem InSub.accessed (inSub : InSub faults start outer i f)
    (notPrefetch : f.accessType ≠ .prefetch) :
    kernel.page.index base f.faultAddress ∈
      accessedPages (gathered kernel faults base start outer) := by
  by_cases reads : f.accessType = .read
  · exact Finset.mem_union_right _ (inSub.reads kernel base (Fault.read_mem reads))
  · have writes : .write ≤ f.accessType := by
      cases access : f.accessType <;> simp_all [AccessType.le_iff,AccessType.rank]
    exact Finset.mem_union_left _ (inSub.writes kernel base writes)

/-- Dropping prefetched pages from the mask changes nothing for accessed ones. -/
theorem Told.accessed {requests : List Request}
    (told : Told vma masks serviced requests page) :
    Told vma masks
      { serviced with faultsServiced := serviced.faultsServiced ∩ accessedPages masks }
      requests page := by
  have same (member : page ∈ accessedPages masks) : page ∈ serviced.faultsServiced ∩
      accessedPages masks ↔ page ∈ serviced.faultsServiced := by
    simp [member]
  have write (member : page ∈ masks.writeFault) := same (Finset.mem_union_left _ member)
  have read (member : page ∈ masks.readFault) := same (Finset.mem_union_right _ member)
  exact ⟨fun member => (write member).trans (told.write member),
    fun member apart => (read member).trans (told.read member apart),told.pending,told.writable⟩

/-- After a sub-batch without a global error, each entry is marked by how its page was serviced,
just if the requests do not service the page of a failed write for another access. -/
theorem ats_faults_attributed (kernel : Kernel) (faults : List Fault) (vma : Vma)
    (base start outer : Nat) (state : State) (inBatch : outer ≤ faults.length)
    (ordered : start ≤ outer) (masks : state.masks = gathered kernel faults base start outer)
    (fresh : ∀ i f, InSub faults start outer i f → (state.ctx.marks i).isFatal = false)
    (ok : (serviceFaultBatchAtsSubVma kernel faults vma base start outer state).1 = .ok) :
    ∃ requests,(serviceFaultBatchAtsSubVma kernel faults vma base start outer state).2.log =
        state.log ++ requests ∧
      ((∀ i f, InSub faults start outer i f →
          Verdict requests (kernel.page.index base f.faultAddress) f
            ((serviceFaultBatchAtsSubVma kernel faults vma base start outer state).2.ctx.marks i)) ↔
        Apart kernel faults vma base start outer requests) := by
  obtain ⟨requests,logged,told⟩ := @service_told kernel vma base (accessedPages state.masks)
    state.masks state.log
  refine ⟨requests,(subVma_frame ordered inBatch).2.1.trans logged,?_⟩
  have toldHere page := (told page).accessed
  rw [masks] at toldHere
  refine verdicts_iff fresh (fun i f inSub => ?_) toldHere
  simp only [serviceFaultBatchAtsSubVma] at ok ⊢
  rw [← masks]
  split at ok
  next early =>
    -- Every accessed page was serviced, so no entry is marked.
    rw [if_pos early]
    have all := early.resolve_left (not_not.mpr ok)
    refine ⟨fun _ => rfl,fun undone notPrefetch => absurd ?_ undone⟩
    simp only [all]
    rw [masks]
    exact inSub.accessed notPrefetch
  next late =>
    rw [if_neg late]
    have last : i < start + (outer - start) := by have := inSub.2.1; omega
    convert (attributeFaults_marks _ ⟨state.ctx,_,state.blockFaults,_,_⟩ start
      _ (by omega) i).2 f inSub.1 last inSub.2.2

def sampleFault (address : Nat) (access : AccessType) (mask : Finset AccessType)
    (highest : maskHighest mask = some access) : Fault := ⟨1,1,address,access,mask,1,0,highest⟩

def readOnlyVma : Vma := ⟨0,2 ^ 30,true,false,sample_user⟩

/-- The state in which `service_fault_batch_ats_sub` services its first sub-batch. -/
def gatheredState (kernel : Kernel) (faults : List Fault) : State :=
  ⟨.start,gathered kernel faults 0 0 faults.length,0,[],[]⟩

/-- A page that is written and read and one that is only read, without write permission. -/
def readOnlyFaults : List Fault :=
  [sampleFault 0 .write {.read,.write} rfl,sampleFault (2 ^ 16) .read {.read} read_highest]

/-- Its service, for a sub-batch of two entries. -/
def serviceTwo (kernel : Kernel) (vma : Vma) (faults : List Fault) : NvStatus × State :=
  serviceFaultBatchAtsSubVma kernel faults vma 0 0 2 (gatheredState kernel faults)

theorem ats_faults_attributed_read_only : ∃ requests,
      (serviceTwo sampleKernel readOnlyVma readOnlyFaults).2.log = [] ++ requests ∧
      ((∀ i f, InSub readOnlyFaults 0 2 i f →
          Verdict requests (sampleKernel.page.index 0 f.faultAddress) f
            ((serviceTwo sampleKernel readOnlyVma readOnlyFaults).2.ctx.marks i)) ↔
        Apart sampleKernel readOnlyFaults readOnlyVma 0 0 2 requests) :=
  ats_faults_attributed sampleKernel readOnlyFaults readOnlyVma 0 0 2
    (gatheredState sampleKernel readOnlyFaults) (by decide) (by decide) rfl (fun _ _ _ => rfl)
    (by decide +kernel)

/-- Requests of type write are refused, all others succeed. -/
def refusingKernel : Kernel where
  page := sampleKernel.page
  request _ access _ _ := if access = .write then .invalidAddress else .ok
  prefetch _ _ _ := ∅

/-- The first page is prefetched with the fault on the second one. -/
def prefetchingKernel : Kernel where
  page := sampleKernel.page
  request _ _ _ _ := .ok
  prefetch _ _ _ := {0}

/-- A page that is read and, forbidden, written by different entries. -/
def readBesideWrite : List Fault :=
  [sampleFault 0 .write {.read,.write} rfl,sampleFault 0 .read {.read} read_highest]

def writeAndReadElsewhere : List Fault :=
  [sampleFault 0 .write {.write} rfl,sampleFault (2 ^ 16) .read {.read} read_highest]

def prefetchBesideWrite : List Fault :=
  [sampleFault 0 .write {.write} rfl,sampleFault 0 .prefetch {.prefetch} rfl]

/-- A read entry is fatal although its page was serviced for read; a forbidden write is not
fatal because its page was prefetched; a write the kernel refused is not fatal because a
prefetch fault on its page was serviced. -/
theorem ats_faults_misattributed :
    (let done := serviceTwo sampleKernel readOnlyVma readBesideWrite
     done.1 = .ok ∧ done.2.log = [⟨.read,0,⟨0,1⟩,.ok⟩] ∧ (done.2.ctx.marks 1).isFatal = true) ∧
    (let done := serviceTwo prefetchingKernel readOnlyVma writeAndReadElsewhere
     done.1 = .ok ∧ done.2.log = [⟨.read,0,⟨0,2⟩,.ok⟩] ∧ (done.2.ctx.marks 0).isFatal = false) ∧
    (let done := serviceTwo refusingKernel sampleVma prefetchBesideWrite
     done.1 = .ok ∧ done.2.log = [⟨.write,0,⟨0,1⟩,.invalidAddress⟩,⟨.prefetch,0,⟨0,1⟩,.ok⟩] ∧
      (done.2.ctx.marks 0).isFatal = false) := by
  decide +kernel

end GpuExt.AtsFaults
