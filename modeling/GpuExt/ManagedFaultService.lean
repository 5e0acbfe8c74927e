import GpuExt.ManagedFaults

/-! Servicing of a managed block takes the run of faults on the block, marks the forbidden ones
as fatal and hands over the pages on which a permitted access needs a right. -/
namespace GpuExt.ManagedFaults

open Function List
open FaultBatch

variable (permissions : Permissions) (block : Block) (pass : Pass)

section

variable (faults : List Fault) (page : Nat) (fault : Fault) (access : AccessType)

def Permitted : Prop :=
  permissions.check fault.faultAddress access = .ok

def Forbidden : Prop :=
  ¬Permitted permissions fault fault.accessType ∧ fault.accessType ≠ .prefetch

/-- The accesses that wait because of a fault: its own, and a read that was coalesced into a
write or atomic that is not permitted. -/
def Waits : Prop :=
  access = fault.accessType ∨
    access = .read ∧ .read < fault.accessType ∧
      ¬Permitted permissions fault fault.accessType ∧ .read ∈ fault.accessTypeMask

/-- A permitted access waits on the page. -/
def Serviceable : Prop :=
  ∃ fault ∈ faults, block.cpuPageIndex fault.faultAddress = page ∧
    Waits permissions fault access ∧ Permitted permissions fault access

def IsHighest : Prop :=
  Serviceable permissions block faults page access ∧
    ∀ other, Serviceable permissions block faults page other → other ≤ access

/-- The GPU lacks a right that the access needs. -/
def Lacks : Prop :=
  pageIsGpuAuthorized pass.bits page (faultAccessTypeToProt access) = false

end

/-- The page is in the mask of a processor that is to become resident. -/
def InService (service : ServiceContext) (page : Nat) : Prop :=
  ∃ id ∈ service.residentProcessors, page ∈ service.newResidency id

variable {permissions block pass}

variable {page index gpu : Nat} {access : AccessType} {f : Fault}

theorem Lacks.mono {low high : AccessType} (lacking : Lacks pass page low)
    (ordered : faultAccessTypeToProt low ≤ faultAccessTypeToProt high) : Lacks pass page high := by
  simp only [Lacks,pageIsGpuAuthorized] at lacking ⊢
  split
  · rfl
  next bits some =>
    simp only [some,decide_eq_false_iff_not] at lacking ⊢
    have readable := bits.write_read
    have writable := bits.atomic_write
    cases low <;> cases high <;>
      first
      | exact lacking
      | exact absurd ordered (by decide)
      | exact fun member => lacking (readable member)
      | exact fun member => lacking (writable member)
      | exact fun member => lacking (readable (writable member))

theorem serviceable_append {done : List Fault} {fault : Fault} :
    Serviceable permissions block (done ++ [fault]) page access ↔
      Serviceable permissions block done page access ∨
        block.cpuPageIndex fault.faultAddress = page ∧ Waits permissions fault access ∧
          Permitted permissions fault access := by
  simp only [Serviceable,mem_append,mem_singleton]
  constructor
  · rintro ⟨g,member | rfl,found⟩
    · exact .inl ⟨g,member,found⟩
    · exact .inr found
  · rintro (⟨g,member,found⟩ | found)
    · exact ⟨g,.inl member,found⟩
    · exact ⟨fault,.inr rfl,found⟩

/-- The pages gathered are those on which a permitted access lacks a right, each with the
protection of the highest one. -/
structure Gathered (permissions : Permissions) (block : Block) (pass : Pass) (done : List Fault)
    (service : ServiceContext) : Prop where
  inService : ∀ page, InService service page ↔
    ∃ access, Serviceable permissions block done page access ∧ Lacks pass page access
  prot : ∀ page, InService service page → ∃ access,IsHighest permissions block done page access ∧
      faultAccessTypeToProt (service.accessType page) = faultAccessTypeToProt access

variable {done : List Fault} {fault : Fault} {service : ServiceContext}

/-- The access that a fault is serviced for. Before it only reads were permitted on the page. -/
structure Chosen (permissions : Permissions) (block : Block) (done : List Fault) (fault : Fault)
    (access : AccessType) : Prop where
  waits : Waits permissions fault access
  permitted : Permitted permissions fault access
  only : ∀ other, Waits permissions fault other → Permitted permissions fault other →
    other = access
  reads : ∀ other, Serviceable permissions block done (block.cpuPageIndex fault.faultAddress)
    other → other = .read

section

variable (gathered : Gathered permissions block pass done service)
include gathered

/-- The highest access on a page in service lacks a right. -/
theorem Gathered.highest_lacks (inService : InService service page)
    (highest : IsHighest permissions block done page access) : Lacks pass page access := by
  obtain ⟨other,serviceable,lacking⟩ := (gathered.inService page).mp inService
  exact lacking.mono (faultAccessTypeToProt_mono (highest.2 other serviceable))

/-- The fault adds nothing: each of its permitted accesses has its right, or a higher one waits. -/
theorem Gathered.keep
    (nothing : ∀ access, Waits permissions fault access → Permitted permissions fault access →
      ¬Lacks pass (block.cpuPageIndex fault.faultAddress) access ∨
        ∃ above, Serviceable permissions block done (block.cpuPageIndex fault.faultAddress) above ∧
          access ≤ above) : Gathered permissions block pass (done ++ [fault]) service := by
  refine ⟨?_,?_⟩
  · intro page
    rw [gathered.inService page]
    constructor
    · rintro ⟨access,serviceable,lacking⟩
      exact ⟨access,serviceable_append.mpr (.inl serviceable),lacking⟩
    · rintro ⟨access,serviceable,lacking⟩
      rcases serviceable_append.mp serviceable with old | ⟨rfl,waits,permitted⟩
      · exact ⟨access,old,lacking⟩
      · rcases nothing access waits permitted with authorized | ⟨above,old,ordered⟩
        · exact absurd lacking authorized
        · exact ⟨above,old,lacking.mono (faultAccessTypeToProt_mono ordered)⟩
  · intro page inService
    obtain ⟨highest,isHighest,prot⟩ := gathered.prot page inService
    refine ⟨highest,⟨serviceable_append.mpr (.inl isHighest.1),?_⟩,prot⟩
    intro other serviceable
    rcases serviceable_append.mp serviceable with old | ⟨rfl,waits,permitted⟩
    · exact isHighest.2 other old
    · rcases nothing other waits permitted with authorized | ⟨above,old,ordered⟩
      · by_contra higher
        have lacking := gathered.highest_lacks inService isHighest
        exact authorized (lacking.mono (faultAccessTypeToProt_mono (not_le.mp higher).le))
      · exact ordered.trans (isHighest.2 above old)

/-- The page of the fault is handed over. -/
theorem Gathered.hand {next : ServiceContext} (chosen : Chosen permissions block done fault access)
    (lacking : Lacks pass (block.cpuPageIndex fault.faultAddress) access)
    (inService : ∀ page, InService next page ↔
      InService service page ∨ page = block.cpuPageIndex fault.faultAddress)
    (accessType : next.accessType = update service.accessType
      (block.cpuPageIndex fault.faultAddress) access) :
    Gathered permissions block pass (done ++ [fault]) next := by
  have new : Serviceable permissions block (done ++ [fault])
      (block.cpuPageIndex fault.faultAddress) access :=
    serviceable_append.mpr (.inr ⟨rfl,chosen.waits,chosen.permitted⟩)
  refine ⟨?_,?_⟩
  · intro page
    rw [inService page,gathered.inService page]
    constructor
    · rintro (⟨other,serviceable,needed⟩ | rfl)
      · exact ⟨other,serviceable_append.mpr (.inl serviceable),needed⟩
      · exact ⟨access,new,lacking⟩
    · rintro ⟨other,serviceable,needed⟩
      rcases serviceable_append.mp serviceable with old | ⟨same,-⟩
      · exact .inl ⟨other,old,needed⟩
      · exact .inr same.symm
  · intro page handed
    by_cases own : page = block.cpuPageIndex fault.faultAddress
    · subst own
      have found : ∀ other, Serviceable permissions block (done ++ [fault])
          (block.cpuPageIndex fault.faultAddress) other → other = .read ∨ other = access := by
        intro other serviceable
        rcases serviceable_append.mp serviceable with old | ⟨-,waits,permitted⟩
        · exact .inl (chosen.reads other old)
        · exact .inr (chosen.only other waits permitted)
      rw [accessType,update_self]
      by_cases below : access < .read
      · -- A prefetch; the highest access may be a read, which needs the same protection.
        have prefetch : access = .prefetch := by
          cases access <;> first | rfl | exact absurd below (by decide)
        subst prefetch
        by_cases read : Serviceable permissions block (done ++ [fault])
            (block.cpuPageIndex fault.faultAddress) .read
        · refine ⟨.read,⟨read,?_⟩,rfl⟩
          intro other serviceable
          rcases found other serviceable with rfl | rfl
          · exact le_rfl
          · exact below.le
        · refine ⟨.prefetch,⟨new,?_⟩,rfl⟩
          intro other serviceable
          rcases found other serviceable with rfl | rfl
          · exact absurd serviceable read
          · exact le_rfl
      · refine ⟨access,⟨new,?_⟩,rfl⟩
        intro other serviceable
        rcases found other serviceable with rfl | rfl
        · exact not_lt.mp below
        · exact le_rfl
    · obtain ⟨highest,isHighest,prot⟩ := gathered.prot page
        (((inService page).mp handed).resolve_right own)
      refine ⟨highest,⟨serviceable_append.mpr (.inl isHighest.1),?_⟩,?_⟩
      · intro other serviceable
        rcases serviceable_append.mp serviceable with old | ⟨same,-⟩
        · exact isHighest.2 other old
        · exact absurd same.symm own
      · rw [accessType,update_of_ne own]
        exact prot

end

/-- The check chooses the one access of the fault that waits and is permitted, and marks the
fault as fatal if it is forbidden. -/
structure Checked (permissions : Permissions) (fault : Fault) (index : Nat) (ctx : BatchContext)
    (checked : Option AccessType × BatchContext) : Prop where
  chosen : ∀ access, Waits permissions fault access ∧ Permitted permissions fault access ↔
    checked.1 = some access
  fatal : (checked.2.marks index).isFatal = true ↔
    (ctx.marks index).isFatal = true ∨ Forbidden permissions fault
  others : ∀ other, other ≠ index → checked.2.marks other = ctx.marks other

theorem waits_of_permitted (permitted : Permitted permissions fault fault.accessType) :
    Waits permissions fault access ↔ access = fault.accessType :=
  ⟨fun waits => waits.resolve_right fun downgraded => downgraded.2.2.1 permitted,.inl⟩

variable (permissions) in
theorem checkFaultAccessPermissions_spec (numRetries : Nat) (ctx : BatchContext) (index : Nat)
    (fault : Fault) : Checked permissions fault index ctx
      (checkFaultAccessPermissions permissions numRetries ctx index fault) := by
  simp only [checkFaultAccessPermissions]
  split
  next permitted =>
    refine ⟨?_,by simp [Forbidden,Permitted,permitted],fun _ _ => rfl⟩
    intro access
    rw [waits_of_permitted permitted,Option.some.injEq]
    constructor
    · exact fun found => found.1.symm
    · rintro rfl
      exact ⟨rfl,permitted⟩
  next refused =>
    have own : ∀ access, access = fault.accessType → ¬Permitted permissions fault access := by
      rintro access rfl
      exact refused
    have nothing (blocked : .read < fault.accessType → .read ∈ fault.accessTypeMask →
        ¬Permitted permissions fault .read) (access : AccessType) :
        Waits permissions fault access ∧ Permitted permissions fault access ↔
          none = some access := by
      simp only [reduceCtorEq,iff_false,not_and]
      rintro (same | ⟨rfl,above,-,member⟩)
      · exact own access same
      · exact blocked above member
    split
    next prefetch =>
      refine ⟨nothing fun higher => absurd higher (by simp [prefetch]; decide),?_,?_⟩
      · split <;> simp [Forbidden,prefetch]
      · intro other differ
        split <;> simp [differ]
    next notPrefetch =>
      have forbidden : Forbidden permissions fault := ⟨refused,notPrefetch⟩
      split
      next higher =>
        split
        next inMask =>
          split
          next readable =>
            refine ⟨?_,by simp [forbidden],fun other differ => by simp [differ]⟩
            intro access
            rw [Option.some.injEq]
            constructor
            · rintro ⟨same | ⟨rfl,-⟩,allowed⟩
              · exact absurd allowed (own access same)
              · rfl
            · rintro rfl
              exact ⟨.inr ⟨rfl,higher,refused,inMask⟩,readable⟩
          next unreadable =>
            exact ⟨nothing fun _ _ => unreadable,by simp [forbidden],
              fun other differ => by simp [differ]⟩
        next absent =>
          exact ⟨nothing fun _ member => absurd member absent,by simp [forbidden],
            fun other differ => by simp [differ]⟩
      next low =>
        exact ⟨nothing fun above => absurd above low,by simp [forbidden],
          fun other differ => by simp [differ]⟩

theorem inService_setResidency (service : ServiceContext) (residency page other : Nat) :
    InService (setResidency service residency page) other ↔
      InService service other ∨ other = page := by
  simp only [InService,setResidency,Finset.mem_insert]
  constructor
  · rintro ⟨id,member,inside⟩
    by_cases own : id = residency
    · subst own
      rw [update_self] at inside
      split at inside
      next resident =>
        rcases Finset.mem_insert.mp inside with same | old
        · exact .inr same
        · exact .inl ⟨id,resident,old⟩
      next => exact .inr (Finset.mem_singleton.mp inside)
    · rw [update_of_ne own] at inside
      exact .inl ⟨id,member.resolve_left own,inside⟩
  · rintro (⟨id,resident,inside⟩ | rfl)
    · refine ⟨id,.inr resident,?_⟩
      by_cases own : id = residency
      · subst own
        rw [update_self,if_pos resident]
        exact Finset.mem_insert_of_mem inside
      · rwa [update_of_ne own]
    · split <;> simp

theorem inService_handPage (scan : Scan) (page : Nat) (access : AccessType)
    (selected : Nat × Bool) (other : Nat) :
    InService (handPage scan page access selected).service other ↔
      InService scan.service other ∨ other = page := by
  rw [← inService_setResidency scan.service selected.1 page other]
  simp only [handPage]
  split <;> exact Iff.rfl

/-- The pages that the scan has gathered, and the locals that say where they are. -/
structure Paged (permissions : Permissions) (block : Block) (pass : Pass) (done : List Fault)
    (scan : Scan) : Prop where
  gathered : Gathered permissions block pass done scan.service
  bounds : ∀ page, InService scan.service page →
    scan.firstPageIndex ≤ page ∧ page ≤ scan.lastPageIndex
  counted : 0 < scan.pageFaultCount ↔ ∃ page, InService scan.service page

variable {first : Nat} {scan : Scan}

section

variable (paged : Paged permissions block pass done scan)
include paged

theorem Paged.hand (chosen : Chosen permissions block done fault access)
    (lacking : Lacks pass (block.cpuPageIndex fault.faultAddress) access)
    (selected : Nat × Bool) :
    Paged permissions block pass (done ++ [fault])
      (handPage scan (block.cpuPageIndex fault.faultAddress) access selected) := by
  set page := block.cpuPageIndex fault.faultAddress
  have handed := inService_handPage scan page access selected
  refine ⟨paged.gathered.hand chosen lacking handed ?_,?_,?_⟩
  · simp only [handPage]
    split <;> rfl
  · intro other inService
    rcases (handed other).mp inService with old | rfl
    · have bounds := paged.bounds other old
      exact ⟨(min_le_left _ _).trans bounds.1,bounds.2.trans (le_max_left _ _)⟩
    · exact ⟨min_le_right _ _,le_max_right _ _⟩
  · exact ⟨fun _ => ⟨page,(handed page).mpr (.inr rfl)⟩,fun _ => Nat.succ_pos _⟩

theorem Paged.pin (page : Nat) :
    Paged permissions block pass done { scan with service := pinPage scan.service page } :=
  ⟨⟨paged.gathered.inService,paged.gathered.prot⟩,paged.bounds,paged.counted⟩

theorem Paged.serviceAccess (chosen : Chosen permissions block done fault access)
    (unthrottled : pass.hint index ≠ .throttle) :
    Paged permissions block pass (done ++ [fault])
      (serviceAccess block pass index fault access scan) := by
  simp only [ManagedFaults.serviceAccess]
  split
  next authorized =>
    refine ⟨paged.gathered.keep fun other waits permitted => .inl ?_,paged.bounds,paged.counted⟩
    rw [chosen.only other waits permitted]
    simp [Lacks,authorized]
  next lacking =>
    have lacking := eq_false_of_ne_true lacking
    split
    next throttle => exact absurd throttle unthrottled
    next => exact (paged.pin _).hand chosen lacking _
    next => exact paged.hand chosen lacking _

end

theorem serviceAccess_batch (unthrottled : pass.hint index ≠ .throttle) :
    (serviceAccess block pass index fault access scan).batch = scan.batch := by
  simp only [serviceAccess]
  split
  next => rfl
  next =>
    split
    next throttle => exact absurd throttle unthrottled
    next => rfl
    next => rfl

theorem Paged.serviceEntry (paged : Paged permissions block pass done scan)
    (reads : ∀ other, Serviceable permissions block done (block.cpuPageIndex fault.faultAddress)
      other → other = .read) (unthrottled : pass.hint index ≠ .throttle) :
    Paged permissions block pass (done ++ [fault])
      (serviceEntry permissions block pass index fault scan) := by
  have checked := checkFaultAccessPermissions_spec permissions scan.service.numRetries scan.batch
    index fault
  simp only [ManagedFaults.serviceEntry]
  split
  next nothing =>
    refine ⟨paged.gathered.keep fun other waits permitted => ?_,paged.bounds,paged.counted⟩
    have chosen := (checked.chosen other).mp ⟨waits,permitted⟩
    simp [nothing] at chosen
  next access chosen =>
    obtain ⟨waits,permitted⟩ := (checked.chosen access).mpr chosen
    have batched : Paged permissions block pass done { scan with
        batch := (checkFaultAccessPermissions permissions scan.service.numRetries scan.batch index
          fault).2 } := ⟨paged.gathered,paged.bounds,paged.counted⟩
    refine batched.serviceAccess ⟨waits,permitted,fun other waits permitted => ?_,reads⟩ unthrottled
    have same := (checked.chosen other).mp ⟨waits,permitted⟩
    exact (Option.some.inj (chosen.symm.trans same)).symm

theorem serviceEntry_batch (unthrottled : pass.hint index ≠ .throttle) :
    (serviceEntry permissions block pass index fault scan).batch =
      (checkFaultAccessPermissions permissions scan.service.numRetries scan.batch index fault).2 := by
  simp only [serviceEntry]
  split
  next => rfl
  next => exact serviceAccess_batch unthrottled

theorem noteFault_isFatal (numRetries : Nat) (ctx : BatchContext) (index : Nat) (fault : Fault)
    (isDuplicate : Bool) (other : Nat) :
    ((noteFault numRetries ctx index fault isDuplicate).marks other).isFatal =
      (ctx.marks other).isFatal := by
  set cleared := setMark ctx index { ctx.marks index with
    isThrottled := false, isInvalidPrefetch := false } with cleared_eq
  have kept : (cleared.marks other).isFatal = (ctx.marks other).isFatal := by
    simp only [cleared_eq,setMark,update_apply]
    split <;> simp [*]
  have counted : ((if numRetries = 0 then updateBatch cleared fault isDuplicate
      else cleared).marks other).isFatal = (ctx.marks other).isFatal := by
    split <;> exact kept
  simp only [noteFault]
  split
  · by_cases own : other = index
    · subst own
      rwa [faultEntryDuplicateFlags_isFatal]
    · rwa [faultEntryDuplicateFlags_other _ _ _ _ own]
  · exact counted

/-- A fault of the run, at the start of a page of the block. -/
structure OnBlock (block : Block) (gpu : Nat) (fault : Fault) : Prop where
  vaSpace : fault.vaSpace = block.vaSpace
  gpu : fault.gpu = gpu
  start_le : block.start ≤ fault.faultAddress
  aligned : block.pageSize ∣ fault.faultAddress

theorem OnBlock.address_eq {g : Fault} (onF : OnBlock block gpu f) (onG : OnBlock block gpu g)
    (same : block.cpuPageIndex f.faultAddress = block.cpuPageIndex g.faultAddress) :
    f.faultAddress = g.faultAddress := by
  have offsets := (Nat.div_left_inj (Nat.dvd_sub onF.aligned block.start_aligned)
    (Nat.dvd_sub onG.aligned block.start_aligned)).mp same
  have startF := onF.start_le
  have startG := onG.start_le
  omega

theorem Permitted.lower {g : Fault} {low high : AccessType}
    (permitted : Permitted permissions f high) (same : g.faultAddress = f.faultAddress)
    (ordered : low ≤ high) : Permitted permissions g low := by
  rw [Permitted,same]
  exact permissions.lower f.faultAddress ordered permitted

/-- On a page, what comes before a forbidden fault is forbidden. -/
theorem Forbidden.above {g : Fault} (forbidden : Forbidden permissions f)
    (same : f.faultAddress = g.faultAddress) (ordered : f.accessType ≤ g.accessType) :
    Forbidden permissions g := by
  refine ⟨fun permitted => forbidden.1 (permitted.lower same ordered),fun prefetch => forbidden.2 ?_⟩
  rw [prefetch] at ordered
  generalize f.accessType = access at ordered ⊢
  cases access <;> first | rfl | exact absurd ordered (by decide)

/-- Only a read is serviced for forbidden faults. -/
theorem serviceable_forbidden (forbidden : ∀ f ∈ done,
    block.cpuPageIndex f.faultAddress = page → Forbidden permissions f)
    (serviceable : Serviceable permissions block done page access) : access = .read := by
  obtain ⟨f,member,same,waits,permitted⟩ := serviceable
  rcases waits with rfl | ⟨rfl,-⟩
  · exact absurd permitted (forbidden f member same).1
  · rfl

structure Scanned (permissions : Permissions) (block : Block) (pass : Pass) (first : Nat)
    (done : List Fault) (scan : Scan) : Prop where
  paged : Paged permissions block pass done scan
  fatal : ∀ j f, done[j]? = some f →
    ((scan.batch.marks (first + j)).isFatal = true ↔ Forbidden permissions f)

/-- The previous fault of a sorted run is the nearest in address and access type. -/
theorem Sorted.previous (sorted : Sorted (done ++ [fault]))
    (onBlock : ∀ f ∈ done ++ [fault], OnBlock block gpu f) (member : f ∈ done) :
    ∃ previous, done.getLast? = some previous ∧ f.faultAddress ≤ previous.faultAddress ∧
      previous.faultAddress ≤ fault.faultAddress ∧
      (f.faultAddress = previous.faultAddress → previous.accessType ≤ f.accessType) ∧
      (previous.faultAddress = fault.faultAddress →
        fault.accessType ≤ previous.accessType) := by
  obtain ⟨j,bound,rfl⟩ := getElem_of_mem member
  have nonempty : done ≠ [] := ne_nil_of_length_pos (by omega)
  refine ⟨done.getLast nonempty,getLast?_eq_getLast_of_ne_nil nonempty,?_⟩
  have onJ := onBlock _ (mem_append_left _ member)
  have onPrevious := onBlock _ (mem_append_left _ (getLast_mem nonempty))
  have onFault := onBlock fault (by simp)
  have atJ : (done ++ [fault])[j]? = some done[j] := by
    rw [getElem?_append_left bound,getElem?_eq_getElem bound]
  have atPrevious : (done ++ [fault])[done.length - 1]? = some (done.getLast nonempty) := by
    rw [getElem?_append_left (by omega),getLast_eq_getElem,getElem?_eq_getElem]
  have atFault : (done ++ [fault])[done.length]? = some fault := by simp
  have before : j ≤ done.length - 1 := by omega
  have last : done.length - 1 ≤ done.length := by omega
  have spaceJ := onJ.vaSpace.trans onPrevious.vaSpace.symm
  have gpuJ := onJ.gpu.trans onPrevious.gpu.symm
  have space := onPrevious.vaSpace.trans onFault.vaSpace.symm
  have gpu := onPrevious.gpu.trans onFault.gpu.symm
  exact ⟨sorted.address_le before atJ atPrevious spaceJ gpuJ,
    sorted.address_le last atPrevious atFault space gpu,
    sorted.access_le before atJ atPrevious spaceJ gpuJ,
    sorted.access_le last atPrevious atFault space gpu⟩

theorem duplicate_previous (duplicate : checkFaultEntryDuplicate fault done.getLast? = true) :
    ∃ previous, done.getLast? = some previous ∧
      fault.faultAddress = previous.faultAddress := by
  cases last : done.getLast? with
  | none => simp [last,checkFaultEntryDuplicate] at duplicate
  | some previous =>
    simp only [last,checkFaultEntryDuplicate,decide_eq_true_eq] at duplicate
    exact ⟨previous,rfl,duplicate.2⟩

/-- The mark of the previous fault tells whether it was forbidden. -/
theorem Scanned.previous_fatal (scanned : Scanned permissions block pass first done scan)
    {previous : Fault} (last : done.getLast? = some previous) :
    (scan.batch.marks (first + done.length - 1)).isFatal = true ↔
      Forbidden permissions previous := by
  have found : done[done.length - 1]? = some previous := by
    rw [← getLast?_eq_getElem?]
    exact last
  have bound := (List.getElem?_eq_some_iff.mp found).1
  have index : first + done.length - 1 = first + (done.length - 1) := by omega
  rw [index]
  exact scanned.fatal _ previous found

/-- The faults marked as fatal are the forbidden ones. -/
def Marked (permissions : Permissions) (first : Nat) (faults : List Fault) (batch : BatchContext) :
    Prop :=
  ∀ j f, faults[j]? = some f →
    ((batch.marks (first + j)).isFatal = true ↔ Forbidden permissions f)

theorem Marked.append {batch : BatchContext} (old : Marked permissions first done batch)
    (new : (batch.marks (first + done.length)).isFatal = true ↔ Forbidden permissions fault) :
    Marked permissions first (done ++ [fault]) batch := by
  intro j f found
  rcases Nat.lt_trichotomy j done.length with before | rfl | after
  · rw [getElem?_append_left before] at found
    exact old j f found
  · have same : fault = f := by simpa using found
    exact same ▸ new
  · rw [getElem?_eq_none (by simp; omega)] at found
    cases found

/-- A waived fault is covered by the previous one. -/
theorem Paged.waive (paged : Paged permissions block pass done scan)
    (sorted : Sorted (done ++ [fault])) (onBlock : ∀ f ∈ done ++ [fault], OnBlock block gpu f)
    {previous : Fault} (last : done.getLast? = some previous)
    (same : fault.faultAddress = previous.faultAddress) (benign : ¬Forbidden permissions previous) :
    Paged permissions block pass (done ++ [fault]) scan ∧ ¬Forbidden permissions fault := by
  have member : previous ∈ done := mem_of_getLast? last
  obtain ⟨nearest,found,-,-,-,lower⟩ := Sorted.previous sorted onBlock member
  obtain rfl : nearest = previous := Option.some.inj (found.symm.trans last)
  have lower := lower same.symm
  refine ⟨⟨paged.gathered.keep ?_,paged.bounds,paged.counted⟩,fun forbidden =>
    benign (forbidden.above same lower)⟩
  intro access waits permitted
  have own : access = fault.accessType := by
    refine waits.resolve_right fun ⟨_,higher,refused,_⟩ => benign ⟨fun allowed => ?_,fun prefetch => ?_⟩
    · exact refused (allowed.lower same lower)
    · rw [prefetch] at lower
      exact absurd (higher.trans_le lower) (by decide)
  subst own
  refine .inr ⟨nearest.accessType,⟨nearest,member,by rw [same],.inl rfl,?_⟩,lower⟩
  by_contra refused
  -- Then the previous fault is a prefetch, and so is this one.
  have prefetch : nearest.accessType = .prefetch := by
    by_contra other
    exact benign ⟨refused,other⟩
  rw [prefetch] at lower refused
  exact refused (permitted.lower same.symm (by
    generalize fault.accessType = access
    cases access <;> decide))

theorem Scanned.scanEntry (scanned : Scanned permissions block pass first done scan)
    (sorted : Sorted (done ++ [fault])) (onBlock : ∀ f ∈ done ++ [fault], OnBlock block gpu f)
    (unthrottled : ∀ index, pass.hint index ≠ .throttle)
    (early : (scan.batch.marks (first + done.length)).isFatal = true →
      Forbidden permissions fault) :
    Scanned permissions block pass first (done ++ [fault])
      (scanEntry permissions block pass (first + done.length) fault done.getLast? scan) := by
  have kept := noteFault_isFatal scan.service.numRetries scan.batch (first + done.length) fault
    (checkFaultEntryDuplicate fault done.getLast?)
  set noted : Scan := { scan with
    batch := noteFault scan.service.numRetries scan.batch (first + done.length) fault
      (checkFaultEntryDuplicate fault done.getLast?) } with noted_eq
  have notedScanned : Scanned permissions block pass first done noted :=
    ⟨⟨scanned.paged.gathered,scanned.paged.bounds,scanned.paged.counted⟩,by
      intro j f found
      rw [← scanned.fatal j f found]
      exact iff_of_eq (congrArg (· = true) (kept _))⟩
  have early : (noted.batch.marks (first + done.length)).isFatal = true →
      Forbidden permissions fault := fun fatal => early ((kept _).symm.trans fatal)
  simp only [ManagedFaults.scanEntry]
  split
  next waived =>
    obtain ⟨previous,last,same⟩ := duplicate_previous waived.1
    have benign : ¬Forbidden permissions previous := by
      rw [← notedScanned.previous_fatal last,waived.2]
      exact Bool.false_ne_true
    obtain ⟨paged,allowed⟩ := notedScanned.paged.waive sorted onBlock last same benign
    exact ⟨paged,Marked.append notedScanned.fatal ⟨early,fun forbidden => absurd forbidden allowed⟩⟩
  next examined =>
    have onFault := onBlock fault (by simp)
    have forbidden : ∀ f ∈ done, block.cpuPageIndex f.faultAddress =
        block.cpuPageIndex fault.faultAddress → Forbidden permissions f := by
      intro f member samePage
      have onF := onBlock f (mem_append_left _ member)
      have same := onF.address_eq onFault samePage
      obtain ⟨previous,last,below,above,higher,-⟩ := Sorted.previous sorted onBlock member
      have onPrevious := onBlock previous (mem_append_left _ (mem_of_getLast? last))
      have equal : f.faultAddress = previous.faultAddress := by omega
      have duplicate : checkFaultEntryDuplicate fault done.getLast? = true := by
        simp only [last,checkFaultEntryDuplicate,decide_eq_true_eq]
        exact ⟨onFault.vaSpace.trans onPrevious.vaSpace.symm,by omega⟩
      have fatal : (noted.batch.marks (first + done.length - 1)).isFatal = true := by
        by_contra benign
        exact examined ⟨duplicate,eq_false_of_ne_true benign⟩
      exact ((notedScanned.previous_fatal last).mp fatal).above equal.symm (higher equal)
    have checked := checkFaultAccessPermissions_spec permissions noted.service.numRetries
      noted.batch (first + done.length) fault
    refine ⟨notedScanned.paged.serviceEntry (fun other => serviceable_forbidden forbidden)
      (unthrottled _),?_⟩
    rw [serviceEntry_batch (unthrottled _)]
    refine Marked.append (fun j f found => ?_) ?_
    · have bound := (List.getElem?_eq_some_iff.mp found).1
      rw [checked.others _ (by omega)]
      exact notedScanned.fatal j f found
    · rw [checked.fatal]
      exact ⟨fun fatal => fatal.elim early id,.inr⟩

theorem scanEntry_marks (index : Nat) (fault : Fault) (previous : Option Fault) (scan : Scan)
    (unthrottled : ∀ index, pass.hint index ≠ .throttle) {other : Nat} (differ : other ≠ index) :
    ((scanEntry permissions block pass index fault previous scan).batch.marks other).isFatal =
      (scan.batch.marks other).isFatal := by
  simp only [scanEntry]
  split
  · exact noteFault_isFatal _ _ _ _ _ _
  · rw [serviceEntry_batch (unthrottled _),
      (checkFaultAccessPermissions_spec permissions _ _ index fault).others other differ]
    exact noteFault_isFatal _ _ _ _ _ _

theorem scanLoop_spec {stop : Nat} (unthrottled : ∀ index, pass.hint index ≠ .throttle)
    (faults : List Fault) : ∀ {done : List Fault} {scan : Scan},
    Scanned permissions block pass first done scan →
    Sorted (done ++ faults.takeWhile (inRun block gpu stop)) →
    (∀ f ∈ done ++ faults.takeWhile (inRun block gpu stop), OnBlock block gpu f) →
    (∀ j f, (faults.takeWhile (inRun block gpu stop))[j]? = some f →
      (scan.batch.marks (first + done.length + j)).isFatal = true → Forbidden permissions f) →
    ∀ {index : Nat} {final : Scan}, scanLoop permissions block pass gpu stop faults
      (first + done.length) done.getLast? scan = (index,final) →
      index = first + (done ++ faults.takeWhile (inRun block gpu stop)).length ∧
      Scanned permissions block pass first (done ++ faults.takeWhile (inRun block gpu stop))
        final := by
  induction faults with
  | nil =>
    intro done scan scanned _ _ _ index final result
    cases result
    simpa using scanned
  | cons fault faults ih =>
    intro done scan scanned sorted onBlock early index final result
    simp only [scanLoop] at result
    by_cases inside : inRun block gpu stop fault = true
    · rw [if_pos inside] at result
      have grown : done ++ (fault :: faults).takeWhile (inRun block gpu stop) =
          done ++ [fault] ++ faults.takeWhile (inRun block gpu stop) := by
        simp [takeWhile_cons_of_pos inside]
      rw [grown] at sorted onBlock ⊢
      have prefixSorted : Sorted (done ++ [fault]) := (pairwise_append.mp sorted).1
      have prefixOnBlock : ∀ f ∈ done ++ [fault], OnBlock block gpu f := fun f member =>
        onBlock f (mem_append_left _ member)
      rw [takeWhile_cons_of_pos inside] at early
      have next := scanned.scanEntry prefixSorted prefixOnBlock unthrottled (early 0 fault rfl)
      refine ih next sorted onBlock ?_ (by simpa [Nat.add_assoc] using result)
      intro j f found fatal
      rw [scanEntry_marks _ _ _ _ unthrottled (by simp; omega)] at fatal
      refine early (j + 1) f (by simpa using found) ?_
      have position : first + done.length + (j + 1) = first + (done ++ [fault]).length + j := by
        simp
        omega
      rw [position]
      exact fatal
    · rw [if_neg inside] at result
      cases result
      simpa [takeWhile_cons_of_neg inside] using scanned

/-- The run of faults that begins with the first one: as long as VA space and GPU stay the same
and the address does not pass the end. -/
def run (block : Block) (faults : List Fault) (first : Nat) (fault : Fault) : List Fault :=
  (faults.drop first).takeWhile (inRun block fault.gpu (block.runEnd fault.faultAddress))

/-- The page is handed to `uvm_va_block_service_locked`. -/
def Handed (handed : Option ServiceContext) (page : Nat) : Prop :=
  ∃ service, handed = some service ∧ service.first ≤ page ∧ page < service.outer ∧
    InService service page

/-- A pass hands over the pages on which a permitted access needs a right that the GPU lacks,
with the protection of the highest permitted access. -/
structure HandsOver (permissions : Permissions) (block : Block) (run : List Fault) (pass : Pass)
    (handed : Option ServiceContext) : Prop where
  pages : ∀ page, Handed handed page ↔
    ∃ access, Serviceable permissions block run page access ∧ Lacks pass page access
  prot : ∀ service, handed = some service → ∀ page, InService service page → ∃ access,
    IsHighest permissions block run page access ∧
      faultAccessTypeToProt (service.accessType page) = faultAccessTypeToProt access

variable (first) in
theorem scanned_start (batch : BatchContext) (service : ServiceContext) :
    Scanned permissions block pass first [] (startScan block batch service) := by
  have nothing : ∀ page, ¬InService (startScan block batch service).service page := by
    rintro page ⟨id,member,-⟩
    exact absurd member (Finset.notMem_empty id)
  refine ⟨⟨⟨fun page => ?_,fun page inService => absurd inService (nothing page)⟩,
    fun page inService => absurd inService (nothing page),?_⟩,fun j f found => by simp at found⟩
  · refine iff_of_false (nothing page) ?_
    rintro ⟨_,⟨f,member,-⟩,-⟩
    exact absurd member not_mem_nil
  · refine iff_of_false (Nat.lt_irrefl 0) ?_
    rintro ⟨page,inService⟩
    exact nothing page inService

theorem Paged.handsOver (paged : Paged permissions block pass done scan) :
    HandsOver permissions block done pass (servicePages pass scan).2.1 := by
  simp only [servicePages]
  split
  next some =>
    refine ⟨fun page => ?_,?_⟩
    · rw [← paged.gathered.inService page]
      constructor
      · rintro ⟨_,⟨⟩,-,-,inService⟩
        exact inService
      · intro inService
        have bounds := paged.bounds page inService
        exact ⟨_,rfl,bounds.1,Nat.lt_succ_of_le bounds.2,inService⟩
    · rintro _ ⟨⟩ page inService
      exact paged.gathered.prot page inService
  next none =>
    refine ⟨fun page => ?_,fun _ impossible => by cases impossible⟩
    rw [← paged.gathered.inService page]
    refine iff_of_false ?_ fun inService => none (paged.counted.mpr ⟨page,inService⟩)
    rintro ⟨_,impossible,-⟩
    cases impossible

/-- What the passes over a run have done. -/
def Serviced (permissions : Permissions) (block : Block) (first : Nat) (run : List Fault)
    (passed : Passed) (log : List (Pass × Option ServiceContext)) : Prop :=
  passed.blockFaults = run.length ∧ Marked permissions first run passed.batch ∧
    ∀ entry ∈ log, HandsOver permissions block run entry.1 entry.2

section Batch

variable {faults : List Fault} (sorted : Sorted faults) (found : faults[first]? = some fault)
  (inSpace : fault.vaSpace = block.vaSpace) (start : block.start ≤ fault.faultAddress)
  (aligned : ∀ f ∈ faults, block.pageSize ∣ f.faultAddress)

include sorted in
theorem run_sorted : Sorted (run block faults first fault) :=
  sorted.sublist ((takeWhile_sublist _).trans (drop_sublist _ _))

include sorted found inSpace start aligned in
theorem run_onBlock : ∀ f ∈ run block faults first fault, OnBlock block fault.gpu f := by
  intro f member
  have inside := all_eq_true.mp all_takeWhile f member
  simp only [inRun,decide_eq_true_eq] at inside
  have dropped := (takeWhile_sublist _).subset member
  obtain ⟨j,position⟩ := mem_iff_getElem?.mp dropped
  rw [getElem?_drop] at position
  have ordered := sorted.address_le (Nat.le_add_right first j) found position
    (inSpace.trans inside.1.symm) inside.2.1.symm
  exact ⟨inside.1,inside.2.1,start.trans ordered,aligned f (mem_of_getElem? position)⟩

include sorted found inSpace start aligned in
theorem serviceFaultBatchBlockLocked_spec (unthrottled : ∀ index, pass.hint index ≠ .throttle)
    {batch : BatchContext} (service : ServiceContext)
    (early : ∀ j f, (run block faults first fault)[j]? = some f →
      (batch.marks (first + j)).isFatal = true → Forbidden permissions f) {passed : Passed}
    (result : serviceFaultBatchBlockLocked permissions block pass faults first fault batch service =
      passed) : Serviced permissions block first (run block faults first fault) passed
        [(pass,passed.handed)] := by
  subst result
  obtain ⟨index,scanned⟩ := scanLoop_spec unthrottled _
    (scanned_start first batch service) (run_sorted sorted)
    (run_onBlock sorted found inSpace start aligned) early rfl
  exact ⟨Nat.sub_eq_of_eq_add' index,scanned.fatal,forall_mem_singleton.mpr scanned.paged.handsOver⟩

include sorted found inSpace start aligned in
theorem retryLocked_spec (next : List Pass) : ∀ {pass : Pass} {batch : BatchContext}
    (service : ServiceContext), (∀ p ∈ pass :: next, ∀ index, p.hint index ≠ .throttle) →
    (∀ j f, (run block faults first fault)[j]? = some f →
      (batch.marks (first + j)).isFatal = true → Forbidden permissions f) →
    ∀ {passed : Passed} {log : List (Pass × Option ServiceContext)},
      retryLocked permissions block faults first fault pass next batch service = (passed,log) →
      Serviced permissions block first (run block faults first fault) passed log := by
  induction next with
  | nil =>
    intro pass batch service unthrottled early passed log result
    cases result
    exact serviceFaultBatchBlockLocked_spec sorted found inSpace start aligned
      (unthrottled pass (by simp)) service early rfl
  | cons next later ih =>
    intro pass batch service unthrottled early passed log result
    have serviced := serviceFaultBatchBlockLocked_spec sorted found inSpace start aligned
      (unthrottled pass (by simp)) service early rfl
    simp only [retryLocked] at result
    split at result
    next =>
      -- The marks of this pass are what the next one finds.
      simp only [Prod.mk.injEq] at result
      obtain ⟨rfl,rfl⟩ := result
      have later := ih (serviceFaultBatchBlockLocked permissions block pass faults first fault batch
        service).service (fun p member => unthrottled p (mem_cons_of_mem _ member))
        (fun j f found => (serviced.2.1 j f found).mp) rfl
      exact ⟨later.1,later.2.1,forall_mem_cons.mpr ⟨serviced.2.2 _ (mem_singleton_self _),later.2.2⟩⟩
    next =>
      cases result
      exact serviced

end Batch

theorem managed_batch_serviced {faults : List Fault} {next : List Pass}
    {trackerStatus status : NvStatus} {batch : BatchContext} {service : ServiceContext}
    (sorted : Sorted faults) (found : faults[first]? = some fault)
    (inSpace : fault.vaSpace = block.vaSpace) (start : block.start ≤ fault.faultAddress)
    (aligned : ∀ f ∈ faults, block.pageSize ∣ f.faultAddress)
    (fresh : ∀ j f, (run block faults first fault)[j]? = some f →
      (batch.marks (first + j)).isFatal = false)
    (unthrottled : ∀ p ∈ pass :: next, ∀ index, p.hint index ≠ .throttle)
    {passed : Passed} {log : List (Pass × Option ServiceContext)}
    (result : serviceFaultBatchBlock permissions block pass faults first fault next trackerStatus
      batch service = (status,passed,log)) :
    passed.blockFaults = (run block faults first fault).length ∧
      (∀ j f, (run block faults first fault)[j]? = some f →
        ((passed.batch.marks (first + j)).isFatal = true ↔ Forbidden permissions f)) ∧
      ∀ entry ∈ log,HandsOver permissions block (run block faults first fault) entry.1 entry.2 := by
  simp only [serviceFaultBatchBlock,Prod.mk.injEq] at result
  refine retryLocked_spec sorted found inSpace start aligned next _ unthrottled ?_ result.2
  intro j f position fatal
  exact absurd ((fresh j f position).symm.trans fatal) (by decide)

section Sample

/-- A read-only range of three pages. -/
def sampleBlock : Block where
  vaSpace := 1
  pageSize := 4096
  pagesPerBlock := 512
  start := 8192
  stop := 20479
  isHmm := false
  policyEnd := fun _ => 0
  pageSize_pos := by decide
  start_aligned := by decide
  size := by decide
  policyEnd_le := fun _ => Nat.zero_le _

def samplePermissions : Permissions :=
  logicalPermissions ⟨false,true,fun _ => .readOnly,fun _ => true,true⟩

/-- A write with a coalesced read and a prefetch on one page, a read on the next, and a fault
behind the block. -/
def sampleFaults : List Fault :=
  [⟨1,0,8192,.write,{.read,.write},2,0,by decide⟩,⟨1,0,8192,.prefetch,{.prefetch},1,1,by decide⟩,
    ⟨1,0,12288,.read,{.read},1,0,by decide⟩,⟨1,0,20480,.read,{.read},1,0,by decide⟩]

/-- The second page is mapped already. -/
def samplePass (status : NvStatus) : Pass where
  bits := some ⟨{1},∅,∅,by decide,by decide⟩
  hint := fun index => if index = 0 then .pin else .none
  selectResidency := fun _ _ => (0,false)
  serviceLocked := fun service => (status,service)
  setCancel := .ok

def sampleService : ServiceContext :=
  ⟨3,∅,fun _ => {2},0,∅,0,∅,fun _ => .read,0,0⟩

def sampleResult : NvStatus × Passed × List (Pass × Option ServiceContext) :=
  serviceFaultBatchBlock samplePermissions sampleBlock (samplePass .errMoreProcessingRequired)
    sampleFaults 0 ⟨1,0,8192,.write,{.read,.write},2,0,by decide⟩ [samplePass .ok] .ok .start
    sampleService

theorem managed_batch_serviced_read_only :
    sampleResult.1 = .ok ∧ sampleResult.2.1.blockFaults = 3 ∧ sampleResult.2.2.length = 2 ∧
      (sampleResult.2.1.batch.marks 0).isFatal = true ∧
      (∀ entry ∈ sampleResult.2.2, HandsOver samplePermissions sampleBlock
        (run sampleBlock sampleFaults 0 ⟨1,0,8192,.write,{.read,.write},2,0,by decide⟩)
        entry.1 entry.2) := by
  refine ⟨by decide +kernel,by decide +kernel,by decide +kernel,by decide +kernel,?_⟩
  refine (managed_batch_serviced (by decide) rfl rfl (by decide) (by decide) ?_ ?_
    (rfl : sampleResult = _)).2.2
  · intro j f _
    rfl
  · intro p member index
    simp only [mem_cons,not_mem_nil,or_false] at member
    rcases member with rfl | rfl
    · simp only [samplePass]
      split <;> decide
    · simp only [samplePass]
      split <;> decide

end Sample

end GpuExt.ManagedFaults
