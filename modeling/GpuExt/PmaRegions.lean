import GpuExt.Regmap

/-! Registration of regions and of blacklisted pages with the physical memory allocator. It has a
table of fixed size for the pages and does not look whether they fit; the heap that the pages come
from does. -/
namespace GpuExt.Regmap

open Function List

/-- A memory access outside of the objects that the code owns. -/
inductive Fault where
  | pointer
  | map
  | regionTable
  | blacklistTable
  deriving DecidableEq

inductive Pointer (α : Type) where
  | null
  | freed
  | valid (target : α)

def Pointer.read {α : Type} : Pointer α → Except Fault α
  | .valid target => .ok target
  | _ => .error .pointer

/-- What holds of the result, and which faults can occur. -/
def Ensures {α : Type} (P : α → Prop) (allowed : Fault → Prop) : Except Fault α → Prop
  | .ok a => P a
  | .error fault => allowed fault

section Ensures

variable {α β : Type} {P : α → Prop} {Q : β → Prop} {allowed : Fault → Prop}

theorem Ensures.bind {result : Except Fault α} {next : α → Except Fault β}
    (first : Ensures P allowed result) (rest : ∀ a, P a → Ensures Q allowed (next a)) :
    Ensures Q allowed (result >>= next) := by
  cases result with
  | error => exact first
  | ok a => exact rest a first

theorem Ensures.foldlM {f : α → β → Except Fault α} (l : List β) {a : α} (start : P a)
    (each : ∀ a, ∀ b ∈ l, P a → Ensures P allowed (f a b)) : Ensures P allowed (l.foldlM f a) := by
  induction l generalizing a with
  | nil => exact start
  | cons b l ih =>
    exact (each a b (by simp) start).bind fun a held =>
      ih held fun a b member => each a b (by simp [member])

theorem Ensures.mono {P' : α → Prop} {allowed' : Fault → Prop} {result : Except Fault α}
    (ensures : Ensures P allowed result) (weaker : ∀ a,P a → P' a)
    (more : ∀ fault,allowed fault → allowed' fault) : Ensures P' allowed' result := by
  cases result with
  | error => exact more _ ensures
  | ok => exact weaker _ ensures

theorem Ensures.any (result : Except Fault α) : Ensures (fun _ => True) (fun _ => True) result := by
  cases result <;> trivial

end Ensures

structure RegionDescriptor where
  base : NvU64
  limit : NvU64
  bProtected : Bool

structure BlacklistAddress where
  physOffset : NvU64
  bIsDynamic : Bool

structure BlacklistChunk extends BlacklistAddress where
  bIsValid : Bool

def regionSize : Nat := 32
def maxBlacklistEntries : Nat := 512
def granularity : NvU64 := 0x10000

structure Regions where
  regSize : NvU32
  pRegions : Nat → Pointer PmaRegmap
  pRegDescriptors : Nat → Pointer RegionDescriptor
  pmaStats : Stats
  pBlacklistChunks : Pointer (Nat → BlacklistChunk)
  blacklistCount : NvU32

def Regions.init : Regions where
  regSize := 0
  pRegions _ := .null
  pRegDescriptors _ := .null
  pmaStats := ⟨0,0,0,0,0,0⟩
  pBlacklistChunks := .null
  blacklistCount := 0

/-- Region 0 is the answer, after an assertion, if no region has the address. -/
def findRegionLoop (s : Regions) (address : NvU64) : List Nat → Except Fault Nat
  | [] => .ok 0
  | i :: rest => do
    let desc ← (s.pRegDescriptors i).read
    if desc.base ≤ address ∧ address ≤ desc.limit then .ok i else findRegionLoop s address rest

/-- Which memory allocations of a registration succeed. -/
structure Allocations where
  newMap : Bool
  newPlane : MapIdx → Bool
  newDescriptor : Bool
  newTable : Bool

structure Registration extends Allocations where
  id : NvU32
  bAsyncEccScrub : Bool
  pRegionDesc : Option RegionDescriptor
  blacklistCount : NvU32
  pBlacklistPageBase : Option (Nat → BlacklistAddress)

section

variable (s : Regions) (physAddr : NvU64) (call : Registration) (desc : RegionDescriptor)

def findRegionID (address : NvU64) : Except Fault Nat :=
  findRegionLoop s address (range s.regSize.toNat)

/-- The loop over the frames of a block. -/
def changeFrames (k : MapIdx) (baseFrame : NvU64) (map : PmaRegmap) (stats : Stats)
    (numFrames : NvU64) : Except Fault (PmaRegmap × Stats) :=
  (range numFrames.toNat).foldlM (fun (map,stats) i =>
    let frame := baseFrame + BitVec.ofNat 64 i
    if InBounds map frame 1 then
      .ok (pmaRegmapChangeStateAttrib (1#32 <<< k.bit) (1#32 <<< k.bit) map stats frame)
    else .error .map) (map,stats)

/-- `pmaSetBlockStateAttrib` with one attribute as the state and as the write mask. -/
def pmaSetBlockStateAttrib (base size : NvU64) (k : MapIdx) : Except Fault Regions := do
  let regId ← findRegionID s base
  let map ← (s.pRegions regId).read
  let desc ← (s.pRegDescriptors regId).read
  if base + size - 1 ≤ desc.limit then
    let (map,pmaStats) ← changeFrames k ((base - desc.base) >>> 16) map s.pmaStats (size >>> 16)
    .ok { s with pRegions := update s.pRegions regId (.valid map), pmaStats }
  else .ok s

/-- One round of the loop over the pages to register, at index `i` of the table. -/
def blacklistPage (table : Nat → BlacklistChunk) (i : Nat) (page : BlacklistAddress) :
    Except Fault (Regions × (Nat → BlacklistChunk)) :=
  if i < maxBlacklistEntries then do
    let s ← pmaSetBlockStateAttrib s (page.physOffset &&& ~~~(granularity - 1)) granularity .blacklist
    .ok (s,update table i ⟨page,true⟩)
  else .error .blacklistTable

/-- The table, allocated at its first use if `newTable`. -/
def Regions.blacklistTable (newTable : Bool) : Pointer (Nat → BlacklistChunk) :=
  match s.pBlacklistChunks with
  | .null => if newTable then .valid fun _ => ⟨⟨0,false⟩,false⟩ else .null
  | table => table

def pmaRegisterBlacklistInfo (pBlacklistPageBase : Option (Nat → BlacklistAddress))
    (blacklistCount : NvU32) (newTable : Bool) : Except Fault (NvStatus × Regions) :=
  match pBlacklistPageBase with
  | none => .ok (.ok,s)
  | some pages =>
    if blacklistCount = 0 then .ok (.ok,s)
    else
      match s.blacklistTable newTable with
      | .null => .ok (.noMemory,{ s with blacklistCount := 0 })
      | table => do
        let table ← table.read
        let next := s.blacklistCount
        -- The end of the loop is a 32-bit sum.
        let (s,table) ← (range ((next + blacklistCount).toNat - next.toNat)).foldlM
          (fun (s,table) k => blacklistPage s table (next.toNat + k) (pages k)) (s,table)
        .ok (.ok,{ s with
          pBlacklistChunks := .valid table
          blacklistCount := s.blacklistCount + blacklistCount })

def pmaIsBlacklistingAddrUnique : Except Fault Bool :=
  if s.blacklistCount = 0 then .ok true
  else do
    let table ← s.pBlacklistChunks.read
    .ok ((range s.blacklistCount.toNat).all fun i => (table i).physOffset ≠ physAddr)

def pmaAddToBlacklistTracking (newTable : Bool) : Except Fault (NvStatus × Regions) := do
  if ← pmaIsBlacklistingAddrUnique s physAddr then
    pmaRegisterBlacklistInfo s (some fun _ => ⟨physAddr,true⟩) 1 newTable
  else .ok (.ok,s)

def startScrub : Except Fault Regions :=
  if call.bAsyncEccScrub then
    pmaSetBlockStateAttrib s desc.base (desc.limit - desc.base + 1) .scrubbing
  else .ok s

/-- From the registration in the tables on. -/
def registerMap (map : PmaRegmap) : Except Fault (NvStatus × Regions) := do
  let id := call.id.toNat
  if regionSize ≤ id then .error .regionTable
  else
    let s := { s with
      regSize := s.regSize + 1
      pRegions := update s.pRegions id (.valid map)
      pRegDescriptors := update s.pRegDescriptors id (if call.newDescriptor then .valid desc else .null) }
    let s ← startScrub s call desc
    let (status,s) ← pmaRegisterBlacklistInfo s call.pBlacklistPageBase call.blacklistCount call.newTable
    if status = .ok then do
      -- The region is printed.
      let _ ← (s.pRegDescriptors id).read
      .ok (.ok,s)
    else .ok (status,{ s with
      pRegions := update s.pRegions id .freed
      pRegDescriptors := update s.pRegDescriptors id (if call.newDescriptor then .freed else .null)
      pmaStats := s.pmaStats.destroy map.totalFrames map.bProtected })

def Registration.Refused : Prop :=
  call.id ≠ s.regSize ∨ (call.pBlacklistPageBase.isNone ∧ call.blacklistCount ≠ 0) ∨
    desc.base &&& (granularity - 1) ≠ 0 ∨ (desc.limit + 1) &&& (granularity - 1) ≠ 0

instance : Decidable (call.Refused s desc) := inferInstanceAs (Decidable (_ ∨ _))

def RegionDescriptor.numFrames : NvU64 := (desc.limit - desc.base + 1) >>> 16

def pmaRegisterRegion : Except Fault (NvStatus × Regions) :=
  match call.pRegionDesc with
  | none => .ok (.invalidArgument,s)
  | some desc =>
    if call.Refused s desc then .ok (.invalidArgument,s)
    else
      match pmaRegmapInit desc.numFrames s.pmaStats desc.bProtected call.newMap call.newPlane with
      | (none,pmaStats) => .ok (.noMemory,{ s with pmaStats })
      | (some map,pmaStats) => registerMap { s with pmaStats } call desc map

def pmaIsPmaManaged (offset limit : NvU64) : Except Fault Bool :=
  (range s.regSize.toNat).anyM fun i => do
    let desc ← (s.pRegDescriptors i).read
    .ok (desc.base ≤ offset ∧ limit ≤ desc.limit)

end

/-! The heap, and what it registers. -/

/-- Memory systems, by the number of pages that can be blacklisted. -/
inductive MemorySystem where
  | gm107
  | ga100

def maximumBlacklistPages : MemorySystem → Nat
  | .gm107 => 64
  | .ga100 => 512

structure OfflinedPage where
  address : NvU64
  type : NvU32

/-- Retired after several single-bit errors or after a double-bit error. -/
def OfflinedPage.bIsDynamic (page : OfflinedPage) : Bool := page.type = 2 ∨ page.type = 4

def OfflinedPage.inside (desc : RegionDescriptor) (page : OfflinedPage) : Bool :=
  page.address ≠ BitVec.allOnes 64 ∧ desc.base ≤ page.address ∧ page.address ≤ desc.limit

structure FbRegion extends RegionDescriptor where
  bInternalHeap : Bool
  bRsvdRegion : Bool

/-- The framebuffer is split into regions. -/
structure FbRegions where
  fbRegion : List FbRegion
  apart : fbRegion.Pairwise fun a b => a.limit < b.base ∨ b.limit < a.base

/-- `blackListAddresses` is allocated at its first use. Without a `pma` it is not initialized, or
was destroyed again. -/
structure Heap where
  base : NvU64
  total : NvU64
  blackListAddresses : Option (List OfflinedPage)
  pma : Option Regions

def Heap.pages (heap : Heap) : List OfflinedPage := heap.blackListAddresses.getD []

section

variable (system : MemorySystem) (heap : Heap)

def heapAddPageToBlackList (pageNumber : NvU64) (type : NvU32) (newData : Bool) :
    NvStatus × Heap :=
  if heap.pages.length = maximumBlacklistPages system then (.insufficientResources,heap)
  else if heap.blackListAddresses.isNone ∧ !newData then (.noMemory,heap)
  else (.ok,{ heap with
    blackListAddresses := some (heap.pages ++ [⟨pageNumber <<< 12,type⟩]) })

/-- The loop of `memmgrGetBlackListPagesForHeap`. -/
def getBlackListPages (newData : Bool) : List OfflinedPage → Heap → Heap
  | [],heap => heap
  | page :: rest,heap =>
    let (status,heap) := heapAddPageToBlackList system heap (page.address >>> 12) page.type newData
    if status = .ok then getBlackListPages newData rest heap else heap

/-- If no page is in the range, all stay. -/
def heapFilterBlackListPages (base size : NvU64) : Heap :=
  let kept := heap.pages.filter fun page => base ≤ page.address ∧ page.address < base + size
  if kept.isEmpty then heap else { heap with blackListAddresses := some kept }

def FbRegion.Skipped (region : FbRegion) : Prop :=
  region.limit < heap.base ∨ heap.base + heap.total ≤ region.base ∨
    region.bInternalHeap ∨ region.bRsvdRegion

instance (region : FbRegion) : Decidable (region.Skipped heap) :=
  inferInstanceAs (Decidable (_ ∨ _))

/-- The part of a region that the heap has. -/
def FbRegion.pmaRegion (region : FbRegion) : RegionDescriptor where
  base := if region.base < heap.base then heap.base else region.base
  limit := if heap.base + heap.total ≤ region.limit then heap.base + heap.total - 1
    else region.limit
  bProtected := region.bProtected

/-- The loop of `memmgrPmaRegisterRegions`. -/
def registerRegions (bAsyncEccScrub : Bool) (allocations : NvU32 → Allocations) :
    List FbRegion → NvU32 → Regions → Except Fault (NvStatus × Regions)
  | [],_,pma => .ok (.ok,pma)
  | region :: rest,pmaRegionIdx,pma =>
    if region.Skipped heap then registerRegions bAsyncEccScrub allocations rest pmaRegionIdx pma
    else do
      let desc := region.pmaRegion heap
      let listed := heap.pages.filter (·.inside desc)
      let (status,pma) ← pmaRegisterRegion pma { allocations pmaRegionIdx with
        id := pmaRegionIdx
        bAsyncEccScrub
        pRegionDesc := some desc
        blacklistCount := BitVec.ofNat 32 listed.length
        pBlacklistPageBase := if listed.isEmpty then none else some fun i =>
          let page := listed.getD i ⟨0,0⟩
          ⟨page.address,page.bIsDynamic⟩ }
      if status = .ok then
        registerRegions bAsyncEccScrub allocations rest (pmaRegionIdx + 1) pma
      else .ok (status,pma)

/-- A failure destroys the allocator again. -/
def memmgrPmaRegisterRegions (regions : FbRegions) (bAsyncEccScrub newPages : Bool)
    (allocations : NvU32 → Allocations) (pma : Regions) : Except Fault (NvStatus × Heap) :=
  if heap.pages.length > 0 ∧ !newPages then .ok (.noMemory,{ heap with pma := none })
  else do
    let (status,pma) ← registerRegions heap bAsyncEccScrub allocations regions.fbRegion 0 pma
    .ok (status,{ heap with pma := if status = .ok then some pma else none })

/-- A page that the firmware reports after a double-bit error, with the outcomes of the
allocations. Without `pma` it only enters the heap's own list. -/
structure Retirement where
  physicalAddress : NvU64
  newData : Bool
  newTable : Bool

def heapStorePendingBlackList (page : Retirement) : Except Fault (NvStatus × Heap) :=
  let pageNumber := (page.physicalAddress >>> 12) &&& 0xFFFFFFF
  match heapAddPageToBlackList system heap pageNumber 4 page.newData with
  | (.ok,heap) =>
    match heap.pma with
    | none => .ok (.ok,heap)
    | some pma => do
      if ← pmaIsPmaManaged pma page.physicalAddress page.physicalAddress then
        let (status,pma) ← pmaAddToBlacklistTracking pma page.physicalAddress page.newTable
        .ok (status,{ heap with pma := some pma })
      else .ok (.resetRequired,heap)
  | (status,heap) => .ok (status,heap)

end

/-- How a heap is created: the pages that are offlined by then, and what memory is there. -/
structure Creation where
  base : NvU64
  size : NvU64
  partitionLocal : Bool
  offlined : List OfflinedPage
  newData : Bool
  regions : FbRegions
  bAsyncEccScrub : Bool
  newPages : Bool
  allocations : NvU32 → Allocations

def createHeap (system : MemorySystem) (creation : Creation) : Except Fault (NvStatus × Heap) :=
  let heap := getBlackListPages system creation.newData creation.offlined
    ⟨creation.base,creation.size,none,none⟩
  let heap := if creation.partitionLocal then
      heapFilterBlackListPages heap creation.base creation.size
    else heap
  memmgrPmaRegisterRegions heap creation.regions creation.bAsyncEccScrub creation.newPages
    creation.allocations .init

def retire (system : MemorySystem) : List Retirement → Heap → Except Fault Heap
  | [],heap => .ok heap
  | page :: pages,heap => do
    let (_,heap) ← heapStorePendingBlackList system heap page
    retire system pages heap

section Table

variable {s : Regions}

/-- Faults that leave the blacklist table alone. -/
def Tame (fault : Fault) : Prop := fault ≠ .blacklistTable

structure SameTable (s s' : Regions) : Prop where
  chunks : s'.pBlacklistChunks = s.pBlacklistChunks
  count : s'.blacklistCount = s.blacklistCount
  size : s'.regSize = s.regSize

theorem Pointer.read_tame {α : Type} (p : Pointer α) : Ensures (fun _ => True) Tame p.read := by
  cases p with
  | valid => trivial
  | _ => exact nofun

theorem findRegionLoop_tame (address : NvU64) (ids : List Nat) :
    Ensures (fun _ => True) Tame (findRegionLoop s address ids) := by
  induction ids with
  | nil => trivial
  | cons i rest ih =>
    refine (Pointer.read_tame _).bind fun desc _ => ?_
    split
    · trivial
    · exact ih

theorem pmaIsPmaManaged_tame (offset limit : NvU64) :
    Ensures (fun _ => True) Tame (pmaIsPmaManaged s offset limit) := by
  unfold pmaIsPmaManaged
  induction range s.regSize.toNat with
  | nil => trivial
  | cons i rest ih =>
    refine Ensures.bind (P := fun _ => True) ?_ fun found _ => ?_
    · exact (Pointer.read_tame _).bind fun _ _ => trivial
    cases found
    · exact ih
    · trivial

theorem setBlockState_table (base size : NvU64) (k : MapIdx) :
    Ensures (SameTable s) Tame (pmaSetBlockStateAttrib s base size k) := by
  refine (findRegionLoop_tame base _).bind fun regId _ => ?_
  refine (Pointer.read_tame _).bind fun map _ => ?_
  refine (Pointer.read_tame _).bind fun desc _ => ?_
  split
  · refine Ensures.bind (P := fun _ => True) ?_ fun _ _ => ⟨rfl,rfl,rfl⟩
    refine Ensures.foldlM _ trivial fun _ _ _ _ => ?_
    dsimp only
    split
    · trivial
    · exact nofun
  · exact ⟨rfl,rfl,rfl⟩

theorem startScrub_table (call : Registration) (desc : RegionDescriptor) :
    Ensures (SameTable s) Tame (startScrub s call desc) := by
  unfold startScrub
  split
  · exact setBlockState_table _ _ _
  · exact ⟨rfl,rfl,rfl⟩

theorem registerBlacklist_fits (pages : Option (Nat → BlacklistAddress)) {count : NvU32} (newTable : Bool)
    (fits : s.blacklistCount.toNat + count.toNat ≤ maxBlacklistEntries) :
    Ensures (fun r => r.2.blacklistCount.toNat ≤ s.blacklistCount.toNat + count.toNat) Tame
      (pmaRegisterBlacklistInfo s pages count newTable) := by
  have sum : (s.blacklistCount + count).toNat = s.blacklistCount.toNat + count.toNat :=
    BitVec.toNat_add_of_lt (by unfold maxBlacklistEntries at fits; omega)
  unfold pmaRegisterBlacklistInfo
  split
  · exact Nat.le_add_right ..
  split
  · exact Nat.le_add_right ..
  split
  · exact Nat.zero_le _
  refine (Pointer.read_tame _).bind fun table _ => ?_
  refine Ensures.bind (P := fun r => r.1.blacklistCount = s.blacklistCount)
    (Ensures.foldlM _ rfl fun (s',table) k member kept => ?_) fun r kept => ?_
  · have inside : s.blacklistCount.toNat + k < maxBlacklistEntries := by
      rw [mem_range] at member
      omega
    dsimp only
    rw [blacklistPage,if_pos inside]
    exact (setBlockState_table _ _ _).bind fun _ same => same.count.trans kept
  · change (r.1.blacklistCount + count).toNat ≤ _
    rw [kept,sum]

theorem registerRegion_fits (call : Registration)
    (fits : s.blacklistCount.toNat + call.blacklistCount.toNat ≤ maxBlacklistEntries) :
    Ensures (fun r => r.2.blacklistCount.toNat ≤ s.blacklistCount.toNat +
      call.blacklistCount.toNat) Tame (pmaRegisterRegion s call) := by
  unfold pmaRegisterRegion
  split
  · exact Nat.le_add_right ..
  split
  · exact Nat.le_add_right ..
  split
  · exact Nat.le_add_right ..
  unfold registerMap
  dsimp only
  split
  · exact nofun
  refine (startScrub_table _ _).bind fun s' same => ?_
  refine (registerBlacklist_fits _ _ (same.count ▸ fits)).bind fun (status,s') small => ?_
  rw [same.count] at small
  split
  · exact (Pointer.read_tame _).bind fun _ _ => small
  · exact small

theorem addToBlacklist_fits (physAddr : NvU64) (newTable : Bool)
    (fits : s.blacklistCount.toNat + 1 ≤ maxBlacklistEntries) :
    Ensures (fun r => r.2.blacklistCount.toNat ≤ s.blacklistCount.toNat + 1) Tame
      (pmaAddToBlacklistTracking s physAddr newTable) := by
  refine Ensures.bind (P := fun _ => True) ?_ fun unique _ => ?_
  · unfold pmaIsBlacklistingAddrUnique
    split
    · trivial
    · exact (Pointer.read_tame _).bind fun _ _ => trivial
  · split
    · exact registerBlacklist_fits _ _ fits
    · exact Nat.le_succ _

end Table

/-! The heap never registers more pages than it lists. -/

section

variable {system : MemorySystem} {heap : Heap}

theorem maximum_le (system : MemorySystem) :
    maximumBlacklistPages system ≤ maxBlacklistEntries := by
  cases system <;> decide

/-- The heap's list is within its bound, and the table has no more pages. -/
structure Heap.Within (system : MemorySystem) (heap : Heap) : Prop where
  listed : heap.pages.length ≤ maximumBlacklistPages system
  registered : ∀ pma,heap.pma = some pma → pma.blacklistCount.toNat ≤ heap.pages.length

theorem addPage_cases (system : MemorySystem) (heap : Heap) (pageNumber : NvU64) (type : NvU32) (newData : Bool) :
    let result := heapAddPageToBlackList system heap pageNumber type newData
    result.1 ≠ .ok ∧ result.2 = heap ∨
      result.1 = .ok ∧ heap.pages.length ≠ maximumBlacklistPages system ∧
        result.2.pages.length = heap.pages.length + 1 ∧ result.2.pma = heap.pma := by
  unfold heapAddPageToBlackList
  split
  · exact .inl ⟨nofun,rfl⟩
  next room =>
    split
    · exact .inl ⟨nofun,rfl⟩
    · exact .inr ⟨rfl,room,length_append,rfl⟩

theorem getBlackListPages_listed {newData : Bool} {pages : List OfflinedPage}
    (listed : heap.pages.length ≤ maximumBlacklistPages system) :
    (getBlackListPages system newData pages heap).pages.length ≤ maximumBlacklistPages system := by
  induction pages generalizing heap with
  | nil => exact listed
  | cons page rest ih =>
    rw [getBlackListPages]
    rcases addPage_cases system heap (page.address >>> 12) page.type newData with
      ⟨refused,same⟩ | ⟨added,room,grown,-⟩
    · dsimp only
      rw [if_neg refused,same]
      exact listed
    · dsimp only
      rw [if_pos added]
      exact ih (by omega)

theorem filter_listed (heap : Heap) (base size : NvU64) :
    (heapFilterBlackListPages heap base size).pages.length ≤ heap.pages.length := by
  unfold heapFilterBlackListPages
  dsimp only
  split
  · exact Nat.le_refl _
  · exact length_filter_le ..

def FbRegion.contains (region : FbRegion) (page : OfflinedPage) : Bool :=
  region.base ≤ page.address ∧ page.address ≤ region.limit

theorem pmaRegion_inside {region : FbRegion} (kept : ¬ region.Skipped heap) (page : OfflinedPage)
    (inside : page.inside (region.pmaRegion heap) = true) : region.contains page = true := by
  simp only [FbRegion.Skipped,not_or,BitVec.not_lt,BitVec.not_le] at kept
  obtain ⟨-,reached,-⟩ := kept
  obtain ⟨-,first,last⟩ := of_decide_eq_true inside
  simp only [FbRegion.pmaRegion] at first last
  simp only [FbRegion.contains,decide_eq_true_eq]
  constructor
  · split at first
    next below => exact BitVec.le_trans (BitVec.le_of_lt below) first
    · exact first
  · split at last
    next beyond => bv_omega
    · exact last

/-- Pages of one region are not pages of the others. -/
theorem countP_apart {region : FbRegion} {rest : List FbRegion}
    (apart : ∀ other ∈ rest,region.limit < other.base ∨ other.limit < region.base)
    (pages : List OfflinedPage) :
    pages.countP region.contains + pages.countP (fun page => rest.any (·.contains page)) =
      pages.countP fun page => (region :: rest).any (·.contains page) := by
  induction pages with
  | nil => rfl
  | cons page pages ih =>
    have once : region.contains page = true → rest.any (·.contains page) = false := by
      intro here
      rw [any_eq_false]
      intro other member there
      simp only [FbRegion.contains,decide_eq_true_eq] at here there
      rcases apart other member with before | behind <;> bv_omega
    simp only [countP_cons,any_cons] at ih ⊢
    cases here : region.contains page with
    | false => simp only [Bool.false_or,Bool.false_eq_true,if_false]; omega
    | true => simp only [once here,Bool.true_or,Bool.false_eq_true,if_true,if_false]; omega

theorem registerRegions_fits {bAsyncEccScrub : Bool} {allocations : NvU32 → Allocations}
    {regions : List FbRegion}
    (apart : regions.Pairwise fun a b => a.limit < b.base ∨ b.limit < a.base) :
    ∀ {idx : NvU32} {pma : Regions}, pma.blacklistCount.toNat +
        heap.pages.countP (fun page => regions.any (·.contains page)) ≤ maxBlacklistEntries →
      Ensures (fun r => r.2.blacklistCount.toNat ≤ pma.blacklistCount.toNat +
          heap.pages.countP (fun page => regions.any (·.contains page))) Tame
        (registerRegions heap bAsyncEccScrub allocations regions idx pma) := by
  induction regions with
  | nil => exact fun _ => Nat.le_add_right ..
  | cons region rest ih =>
    obtain ⟨first,others⟩ := pairwise_cons.mp apart
    intro idx pma fits
    rw [← countP_apart first] at fits ⊢
    rw [registerRegions]
    split
    · -- A region that is skipped leaves room for its pages.
      exact (ih others (by omega)).mono (fun _ small => Nat.le_trans small (by omega)) fun _ => id
    next kept =>
      have fewer : (heap.pages.filter (·.inside (region.pmaRegion heap))).length ≤
          heap.pages.countP region.contains := by
        rw [← countP_eq_length_filter]
        exact countP_mono_left fun page _ => pmaRegion_inside kept page
      have narrow := Nat.mod_le (heap.pages.filter (·.inside (region.pmaRegion heap))).length (2 ^ 32)
      refine (registerRegion_fits _ ?_).bind fun (status,pma') small => ?_
      · rw [BitVec.toNat_ofNat]
        omega
      · rw [BitVec.toNat_ofNat] at small
        dsimp only at small ⊢
        split
        · exact (ih others (by omega)).mono (fun _ small => Nat.le_trans small (by omega))
            fun _ => id
        · exact Nat.le_trans small (by omega)

theorem createHeap_within (creation : Creation) :
    Ensures (fun r => r.2.Within system) Tame (createHeap system creation) := by
  unfold createHeap
  have listed : (getBlackListPages system creation.newData creation.offlined
      ⟨creation.base,creation.size,none,none⟩).pages.length ≤ maximumBlacklistPages system :=
    getBlackListPages_listed (Nat.zero_le _)
  have filtered := filter_listed (getBlackListPages system creation.newData creation.offlined
    ⟨creation.base,creation.size,none,none⟩) creation.base creation.size
  dsimp only
  generalize settled : (if creation.partitionLocal = true then _ else _ : Heap) = heap
  have bounded : heap.pages.length ≤ maximumBlacklistPages system := by
    rw [← settled]
    split
    · exact filtered.trans listed
    · exact listed
  unfold memmgrPmaRegisterRegions
  split
  · exact ⟨bounded,nofun⟩
  · have all := countP_le_length (p := fun page => creation.regions.fbRegion.any (·.contains page))
      (l := heap.pages)
    have most := maximum_le system
    refine (registerRegions_fits creation.regions.apart ?_).bind
      fun (status,pma) small => ⟨bounded,fun pma' present => ?_⟩
    · exact Nat.le_trans (Nat.le_of_eq (Nat.zero_add _)) (by omega)
    · dsimp only at present
      split at present
      · cases present
        exact Nat.le_trans small (Nat.le_trans (Nat.le_of_eq (Nat.zero_add _)) all)
      · exact nomatch present

theorem retirement_within (page : Retirement) (within : heap.Within system) :
    Ensures (fun r => r.2.Within system) Tame (heapStorePendingBlackList system heap page) := by
  unfold heapStorePendingBlackList
  dsimp only
  have outcome := addPage_cases system heap
    ((page.physicalAddress >>> 12) &&& 0xFFFFFFF) 4 page.newData
  dsimp only at outcome
  split
  next heap' added =>
    rw [added] at outcome
    rcases outcome with ⟨refused,-⟩ | ⟨-,room,grown,pma⟩
    · exact absurd rfl refused
    have listed := within.listed
    have grown : heap'.pages.length = heap.pages.length + 1 := grown
    have before : ∀ pma,heap'.pma = some pma → pma.blacklistCount.toNat ≤ heap.pages.length :=
      fun _ present => within.registered _ (pma ▸ present)
    have kept : heap'.Within system :=
      ⟨by omega,fun pma present => Nat.le_trans (before pma present) (by omega)⟩
    split
    · exact kept
    next pma present =>
      refine (pmaIsPmaManaged_tame _ _).bind fun managed _ => ?_
      have count := before pma present
      have most := maximum_le system
      split
      · refine (addToBlacklist_fits _ _ (by omega)).bind fun (status,pma') small =>
          ⟨kept.listed,?_⟩
        rintro _ ⟨⟩
        exact Nat.le_trans small (by change _ ≤ heap'.pages.length; omega)
      · exact kept
  next status heap' _ added =>
    rw [added] at outcome
    rcases outcome with ⟨-,same⟩ | ⟨accepted,-⟩
    · rw [show heap' = heap from same]
      exact within
    · exact absurd (show status = .ok from accepted) (by assumption)

theorem retire_within {pages : List Retirement} (within : heap.Within system) :
    Ensures (·.Within system) Tame (retire system pages heap) := by
  induction pages generalizing heap with
  | nil => exact within
  | cons page pages ih => exact (retirement_within page within).bind fun (_,_) kept => ih kept

end

def sampleRegion (count : NvU32) (newPlane newTable : Bool) : Registration where
  id := 0
  bAsyncEccScrub := false
  pRegionDesc := some ⟨0,0x3FFFFF,false⟩
  blacklistCount := count
  pBlacklistPageBase := some fun i => ⟨0x1000 * BitVec.ofNat 64 i,false⟩
  newMap := true
  newPlane _ := newPlane
  newDescriptor := true
  newTable := newTable

/-- Only the first allocation of the table can make it fail. -/
theorem registerBlacklist_ok {s : Regions} (pages : Option (Nat → BlacklistAddress)) {count : NvU32}
    {newTable : Bool} (table : s.pBlacklistChunks = .null → newTable = true ∨ count = 0) :
    Ensures (fun r => r.1 = .ok) (fun _ => True) (pmaRegisterBlacklistInfo s pages count newTable) := by
  unfold pmaRegisterBlacklistInfo
  split
  · rfl
  split
  · rfl
  split
  next positive _ null =>
    unfold Regions.blacklistTable at null
    split at null
    next missing =>
      rw [(table missing).resolve_right positive] at null
      cases null
    next present => exact absurd null present
  · exact (Ensures.any _).bind fun _ _ => (Ensures.any _).bind fun _ _ => rfl

theorem registerBlacklist_failed {s : Regions} (pages : Nat → BlacklistAddress) {count : NvU32}
    (positive : count ≠ 0) (missing : s.pBlacklistChunks = .null) :
    pmaRegisterBlacklistInfo s (some pages) count false =
      .ok (.noMemory,{ s with blacklistCount := 0 }) := by
  simp only [pmaRegisterBlacklistInfo,Regions.blacklistTable,missing,Bool.false_eq_true,if_false]
  exact if_neg positive

/-- Without a plane the frames are taken off the statistics again, but not the 2 MB pages. -/
theorem regmapInit_undone (numFrames : NvU64) (stats : Stats) (bProtected : Bool)
    {newPlane : MapIdx → Bool} (missing : ¬ (statePlanes ++ attribPlanes).all newPlane = true) :
    (pmaRegmapInit numFrames stats bProtected true newPlane).1 = none ∧
      ((pmaRegmapInit numFrames stats bProtected true newPlane).2 = stats ↔
        numFrames / framesPer2mb = 0) := by
  simp only [pmaRegmapInit,Bool.not_true,Bool.false_eq_true,if_false,if_neg missing,true_and]
  constructor
  · intro same
    have counted := congrArg Stats.num2mbPages same
    cases bProtected <;> simpa [Stats.destroy] using counted
  · intro none
    cases bProtected <;> simp [Stats.destroy,none]

/-- What the failure exits do not undo does not happen: no 2 MB page is counted if a plane is not
allocated, and the blacklist table is there if it is needed. -/
def Registration.Undone (s : Regions) (call : Registration) : Prop :=
  ∀ desc,call.pRegionDesc = some desc → ¬ call.Refused s desc → call.newMap = true →
    if (statePlanes ++ attribPlanes).all call.newPlane then
      s.pBlacklistChunks = .null → call.newTable = true ∨ call.blacklistCount = 0
    else desc.numFrames / framesPer2mb = 0

section

variable {s : Regions} {call : Registration} {desc : RegionDescriptor}

/-- From the tables on, only a missing blacklist table is an error. The region stays. -/
theorem registerMap_atomic {pmaStats : Stats} (map : PmaRegmap)
    (listed : call.pBlacklistPageBase.isNone = true → call.blacklistCount = 0) :
    Ensures (fun (status,s') => (status ≠ .ok → s' = s) ↔
        (s.pBlacklistChunks = .null → call.newTable = true ∨ call.blacklistCount = 0))
      (fun _ => True) (registerMap { s with pmaStats } call desc map) := by
  unfold registerMap
  dsimp only
  split
  · trivial
  refine ((startScrub_table _ _).mono (fun _ => id) fun _ _ => trivial).bind fun s' same => ?_
  by_cases table : s.pBlacklistChunks = .null → call.newTable = true ∨ call.blacklistCount = 0
  · refine (registerBlacklist_ok _ (same.chunks ▸ table)).bind fun (status,s') ok => ?_
    rw [if_pos ok]
    exact (Ensures.any _).bind fun _ _ => ⟨fun _ => table,fun _ failed => absurd rfl failed⟩
  · obtain ⟨missing,lacking⟩ := Classical.not_imp.mp table
    obtain ⟨refused,positive⟩ := not_or.mp lacking
    cases list : call.pBlacklistPageBase with
    | none => exact absurd (listed (by rw [list]; rfl)) positive
    | some pages =>
      rw [Bool.eq_false_iff.mpr refused,
        registerBlacklist_failed pages positive (same.chunks.trans missing)]
      refine ⟨fun undone => ?_,fun claimed => ?_⟩
      · have counted := (congrArg Regions.regSize (undone nofun)).symm.trans same.size
        exact absurd counted (by bv_omega)
      · exact absurd (claimed missing) (by simpa using positive)

end

/-- A registration that returns an error has changed nothing just when its failure exits have
nothing to undo. -/
theorem registerRegion_atomic (s : Regions) (call : Registration) :
    Ensures (fun (status,s') => (status ≠ .ok → s' = s) ↔ call.Undone s) (fun _ => True)
      (pmaRegisterRegion s call) := by
  unfold pmaRegisterRegion Registration.Undone
  cases pRegionDesc : call.pRegionDesc with
  | none => exact ⟨fun _ _ => nofun,fun _ _ => rfl⟩
  | some desc =>
    dsimp only
    by_cases refused : call.Refused s desc
    · rw [if_pos refused]
      exact ⟨fun _ _ same accepted => absurd (Option.some.inj same ▸ refused) accepted,
        fun _ _ => rfl⟩
    rw [if_neg refused]
    cases newMap : call.newMap with
    | false => exact ⟨fun _ _ _ _ => nofun,fun _ _ => rfl⟩
    | true =>
      simp only [Option.some.injEq,forall_eq',refused,not_false_eq_true,forall_const]
      by_cases planes : (statePlanes ++ attribPlanes).all call.newPlane = true
      · rw [if_pos planes]
        simp only [pmaRegmapInit,Bool.not_true,Bool.false_eq_true,if_false,if_pos planes]
        refine registerMap_atomic _ fun none => ?_
        by_contra positive
        exact refused (.inr (.inl ⟨none,positive⟩))
      · obtain ⟨failed,undone⟩ := regmapInit_undone desc.numFrames s.pmaStats
          desc.bProtected planes
        rw [if_neg planes,← undone]
        generalize pmaRegmapInit .. = result at failed ⊢
        obtain ⟨map,stats⟩ := result
        cases failed
        refine ⟨fun kept => congrArg Regions.pmaStats (kept nofun),fun same _ => ?_⟩
        rw [show stats = s.pmaStats from same]

/-- 2 MB pages stay counted after a plane is not allocated, and a region stays registered
after it was freed for want of a blacklist table. -/
theorem registerRegion_partial :
    Ensures (fun (status,s) => status = .noMemory ∧ s.pmaStats.num2mbPages = 2) (fun _ => False)
      (pmaRegisterRegion .init (sampleRegion 0 false true)) ∧
    Ensures (fun (status,s) => status = .noMemory ∧ s.regSize = 1 ∧ s.pRegions 0 matches .freed)
      (fun _ => False) (pmaRegisterRegion .init (sampleRegion 1 true false)) :=
  ⟨⟨rfl,by decide⟩,rfl,rfl,rfl⟩

end GpuExt.Regmap
