import GpuExt.FaultGroups
import Mathlib.Algebra.Order.BigOperators.Group.Finset

/-! A fetch leaves the batch split into groups just if it merges no fault into a filtered entry and
puts none in the place of a fatal one. Which fault is merged into which is known from the ring. -/
namespace GpuExt.FaultFetch

open FaultBatch ListHead

variable {utlbCount : Nat} {ctx : Context utlbCount} {count last : Nat} {members : Nat → List Nat}

/-- The entry is put into the place of the last fault of its uTLB. -/
def replaceLastTlb (ctx : Context utlbCount) (index : Nat) : Context utlbCount :=
  setLastFault (supersede ctx index (lastTlbEntry ctx index)) (ctx.faultCache index).utlbId index

variable {index : Nat} {parsed : Parsed utlbCount}

theorem isLastTlbFault_iff : isLastTlbFault ctx index = true ↔
    0 < (ctx.utlbs (ctx.faultCache index).utlbId).numPendingFaults ∧
      SamePage (ctx.faultCache index).toParsed
        (ctx.faultCache (lastTlbEntry ctx index)).toParsed := by
  simp [isLastTlbFault,sameInstancePtr,SamePage,and_assoc]

theorem isLastFault_iff : isLastFault ctx index last = true ↔
    SamePage (ctx.faultCache index).toParsed (ctx.faultCache last).toParsed ∧
      (ctx.faultCache index).accessType ≤ (ctx.faultCache last).accessType := by
  simp [isLastFault,sameInstancePtr,SamePage,and_assoc]

section

variable (cfg : Config) (ctx : Context utlbCount) (mode : FetchMode) (index : Nat)

/-- Whether the entry can be merged at all. -/
def isMergeable : Bool :=
  mayFilter cfg mode && !(ctx.faultCache index).isFatal

/-- Merging the cached entry neither filters a fatal fault nor adds to a filtered one. -/
def safeMerge : Bool :=
  match ctx.lastFault with
  | none => true
  | some last =>
    if isMergeable cfg ctx mode index then
      if isLastTlbFault ctx index then
        let last := ctx.faultCache (lastTlbEntry ctx index)
        !(last.accessType < (ctx.faultCache index).accessType && last.isFatal)
      else !(isLastFault ctx index last && (ctx.faultCache last).filtered)
    else true

/-- The three things that can happen to an entry, and whether they are safe. -/
theorem coalesceEntry_cases :
    (safeMerge cfg ctx mode index = true ∧
      ∃ isSame, coalesceEntry cfg ctx mode index = addEntry ctx index isSame) ∨
    (isLastTlbFault ctx index = true ∧
      (ctx.faultCache (lastTlbEntry ctx index)).accessType < (ctx.faultCache index).accessType ∧
      safeMerge cfg ctx mode index = !(ctx.faultCache (lastTlbEntry ctx index)).isFatal ∧
      coalesceEntry cfg ctx mode index = replaceLastTlb ctx index) ∨
    ∃ last, isMergeable cfg ctx mode index = true ∧
      (isLastTlbFault ctx index = true ∧ last = lastTlbEntry ctx index ∧
          safeMerge cfg ctx mode index = true ∨
        ctx.lastFault = some last ∧ isLastFault ctx index last = true ∧
          safeMerge cfg ctx mode index = !(ctx.faultCache last).filtered) ∧
      (ctx.faultCache index).accessType ≤ (ctx.faultCache last).accessType ∧
      coalesceEntry cfg ctx mode index = join ctx index last := by
  cases known : ctx.lastFault with
  | none => exact .inl ⟨by simp only [safeMerge,known],true,by simp only [coalesceEntry,known]⟩
  | some last =>
    have may : mayFilter cfg mode = true ∧ (ctx.faultCache index).isFatal = false ↔
        isMergeable cfg ctx mode index = true := by simp [isMergeable]
    simp only [coalesceEntry,safeMerge,known,may]
    cases isMergeable cfg ctx mode index with
    | false => exact .inl ⟨rfl,_,rfl⟩
    | true =>
      simp only [if_true]
      cases lastTlb : isLastTlbFault ctx index with
      | true =>
        simp only [tryMergeEntry,lastTlb,if_true,mergeEntry]
        split
        next higher => exact .inr (.inl ⟨trivial,higher,by simp [higher],rfl⟩)
        next lower =>
          exact .inr (.inr ⟨lastTlbEntry ctx index,trivial,.inl ⟨trivial,rfl,by simp [lower]⟩,
            not_lt.mp lower,rfl⟩)
      | false =>
        cases lastFault : isLastFault ctx index last with
        | true =>
          have lower := (isLastFault_iff.mp lastFault).2
          refine .inr (.inr ⟨last,trivial,.inr ⟨rfl,lastFault,by simp⟩,lower,?_⟩)
          simp [tryMergeEntry,lastTlb,lastFault,mergeEntry,not_lt.mpr lower]
        | false => simp [tryMergeEntry,lastTlb,lastFault]

end

theorem Remembered.lastTlb (remembered : Remembered ctx count)
    (lastTlb : isLastTlbFault ctx count = true) : Representative ctx count (lastTlbEntry ctx count) ∧
      (ctx.faultCache (lastTlbEntry ctx count)).utlbId = (ctx.faultCache count).utlbId :=
  remembered.utlb _ (isLastTlbFault_iff.mp lastTlb).1

theorem isMergeable_benign {cfg : Config} {mode : FetchMode}
    (mergeable : isMergeable cfg ctx mode index = true) :
    (ctx.faultCache index).isFatal = false := by
  simp only [isMergeable,Bool.and_eq_true,Bool.not_eq_true'] at mergeable
  exact mergeable.2

section

variable (groups : Groups ctx count members)
include groups

theorem Groups.replaceLastTlb (isRep : Representative ctx count (lastTlbEntry ctx count))
    (same : SamePage (ctx.faultCache count).toParsed
      (ctx.faultCache (lastTlbEntry ctx count)).toParsed)
    (higher : (ctx.faultCache (lastTlbEntry ctx count)).accessType <
      (ctx.faultCache count).accessType)
    (unfiltered : (ctx.faultCache count).filtered = false)
    (benign : (ctx.faultCache (lastTlbEntry ctx count)).isFatal = false) :
    ∃ members, Groups (replaceLastTlb ctx count) (count + 1) members := by
  have grown := grown_supersede groups isRep same higher unfiltered
  refine ⟨_,(groups.grow isRep (.inr rfl) grown ?_).frame (fun _ _ => rfl) rfl rfl ?_⟩
  · intro i bound fatal
    rw [(supersede_parsed ..).2] at fatal
    refine (grown.representative i).mpr ?_
    by_cases new : i = count
    · exact .inl new
    · refine .inr ⟨groups.fatal i (by omega) fatal,?_⟩
      rintro rfl
      exact absurd (benign.symm.trans fatal) (by decide)
  · intro id
    simp only [FaultFetch.replaceLastTlb,setLastFault,Function.update_apply]
    split
    next own => rw [own]
    next => rfl

theorem Groups.join (isRep : Representative ctx count last)
    (same : SamePage (ctx.faultCache count).toParsed (ctx.faultCache last).toParsed)
    (lower : (ctx.faultCache count).accessType ≤ (ctx.faultCache last).accessType)
    (benign : (ctx.faultCache count).isFatal = false) :
    ∃ members, Groups (join ctx count last) (count + 1) members := by
  have grown := grown_join groups isRep same lower
  refine ⟨_,groups.grow isRep (.inl rfl) grown ?_⟩
  intro i bound fatal
  rw [(join_parsed ..).2] at fatal
  have old : i ≠ count := by
    rintro rfl
    simp [benign] at fatal
  refine (grown.representative i).mpr ?_
  by_cases own : i = last
  · exact .inl own
  · exact .inr ⟨groups.fatal i (by omega) fatal,own⟩

theorem Groups.coalesceEntry (remembered : Remembered ctx count)
    (unfiltered : (ctx.faultCache count).filtered = false) {cfg : Config} {mode : FetchMode}
    (safe : safeMerge cfg ctx mode count = true) :
    ∃ members, Groups (coalesceEntry cfg ctx mode count) (count + 1) members := by
  obtain ⟨-,isSame,eq⟩ | ⟨lastTlb,higher,fatal,eq⟩ | ⟨last,mergeable,choice,lower,eq⟩ :=
    coalesceEntry_cases cfg ctx mode count
  · rw [eq]
    exact ⟨_,groups.add unfiltered isSame⟩
  · rw [eq]
    exact groups.replaceLastTlb (remembered.lastTlb lastTlb).1 (isLastTlbFault_iff.mp lastTlb).2 higher
      unfiltered (by simpa [safe] using fatal)
  · rw [eq]
    have benign := isMergeable_benign mergeable
    rcases choice with ⟨lastTlb,rfl,-⟩ | ⟨known,lastFault,filtered⟩
    · exact groups.join (remembered.lastTlb lastTlb).1 (isLastTlbFault_iff.mp lastTlb).2 lower benign
    · have isRep : Representative ctx count last :=
        ⟨remembered.last last known,by simpa [safe] using filtered⟩
      exact groups.join isRep (isLastFault_iff.mp lastFault).1 lower benign

end

/-! The instances that the unfiltered entries show. A fault that is merged into a filtered entry is
missing in them for good, as a fatal entry is that was filtered. -/

def Entry.shown (entry : Entry utlbCount) : Nat := if entry.filtered then 0 else entry.numInstances

def shown (ctx : Context utlbCount) (count : Nat) : Nat :=
  ∑ i ∈ Finset.range count, (ctx.faultCache i).shown

def FilteredFatal (ctx : Context utlbCount) (i : Nat) : Prop :=
  (ctx.faultCache i).isFatal = true ∧ (ctx.faultCache i).filtered = true

def Broken (ctx : Context utlbCount) (count : Nat) : Prop :=
  (∃ i < count, FilteredFatal ctx i) ∨ shown ctx count < count

theorem Groups.not_broken (groups : Groups ctx count members) : ¬Broken ctx count := by
  rintro (⟨i,bound,fatal,filtered⟩ | few)
  · exact absurd ((groups.fatal i bound fatal).2.symm.trans filtered) (by decide)
  let reps := (Finset.range count).filter fun i => (ctx.faultCache i).filtered = false
  have covered : Finset.range count ⊆ reps.biUnion fun rep => (rep :: members rep).toFinset := by
    intro i inside
    simp only [reps,Finset.mem_biUnion,Finset.mem_filter,Finset.mem_range,List.mem_toFinset]
    rw [Finset.mem_range] at inside
    cases filtered : (ctx.faultCache i).filtered with
    | false => exact ⟨i,⟨inside,filtered⟩,List.mem_cons_self⟩
    | true =>
      obtain ⟨rep,isRep,member⟩ := groups.covered i inside filtered
      exact ⟨rep,isRep,List.mem_cons_of_mem _ member⟩
  have all : count ≤ shown ctx count := calc
    count = (Finset.range count).card := (Finset.card_range count).symm
    _ ≤ ∑ rep ∈ reps, (rep :: members rep).toFinset.card :=
      (Finset.card_le_card covered).trans Finset.card_biUnion_le
    _ ≤ ∑ rep ∈ reps, (ctx.faultCache rep).numInstances := Finset.sum_le_sum fun rep isRep => by
      simp only [reps,Finset.mem_filter,Finset.mem_range] at isRep
      rw [(groups.group rep isRep).numInstances]
      exact List.toFinset_card_le _
    _ = shown ctx count := by
      simp only [reps,Finset.sum_filter,shown,Entry.shown]
      exact Finset.sum_congr rfl fun i _ => by cases (ctx.faultCache i).filtered <;> rfl
  omega

theorem shown_congr {next : Context utlbCount}
    (same : ∀ i < count, next.faultCache i = ctx.faultCache i) : shown next count = shown ctx count :=
  Finset.sum_congr rfl fun i inside => by rw [same i (Finset.mem_range.mp inside)]

/-- A step that touches the new entry and an old one. -/
theorem shown_succ (next : Context utlbCount) (old : last < count)
    (same : ∀ i, i ≠ count → i ≠ last → next.faultCache i = ctx.faultCache i) :
    shown next (count + 1) + (ctx.faultCache last).shown =
      shown ctx count + (next.faultCache last).shown + (next.faultCache count).shown := by
  have rest : ∑ i ∈ (Finset.range count).erase last, (next.faultCache i).shown =
      ∑ i ∈ (Finset.range count).erase last, (ctx.faultCache i).shown := by
    refine Finset.sum_congr rfl fun i inside => ?_
    rw [Finset.mem_erase,Finset.mem_range] at inside
    rw [same i inside.2.ne inside.1]
  have split (ctx : Context utlbCount) := Finset.add_sum_erase (Finset.range count)
    (fun i => (ctx.faultCache i).shown) (Finset.mem_range.mpr old)
  have ofCtx := split ctx
  have ofNext := split next
  rw [shown,shown,Finset.sum_range_succ]
  omega

theorem shown_join (old : last < count) : shown (join ctx count last) (count + 1) =
    shown ctx count + if (ctx.faultCache last).filtered then 0 else 1 := by
  have sum := shown_succ _ old fun i notNew notLast => join_other ctx count i notNew notLast
  have new : ((join ctx count last).faultCache count).shown = 0 := by
    simp [Entry.shown,join_filtered]
  rw [join_last ctx count old.ne,new] at sum
  cases filtered : (ctx.faultCache last).filtered <;>
    simp [Entry.shown,countInstance,filtered] at sum ⊢ <;> omega

theorem shown_replaceLastTlb (isRep : Representative ctx count (lastTlbEntry ctx count))
    (unfiltered : (ctx.faultCache count).filtered = false) :
    shown (replaceLastTlb ctx count) (count + 1) = shown ctx count + 1 := by
  have sum := shown_succ (replaceLastTlb ctx count) isRep.1
    fun i notNew notLast => supersede_other ctx count i notNew notLast
  have old : ((replaceLastTlb ctx count).faultCache (lastTlbEntry ctx count)).shown = 0 := by
    simp [Entry.shown,replaceLastTlb,setLastFault,supersede_filtered _ _ _ isRep.1.ne]
  have new : ((replaceLastTlb ctx count).faultCache count).shown =
      (ctx.faultCache (lastTlbEntry ctx count)).numInstances + 1 := by
    simp [Entry.shown,replaceLastTlb,setLastFault,supersede,countInstance,unfiltered]
  have before : (ctx.faultCache (lastTlbEntry ctx count)).shown =
      (ctx.faultCache (lastTlbEntry ctx count)).numInstances := by simp [Entry.shown,isRep.2]
  omega

theorem shown_add (unfiltered : (ctx.faultCache count).filtered = false) (isSame : Bool) :
    shown (addEntry ctx count isSame) (count + 1) = shown ctx count + 1 := by
  rw [shown,Finset.sum_range_succ]
  refine congrArg₂ (· + ·) (shown_congr fun i inside => ?_) ?_
  · simp [addEntry,inside.ne]
  · simp [addEntry,Entry.shown,unfiltered]

section

variable (remembered : Remembered ctx count) (unfiltered : (ctx.faultCache count).filtered = false)
  (cfg : Config) (mode : FetchMode)
include remembered unfiltered

theorem Remembered.coalesceEntry : Remembered (coalesceEntry cfg ctx mode count) (count + 1) := by
  obtain ⟨-,isSame,eq⟩ | ⟨lastTlb,-,-,eq⟩ | ⟨last,-,-,-,eq⟩ := coalesceEntry_cases cfg ctx mode count
  · exact eq ▸ remembered.add unfiltered isSame
  · obtain ⟨isRep,utlb⟩ := remembered.lastTlb lastTlb
    exact eq ▸ remembered.supersede unfiltered isRep.1 utlb
  · exact eq ▸ remembered.join

/-- A step shows one instance more, if it is safe. -/
theorem coalesceEntry_shown :
    shown (coalesceEntry cfg ctx mode count) (count + 1) ≤ shown ctx count + 1 ∧
      (safeMerge cfg ctx mode count = false →
        (∃ i < count,FilteredFatal (coalesceEntry cfg ctx mode count) i) ∨
          shown (coalesceEntry cfg ctx mode count) (count + 1) = shown ctx count) := by
  obtain ⟨safe,isSame,eq⟩ | ⟨lastTlb,-,fatal,eq⟩ | ⟨last,-,choice,-,eq⟩ :=
    coalesceEntry_cases cfg ctx mode count
  · exact ⟨(eq ▸ shown_add unfiltered isSame).le,fun notSafe => nomatch safe.symm.trans notSafe⟩
  · have isRep := (remembered.lastTlb lastTlb).1
    refine ⟨(eq ▸ shown_replaceLastTlb isRep unfiltered).le,fun notSafe => .inl ⟨_,isRep.1,?_⟩⟩
    rw [eq]
    exact ⟨by simpa [replaceLastTlb,setLastFault,supersede_parsed,notSafe] using fatal,
      by simp [replaceLastTlb,setLastFault,supersede_filtered _ _ _ isRep.1.ne]⟩
  · rw [eq]
    rcases choice with ⟨lastTlb,rfl,safe⟩ | ⟨known,-,filtered⟩
    · rw [shown_join (remembered.lastTlb lastTlb).1.1]
      exact ⟨by split <;> omega,fun notSafe => nomatch safe.symm.trans notSafe⟩
    · rw [shown_join (remembered.last last known)]
      exact ⟨by split <;> omega,fun notSafe => .inr (by simp_all)⟩

/-- What is broken stays broken, and a step that is not safe breaks the batch. -/
theorem coalesceEntry_broken (bounded : shown ctx count ≤ count)
    (broken : Broken ctx count ∨ safeMerge cfg ctx mode count = false) :
    Broken (coalesceEntry cfg ctx mode count) (count + 1) := by
  obtain ⟨least,breaks⟩ := coalesceEntry_shown remembered unfiltered cfg mode
  rcases broken with (⟨i,inside,fatal,filtered⟩ | few) | notSafe
  · refine .inl ⟨i,Nat.lt_succ_of_lt inside,?_⟩
    obtain ⟨-,isSame,eq⟩ | ⟨lastTlb,-,-,eq⟩ | ⟨last,-,-,-,eq⟩ :=
      coalesceEntry_cases cfg ctx mode count
    · rw [eq]
      exact ⟨(addEntry_entry ctx count i isSame).2.1.trans fatal,
        (addEntry_entry ctx count i isSame).2.2.trans filtered⟩
    · have old := (remembered.lastTlb lastTlb).1.1
      rw [eq]
      refine ⟨(supersede_parsed ctx count i).2.trans fatal,
        (supersede_filtered ctx count i old.ne).trans ?_⟩
      split <;> trivial
    · rw [eq]
      exact ⟨(join_parsed ctx count i).2.trans fatal,
        (join_filtered ctx count i).trans ((if_neg inside.ne).trans filtered)⟩
  · exact .inr (by omega)
  · rcases breaks notSafe with ⟨i,inside,filtered⟩ | same
    · exact .inl ⟨i,Nat.lt_succ_of_lt inside,filtered⟩
    · exact .inr (by omega)

end

structure Kept (ctx next : Context utlbCount) (index : Nat) : Prop where
  maxUtlbId : next.maxUtlbId = ctx.maxUtlbId
  cachedGet : next.cachedGet = ctx.cachedGet
  parsed : ∀ i, (next.faultCache i).toParsed = (ctx.faultCache i).toParsed
  isFatal : ∀ i, (next.faultCache i).isFatal = (ctx.faultCache i).isFatal
  pending : ∀ id, id ≠ (ctx.faultCache index).utlbId →
    (next.utlbs id).numPendingFaults = (ctx.utlbs id).numPendingFaults

theorem coalesceEntry_kept (cfg : Config) (ctx : Context utlbCount) (mode : FetchMode)
    (index : Nat) : Kept ctx (coalesceEntry cfg ctx mode index) index := by
  obtain ⟨-,isSame,eq⟩ | ⟨-,-,-,eq⟩ | ⟨last,-,-,-,eq⟩ := coalesceEntry_cases cfg ctx mode index
  · rw [eq]
    refine ⟨rfl,rfl,fun i => (addEntry_entry ctx index i isSame).1,
      fun i => (addEntry_entry ctx index i isSame).2.1,?_⟩
    intro id other
    simp [addEntry,other]
  · rw [eq]
    refine ⟨rfl,rfl,fun i => (supersede_parsed ctx index i).1,
      fun i => (supersede_parsed ctx index i).2,?_⟩
    intro id other
    simp [replaceLastTlb,setLastFault,supersede,other]
  · rw [eq]
    exact ⟨rfl,rfl,fun i => (join_parsed ctx index i).1,fun i => (join_parsed ctx index i).2,
      fun _ _ => rfl⟩

/-- What a fetch finds: GET is in the ring, and the uTLBs above the highest one of the last batch
have no pending faults. -/
structure Ready (cfg : Config) (ctx : Context utlbCount) : Prop where
  get_lt : ctx.cachedGet < cfg.maxFaults
  idle : ∀ id : Fin utlbCount, ctx.maxUtlbId < id → (ctx.utlbs id).numPendingFaults = 0

theorem advanceGet_get {cfg : Config} (bound : ctx.cachedGet < cfg.maxFaults) :
    (advanceGet cfg ctx).cachedGet = (ctx.cachedGet + 1) % cfg.maxFaults := by
  simp only [advanceGet]
  split
  next wrap => rw [wrap,Nat.mod_self]
  next inside => rw [Nat.mod_eq_of_lt (by omega)]

variable {cfg : Config} {mode : FetchMode} {ring : Nat → Arrival utlbCount} {get : Nat}

theorem fetchEntry_get (bound : ctx.cachedGet < cfg.maxFaults) (index : Nat)
    (parsed : Parsed utlbCount) : (fetchEntry cfg ctx mode index parsed).cachedGet =
      (ctx.cachedGet + 1) % cfg.maxFaults := by
  have kept := coalesceEntry_kept cfg (cacheEntry cfg ctx index parsed) mode index
  have same : (coalesceEntry cfg (cacheEntry cfg ctx index parsed) mode index).cachedGet =
      ctx.cachedGet := kept.cachedGet
  rw [fetchEntry,advanceGet_get (same ▸ bound),same]

theorem Ready.fetchEntry (ready : Ready cfg ctx) (index : Nat) (parsed : Parsed utlbCount) :
    Ready cfg (fetchEntry cfg ctx mode index parsed) := by
  have kept := coalesceEntry_kept cfg (cacheEntry cfg ctx index parsed) mode index
  have bound : 0 < cfg.maxFaults := Nat.zero_lt_of_lt ready.get_lt
  refine ⟨?_,?_⟩
  · rw [fetchEntry_get ready.get_lt]
    exact Nat.mod_lt _ bound
  · intro id above
    have above : max ctx.maxUtlbId parsed.utlbId < id := lt_of_eq_of_lt kept.maxUtlbId.symm above
    have other : id ≠ ((cacheEntry cfg ctx index parsed).faultCache index).utlbId := by
      rintro rfl
      simp [initEntry,alignAddress] at above
    exact (kept.pending id other).trans (ready.idle id (lt_of_le_of_lt (le_max_left _ _) above))

/-- The first `count` entries are what the ring holds from GET on. -/
structure Content (cfg : Config) (ring : Nat → Arrival utlbCount) (get : Nat)
    (ctx : Context utlbCount) (count : Nat) : Prop where
  get_eq : ctx.cachedGet = (get + count) % cfg.maxFaults
  parsed : ∀ i < count, ∃ parsed, (ring ((get + i) % cfg.maxFaults)).outcome = .ok parsed ∧
    (ctx.faultCache i).toParsed = alignAddress cfg parsed ∧
    (ctx.faultCache i).isFatal = parsed.faultType.isFatal

theorem Content.fetchEntry (content : Content cfg ring get ctx count) (ready : Ready cfg ctx)
    (arrived : (ring ctx.cachedGet).outcome = .ok parsed) :
    Content cfg ring get (fetchEntry cfg ctx mode count parsed) (count + 1) := by
  have kept := coalesceEntry_kept cfg (cacheEntry cfg ctx count parsed) mode count
  refine ⟨?_,?_⟩
  · rw [fetchEntry_get ready.get_lt,content.get_eq,Nat.mod_add_mod,Nat.add_assoc]
  · intro i bound
    have parsedEq : ((FaultFetch.fetchEntry cfg ctx mode count parsed).faultCache i).toParsed =
      ((cacheEntry cfg ctx count parsed).faultCache i).toParsed := kept.parsed i
    have fatalEq : ((FaultFetch.fetchEntry cfg ctx mode count parsed).faultCache i).isFatal =
      ((cacheEntry cfg ctx count parsed).faultCache i).isFatal := kept.isFatal i
    rw [parsedEq,fatalEq]
    by_cases new : i = count
    · subst new
      refine ⟨parsed,?_,?_,?_⟩
      · rw [← content.get_eq]
        exact arrived
      · simp [initEntry]
      · simp [initEntry]
    · have old : (cacheEntry cfg ctx count parsed).faultCache i = ctx.faultCache i := by
        simp [new]
      rw [old]
      exact content.parsed i (by omega)

theorem poll_entry {arrival : Arrival utlbCount}
    (goesOn : poll cfg mode arrival index = .entry parsed) : arrival.outcome = .ok parsed := by
  simp only [poll] at goesOn
  split at goesOn
  · cases goesOn
  · split at goesOn
    · cases goesOn
    · split at goesOn
      · cases goesOn
      next arrived =>
        cases goesOn
        exact arrived

theorem shown_cached (parsed : Parsed utlbCount) :
    shown (cacheEntry cfg ctx count parsed) count = shown ctx count :=
  shown_congr fun i inside => by simp [inside.ne]

theorem Remembered.cached (remembered : Remembered ctx count) (parsed : Parsed utlbCount) :
    Remembered (cacheEntry cfg ctx count parsed) count := by
  refine ⟨?_,remembered.last⟩
  intro id positive
  obtain ⟨⟨old,isRep⟩,utlb⟩ := remembered.utlb id positive
  have same : (cacheEntry cfg ctx count parsed).faultCache (ctx.utlbs id).lastFault =
      ctx.faultCache (ctx.utlbs id).lastFault := by
    simp [old.ne]
  exact ⟨⟨old,(congrArg Entry.filtered same).trans isRep⟩,
    (congrArg (fun entry : Entry utlbCount => entry.utlbId) same).trans utlb⟩

/-! What the fetch remembers can be told from the ring: for each uTLB and for the batch the last fault
and where it is, and whether the latter has been superseded. -/

structure Memory (utlbCount : Nat) where
  utlbs : Fin utlbCount → Option (Nat × Parsed utlbCount)
  last : Option (Nat × Parsed utlbCount)
  demoted : Bool

def Memory.empty : Memory utlbCount := ⟨fun _ => none,none,false⟩

def onPage (fault : Parsed utlbCount) (last : Nat × Parsed utlbCount) : Bool :=
  sameInstancePtr fault last.2 && decide (fault.faultAddress = last.2.faultAddress)

/-- Whether the next fault is merged safely, and what is remembered after it. -/
def Memory.step (cfg : Config) (mode : FetchMode) (memory : Memory utlbCount) (index : Nat)
    (fault : Parsed utlbCount) : Bool × Memory utlbCount :=
  let utlbs := Function.update memory.utlbs fault.utlbId (some (index,fault))
  let added : Bool × Memory utlbCount := (true,⟨utlbs,some (index,fault),false⟩)
  if mayFilter cfg mode && !fault.faultType.isFatal && memory.last.isSome then
    match (memory.utlbs fault.utlbId).filter (onPage fault) with
    | some (place,last) =>
      -- A higher access type takes the place of the last fault of the uTLB.
      if last.accessType < fault.accessType then
        (!last.faultType.isFatal,
          { memory with utlbs, demoted := memory.demoted || memory.last.any (·.1 = place) })
      else (true,memory)
    | none =>
      if memory.last.any fun last => onPage fault last && decide (fault.accessType ≤ last.2.accessType)
      then (!memory.demoted,memory) else added
  else added

/-- The faults that are fetched, from GET on. -/
def fetchedFaults (cfg : Config) (mode : FetchMode) (ring : Nat → Arrival utlbCount) :
    Nat → Nat → Nat → List (Parsed utlbCount)
  | 0, _, _ => []
  | entries + 1, index, get =>
    match poll cfg mode (ring get) index with
    | .stop _ => []
    | .entry parsed => alignAddress cfg parsed ::
        fetchedFaults cfg mode ring entries (index + 1) ((get + 1) % cfg.maxFaults)

def safeFaults (cfg : Config) (mode : FetchMode) :
    List (Parsed utlbCount) → Nat → Memory utlbCount → Bool
  | [], _, _ => true
  | fault :: faults, index, memory =>
    (memory.step cfg mode index fault).1 &&
      safeFaults cfg mode faults (index + 1) (memory.step cfg mode index fault).2

structure Recalls (ctx : Context utlbCount) (memory : Memory utlbCount) : Prop where
  utlbs : ∀ id, memory.utlbs id = if 0 < (ctx.utlbs id).numPendingFaults then
    some ((ctx.utlbs id).lastFault,(ctx.faultCache (ctx.utlbs id).lastFault).toParsed) else none
  last : memory.last = ctx.lastFault.map fun last => (last,(ctx.faultCache last).toParsed)
  demoted : ∀ last, ctx.lastFault = some last → memory.demoted = (ctx.faultCache last).filtered

section Recalls

variable {memory : Memory utlbCount} (recalls : Recalls ctx memory)
include recalls

theorem Recalls.lastTlb (index : Nat) : (memory.utlbs (ctx.faultCache index).utlbId).filter
    (onPage (ctx.faultCache index).toParsed) = if isLastTlbFault ctx index then
      some (lastTlbEntry ctx index,(ctx.faultCache (lastTlbEntry ctx index)).toParsed) else none := by
  rw [recalls.utlbs]
  by_cases pending : 0 < (ctx.utlbs (ctx.faultCache index).utlbId).numPendingFaults
  · simp [pending,Option.filter_some,isLastTlbFault,onPage,lastTlbEntry]
  · simp [pending,isLastTlbFault]

theorem Recalls.lastFault : (memory.last.any fun last => onPage (ctx.faultCache index).toParsed last &&
    decide ((ctx.faultCache index).accessType ≤ last.2.accessType)) =
      ctx.lastFault.any (isLastFault ctx index) := by
  rw [recalls.last]
  cases ctx.lastFault with
  | none => rfl
  | some last => simp [onPage,isLastFault,Bool.and_assoc]

theorem Recalls.add (unfiltered : (ctx.faultCache count).filtered = false) (isSame : Bool) :
    Recalls (addEntry ctx count isSame) ⟨Function.update memory.utlbs (ctx.faultCache count).utlbId
      (some (count,(ctx.faultCache count).toParsed)),some (count,(ctx.faultCache count).toParsed),
        false⟩ := by
  refine ⟨fun id => ?_,?_,?_⟩
  · by_cases own : id = (ctx.faultCache count).utlbId
    · subst own
      simp [addEntry]
    · rw [(addEntry_entry ..).1]
      simp [addEntry,own,recalls.utlbs]
  · simp [addEntry]
  · rintro last ⟨⟩
    rw [(addEntry_entry ..).2.2,unfiltered]

section

variable (remembered : Remembered ctx count)
include remembered

theorem Recalls.join (last : Nat) : Recalls (join ctx count last) memory := by
  refine ⟨fun id => ?_,?_,fun known same => ?_⟩
  · rw [recalls.utlbs,(join_parsed ..).1]
    rfl
  · rw [recalls.last]
    exact congrArg (ctx.lastFault.map ·) (funext fun last => by rw [(join_parsed ..).1])
  · rw [recalls.demoted known same,join_filtered,if_neg (remembered.last known same).ne]

theorem Recalls.replaceLastTlb (lastTlb : isLastTlbFault ctx count = true) :
    Recalls (replaceLastTlb ctx count) { memory with
      utlbs := Function.update memory.utlbs (ctx.faultCache count).utlbId
        (some (count,(ctx.faultCache count).toParsed))
      demoted := memory.demoted || memory.last.any (·.1 = lastTlbEntry ctx count) } := by
  have parsed (i : Nat) : ((FaultFetch.replaceLastTlb ctx count).faultCache i).toParsed =
      (ctx.faultCache i).toParsed := (supersede_parsed ..).1
  refine ⟨fun id => ?_,?_,fun known same => ?_⟩
  · rw [parsed]
    by_cases own : id = (ctx.faultCache count).utlbId
    · subst own
      have pending := (isLastTlbFault_iff.mp lastTlb).1
      simp [FaultFetch.replaceLastTlb,setLastFault,supersede,pending]
    · simp [FaultFetch.replaceLastTlb,setLastFault,supersede,own,recalls.utlbs]
  · rw [recalls.last]
    exact congrArg (ctx.lastFault.map ·) (funext fun last => by rw [parsed])
  · have same : ctx.lastFault = some known := same
    have filtered : ((FaultFetch.replaceLastTlb ctx count).faultCache known).filtered =
        if known = lastTlbEntry ctx count then true else (ctx.faultCache known).filtered :=
      supersede_filtered _ _ _ (remembered.lastTlb lastTlb).1.1.ne
    simp only [filtered,recalls.last,same,recalls.demoted known same,Option.map_some,Option.any_some]
    split <;> simp [*]

variable (cfg mode) in
/-- The memory decides as the fetch does. -/
theorem Recalls.coalesceEntry (unfiltered : (ctx.faultCache count).filtered = false)
    (typed : ∀ i ≤ count,(ctx.faultCache i).isFatal = (ctx.faultCache i).faultType.isFatal) :
    let next := memory.step cfg mode count (ctx.faultCache count).toParsed
    next.1 = safeMerge cfg ctx mode count ∧ Recalls (coalesceEntry cfg ctx mode count) next.2 := by
  have mergeable : (mayFilter cfg mode && !(ctx.faultCache count).faultType.isFatal) =
      isMergeable cfg ctx mode count := by rw [isMergeable,typed count le_rfl]
  have may : mayFilter cfg mode = true ∧ (ctx.faultCache count).isFatal = false ↔
      isMergeable cfg ctx mode count = true := by simp [isMergeable]
  have begun : memory.last.isSome = ctx.lastFault.isSome := by rw [recalls.last,Option.isSome_map]
  simp only [Memory.step,mergeable,begun,recalls.lastTlb,recalls.lastFault]
  cases known : ctx.lastFault with
  | none => simp [safeMerge,FaultFetch.coalesceEntry,known,recalls.add unfiltered]
  | some last =>
    simp only [FaultFetch.coalesceEntry,safeMerge,known,may,Option.isSome_some,Bool.and_true]
    cases isMergeable cfg ctx mode count with
    | false => exact ⟨rfl,recalls.add unfiltered _⟩
    | true =>
      simp only [if_true]
      cases lastTlb : isLastTlbFault ctx count with
      | true =>
        have old := (remembered.lastTlb lastTlb).1.1
        simp only [tryMergeEntry,lastTlb,if_true,mergeEntry]
        split
        next higher =>
          exact ⟨by simp [higher,typed _ old.le],recalls.replaceLastTlb remembered lastTlb⟩
        next lower => exact ⟨by simp [lower],recalls.join remembered _⟩
      | false =>
        cases lastFault : isLastFault ctx count last with
        | true =>
          have lower := (isLastFault_iff.mp lastFault).2
          simp [tryMergeEntry,lastTlb,lastFault,mergeEntry,not_lt.mpr lower,
            recalls.demoted last known,recalls.join remembered]
        | false =>
          simp [tryMergeEntry,lastTlb,lastFault,recalls.add unfiltered]

end

end Recalls

/-- What holds of a batch of `count` entries, safe or not. -/
structure Fetched (cfg : Config) (ring : Nat → Arrival utlbCount) (get : Nat)
    (ctx : Context utlbCount) (count : Nat) : Prop where
  remembered : Remembered ctx count
  content : Content cfg ring get ctx count
  ready : Ready cfg ctx
  shown_le : shown ctx count ≤ count

section

variable (fetched : Fetched cfg ring get ctx count)
include fetched

theorem Fetched.fetchEntry (arrived : (ring ctx.cachedGet).outcome = .ok parsed) :
    Fetched cfg ring get (fetchEntry cfg ctx mode count parsed) (count + 1) := by
  have remembered : Remembered (cacheEntry cfg ctx count parsed) count :=
    fetched.remembered.cached parsed
  have unfiltered : ((cacheEntry cfg ctx count parsed).faultCache count).filtered = false := by
    simp [initEntry]
  have after := remembered.coalesceEntry unfiltered cfg mode
  have least := (coalesceEntry_shown remembered unfiltered cfg mode).1
  rw [shown_cached] at least
  exact ⟨⟨after.utlb,after.last⟩,fetched.content.fetchEntry fetched.ready arrived,
    fetched.ready.fetchEntry count parsed,least.trans (Nat.succ_le_succ fetched.shown_le)⟩

variable (mode) in
/-- One more entry: the memory follows, a safe step keeps the groups and another one breaks them. -/
theorem Fetched.grouped {memory : Memory utlbCount} (recalls : Recalls ctx memory)
    (parsed : Parsed utlbCount) :
    let next := memory.step cfg mode count (alignAddress cfg parsed)
    let ctx' := FaultFetch.fetchEntry cfg ctx mode count parsed
    Recalls ctx' next.2 ∧
      (next.1 = true → (∃ members, Groups ctx count members) →
        ∃ members, Groups ctx' (count + 1) members) ∧
      (Broken ctx count ∨ next.1 = false → Broken ctx' (count + 1)) := by
  have remembered : Remembered (cacheEntry cfg ctx count parsed) count :=
    fetched.remembered.cached parsed
  have same : ∀ i < count, (cacheEntry cfg ctx count parsed).faultCache i = ctx.faultCache i :=
    fun i inside => by simp [inside.ne]
  have unfiltered : ((cacheEntry cfg ctx count parsed).faultCache count).filtered = false := by
    simp [initEntry]
  have typed : ∀ i ≤ count, ((cacheEntry cfg ctx count parsed).faultCache i).isFatal =
      ((cacheEntry cfg ctx count parsed).faultCache i).faultType.isFatal := by
    intro i bound
    rcases bound.eq_or_lt with rfl | inside
    · simp [initEntry,alignAddress]
    · obtain ⟨parsed',-,content,fatal⟩ := fetched.content.parsed i inside
      rw [same i inside,fatal,content]
      rfl
  have cached : Recalls (cacheEntry cfg ctx count parsed) memory := by
    refine ⟨fun id => ?_,?_,fun last known => ?_⟩
    · rw [recalls.utlbs]
      refine if_ctx_congr Iff.rfl (fun positive => ?_) fun _ => rfl
      exact congrArg (fun entry : Entry utlbCount => some ((ctx.utlbs id).lastFault,entry.toParsed))
        (same _ (fetched.remembered.utlb id positive).1.1).symm
    · rw [recalls.last]
      cases known : ctx.lastFault with
      | none => simp [known]
      | some last => simp [known,(fetched.remembered.last last known).ne]
    · rw [same _ (fetched.remembered.last last known)]
      exact recalls.demoted last known
  obtain ⟨safe,after⟩ := cached.coalesceEntry cfg mode remembered unfiltered typed
  have page : ((cacheEntry cfg ctx count parsed).faultCache count).toParsed =
      alignAddress cfg parsed := by simp [initEntry]
  rw [page] at safe after
  refine ⟨⟨after.utlbs,after.last,after.demoted⟩,fun isSafe ⟨members,groups⟩ => ?_,fun broken => ?_⟩
  · obtain ⟨members',grouped⟩ := (groups.frame same rfl rfl fun _ => rfl).coalesceEntry remembered
      unfiltered (safe.symm.trans isSafe)
    exact ⟨members',grouped.frame (fun _ _ => rfl) rfl rfl fun _ => rfl⟩
  · refine coalesceEntry_broken remembered unfiltered cfg mode ?_ (broken.imp ?_ safe.symm.trans)
    · rw [shown_cached]
      exact fetched.shown_le
    · rintro (⟨i,inside,fatal,filtered⟩ | few)
      · exact .inl ⟨i,inside,by rwa [same i inside],by rwa [same i inside]⟩
      · exact .inr (by rwa [shown_cached])

end

variable (mode) in
theorem fetchLoop_spec (entries : Nat) : ∀ {index : Nat} {ctx : Context utlbCount}
    {memory : Memory utlbCount}, Fetched cfg ring get ctx index → Recalls ctx memory →
    let safe := safeFaults cfg mode (fetchedFaults cfg mode ring entries index ctx.cachedGet) index
      memory
    let final := fetchLoop cfg mode ring entries index ctx
    Fetched cfg ring get final.2.2 final.2.1 ∧
      (safe = true → (∃ members, Groups ctx index members) →
        ∃ members, Groups final.2.2 final.2.1 members) ∧
      (Broken ctx index ∨ safe = false → Broken final.2.2 final.2.1) := by
  induction entries with
  | zero => exact fun fetched _ => ⟨fetched,fun _ => id,fun broken => broken.resolve_right nofun⟩
  | succ entries ih =>
    intro index ctx memory fetched recalls
    simp only [fetchLoop,fetchedFaults]
    cases next : poll cfg mode (ring ctx.cachedGet) index with
    | stop status => exact ⟨fetched,fun _ => id,fun broken => broken.resolve_right nofun⟩
    | entry parsed =>
      obtain ⟨after,keeps,breaks⟩ := fetched.grouped mode recalls parsed
      obtain ⟨all,grouped,broken⟩ := ih (fetched.fetchEntry (poll_entry next)) after
      rw [fetchEntry_get fetched.ready.get_lt] at grouped broken
      refine ⟨all,fun safe groups => ?_,fun notSafe => broken ?_⟩
      · obtain ⟨first,rest⟩ := Bool.and_eq_true_iff.mp safe
        exact grouped rest (keeps first groups)
      · rcases notSafe with before | notSafe
        · exact .inl (breaks (.inl before))
        · rcases Bool.and_eq_false_iff.mp notSafe with first | rest
          · exact .inl (breaks (.inr first))
          · exact .inr rest

variable (mode ring) in
theorem Ready.fetchLoop (entries : Nat) : ∀ (index : Nat) {ctx : Context utlbCount},
    Ready cfg ctx → Ready cfg (fetchLoop cfg mode ring entries index ctx).2.2 := by
  induction entries with
  | zero => exact fun _ _ ready => ready
  | succ entries ih =>
    intro index ctx ready
    simp only [FaultFetch.fetchLoop]
    split
    · exact ready
    · exact ih _ (ready.fetchEntry index _)

theorem updatePut_fields (ctx : Context utlbCount) (put : Nat) :
    (updatePut ctx put).utlbs = ctx.utlbs ∧ (updatePut ctx put).maxUtlbId = ctx.maxUtlbId ∧
      (updatePut ctx put).cachedGet = ctx.cachedGet := by
  simp only [updatePut]
  split <;> exact ⟨rfl,rfl,rfl⟩

/-- Clearing the counters up to the highest id of the last batch clears them all. -/
theorem Ready.reset (ready : Ready cfg ctx) (put : Nat) (id : Fin utlbCount) :
    ((resetBatch (updatePut ctx put)).utlbs id).numPendingFaults = 0 := by
  obtain ⟨utlbs,maxUtlbId,-⟩ := updatePut_fields ctx put
  simp only [resetBatch,utlbs,maxUtlbId]
  split
  next => rfl
  next above => exact ready.idle id (not_le.mp above)

variable (ring) in
theorem Ready.start (ready : Ready cfg ctx) (put : Nat) :
    Fetched cfg ring ctx.cachedGet (resetBatch (updatePut ctx put)) 0 := by
  have get : (resetBatch (updatePut ctx put)).cachedGet = ctx.cachedGet :=
    (updatePut_fields ctx put).2.2
  have cleared := ready.reset put
  refine ⟨⟨?_,?_⟩,⟨?_,?_⟩,⟨?_,?_⟩,Nat.zero_le _⟩
  · exact fun id positive => absurd positive (by simp [cleared])
  · exact fun last eq => by cases eq
  · rw [get,Nat.add_zero,Nat.mod_eq_of_lt ready.get_lt]
  · exact fun i bound => absurd bound (Nat.not_lt_zero i)
  · rw [get]
    exact ready.get_lt
  · exact fun id _ => cleared id

theorem Ready.recalls (ready : Ready cfg ctx) (put : Nat) :
    Recalls (resetBatch (updatePut ctx put)) .empty :=
  ⟨fun id => by simp [ready.reset put id,Memory.empty],rfl,nofun⟩

theorem Ready.groups (ready : Ready cfg ctx) (put : Nat) :
    Groups (resetBatch (updatePut ctx put)) 0 fun _ => [] := by
  refine ⟨?_,?_,?_,?_,rfl,?_⟩
  · exact fun rep isRep => absurd isRep.1 (Nat.not_lt_zero rep)
  · exact fun _ _ member => absurd member List.not_mem_nil
  · exact fun i bound => absurd bound (Nat.not_lt_zero i)
  · exact fun i bound => absurd bound (Nat.not_lt_zero i)
  · simp only [ready.reset put,Finset.sum_const_zero]
    rfl

/-- The contexts in which a fetch can begin. Between two fetches everything may change but the
uTLB counters and the highest id, and GET stays in the ring. -/
inductive Reachable (cfg : Config) : Context utlbCount → Prop
  | initial {ctx : Context utlbCount} (get : ctx.cachedGet < cfg.maxFaults)
      (zeroed : ∀ id, (ctx.utlbs id).numPendingFaults = 0) : Reachable cfg ctx
  | fetch {ctx : Context utlbCount} (before : Reachable cfg ctx) (mode : FetchMode) (put : Nat)
      (ring : Nat → Arrival utlbCount) :
      Reachable cfg (fetchFaultBufferEntries cfg ctx mode put ring).2
  | service {ctx next : Context utlbCount} (before : Reachable cfg ctx)
      (get : next.cachedGet < cfg.maxFaults) (maxUtlbId : next.maxUtlbId = ctx.maxUtlbId)
      (pending : ∀ id, (next.utlbs id).numPendingFaults = (ctx.utlbs id).numPendingFaults) :
      Reachable cfg next

theorem Reachable.ready (reachable : Reachable cfg ctx) : Ready cfg ctx := by
  induction reachable with
  | initial get zeroed => exact ⟨get,fun id _ => zeroed id⟩
  | fetch before mode put ring ih =>
    have after := fun entries => Ready.fetchLoop mode ring entries 0 (ih.start ring put).ready
    exact ⟨(after _).get_lt,(after _).idle⟩
  | service before get maxUtlbId pending ih =>
    refine ⟨get,fun id above => ?_⟩
    rw [pending]
    exact ih.idle id (maxUtlbId ▸ above)

/-- Every fault that the fetch takes from the ring is merged safely. -/
def safeFetch (cfg : Config) (ctx : Context utlbCount) (mode : FetchMode) (put : Nat)
    (ring : Nat → Arrival utlbCount) : Bool :=
  safeFaults cfg mode (fetchedFaults cfg mode ring (entriesBeforePut cfg (updatePut ctx put)) 0
    ctx.cachedGet) 0 .empty

/-- The fetched entries are those of the ring, split into groups on one page, and GET has moved
past them. -/
structure Coalesced (cfg : Config) (ring : Nat → Arrival utlbCount) (get : Nat)
    (final : Context utlbCount) : Prop where
  groups : ∃ members, Groups final final.numCachedFaults members
  content : Content cfg ring get final final.numCachedFaults

section Sample

def sampleConfig : Config := ⟨4096,8,8,true,true⟩

def sampleContext : Context 2 where
  faultCache := fun _ => ⟨⟨0,⟨0,0⟩,0,0,.invalidPte,.read⟩,false,.invalid,none,none,false,.all,0,∅⟩
  links := ⟨fun n => n,fun n => n⟩
  utlbs := fun _ => ⟨0,false,0⟩
  maxUtlbId := 0
  isSingleInstancePtr := true
  lastFault := none
  numCachedFaults := 0
  numCoalescedFaults := 0
  cachedGet := 0
  cachedPut := 0

section

variable (faults : List (Fin 2 × FaultType × AccessType))

/-- A ring that begins with faults of the given uTLBs and types on one page. -/
def sampleRing (get : Nat) : Arrival 2 :=
  match faults[get]? with
  | none => ⟨false,.error (.other 0)⟩
  | some (utlbId,faultType,accessType) => ⟨true,.ok ⟨8192,⟨0,0⟩,0,utlbId,faultType,accessType⟩⟩

def sampleFetch : NvStatus × Context 2 :=
  fetchFaultBufferEntries sampleConfig sampleContext .batchReady faults.length (sampleRing faults)

end

theorem sampleContext_reachable : Reachable sampleConfig sampleContext :=
  .initial (by decide) fun _ => rfl

/-- A fault joins from another uTLB, the first one is superseded, and a fatal one is added. -/
def mixedFaults : List (Fin 2 × FaultType × AccessType) :=
  [(0,.invalidPte,.read),(1,.invalidPte,.read),(0,.write,.write),(1,.poisoned,.read)]

/-- The last fault of the batch is superseded within its uTLB, then another uTLB repeats it. -/
def staleFaults : List (Fin 2 × FaultType × AccessType) :=
  [(0,.invalidPte,.read),(0,.write,.write),(1,.invalidPte,.prefetch)]

def fatalFaults : List (Fin 2 × FaultType × AccessType) :=
  [(0,.poisoned,.read),(0,.write,.write)]

end Sample

end GpuExt.FaultFetch
