import GpuExt.FaultFetch
import Mathlib.Algebra.BigOperators.Fin
import Mathlib.Data.Fintype.BigOperators

/-! Groups of coalesced faults on one page, each with one representative, and what adding a
fault to the batch does to them. -/
namespace GpuExt.FaultFetch

open Function List
open FaultBatch ListHead

variable {utlbCount : Nat}

/-- Equal instance pointer, sub-context and page. -/
def SamePage (a b : Parsed utlbCount) : Prop :=
  a.instancePtr = b.instancePtr ∧ a.veId = b.veId ∧ a.faultAddress = b.faultAddress

variable (ctx : Context utlbCount) (count : Nat)

def Representative (rep : Nat) : Prop := rep < count ∧ (ctx.faultCache rep).filtered = false

/-- The representative stands for itself and the members of its merged list. -/
structure Group (rep : Nat) (members : List Nat) : Prop where
  circle : Circle ctx.links rep members
  filtered : ∀ i ∈ members, i < count ∧ (ctx.faultCache i).filtered = true
  same : ∀ i ∈ members, SamePage (ctx.faultCache i).toParsed (ctx.faultCache rep).toParsed
  highest : ∀ i ∈ members, (ctx.faultCache i).accessType ≤ (ctx.faultCache rep).accessType
  numInstances : (ctx.faultCache rep).numInstances = (rep :: members).length
  mask : (ctx.faultCache rep).accessTypeMask =
    ((rep :: members).map fun i => (ctx.faultCache i).accessType).toFinset

/-- The first `count` entries are split into groups. -/
structure Groups (members : Nat → List Nat) : Prop where
  group : ∀ rep, Representative ctx count rep → Group ctx count rep (members rep)
  disjoint : ∀ {rep other i : Nat}, Representative ctx count rep → Representative ctx count other →
    i ∈ members rep → i ∈ members other → rep = other
  covered : ∀ i < count, (ctx.faultCache i).filtered = true →
    ∃ rep, Representative ctx count rep ∧ i ∈ members rep
  fatal : ∀ i < count, (ctx.faultCache i).isFatal = true → Representative ctx count i
  counted : ctx.numCoalescedFaults =
    ((Finset.range count).filter fun i => (ctx.faultCache i).filtered = false).card
  pending : ∑ id, (ctx.utlbs id).numPendingFaults = ctx.numCoalescedFaults

/-- The remembered faults are in the batch, and that of a uTLB is one of its representatives. -/
structure Remembered : Prop where
  utlb : ∀ id, 0 < (ctx.utlbs id).numPendingFaults →
    Representative ctx count (ctx.utlbs id).lastFault ∧
      (ctx.faultCache (ctx.utlbs id).lastFault).utlbId = id
  last : ∀ last, ctx.lastFault = some last → last < count

variable {ctx count} {members : Nat → List Nat} {last : Nat}

section Steps

variable (ctx) (current i : Nat)

theorem join_parsed : ((join ctx current last).faultCache i).toParsed =
      (ctx.faultCache i).toParsed ∧
    ((join ctx current last).faultCache i).isFatal = (ctx.faultCache i).isFatal := by
  simp only [join,countInstance,update_apply]
  split
  · simp [*]
  · split <;> simp [*]

theorem join_filtered : ((join ctx current last).faultCache i).filtered =
    if i = current then true else (ctx.faultCache i).filtered := by
  simp only [join,countInstance,update_apply]
  split
  · rfl
  · split <;> simp [*]

theorem join_other (notCurrent : i ≠ current) (notLast : i ≠ last) :
    (join ctx current last).faultCache i = ctx.faultCache i := by
  simp [join,notCurrent,notLast]

theorem join_last (notCurrent : last ≠ current) : (join ctx current last).faultCache last =
    countInstance (ctx.faultCache current) (ctx.faultCache last) := by
  simp [join,notCurrent]

theorem supersede_parsed : ((supersede ctx current last).faultCache i).toParsed =
      (ctx.faultCache i).toParsed ∧
    ((supersede ctx current last).faultCache i).isFatal = (ctx.faultCache i).isFatal := by
  simp only [supersede,countInstance,update_apply]
  split
  · simp [*]
  · split <;> simp [*]

theorem supersede_filtered (notCurrent : last ≠ current) :
    ((supersede ctx current last).faultCache i).filtered =
      if i = last then true else (ctx.faultCache i).filtered := by
  simp only [supersede,update_apply]
  split
  · simp_all [Ne.symm notCurrent]
  · split <;> simp

theorem supersede_other (notCurrent : i ≠ current) (notLast : i ≠ last) :
    (supersede ctx current last).faultCache i = ctx.faultCache i := by
  simp [supersede,notCurrent,notLast]

theorem addEntry_entry (isSame : Bool) : ((addEntry ctx current isSame).faultCache i).toParsed =
      (ctx.faultCache i).toParsed ∧
    ((addEntry ctx current isSame).faultCache i).isFatal = (ctx.faultCache i).isFatal ∧
    ((addEntry ctx current isSame).faultCache i).filtered = (ctx.faultCache i).filtered := by
  simp only [addEntry,update_apply]
  split <;> simp [*]

end Steps

variable {rep : Nat} {next : Context utlbCount} {es : List Nat}

/-- What two groups hold is disjoint. -/
theorem Groups.apart (groups : Groups ctx count members) {other i : Nat}
    (isRep : Representative ctx count rep) (isOther : Representative ctx count other)
    (differ : rep ≠ other) (member : i ∈ rep :: members rep) : i ∉ other :: members other := by
  intro both
  rcases mem_cons.mp member with rfl | member
  · rcases mem_cons.mp both with same | both
    · exact differ same
    · have filtered := ((groups.group other isOther).filtered i both).2
      simp [isRep.2] at filtered
  · rcases mem_cons.mp both with rfl | both
    · have filtered := ((groups.group rep isRep).filtered i member).2
      simp [isOther.2] at filtered
    · exact differ (groups.disjoint isRep isOther member both)

theorem Groups.lt (groups : Groups ctx count members) {i : Nat}
    (isRep : Representative ctx count rep) (member : i ∈ rep :: members rep) : i < count := by
  rcases mem_cons.mp member with rfl | member
  · exact isRep.1
  · exact ((groups.group rep isRep).filtered i member).1

/-- A group that a step does not touch. -/
theorem Group.frame (group : Group ctx count rep es)
    (cache : ∀ i ∈ rep :: es, next.faultCache i = ctx.faultCache i)
    (links : ∀ i ∈ rep :: es, next.links.next (.entry i) = ctx.links.next (.entry i) ∧
      next.links.prev (.entry i) = ctx.links.prev (.entry i)) {more : Nat} (grows : count ≤ more) :
    Group next more rep es := by
  have head := cache rep (by simp)
  have tail : ∀ i ∈ es, next.faultCache i = ctx.faultCache i := fun i member =>
    cache i (by simp [member])
  refine ⟨group.circle.frame (fun i member => (links i member).1) fun i member => (links i member).2,
    ?_,?_,?_,?_,?_⟩
  · intro i member
    rw [tail i member]
    exact ⟨(group.filtered i member).1.trans_le grows,(group.filtered i member).2⟩
  · intro i member
    rw [tail i member,head]
    exact group.same i member
  · intro i member
    rw [tail i member,head]
    exact group.highest i member
  · rw [head]
    exact group.numInstances
  · rw [head,group.mask]
    congr 1
    exact map_congr_left fun i member => by rw [cache i member]

/-- The fault at the end of the batch and one group make up a group with the representative
`rep`; the step touches nothing else. -/
structure Grown (ctx next : Context utlbCount) (count last rep : Nat) (group es : List Nat) :
    Prop where
  merged : Group next (count + 1) rep es
  mem : ∀ i, i ∈ rep :: es ↔ i = count ∨ i ∈ last :: group
  representative : ∀ i, Representative next (count + 1) i ↔
    i = rep ∨ Representative ctx count i ∧ i ≠ last
  cache : ∀ i, i ≠ count → i ≠ last → next.faultCache i = ctx.faultCache i
  links : ∀ i, i ≠ count → i ∉ last :: group →
    next.links.next (.entry i) = ctx.links.next (.entry i) ∧
      next.links.prev (.entry i) = ctx.links.prev (.entry i)
  numCoalescedFaults : next.numCoalescedFaults = ctx.numCoalescedFaults
  numPendingFaults : ∀ id, (next.utlbs id).numPendingFaults = (ctx.utlbs id).numPendingFaults

theorem mem_representatives {i : Nat} :
    i ∈ (Finset.range count).filter (fun i => (ctx.faultCache i).filtered = false) ↔
      Representative ctx count i := by
  simp [Representative]

/-- One representative goes, or stays, and one comes, or stays. -/
theorem card_representatives (isRep : Representative ctx count last)
    (choice : rep = last ∨ rep = count) (representative : ∀ i, Representative next (count + 1) i ↔
      i = rep ∨ Representative ctx count i ∧ i ≠ last) :
    ((Finset.range (count + 1)).filter fun i => (next.faultCache i).filtered = false).card =
      ((Finset.range count).filter fun i => (ctx.faultCache i).filtered = false).card := by
  set before := (Finset.range count).filter fun i => (ctx.faultCache i).filtered = false
  have shape : (Finset.range (count + 1)).filter (fun i => (next.faultCache i).filtered = false) =
      insert rep (before.erase last) := by
    ext i
    rw [mem_representatives,representative,Finset.mem_insert,Finset.mem_erase,mem_representatives,
      and_comm (a := i ≠ last)]
  have absent : rep ∉ before.erase last := by
    rcases choice with rfl | rfl
    · exact Finset.notMem_erase rep before
    · intro member
      exact lt_irrefl _ (mem_representatives.mp (Finset.mem_of_mem_erase member)).1
  have present : last ∈ before := mem_representatives.mpr isRep
  rw [shape,Finset.card_insert_of_notMem absent,Finset.card_erase_add_one present]

section

variable (groups : Groups ctx count members) (isRep : Representative ctx count last)
include groups isRep

theorem Groups.grow (choice : rep = last ∨ rep = count)
    (grown : Grown ctx next count last rep (members last) es)
    (fatal : ∀ i < count + 1, (next.faultCache i).isFatal = true →
      Representative next (count + 1) i) : Groups next (count + 1) (update members rep es) := by
  -- A representative of the next context with its members there, and where they come from.
  have origin : ∀ r, Representative next (count + 1) r →
      r = rep ∧ update members rep es r = es ∨
      r ≠ rep ∧ Representative ctx count r ∧ r ≠ last ∧
        update members rep es r = members r := by
    intro r isNext
    by_cases new : r = rep
    · exact .inl ⟨new,by rw [new,update_self]⟩
    · obtain ⟨old,notLast⟩ := ((grown.representative r).mp isNext).resolve_left new
      exact .inr ⟨new,old,notLast,update_of_ne new _ _⟩
  have untouched : ∀ r, Representative ctx count r → r ≠ last → ∀ i ∈ r :: members r,
      i ≠ count ∧ i ∉ last :: members last := fun r old notLast i member =>
    ⟨(groups.lt old member).ne,groups.apart old isRep notLast member⟩
  have outside : ∀ r, Representative ctx count r → r ≠ last → ∀ i ∈ members r, i ∉ es := by
    intro r old notLast i member inside
    have away := untouched r old notLast i (mem_cons_of_mem _ member)
    rcases (grown.mem i).mp (mem_cons_of_mem _ inside) with new | inside
    · exact away.1 new
    · exact away.2 inside
  refine ⟨?_,?_,?_,fatal,?_,?_⟩
  · intro r isNext
    obtain ⟨rfl,eq⟩ | ⟨-,old,notLast,eq⟩ := origin r isNext
    · rw [eq]
      exact grown.merged
    · rw [eq]
      refine (groups.group r old).frame ?_ ?_ (Nat.le_succ count)
      · intro i member
        have away := untouched r old notLast i member
        exact grown.cache i away.1 fun eq => away.2 (by simp [eq])
      · intro i member
        have away := untouched r old notLast i member
        exact grown.links i away.1 away.2
  · intro r s i rNext sNext inR inS
    obtain ⟨rfl,eqR⟩ | ⟨-,oldR,notR,eqR⟩ := origin r rNext
    · obtain ⟨rfl,-⟩ | ⟨-,oldS,notS,eqS⟩ := origin s sNext
      · rfl
      · rw [eqR] at inR
        rw [eqS] at inS
        exact absurd inR (outside s oldS notS i inS)
    · rw [eqR] at inR
      obtain ⟨rfl,eqS⟩ | ⟨-,oldS,-,eqS⟩ := origin s sNext
      · rw [eqS] at inS
        exact absurd inS (outside r oldR notR i inR)
      · rw [eqS] at inS
        exact groups.disjoint oldR oldS inR inS
  · intro i bound filtered
    have repNext := (grown.representative rep).mpr (.inl rfl)
    have notRep : i ≠ rep := by
      rintro rfl
      simp [repNext.2] at filtered
    by_cases inside : i ∈ rep :: es
    · refine ⟨rep,repNext,?_⟩
      rw [update_self]
      exact (mem_cons.mp inside).resolve_left notRep
    · -- The entry was in another group before.
      have away := not_or.mp (mt (grown.mem i).mpr inside)
      have notLast : i ≠ last := fun eq => away.2 (by simp [eq])
      rw [grown.cache i away.1 notLast] at filtered
      obtain ⟨r,old,member⟩ := groups.covered i (by omega) filtered
      have other : r ≠ last := by
        rintro rfl
        exact away.2 (mem_cons_of_mem _ member)
      have differ : r ≠ rep := by
        rintro rfl
        rcases choice with rfl | rfl
        · exact other rfl
        · exact lt_irrefl _ old.1
      exact ⟨r,(grown.representative r).mpr (.inr ⟨old,other⟩),by
        rwa [update_of_ne differ]⟩
  · rw [card_representatives isRep choice grown.representative,grown.numCoalescedFaults]
    exact groups.counted
  · simp only [grown.numPendingFaults,grown.numCoalescedFaults]
    exact groups.pending

theorem grown_join (same : SamePage (ctx.faultCache count).toParsed (ctx.faultCache last).toParsed)
    (lower : (ctx.faultCache count).accessType ≤ (ctx.faultCache last).accessType) :
    Grown ctx (join ctx count last) count last last (members last) (count :: members last) := by
  have group := groups.group last isRep
  have notCount : last ≠ count := isRep.1.ne
  have fresh : count ∉ last :: members last := fun member => (groups.lt isRep member).ne rfl
  refine ⟨⟨group.circle.add fresh,?_,?_,?_,?_,?_⟩,?_,?_,?_,?_,rfl,fun _ => rfl⟩
  · intro i member
    rw [join_filtered]
    rcases mem_cons.mp member with rfl | member
    · simp
    · have old := group.filtered i member
      simp [old.2,Nat.lt_succ_of_lt old.1]
  · intro i member
    simp only [join_parsed]
    rcases mem_cons.mp member with rfl | member
    · exact same
    · exact group.same i member
  · intro i member
    simp only [join_parsed]
    rcases mem_cons.mp member with rfl | member
    · exact lower
    · exact group.highest i member
  · rw [join_last _ _ notCount]
    simp [countInstance,group.numInstances]
  · simp only [join_parsed]
    rw [join_last _ _ notCount]
    simp [countInstance,group.mask,Finset.insert_comm]
  · simp only [mem_cons]
    tauto
  · intro i
    simp only [Representative,join_filtered]
    by_cases new : i = count
    · simp [new,Ne.symm notCount]
    · simp only [if_neg new]
      by_cases eq : i = last
      · simp [eq,isRep.2,Nat.lt_succ_of_lt isRep.1]
      · simp only [eq,false_or,ne_eq,not_false_eq_true,and_true]
        refine and_congr_left fun _ => ?_
        omega
  · exact fun i => join_other ctx count i
  · exact fun i => group.circle.add_other

theorem grown_supersede
    (same : SamePage (ctx.faultCache count).toParsed (ctx.faultCache last).toParsed)
    (higher : (ctx.faultCache last).accessType < (ctx.faultCache count).accessType)
    (unfiltered : (ctx.faultCache count).filtered = false) :
    Grown ctx (supersede ctx count last) count last count (members last)
      (last :: members last) := by
  have group := groups.group last isRep
  have notCount : last ≠ count := isRep.1.ne
  have fresh : count ∉ last :: members last := fun member => (groups.lt isRep member).ne rfl
  have replaced := group.circle.replace fresh
  have absent : last ∉ count :: members last := by
    simp only [mem_cons,not_or]
    exact ⟨notCount,(nodup_cons.mp group.circle.nodup).1⟩
  have new : (supersede ctx count last).faultCache count = { ctx.faultCache count with
      accessTypeMask := insert (ctx.faultCache count).accessType (ctx.faultCache last).accessTypeMask
      numInstances := (ctx.faultCache last).numInstances + 1 } := by
    simp [supersede,countInstance]
  refine ⟨⟨replaced.add absent,?_,?_,?_,?_,?_⟩,?_,?_,?_,?_,rfl,fun _ => rfl⟩
  · intro i member
    rw [supersede_filtered _ _ _ notCount]
    rcases mem_cons.mp member with rfl | member
    · simp [Nat.lt_succ_of_lt isRep.1]
    · have old := group.filtered i member
      simp [old.2,Nat.lt_succ_of_lt old.1]
  · intro i member
    simp only [supersede_parsed]
    have swapped : SamePage (ctx.faultCache last).toParsed (ctx.faultCache count).toParsed :=
      ⟨same.1.symm,same.2.1.symm,same.2.2.symm⟩
    rcases mem_cons.mp member with rfl | member
    · exact swapped
    · obtain ⟨instancePtr,veId,address⟩ := group.same i member
      exact ⟨instancePtr.trans swapped.1,veId.trans swapped.2.1,address.trans swapped.2.2⟩
  · intro i member
    simp only [supersede_parsed]
    rcases mem_cons.mp member with rfl | member
    · exact higher.le
    · exact (group.highest i member).trans higher.le
  · rw [new]
    simp [group.numInstances]
  · simp only [supersede_parsed]
    rw [new]
    simp [group.mask]
  · intro i
    simp
  · intro i
    simp only [Representative,supersede_filtered _ _ _ notCount]
    by_cases eq : i = last
    · simp [eq,notCount]
    · simp only [ne_eq,eq,not_false_eq_true,and_true]
      by_cases isNew : i = count
      · simp [isNew,unfiltered]
      · simp only [isNew,false_or]
        refine and_congr_left fun _ => ?_
        omega
  · exact fun i => supersede_other ctx count i
  · intro i notNew outside
    have notLast : i ≠ last := fun eq => outside (by simp [eq])
    have away : i ∉ count :: members last := by
      simp only [mem_cons,not_or]
      exact ⟨notNew,fun member => outside (mem_cons_of_mem _ member)⟩
    have first := group.circle.replace_other notNew outside
    have second := replaced.add_other notLast away
    exact ⟨second.1.trans first.1,second.2.trans first.2⟩

end

/-- The fault at the end of the batch is a group of its own. -/
theorem Groups.add (groups : Groups ctx count members)
    (unfiltered : (ctx.faultCache count).filtered = false) (isSame : Bool) :
    Groups (addEntry ctx count isSame) (count + 1) (update members count []) := by
  have rep_iff : ∀ rep, Representative (addEntry ctx count isSame) (count + 1) rep ↔
      rep = count ∨ Representative ctx count rep := by
    intro rep
    simp only [Representative,addEntry_entry]
    by_cases new : rep = count
    · simp [new,unfiltered]
    · simp only [new,false_or]
      refine and_congr_left fun _ => ?_
      omega
  have other_cache : ∀ i < count, (addEntry ctx count isSame).faultCache i = ctx.faultCache i := by
    intro i old
    simp [addEntry,old.ne]
  -- The members of an older group are what they were, and the new group has none.
  have mem_iff : ∀ rep, Representative (addEntry ctx count isSame) (count + 1) rep → ∀ i,
      i ∈ update members count [] rep ↔ Representative ctx count rep ∧ i ∈ members rep := by
    intro rep isNext i
    rcases (rep_iff rep).mp isNext with rfl | old
    · simp [Representative]
    · simp [old,old.1.ne]
  refine ⟨?_,?_,?_,?_,?_,?_⟩
  · intro rep isNext
    rcases (rep_iff rep).mp isNext with rfl | old
    · rw [update_self]
      refine ⟨circle_init _ _,by simp,by simp,by simp,?_,?_⟩
      · simp [addEntry]
      · simp [addEntry]
    · rw [update_of_ne old.1.ne]
      refine (groups.group rep old).frame ?_ ?_ (Nat.le_succ count)
      · exact fun i member => other_cache i (groups.lt old member)
      · exact fun i member => initListHead_other _ (groups.lt old member).ne
  · intro rep other i repNext otherNext inRep inOther
    obtain ⟨oldRep,inRep⟩ := (mem_iff rep repNext i).mp inRep
    obtain ⟨oldOther,inOther⟩ := (mem_iff other otherNext i).mp inOther
    exact groups.disjoint oldRep oldOther inRep inOther
  · intro i bound filtered
    simp only [addEntry_entry] at filtered
    have old : i ≠ count := by
      rintro rfl
      simp [unfiltered] at filtered
    obtain ⟨rep,isRep,member⟩ := groups.covered i (by omega) filtered
    have isNext := (rep_iff rep).mpr (.inr isRep)
    exact ⟨rep,isNext,(mem_iff rep isNext i).mpr ⟨isRep,member⟩⟩
  · intro i bound fatal
    simp only [addEntry_entry] at fatal
    by_cases new : i = count
    · exact (rep_iff i).mpr (.inl new)
    · exact (rep_iff i).mpr (.inr (groups.fatal i (by omega) fatal))
  · simp only [addEntry_entry]
    rw [Finset.range_add_one,Finset.filter_insert,if_pos unfiltered,
      Finset.card_insert_of_notMem (by simp),← groups.counted]
    rfl
  · have counters : ∀ id, ((addEntry ctx count isSame).utlbs id).numPendingFaults =
        (ctx.utlbs id).numPendingFaults + if id = (ctx.faultCache count).utlbId then 1 else 0 := by
      intro id
      simp only [addEntry]
      split <;> simp [*]
    simp only [counters,Finset.sum_add_distrib,Finset.sum_ite_eq',Finset.mem_univ]
    rw [groups.pending]
    rfl

/-- The groups depend on the entries that are in the batch, their links and the counters. -/
theorem Groups.frame (groups : Groups ctx count members)
    (cache : ∀ i < count, next.faultCache i = ctx.faultCache i) (links : next.links = ctx.links)
    (coalesced : next.numCoalescedFaults = ctx.numCoalescedFaults)
    (pending : ∀ id, (next.utlbs id).numPendingFaults = (ctx.utlbs id).numPendingFaults) :
    Groups next count members := by
  have rep_iff : ∀ rep, Representative next count rep ↔ Representative ctx count rep := by
    intro rep
    refine and_congr_right fun bound => ?_
    rw [cache rep bound]
  refine ⟨?_,?_,?_,?_,?_,?_⟩
  · intro rep isRep
    have old := (rep_iff rep).mp isRep
    refine (groups.group rep old).frame (fun i member => cache i (groups.lt old member)) ?_ le_rfl
    simp [links]
  · intro rep other i isRep isOther
    exact groups.disjoint ((rep_iff rep).mp isRep) ((rep_iff other).mp isOther)
  · intro i bound filtered
    rw [cache i bound] at filtered
    simpa only [rep_iff] using groups.covered i bound filtered
  · intro i bound fatal
    rw [cache i bound] at fatal
    exact (rep_iff i).mpr (groups.fatal i bound fatal)
  · rw [coalesced,groups.counted]
    congr 1
    refine Finset.filter_congr fun i member => ?_
    rw [cache i (Finset.mem_range.mp member)]
  · simp only [pending,coalesced]
    exact groups.pending

section

variable (remembered : Remembered ctx count)
include remembered

theorem Remembered.add (unfiltered : (ctx.faultCache count).filtered = false) (isSame : Bool) :
    Remembered (addEntry ctx count isSame) (count + 1) := by
  refine ⟨?_,?_⟩
  · intro id
    simp only [Representative,addEntry_entry]
    by_cases own : id = (ctx.faultCache count).utlbId
    · subst own
      simp [addEntry,unfiltered]
    · have unchanged : (addEntry ctx count isSame).utlbs id = ctx.utlbs id := by
        simp [addEntry,own]
      rw [unchanged]
      intro positive
      obtain ⟨⟨old,isRep⟩,utlb⟩ := remembered.utlb id positive
      exact ⟨⟨Nat.lt_succ_of_lt old,isRep⟩,utlb⟩
  · intro last eq
    cases eq
    exact Nat.lt_succ_self count

theorem Remembered.join : Remembered (join ctx count last) (count + 1) := by
  refine ⟨?_,fun last eq => Nat.lt_succ_of_lt (remembered.last last eq)⟩
  intro id positive
  obtain ⟨⟨old,isRep⟩,utlb⟩ := remembered.utlb id positive
  refine ⟨⟨Nat.lt_succ_of_lt old,?_⟩,?_⟩
  · rw [join_filtered]
    exact (if_neg old.ne).trans isRep
  · rw [(join_parsed ..).1]
    exact utlb

/-- The uTLB of the new representative remembers it, and the others have not lost theirs. -/
theorem Remembered.supersede (unfiltered : (ctx.faultCache count).filtered = false) (old : lastTlbEntry ctx count < count)
    (utlb : (ctx.faultCache (lastTlbEntry ctx count)).utlbId = (ctx.faultCache count).utlbId) :
    Remembered (setLastFault (supersede ctx count (lastTlbEntry ctx count))
      (ctx.faultCache count).utlbId count) (count + 1) := by
  refine ⟨?_,fun last eq => Nat.lt_succ_of_lt (remembered.last last eq)⟩
  intro id
  simp only [Representative,setLastFault,supersede_filtered _ _ _ old.ne,supersede_parsed]
  by_cases own : id = (ctx.faultCache count).utlbId
  · subst own
    simp [old.ne',unfiltered]
  · rw [update_of_ne own]
    intro positive
    obtain ⟨⟨earlier,isRep⟩,other⟩ := remembered.utlb id positive
    have differ : (ctx.utlbs id).lastFault ≠ lastTlbEntry ctx count := by
      intro eq
      rw [eq,utlb] at other
      exact own other.symm
    exact ⟨⟨Nat.lt_succ_of_lt earlier,(if_neg differ).trans isRep⟩,other⟩

end

end GpuExt.FaultFetch
