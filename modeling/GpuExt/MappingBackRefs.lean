import GpuExt.ListHead

/-! Mappings of resources and the back references to them. Whether a mapping is in the list of its
context is not recorded: adding and removing it decide it separately. -/
namespace GpuExt.MappingBackRefs

open Function Option
open ListHead

/-! The lists of `containers/list.c`. Their ends are NULL, which is modelled as the head for a
node in a list, and as the node itself for a node in none. -/

structure Lists where
  links : Links Nat Nat
  count : Nat → Nat

def Lists.empty : Lists := ⟨unlinked Nat Nat,fun _ => 0⟩

def listAppend (l : Lists) (list node : Nat) : Lists :=
  ⟨listAddTail l.links (.entry node) (.head list),update l.count list ((l.count list + 1) % 2 ^ 32)⟩

/-- NULL on either side means an end of the given list, whether the node is in it or not. -/
def listRemove (l : Lists) (list node : Nat) : Lists :=
  let neighbour n := if n = .entry node then .head list else n
  ⟨initListHead (listDelBetween l.links (neighbour (l.links.prev (.entry node)))
      (neighbour (l.links.next (.entry node)))) (.entry node),
    update l.count list ((l.count list + 2 ^ 32 - 1) % 2 ^ 32)⟩

structure CpuMapping where
  resource : Nat
  context : Option Nat
  deriving DecidableEq, Repr

structure InterMapping where
  mapper : Nat
  mappable : Nat
  context : Nat
  deriving DecidableEq, Repr

/-- The mappings that exist, and their lists by the resource that owns the list. -/
structure State where
  cpu : List (Nat × CpuMapping)
  inter : List (Nat × InterMapping)
  next : Nat
  cpuMappings : Lists
  backRefs : Lists
  interMappings : Lists
  interBackRefsMappable : Lists
  interBackRefsContext : Lists

def State.start : State := ⟨[],[],0,.empty,.empty,.empty,.empty,.empty⟩

inductive Allocated where
  | done
  | noNode
  | noPrivate
  deriving DecidableEq, Repr

section

variable {μ : Type}

section

variable (l : Lists) (owner : Option Nat) (node : Nat)

def link : Lists :=
  owner.elim l fun list => listAppend l list node

def unlink : Lists :=
  owner.elim l fun list => listRemove l list node

def remaining (mappings : List (Nat × μ)) : List (Nat × μ) :=
  mappings.filter fun m => m.1 ≠ node

end

end

section Calls

-- No parent of a live resource changes.
variable (refHasAncestor : Nat → Nat → Bool)

section

variable (s : State) (node : Nat) (m : CpuMapping)

/-- Where `refAddMapping` puts the back reference. -/
def addedBackRef : Option Nat :=
  m.context.filter fun context => context ≠ m.resource ∧ !refHasAncestor m.resource context

/-- Where `refRemoveMapping` takes it from. -/
def removedBackRef : Option Nat :=
  m.context.filter fun context => !refHasAncestor m.resource context

def contextBackRef (m : InterMapping) : Option Nat :=
  if !refHasAncestor m.mapper m.context ∧ !refHasAncestor m.mappable m.context then some m.context
  else none

def refAddMapping : Allocated → State
  | .noNode => s
  | .noPrivate => { s with
      next := s.next + 1
      cpuMappings := listRemove (listAppend s.cpuMappings m.resource s.next) m.resource s.next }
  | .done => { s with
      cpu := s.cpu ++ [(s.next,m)]
      next := s.next + 1
      cpuMappings := listAppend s.cpuMappings m.resource s.next
      backRefs := link s.backRefs (addedBackRef refHasAncestor m) s.next }

def refRemoveMapping : State :=
  { s with
    cpu := remaining node s.cpu
    cpuMappings := listRemove s.cpuMappings m.resource node
    backRefs := unlink s.backRefs (removedBackRef refHasAncestor m) node }

def refAddInterMapping (m : InterMapping) (allocated : Bool) : State :=
  if allocated then
    { s with
      inter := s.inter ++ [(s.next,m)]
      next := s.next + 1
      interMappings := listAppend s.interMappings m.mapper s.next
      interBackRefsMappable := listAppend s.interBackRefsMappable m.mappable s.next
      interBackRefsContext :=
        link s.interBackRefsContext (contextBackRef refHasAncestor m) s.next }
  else s

def refRemoveInterMapping (m : InterMapping) : State :=
  { s with
    inter := remaining node s.inter
    interMappings := listRemove s.interMappings m.mapper node
    interBackRefsMappable := listRemove s.interBackRefsMappable m.mappable node
    interBackRefsContext := unlink s.interBackRefsContext (contextBackRef refHasAncestor m) node }

inductive Call where
  | addMapping (resource : Nat) (context : Option Nat) (allocated : Allocated)
  | removeMapping (node : Nat)
  | addInterMapping (mapper mappable : Nat) (context : Option Nat) (allocated : Bool)
  | removeInterMapping (node : Nat)
  deriving DecidableEq, Repr

/-- Nothing for a mapping that does not exist, and for the NULL context whose list
`refAddInterMapping` would write to. -/
def step : Call → Option State
  | .addMapping resource context allocated =>
    some (refAddMapping refHasAncestor s ⟨resource,context⟩ allocated)
  | .removeMapping node =>
    (s.cpu.lookup node).map (refRemoveMapping refHasAncestor s node)
  | .addInterMapping mapper mappable context allocated =>
    context.map fun context =>
      refAddInterMapping refHasAncestor s ⟨mapper,mappable,context⟩ allocated
  | .removeInterMapping node =>
    (s.inter.lookup node).map (refRemoveInterMapping refHasAncestor s node)

end

def execute : List Call → State → Option State
  | [], s => some s
  | call :: calls, s => (step refHasAncestor s call).bind (execute calls)

end Calls

/-! One list per resource, with the mappings that belong there. -/

section Lists

variable {μ : Type} {owner : μ → Option Nat} {mappings : List (Nat × μ)} {l : Lists} {node : Nat}
  {m : μ}

def owned (owner : μ → Option Nat) (mappings : List (Nat × μ)) (resource : Nat) : List Nat :=
  (mappings.filter fun m => owner m.2 = some resource).map (·.1)

structure Holds (owner : μ → Option Nat) (mappings : List (Nat × μ)) (l : Lists) : Prop where
  linked : Represents l.links (owned owner mappings)
  count : ∀ resource,l.count resource = (owned owner mappings resource).length % 2 ^ 32

theorem mem_owned {resource : Nat} : node ∈ owned owner mappings resource ↔
    ∃ m,(node,m) ∈ mappings ∧ owner m = some resource := by
  simp [owned]

theorem mem_of_lookup (found : mappings.lookup node = some m) : (node,m) ∈ mappings := by
  induction mappings with
  | nil => exact nomatch found
  | cons first rest ih =>
    rw [List.lookup_cons] at found
    split at found
    next same =>
      rw [← some.inj found,beq_iff_eq.mp same]
      exact List.mem_cons_self
    · exact List.mem_cons_of_mem _ (ih found)

theorem holds_empty : Holds owner [] Lists.empty := ⟨represents_unlinked,fun _ => rfl⟩

theorem owned_append (resource : Nat) : owned owner (mappings ++ [(node,m)]) resource =
    owned owner mappings resource ++ if owner m = some resource then [node] else [] := by
  by_cases here : owner m = some resource <;> simp [owned,here]

theorem owned_remaining (distinct : (mappings.map (·.1)).Nodup) (resource : Nat) :
    owned owner (remaining node mappings) resource = (owned owner mappings resource).erase node := by
  have nodup : (owned owner mappings resource).Nodup := distinct.sublist (List.filter_sublist.map _)
  rw [nodup.erase_eq_filter]
  simp only [owned,remaining,List.filter_map,List.filter_filter]
  simp [Bool.and_comm,beq_eq_decide,bne]

/-- A new mapping is linked where it belongs. -/
theorem Holds.add (holds : Holds owner mappings l) (fresh : ∀ m,(node,m) ∉ mappings) :
    Holds owner (mappings ++ [(node,m)]) (link l (owner m) node) := by
  have absent : ∀ resource,node ∉ owned owner mappings resource := fun resource member =>
    (mem_owned.mp member).elim fun m found => fresh m found.1
  rcases place : owner m with _ | list
  · have same : owned owner (mappings ++ [(node,m)]) = owned owner mappings := by
      funext resource
      rw [owned_append,place]
      exact List.append_nil _
    exact ⟨same ▸ holds.linked,fun resource => same ▸ holds.count resource⟩
  · have grown : owned owner (mappings ++ [(node,m)]) =
        update (owned owner mappings) list (owned owner mappings list ++ [node]) := by
      funext resource
      rw [owned_append,place,update_apply]
      by_cases here : resource = list
      · rw [here,if_pos rfl,if_pos rfl]
      · rw [if_neg here,if_neg fun same => here (some.inj same).symm,List.append_nil]
    refine ⟨grown ▸ holds.linked.addTail absent list,fun resource => ?_⟩
    rw [grown]
    change update l.count list _ resource = _
    rw [update_apply,update_apply]
    split
    · rw [holds.count,List.length_append,List.length_singleton,Nat.mod_add_mod]
    · exact holds.count resource

/-- A node of a list has other nodes, or the head, on its sides. -/
theorem neighbours_ne {links : Links Nat Nat} {lists : Nat → List Nat} {h e : Nat}
    (linked : Represents links lists) (member : e ∈ lists h) :
    links.prev (.entry e) ≠ .entry e ∧ links.next (.entry e) ≠ .entry e := by
  obtain ⟨ns,shape⟩ := mem_rotate (c := nodes h _) (mem_nodes.mpr (.inr ⟨e,member,rfl⟩))
  have head : .head h ∈ nodes h (lists h) := mem_nodes.mpr (.inl rfl)
  have ring := linked.ring h
  rw [shape] at ring head
  have outside := (List.nodup_cons.mp (Cycle.nodup_coe_iff.mp ring.nodup)).1
  obtain ⟨path,last⟩ := ring.path
  cases ns with
  | nil => simp at head
  | cons a ns =>
    rw [last.2,(List.isChain_cons_cons.mp path).1.1]
    refine ⟨fun same => outside (same ▸ List.getLast_mem _),fun same => ?_⟩
    exact outside (by simp [same])

/-- A mapping that is linked is taken out. -/
theorem Holds.remove (holds : Holds owner mappings l) (distinct : (mappings.map (·.1)).Nodup)
    (member : (node,m) ∈ mappings) : Holds owner (remaining node mappings)
      (unlink l (owner m) node) := by
  have shrunk : owned owner (remaining node mappings) =
      fun resource => (owned owner mappings resource).erase node :=
    funext (owned_remaining distinct)
  have only : ∀ resource,node ∈ owned owner mappings resource → owner m = some resource := by
    intro resource inside
    obtain ⟨other,found,place⟩ := mem_owned.mp inside
    obtain rfl : other = m := (Prod.mk.inj (List.inj_on_of_nodup_map distinct found member rfl)).2
    exact place
  rcases place : owner m with _ | list
  · have same : owned owner (remaining node mappings) = owned owner mappings := by
      rw [shrunk]
      funext resource
      refine List.erase_of_not_mem fun inside => ?_
      rw [place] at only
      exact nomatch only resource inside
    exact ⟨same ▸ holds.linked,fun resource => same ▸ holds.count resource⟩
  · have inside : node ∈ owned owner mappings list := mem_owned.mpr ⟨m,member,place⟩
    obtain ⟨before,after⟩ := neighbours_ne holds.linked inside
    have plain : (unlink l (some list) node).links = listDelInit l.links (.entry node) := by
      simp only [unlink,listRemove,if_neg before,if_neg after]
      rfl
    refine ⟨?_,fun resource => ?_⟩
    · rw [plain,shrunk]
      exact holds.linked.delInit node
    · rw [shrunk]
      change update l.count list _ resource = _
      rw [update_apply]
      split
      next here =>
        have some_one := List.length_pos_of_mem inside
        rw [here,holds.count,List.length_erase_of_mem inside]
        omega
      next other =>
        have absent : node ∉ owned owner mappings resource := fun elsewhere =>
          other (some.inj (place.symm.trans (only resource elsewhere))).symm
        rw [holds.count]
        dsimp only
        rw [List.erase_of_not_mem absent]

end Lists

/-! All lists. -/

section Runs

variable {refHasAncestor : Nat → Nat → Bool} {s s' : State}

/-- The mappings of a kind have been allocated one after the other. -/
structure Numbered {μ : Type} (next : Nat) (mappings : List (Nat × μ)) : Prop where
  below : ∀ m ∈ mappings,m.1 < next
  distinct : (mappings.map (·.1)).Nodup

variable {μ : Type} {next node : Nat} {mappings : List (Nat × μ)} {m : CpuMapping}

section

variable (numbered : Numbered next mappings)
include numbered

theorem Numbered.add (m : μ) : Numbered (next + 1) (mappings ++ [(next,m)]) where
  below other member := by
    rcases List.mem_append.mp member with old | new
    · exact Nat.lt_succ_of_lt (numbered.below other old)
    · rw [List.mem_singleton.mp new]
      exact Nat.lt_succ_self next
  distinct := by
    rw [List.map_append,List.map_cons,List.map_nil,List.nodup_append]
    refine ⟨numbered.distinct,List.nodup_singleton _,fun a old b new same => ?_⟩
    obtain ⟨other,member,rfl⟩ := List.mem_map.mp old
    rw [List.mem_singleton.mp new] at same
    exact absurd (numbered.below other member) (same ▸ Nat.lt_irrefl _)

theorem Numbered.fresh (m : μ) : (next,m) ∉ mappings := fun member =>
  Nat.lt_irrefl _ (numbered.below _ member)

theorem Numbered.remaining (node : Nat) : Numbered next (remaining node mappings) where
  below m member := numbered.below m (List.mem_filter.mp member).1
  distinct := numbered.distinct.sublist (List.filter_sublist.map _)

theorem Numbered.later : Numbered (next + 1) mappings :=
  ⟨fun m member => Nat.lt_succ_of_lt (numbered.below m member),numbered.distinct⟩

theorem Numbered.remaining_next (m : μ) :
    MappingBackRefs.remaining next (mappings ++ [(next,m)]) = mappings := by
  simp only [MappingBackRefs.remaining,List.filter_append,List.filter_cons,List.filter_nil,ne_eq,
    not_true_eq_false,decide_false,Bool.false_eq_true,if_false,List.append_nil]
  exact List.filter_eq_self.mpr fun other member =>
    decide_eq_true (Nat.ne_of_lt (numbered.below other member))

end

variable (refHasAncestor) in
/-- Every list has exactly the mappings that belong there, in the order of their creation, and
their number. -/
structure Accurate (s : State) : Prop where
  cpu : Numbered s.next s.cpu
  inter : Numbered s.next s.inter
  cpuMappings : Holds (fun m : CpuMapping => some m.resource) s.cpu s.cpuMappings
  backRefs : Holds (addedBackRef refHasAncestor) s.cpu s.backRefs
  interMappings : Holds (fun m : InterMapping => some m.mapper) s.inter s.interMappings
  interBackRefsMappable :
    Holds (fun m : InterMapping => some m.mappable) s.inter s.interBackRefsMappable
  interBackRefsContext : Holds (contextBackRef refHasAncestor) s.inter s.interBackRefsContext

/-- The context of a CPU mapping is not the resource that is mapped. -/
def OtherContext : Call → Prop
  | .addMapping resource context _ => context ≠ some resource
  | _ => True

/-- What the conditions on the calls so far mean for the mappings. -/
def OtherContexts (s : State) : Prop := ∀ m ∈ s.cpu,m.2.context ≠ some m.2.resource

theorem removedBackRef_eq (other : m.context ≠ some m.resource) :
    removedBackRef refHasAncestor m = addedBackRef refHasAncestor m := by
  obtain ⟨resource,context⟩ := m
  cases context with
  | none => rfl
  | some context =>
    have different : context ≠ resource := fun same => other (congrArg some same)
    simp [removedBackRef,addedBackRef,Option.filter,different]

section

variable (accurate : Accurate refHasAncestor s)
include accurate

theorem Accurate.refAddMapping (m : CpuMapping) (allocated : Allocated) :
    Accurate refHasAncestor (refAddMapping refHasAncestor s m allocated) := by
  have added := accurate.cpuMappings.add (m := m) accurate.cpu.fresh
  cases allocated with
  | noNode => exact accurate
  | noPrivate =>
    have back := added.remove (accurate.cpu.add m).distinct
      (List.mem_append_right _ List.mem_cons_self)
    rw [accurate.cpu.remaining_next] at back
    exact { accurate with
      cpu := accurate.cpu.later, inter := accurate.inter.later, cpuMappings := back }
  | done => exact { accurate with
      cpu := accurate.cpu.add m
      inter := accurate.inter.later
      cpuMappings := added
      backRefs := accurate.backRefs.add accurate.cpu.fresh }

theorem Accurate.refRemoveMapping (member : (node,m) ∈ s.cpu)
    (other : m.context ≠ some m.resource) :
    Accurate refHasAncestor (refRemoveMapping refHasAncestor s node m) := by
  have backRefs := accurate.backRefs.remove accurate.cpu.distinct member
  rw [← removedBackRef_eq other] at backRefs
  exact { accurate with
    cpu := accurate.cpu.remaining node
    cpuMappings := accurate.cpuMappings.remove accurate.cpu.distinct member
    backRefs := backRefs }

theorem Accurate.refAddInterMapping (m : InterMapping) (allocated : Bool) :
    Accurate refHasAncestor (refAddInterMapping refHasAncestor s m allocated) := by
  have fresh := accurate.inter.fresh
  cases allocated with
  | false => exact accurate
  | true => exact { accurate with
      cpu := accurate.cpu.later
      inter := accurate.inter.add m
      interMappings := accurate.interMappings.add fresh
      interBackRefsMappable := accurate.interBackRefsMappable.add fresh
      interBackRefsContext := accurate.interBackRefsContext.add fresh }

theorem Accurate.refRemoveInterMapping {m : InterMapping} (member : (node,m) ∈ s.inter) :
    Accurate refHasAncestor (refRemoveInterMapping refHasAncestor s node m) :=
  have distinct := accurate.inter.distinct
  { accurate with
    inter := accurate.inter.remaining node
    interMappings := accurate.interMappings.remove distinct member
    interBackRefsMappable := accurate.interBackRefsMappable.remove distinct member
    interBackRefsContext := accurate.interBackRefsContext.remove distinct member }

/-- One call. -/
theorem Accurate.step (contexts : OtherContexts s) {call : Call} (other : OtherContext call)
    (run : step refHasAncestor s call = some s') :
    Accurate refHasAncestor s' ∧ OtherContexts s' := by
  cases call with
  | addMapping resource context allocated =>
    obtain rfl := some.inj run
    refine ⟨accurate.refAddMapping _ _,?_⟩
    cases allocated with
    | noNode => exact contexts
    | noPrivate => exact contexts
    | done =>
      intro m member
      rcases List.mem_append.mp member with old | new
      · exact contexts m old
      · rw [List.mem_singleton.mp new]
        exact other
  | removeMapping node =>
    obtain ⟨m,found,rfl⟩ := map_eq_some_iff.mp run
    have member := mem_of_lookup found
    exact ⟨accurate.refRemoveMapping member (contexts _ member),
      fun m inside => contexts m (List.mem_filter.mp inside).1⟩
  | addInterMapping mapper mappable context allocated =>
    obtain ⟨context,-,rfl⟩ := map_eq_some_iff.mp run
    refine ⟨accurate.refAddInterMapping _ _,?_⟩
    cases allocated <;> exact contexts
  | removeInterMapping node =>
    obtain ⟨m,found,rfl⟩ := map_eq_some_iff.mp run
    exact ⟨accurate.refRemoveInterMapping (mem_of_lookup found),contexts⟩

end

theorem accurate_start : Accurate refHasAncestor .start :=
  have numbered {μ : Type} : Numbered (μ := μ) 0 [] := ⟨nofun,List.nodup_nil⟩
  ⟨numbered,numbered,holds_empty,holds_empty,holds_empty,holds_empty,holds_empty⟩

theorem Accurate.execute {calls : List Call} (accurate : Accurate refHasAncestor s)
    (contexts : OtherContexts s) (other : ∀ call ∈ calls,OtherContext call)
    (run : execute refHasAncestor calls s = some s') :
    Accurate refHasAncestor s' ∧ OtherContexts s' := by
  induction calls generalizing s with
  | nil => exact some.inj run ▸ ⟨accurate,contexts⟩
  | cons call calls ih =>
    obtain ⟨between,first,rest⟩ := bind_eq_some_iff.mp run
    obtain ⟨accurate,contexts⟩ := accurate.step contexts (other call List.mem_cons_self) first
    exact ih accurate contexts (fun later member => other later (List.mem_cons_of_mem _ member)) rest

/-- The lists of all resources, and their counts, are the same. -/
def SameLists (a b : Lists) : Prop := ∀ resource,a.count resource = b.count resource ∧
  ∀ nodes,Segment a.links (.head resource) nodes (.head resource) ↔
    Segment b.links (.head resource) nodes (.head resource)

structure Unchanged (s s' : State) : Prop where
  cpuMappings : SameLists s.cpuMappings s'.cpuMappings
  backRefs : SameLists s.backRefs s'.backRefs
  interMappings : SameLists s.interMappings s'.interMappings
  interBackRefsMappable : SameLists s.interBackRefsMappable s'.interBackRefsMappable
  interBackRefsContext : SameLists s.interBackRefsContext s'.interBackRefsContext

theorem Holds.sameLists {owner : μ → Option Nat} {a b : Lists} (first : Holds owner mappings a)
    (second : Holds owner mappings b) : SameLists a b := by
  refine fun resource => ⟨(first.count resource).trans (second.count resource).symm,fun nodes =>
    ⟨fun segment => ?_,fun segment => ?_⟩⟩
  · rw [segment_unique segment (first.linked.circle resource)]
    exact second.linked.circle resource
  · rw [segment_unique segment (second.linked.circle resource)]
    exact first.linked.circle resource

/-- The mappings that exist determine the lists. -/
theorem Accurate.unchanged (accurate : Accurate refHasAncestor s)
    (accurate' : Accurate refHasAncestor s') (cpu : s'.cpu = s.cpu) (inter : s'.inter = s.inter) :
    Unchanged s s' where
  cpuMappings := accurate.cpuMappings.sameLists (cpu ▸ accurate'.cpuMappings)
  backRefs := accurate.backRefs.sameLists (cpu ▸ accurate'.backRefs)
  interMappings := accurate.interMappings.sameLists (inter ▸ accurate'.interMappings)
  interBackRefsMappable :=
    accurate.interBackRefsMappable.sameLists (inter ▸ accurate'.interBackRefsMappable)
  interBackRefsContext :=
    accurate.interBackRefsContext.sameLists (inter ▸ accurate'.interBackRefsContext)

/-- As long as no CPU mapping has its own resource as its context. -/
theorem back_references_accurate {calls : List Call} (other : ∀ call ∈ calls,OtherContext call)
    (run : execute refHasAncestor calls .start = some s) :
    Accurate refHasAncestor s ∧
    (∀ resource context s',context ≠ some resource →
      execute refHasAncestor [.addMapping resource context .done,.removeMapping s.next] s = some s' →
      Unchanged s s') ∧
    (∀ mapper mappable context s',
      execute refHasAncestor [.addInterMapping mapper mappable context true,
        .removeInterMapping s.next] s = some s' → Unchanged s s') := by
  obtain ⟨accurate,contexts⟩ := accurate_start.execute (fun m => nofun) other run
  refine ⟨accurate,fun resource context s' apart both => ?_,
    fun mapper mappable context s' both => ?_⟩
  · have after := (accurate.execute contexts (by simpa [OtherContext] using apart) both).1
    obtain ⟨between,added,rest⟩ := bind_eq_some_iff.mp both
    obtain ⟨last,removed,ends⟩ := bind_eq_some_iff.mp rest
    obtain rfl : last = s' := some.inj ends
    obtain rfl := some.inj added
    obtain ⟨m,-,rfl⟩ := map_eq_some_iff.mp removed
    exact accurate.unchanged after (accurate.cpu.remaining_next _) rfl
  · have after := (accurate.execute contexts (by simp [OtherContext]) both).1
    obtain ⟨between,added,rest⟩ := bind_eq_some_iff.mp both
    obtain ⟨last,removed,ends⟩ := bind_eq_some_iff.mp rest
    obtain rfl : last = s' := some.inj ends
    obtain ⟨context,-,rfl⟩ := map_eq_some_iff.mp added
    obtain ⟨m,-,rfl⟩ := map_eq_some_iff.mp removed
    exact accurate.unchanged after rfl (accurate.inter.remaining_next _)

end Runs

def contextCalls : List Call :=
  [.addMapping 2 (some 1) .done,.addMapping 1 none .done,.addInterMapping 1 2 (some 3) true,
    .removeMapping 0]

theorem back_references_accurate_sample : ∃ s,
    execute (fun _ _ => false) contextCalls .start = some s ∧ Accurate (fun _ _ => false) s := by
  have completes : (execute (fun _ _ => false) contextCalls .start).isSome := by decide
  obtain ⟨s,run⟩ := isSome_iff_exists.mp completes
  exact ⟨s,run,(back_references_accurate (by simp [contextCalls,OtherContext]) run).1⟩

/-- Resource 1 is the context of a mapping of resource 2. A mapping of resource 1 with itself as
the context is made and removed: it was in no list, so that the list of resource 1 is lost. -/
theorem back_reference_lost : ∃ s,
    execute (fun _ _ => false) [.addMapping 2 (some 1) .done,.addMapping 1 (some 1) .done,
      .removeMapping 1] .start = some s ∧
    s.cpu = [(0,⟨2,some 1⟩)] ∧ addedBackRef (fun _ _ => false) ⟨2,some 1⟩ = some 1 ∧
    s.backRefs.links.next (.head 1) = .head 1 ∧ s.backRefs.count 1 = 0 :=
  ⟨_,rfl,by decide,by decide,by decide,by decide⟩

end GpuExt.MappingBackRefs
