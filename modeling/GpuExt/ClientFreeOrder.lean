import GpuExt.ClientFree
import GpuExt.MoveToFront

/-! The pending free list holds what can be reached from its target, every resource behind its
children and dependants, so that a tree is freed from its leaves on. -/
namespace GpuExt.ClientFree

open MoveToFront List

def following (client : Client) (handle : Nat) : List Nat :=
  (client.ref handle).childRefMap ++ (client.ref handle).depRefMap

/-- No walk over the resources is longer. -/
abbrev Client.depth (client : Client) : Nat := client.resources.card

/-- The maps of a client fit together, and no resource hangs on itself. -/
structure WellFormed (client : Client) : Prop where
  closed : ∀ h ∈ client.resources, ∀ y ∈ following client h, y ∈ client.resources
  parent_mem : ∀ h ∈ client.resources, ∀ p, (client.ref h).parentRef = some p →
    p ∈ client.resources
  child_iff : ∀ p ∈ client.resources, ∀ h ∈ client.resources,
    h ∈ (client.ref p).childRefMap ↔ (client.ref h).parentRef = some p
  nodup : ∀ p ∈ client.resources, (client.ref p).childRefMap.Nodup
  acyclic : ∀ h ∈ client.resources, ¬Relation.TransGen (Edge (following client)) h h

section Update

variable {client : Client} {fuel target reference : Nat}

theorem update_all (ys : List Nat) (each : ∀ y ∈ ys, ∀ list,
      clientUpdatePendingFreeList fuel { client with pendingFreeList := list } y reference true =
        { client with pendingFreeList := visit (following client) fuel y list }) (list : List Nat) :
    ys.foldl (fun c y => clientUpdatePendingFreeList fuel c y reference true)
        { client with pendingFreeList := list } =
      { client with pendingFreeList := visitAll (following client) fuel ys list } := by
  induction ys generalizing list with
  | nil => rfl
  | cons y ys ih =>
    rw [foldl_cons,each y (by simp),ih fun z member => each z (by simp [member])]
    rfl

/-- A move walks over the children and dependants, unless the free stack stops it. -/
theorem update_move : ∀ {client : Client} {target : Nat},
    (∀ y, Reach (following client) target y → y = reference ∨ y ∉ client.freeStack) →
    clientUpdatePendingFreeList fuel client target reference true =
      { client with
        pendingFreeList := visit (following client) fuel target client.pendingFreeList } := by
  induction fuel with
  | zero => exact fun _ => rfl
  | succ fuel ih =>
    intro client target free
    have passes : ¬isCircular client target reference = true := by
      rcases free target .refl with rfl | outside
      · simp [isCircular]
      · simp [isCircular,outside]
    simp only [clientUpdatePendingFreeList,true_and,if_neg passes,← foldl_append]
    exact update_all _ (fun y edge list => ih fun z path => free z (.head edge path)) _

/-- Without a move the target stays where it is. -/
theorem update_keep (free : ∀ y ∈ following client target, ∀ z,
      Reach (following client) y z → z = reference ∨ z ∉ client.freeStack) :
    clientUpdatePendingFreeList (fuel + 1) client target reference false =
      { client with
        pendingFreeList := visitAll (following client) fuel (following client target)
          (putInList client target false).pendingFreeList } := by
  have put : putInList client target false = { client with
      pendingFreeList := (putInList client target false).pendingFreeList } := by
    simp only [putInList]
    split
    · rfl
    · split <;> rfl
  simp only [clientUpdatePendingFreeList,← foldl_append]
  rw [put]
  exact update_all _ (fun y edge list => update_move (free y edge)) _

end Update

/-- The list holds what the target leads to, each resource once and behind those it leads to, and
the target last. -/
structure Listed (next : Nat → List Nat) (target : Nat) (list : List Nat) : Prop where
  nodup : list.Nodup
  mem : ∀ h, h ∈ list ↔ Reach next target h
  settled : Settled next list
  last : ∃ before, list = before ++ [target]

variable {client : Client} {target h y : Nat}

section

variable (wellFormed : WellFormed client) (member : h ∈ client.resources)
include wellFormed member

theorem WellFormed.bounded : Bounded (following client) client.depth h :=
  bounded_of_acyclic le_rfl wellFormed.closed wellFormed.acyclic h member

theorem WellFormed.reach_mem (path : Reach (following client) h y) : y ∈ client.resources := by
  induction path with
  | refl => exact member
  | tail _ edge ih => exact wellFormed.closed _ ih _ edge

end

variable {list done ahead : List Nat} {next : Nat → List Nat}

/-- Of a list without duplicates only the target is left beside the front. -/
theorem filter_front {front : List Nat} (nodup : list.Nodup) (member : target ∈ list)
    (absent : target ∉ front) (rest : ∀ y ∈ list, y = target ∨ y ∈ front) :
    list.filter (· ∉ front) = [target] := by
  have same : list.filter (· ∉ front) = list.filter (· == target) := by
    refine filter_congr fun y inList => ?_
    by_cases eq : y = target
    · simp [eq,absent]
    · simp [eq,(rest y inList).resolve_left eq]
  rw [same,filter_beq,count_eq_one_of_mem nodup member]
  rfl

/-- The list after a non-recursive update. -/
theorem pendingList_listed (wellFormed : WellFormed client) (member : target ∈ client.resources)
    (outermost : client.freeStack = []) (nodup : client.pendingFreeList.Nodup)
    (left : ∀ y ∈ client.pendingFreeList, Reach (following client) target y) :
    ∃ list, pendingList client target =
        { client with freeStack := [target], pendingFreeList := list } ∧
      Listed (following client) target list := by
  have bounded := wellFormed.bounded member
  obtain ⟨fuel,size⟩ : ∃ fuel, client.depth = fuel + 1 :=
    Nat.exists_eq_succ_of_ne_zero (Finset.card_pos.mpr ⟨target,member⟩).ne'
  rw [size] at bounded
  obtain ⟨front,whole,isFront⟩ := visit_front bounded
  rw [Nat.add_sub_cancel] at isFront
  have absent : target ∉ front := fun inFront =>
    let ⟨_,edge,path⟩ := (isFront.mem target).mp inFront
    bounded.irreflexive edge path
  let begun : Client := { client with freeStack := [target] }
  let list := (putInList begun target false).pendingFreeList
  have facts : list.Nodup ∧ target ∈ list ∧ ∀ y ∈ list, y = target ∨ y ∈ front := by
    have onFront : ∀ y ∈ client.pendingFreeList, y = target ∨ y ∈ front := by
      intro y inList
      rcases reach_iff.mp (left y inList) with same | ⟨z,edge,path⟩
      · exact .inl same.symm
      · exact .inr ((isFront.mem y).mpr ⟨z,edge,path⟩)
    simp only [list,putInList,Bool.false_eq_true,if_false]
    split
    next fresh => exact ⟨nodup_cons.mpr ⟨fresh,nodup⟩,by simp,by simpa using onFront⟩
    next present => exact ⟨nodup,not_not.mp present,onFront⟩
  obtain ⟨listNodup,inList,rest⟩ := facts
  refine ⟨front ++ [target],?_,whole.nodup,?_,whole.settled,front,rfl⟩
  · have kept : clientUpdatePendingFreeList (fuel + 1) begun target target false =
        { begun with
          pendingFreeList := visitAll (following begun) fuel (following begun target) list } := by
      refine update_keep fun y edge z path => .inr ?_
      rw [mem_singleton]
      rintro rfl
      exact bounded.irreflexive edge path
    have walked : visitAll (following client) fuel (following client target) list =
        front ++ [target] := by
      rw [isFront.walk_eq list listNodup,filter_front listNodup inList absent rest]
    simp only [pendingList,outermost,size]
    exact kept.trans (congrArg (fun l => { begun with pendingFreeList := l }) walked)
  · intro h
    simpa using whole.mem h

theorem listNext_append {before after : List Nat} (nodup : (before ++ h :: after).Nodup) :
    listNext (before ++ h :: after) h = after.head? := by
  have absent : h ∉ before := by
    intro member
    exact (nodup_append'.mp nodup).2.2 member (by simp)
  rw [listNext,idxOf_append_of_notMem absent,idxOf_cons_self,
    getElem?_append_right (Nat.le_succ _),Nat.succ_sub (le_refl _),Nat.sub_self,
    getElem?_cons_succ,head?_eq_getElem?]

theorem Listed.closed (listed : Listed next target list) (member : h ∈ list)
    (edge : y ∈ next h) : y ∈ list :=
  (listed.mem y).mpr (((listed.mem h).mp member).tail edge)

/-- Nothing behind an entry of the list can be reached from it. -/
theorem Listed.before (listed : Listed next target (done ++ h :: ahead)) (path : Reach next h y) :
    y ∈ done ++ [h] := by
  rw [append_cons] at listed
  induction path with
  | refl => simp
  | @tail x z _ edge ih =>
    rcases mem_append.mp (listed.closed (mem_append_left _ ih) edge) with early | late
    · exact early
    · exact absurd edge ((pairwise_append.mp listed.settled).2.2 x ih z late)

/-- The list as the walk over it finds it: what lies ahead ends with the target. -/
structure Walking (next : Nat → List Nat) (target : Nat) (done ahead : List Nat) : Prop where
  listed : Listed next target (done ++ ahead)
  ends : ∃ before, ahead = before ++ [target]

section

variable (walking : Walking next target done (h :: ahead)) (differ : h ≠ target)
include walking differ

theorem Walking.pass : Walking next target (done ++ [h]) ahead := by
  refine ⟨append_cons .. ▸ walking.listed,?_⟩
  obtain ⟨before,ends⟩ := walking.ends
  cases before with
  | nil => exact absurd (cons.inj ends).1 differ
  | cons first before => exact ⟨before,(cons.inj ends).2⟩

/-- The target is not reached from a resource before it. -/
theorem Walking.unreached : ¬Reach next h target := by
  intro path
  have early := walking.listed.before path
  have passed := walking.pass differ
  obtain ⟨before,rfl⟩ := passed.ends
  exact (nodup_append'.mp passed.listed.nodup).2.2 early (by simp)

/-- Moving the next resource to the front leaves what lies ahead. -/
theorem Walking.visit {depth : Nat} (bounded : Bounded next depth h) :
    ∃ moved, visit next depth h (done ++ h :: ahead) = moved ++ ahead ∧
      Walking next target moved ahead := by
  obtain ⟨front,isFront,-⟩ := visit_front bounded
  have listed := walking.listed
  have walked := isFront.walk_eq _ listed.nodup
  have reached : ∀ y, y ∈ front ++ [h] ↔ Reach next h y := by simpa using isFront.mem
  have early : ∀ y ∈ front ++ [h], y ∈ done ++ [h] := fun y inFront =>
    listed.before ((reached y).mp inFront)
  have split : done ++ h :: ahead = (done ++ [h]) ++ ahead := by simp
  have kept : ahead.filter (· ∉ front ++ [h]) = ahead := by
    refine filter_eq_self.mpr fun y inAhead => decide_eq_true fun inFront => ?_
    have nodup := listed.nodup
    rw [split] at nodup
    exact (nodup_append'.mp nodup).2.2 (early y inFront) inAhead
  have shape : MoveToFront.visit next depth h (done ++ h :: ahead) =
      (front ++ [h] ++ done.filter (· ∉ front ++ [h])) ++ ahead := by
    rw [walked,filter_append,filter_cons_of_neg (by simp),kept]
    simp
  have ends := (walking.pass differ).ends
  refine ⟨_,shape,⟨?_,?_,?_,?_⟩,ends⟩
  · rw [← shape]
    exact isFront.walk_nodup listed.nodup
  · intro y
    rw [← listed.mem y,← shape,walked,mem_append,mem_filter,decide_eq_true_eq]
    have inside : y ∈ front ++ [h] → y ∈ done ++ h :: ahead := fun inFront =>
      split ▸ mem_append_left _ (early y inFront)
    tauto
  · rw [← shape]
    exact isFront.walk_settled listed.nodup listed.settled
  · obtain ⟨before,rfl⟩ := ends
    exact ⟨_,(append_assoc _ _ _).symm⟩

end

/-- The walk over the high priority resources keeps the list in order. -/
theorem moveHighPriority_listed {depth : Nat} (ahead : List Nat) : ∀ {client : Client}
    {done : List Nat} {fuel : Nat}, ahead.length ≤ fuel → client.pendingFreeList = done ++ ahead →
    client.freeStack = [target] → Walking (following client) target done ahead →
    (∀ h, Reach (following client) target h → Bounded (following client) depth h) →
    ∃ list, moveHighPriority depth target fuel ahead.head? client =
        { client with pendingFreeList := list } ∧ Listed (following client) target list := by
  induction ahead with
  | nil =>
    intro client done fuel _ _ _ walking
    obtain ⟨before,ends⟩ := walking.ends
    simp at ends
  | cons h ahead ih =>
    intro client done fuel enough list stack walking bounded
    obtain ⟨fuel,rfl⟩ : ∃ rest, fuel = rest + 1 :=
      Nat.exists_eq_succ_of_ne_zero (by simp at enough; omega)
    have enough : ahead.length ≤ fuel := by simpa using enough
    simp only [moveHighPriority,head?_cons]
    by_cases same : h = target
    · rw [if_pos same]
      exact ⟨done ++ h :: ahead,by rw [← list],walking.listed⟩
    · rw [if_neg same,list,listNext_append walking.listed.nodup]
      split
      next high =>
        have reached := (walking.listed.mem h).mp (by simp)
        obtain ⟨moved,visited,after⟩ := walking.visit same (bounded h reached)
        have update : clientUpdatePendingFreeList depth client h h true =
            { client with pendingFreeList := moved ++ ahead } := by
          rw [update_move,list,visited]
          intro y path
          refine .inr ?_
          rw [stack,mem_singleton]
          rintro rfl
          exact walking.unreached same path
        rw [update]
        exact ih enough rfl stack after bounded
      next =>
        exact ih enough (list.trans (append_cons ..)) stack (walking.pass same) bounded

theorem postProcess_listed {depth : Nat} (stack : client.freeStack = [target])
    (pending : client.pendingFreeList = list) (listed : Listed (following client) target list)
    (bounded : ∀ h, Reach (following client) target h → Bounded (following client) depth h) :
    ∃ processed, (postProcessPendingFreeList depth client target).1 =
        { client with pendingFreeList := processed } ∧
      Listed (following client) target processed := by
  have walking : Walking (following client) target [] list := ⟨listed,listed.last⟩
  subst pending
  exact moveHighPriority_listed _ le_rfl rfl stack walking bounded

/-! ### Freeing the resources of the list -/

/-- Only the dependencies of the resources differ. -/
structure SameTree (client next : Client) : Prop where
  resources : next.resources = client.resources
  pendingFreeList : next.pendingFreeList = client.pendingFreeList
  freeStack : next.freeStack = client.freeStack
  events : next.events = client.events
  parentRef : ∀ h, (next.ref h).parentRef = (client.ref h).parentRef
  childRefMap : ∀ h, (next.ref h).childRefMap = (client.ref h).childRefMap

section

variable (client : Client) (handle : Nat)

theorem SameTree.refl : SameTree client client :=
  ⟨rfl,rfl,rfl,rfl,fun _ => rfl,fun _ => rfl⟩

theorem SameTree.trans {first second third : Client} (early : SameTree first second)
    (late : SameTree second third) : SameTree first third :=
  ⟨late.resources.trans early.resources,late.pendingFreeList.trans early.pendingFreeList,
    late.freeStack.trans early.freeStack,late.events.trans early.events,
    fun h => (late.parentRef h).trans (early.parentRef h),
    fun h => (late.childRefMap h).trans (early.childRefMap h)⟩

theorem sameTree_setRef (ref : ResourceRef)
    (parentRef : ref.parentRef = (client.ref handle).parentRef)
    (childRefMap : ref.childRefMap = (client.ref handle).childRefMap) :
    SameTree client (setRef client handle ref) := by
  refine ⟨rfl,rfl,rfl,rfl,?_,?_⟩
  all_goals
    intro h
    simp only [setRef,Function.update_apply]
    split <;> simp [*]

theorem sameTree_refRemoveDependant (resource dependant : Nat) :
    SameTree client (refRemoveDependant client resource dependant) := by
  refine SameTree.trans (sameTree_setRef client dependant _ ?_ ?_)
    (sameTree_setRef _ resource _ ?_ ?_)
  all_goals rfl

theorem sameTree_foldl {step : Client → Nat → Client}
    (each : ∀ client h, SameTree client (step client h)) (handles : List Nat) (client : Client) :
    SameTree client (handles.foldl step client) := by
  induction handles generalizing client with
  | nil => exact .refl client
  | cons h handles ih => exact (each client h).trans (ih _)

theorem sameTree_invalidate : SameTree client (invalidate client handle) := by
  simp only [invalidate]
  split
  · exact .refl client
  · refine SameTree.trans (sameTree_setRef client handle _ ?_ ?_)
      (sameTree_foldl (fun c h => sameTree_refRemoveDependant c h handle) _ _)
    all_goals rfl

theorem sameTree_cleanup :
    SameTree client (cleanupDependants (cleanupDependencies client handle) handle) :=
  (sameTree_foldl (fun c h => sameTree_refRemoveDependant c h handle) _ _).trans
    (sameTree_foldl (fun c h => sameTree_refRemoveDependant c handle h) _ _)

/-- A resource belongs to the tree of the target. -/
def InTree (target handle : Nat) : Prop :=
  Relation.ReflTransGen (fun h p => (client.ref h).parentRef = some p) handle target

def parents : List Nat := (client.ref handle).parentRef.toList

end

theorem edge_parents {p : Nat} : Edge (parents client) h p ↔ (client.ref h).parentRef = some p := by
  simp [Edge,parents]

theorem inTree_iff : InTree client target h ↔ Reach (parents client) h target := by
  have same : (fun h p => (client.ref h).parentRef = some p) = Edge (parents client) := by
    funext h p
    exact propext edge_parents.symm
  rw [InTree,same]
  rfl

/-- The search along the parents finds the target unless it starts there. -/
theorem refHasAncestor_iff {fuel : Nat} : ∀ {h : Nat}, Bounded (parents client) fuel h →
    (refHasAncestor client fuel h target = true ↔ h ≠ target ∧ InTree client target h) := by
  induction fuel with
  | zero => exact fun impossible => impossible.elim
  | succ fuel ih =>
    intro h bounded
    rw [inTree_iff,reach_iff]
    cases parent : (client.ref h).parentRef with
    | none =>
      have alone : parents client h = [] := by simp [parents,parent]
      simp [refHasAncestor,parent,alone]
    | some p =>
      have only : parents client h = [p] := by simp [parents,parent]
      have edge : p ∈ parents client h := by simp [only]
      have above := ih (bounded p edge)
      rw [inTree_iff] at above
      simp only [refHasAncestor,parent,Bool.or_eq_true,decide_eq_true_eq,above,only,
        mem_singleton,exists_eq_left]
      constructor
      · intro found
        have path : Reach (parents client) p target := by
          rcases found with rfl | found
          · exact .refl
          · exact found.2
        refine ⟨?_,.inr path⟩
        rintro rfl
        exact bounded.irreflexive edge path
      · rintro ⟨differ,same | path⟩
        · exact absurd same differ
        · by_cases here : p = target
          · exact .inl here
          · exact .inr ⟨here,path⟩

section

variable (wellFormed : WellFormed client) (member : h ∈ client.resources)
include wellFormed member

/-- Parents lead back over the children. -/
theorem WellFormed.parents_reach {p : Nat} (path : Relation.TransGen (Edge (parents client)) h p) :
    p ∈ client.resources ∧ Relation.TransGen (Edge (following client)) p h := by
  have step : ∀ {c q : Nat}, c ∈ client.resources → Edge (parents client) c q →
      q ∈ client.resources ∧ Edge (following client) q c := by
    intro c q inside edge
    have parent := edge_parents.mp edge
    have above := wellFormed.parent_mem c inside q parent
    exact ⟨above,mem_append_left _ ((wellFormed.child_iff q above c inside).mpr parent)⟩
  induction path with
  | single edge =>
    obtain ⟨above,back⟩ := step member edge
    exact ⟨above,.single back⟩
  | tail _ edge ih =>
    obtain ⟨above,back⟩ := step ih.1 edge
    exact ⟨above,.head back ih.2⟩

theorem WellFormed.parents_bounded : Bounded (parents client) client.depth h := by
  refine bounded_of_acyclic le_rfl ?_ ?_ h member
  · intro c inside q edge
    exact (wellFormed.parents_reach inside (.single edge)).1
  · intro c inside cycle
    exact wellFormed.acyclic c inside (wellFormed.parents_reach inside cycle).2

/-- The tree hangs on the target. -/
theorem WellFormed.inTree_reach (inTree : InTree client target h) :
    Reach (following client) target h := by
  rcases Relation.reflTransGen_iff_eq_or_transGen.mp (inTree_iff.mp inTree) with rfl | path
  · exact .refl
  · exact (wellFormed.parents_reach member path).2.to_reflTransGen

/-- Whether the reference of a resource goes with the target. -/
def goes (client : Client) (depth target handle : Nat) : Bool :=
  handle = target || refHasAncestor client depth handle target

theorem WellFormed.goes_iff :
    goes client client.depth target h = true ↔ InTree client target h := by
  rw [goes,Bool.or_eq_true,decide_eq_true_eq,refHasAncestor_iff (wellFormed.parents_bounded member)]
  constructor
  · rintro (rfl | found)
    · exact .refl
    · exact found.2
  · intro inTree
    by_cases same : h = target
    · exact .inl same
    · exact .inr ⟨same,inTree⟩

end

theorem refHasAncestor_congr {next : Client}
    (parentRef : ∀ h, (next.ref h).parentRef = (client.ref h).parentRef) (fuel h ancestor : Nat) :
    refHasAncestor next fuel h ancestor = refHasAncestor client fuel h ancestor := by
  induction fuel generalizing h with
  | zero => rfl
  | succ fuel ih =>
    simp [refHasAncestor,parentRef]
    cases (client.ref h).parentRef with
    | none => rfl
    | some p => simp [ih]

/-- What becomes of a resource of the list. -/
def outcome (client : Client) (depth target handle : Nat) : Event :=
  if goes client depth target handle then .freed handle else .invalidated handle

theorem WellFormed.outcome_freed (wellFormed : WellFormed client) (member : h ∈ client.resources)
    (inTree : InTree client target h) : outcome client client.depth target h = .freed h :=
  if_pos ((wellFormed.goes_iff member).mpr inTree)

def gone (client : Client) (depth target : Nat) (done : List Nat) (handle : Nat) : Bool :=
  decide (handle ∈ done) && goes client depth target handle

theorem gone_append {depth c : Nat} : gone client depth target (done ++ [h]) c =
      (gone client depth target done c || decide (c = h) && goes client depth target h) := by
  by_cases same : c = h
  · subst same
    by_cases member : c ∈ done <;> simp [gone]
  · simp [gone,same]

/-- The client with the first part of the list done. -/
structure Freeing (start client : Client) (depth target : Nat) (done rest : List Nat) : Prop where
  pendingFreeList : client.pendingFreeList = rest
  freeStack : client.freeStack = start.freeStack
  resources : ∀ h, h ∈ client.resources ↔
    h ∈ start.resources ∧ gone start depth target done h = false
  parentRef : ∀ h, (client.ref h).parentRef = (start.ref h).parentRef
  childRefMap : ∀ p ∈ start.resources, (client.ref p).childRefMap =
    (start.ref p).childRefMap.filter fun c => !gone start depth target done c
  events : client.events = start.events ++ done.map (outcome start depth target)

section FreeStep

variable {start : Client} {fuel depth : Nat} {rest : List Nat}

/-- A resource outside of the tree is only invalidated. -/
theorem Freeing.invalidate (freeing : Freeing start client depth target done (h :: rest))
    (member : h ∈ client.resources) (stays : goes start depth target h = false) :
    Freeing start (clientFreeResource (fuel + 1) client h true) depth target (done ++ [h]) rest := by
  have same := sameTree_invalidate
    { client with pendingFreeList := client.pendingFreeList.erase h } h
  have kept : gone start depth target (done ++ [h]) = gone start depth target done := by
    funext c
    rw [gone_append,stays,Bool.and_false,Bool.or_false]
  simp only [clientFreeResource,member]
  refine ⟨?_,same.freeStack.trans freeing.freeStack,?_,?_,?_,?_⟩
  · refine same.pendingFreeList.trans ?_
    simp [freeing.pendingFreeList]
  · intro c
    rw [kept,← freeing.resources]
    exact iff_of_eq (congrArg (c ∈ ·) same.resources)
  · exact fun c => (same.parentRef c).trans (freeing.parentRef c)
  · intro p inStart
    rw [kept]
    exact (same.childRefMap p).trans (freeing.childRefMap p inStart)
  · rw [map_append,← append_assoc,← freeing.events]
    exact congrArg₂ _ same.events (by simp [outcome,stays])

theorem leaveParent_frame (client : Client) (h : Nat) :
    (leaveParent client h).resources = client.resources ∧
      (leaveParent client h).pendingFreeList = client.pendingFreeList ∧
      (leaveParent client h).freeStack = client.freeStack ∧
      (leaveParent client h).events = client.events ∧
      (∀ c, ((leaveParent client h).ref c).parentRef = (client.ref c).parentRef) ∧
      ∀ p, ((leaveParent client h).ref p).childRefMap =
        if (client.ref h).parentRef = some p then (client.ref p).childRefMap.erase h
        else (client.ref p).childRefMap := by
  simp only [leaveParent]
  split
  next none => simp [none]
  next parent some =>
    refine ⟨rfl,rfl,rfl,rfl,?_,?_⟩
    · intro c
      simp only [setRef,Function.update_apply]
      split <;> simp [*]
    · intro p
      simp only [setRef,some,Option.some.injEq,eq_comm (a := parent)]
      split <;> simp [*]

/-- A resource of the tree whose children are gone is freed. -/
theorem Freeing.free (freeing : Freeing start client depth target done (h :: rest))
    (wellFormed : WellFormed start) (member : h ∈ client.resources) (inStart : h ∈ start.resources)
    (leaves : goes start depth target h = true)
    (children : ∀ c ∈ (start.ref h).childRefMap, gone start depth target done c = true) :
    Freeing start (clientFreeResource (fuel + 1) client h false) depth target (done ++ [h])
      rest := by
  have invalid := sameTree_invalidate
    { client with pendingFreeList := client.pendingFreeList.erase h } h
  set invalidated := ClientFree.invalidate
    { client with pendingFreeList := client.pendingFreeList.erase h } h with invalidated_eq
  obtain ⟨resources,pending,stack,events,parentRef,childRefMap⟩ := leaveParent_frame invalidated h
  have before : ∀ p ∈ start.resources, (invalidated.ref p).childRefMap =
      (start.ref p).childRefMap.filter fun c => !gone start depth target done c := fun p inside =>
    (invalid.childRefMap p).trans (freeing.childRefMap p inside)
  have parent : (invalidated.ref h).parentRef = (start.ref h).parentRef :=
    (invalid.parentRef h).trans (freeing.parentRef h)
  have childless : ((leaveParent invalidated h).ref h).childRefMap = [] := by
    have empty : (invalidated.ref h).childRefMap = [] := by
      rw [before h inStart]
      exact filter_eq_nil_iff.mpr fun c member => by simp [children c member]
    rw [childRefMap,empty]
    simp
  have cleaned := sameTree_cleanup (leaveParent invalidated h) h
  simp only [clientFreeResource,member,not_true_eq_false,if_false,Bool.false_eq_true,
    ← invalidated_eq,childless,foldl_nil]
  refine ⟨?_,?_,?_,?_,?_,?_⟩
  · refine cleaned.pendingFreeList.trans (pending.trans (invalid.pendingFreeList.trans ?_))
    simp [freeing.pendingFreeList]
  · exact cleaned.freeStack.trans (stack.trans (invalid.freeStack.trans freeing.freeStack))
  · intro c
    have present : (removeRef (leaveParent invalidated h) h).resources = client.resources.erase h :=
      congrArg (·.erase h) (cleaned.resources.trans (resources.trans invalid.resources))
    rw [present,Finset.mem_erase,freeing.resources,gone_append,leaves]
    by_cases same : c = h <;> simp [same]
  · intro c
    exact (cleaned.parentRef c).trans ((parentRef c).trans
      ((invalid.parentRef c).trans (freeing.parentRef c)))
  · intro p inside
    refine (cleaned.childRefMap p).trans ((childRefMap p).trans ?_)
    rw [before p inside,parent]
    have isChild := wellFormed.child_iff p inside h inStart
    split
    next own =>
      rw [((wellFormed.nodup p inside).filter _).erase_eq_filter,filter_filter]
      refine filter_congr fun c _ => ?_
      rw [gone_append,leaves]
      by_cases same : c = h <;> simp [same]
    next other =>
      refine filter_congr fun c inMap => ?_
      have differ : c ≠ h := by
        rintro rfl
        exact other (isChild.mp inMap)
      rw [gone_append]
      simp [differ]
  · have kept : (leaveParent invalidated h).events = client.events := events.trans invalid.events
    rw [map_append,← append_assoc,← freeing.events]
    exact congrArg₂ _ (cleaned.events.trans kept) (by simp [outcome,leaves])

end FreeStep

/-- When a resource of the tree comes up, its children are gone. -/
theorem children_gone {start : Client} {rest : List Nat} (wellFormed : WellFormed start)
    (listed : Listed (following start) target (done ++ h :: rest))
    (inStart : h ∈ start.resources) (leaves : goes start start.depth target h = true) :
    ∀ c ∈ (start.ref h).childRefMap, gone start start.depth target done c = true := by
  intro c isChild
  have edge : c ∈ following start h := mem_append_left _ isChild
  have inside := wellFormed.closed h inStart c edge
  have early := listed.before (.single edge)
  have differ : c ≠ h := by
    rintro rfl
    exact wellFormed.acyclic c inside (.single edge)
  have inDone : c ∈ done := by simpa [differ] using early
  have parent := (wellFormed.child_iff h inStart c inside).mp isChild
  have inTree : InTree start target c := .head parent ((wellFormed.goes_iff inStart).mp leaves)
  simp [gone,inDone,(wellFormed.goes_iff inside).mpr inTree]

/-- The loop takes the resources of the list in their order and ends with the target. -/
theorem freeLoop_spec {start : Client} {firstLow : Option Nat} (wellFormed : WellFormed start)
    (stack : start.freeStack = [target]) (inStart : target ∈ start.resources) (rest : List Nat) :
    ∀ {client : Client} {done : List Nat} {fuel : Nat}, rest.length ≤ fuel →
    Freeing start client start.depth target done rest →
    Walking (following start) target done rest →
    Freeing start (freeLoop start.depth ⟨target,false,false⟩ firstLow fuel client)
      start.depth target (done ++ rest) [] := by
  induction rest with
  | nil =>
    intro client done fuel _ _ walking
    obtain ⟨before,ends⟩ := walking.ends
    simp at ends
  | cons h rest ih =>
    intro client done fuel enough freeing walking
    have listed := walking.listed
    obtain ⟨fuel,rfl⟩ : ∃ less, fuel = less + 1 :=
      Nat.exists_eq_succ_of_ne_zero (by simp at enough; omega)
    obtain ⟨depth,deep⟩ : ∃ depth, start.depth = depth + 1 :=
      Nat.exists_eq_succ_of_ne_zero (Finset.card_pos.mpr ⟨target,inStart⟩).ne'
    have enough : rest.length ≤ fuel := by simpa using enough
    have reached := (listed.mem h).mp (by simp)
    have inside := wellFormed.reach_mem inStart reached
    have fresh : h ∉ done := fun member =>
      (nodup_append'.mp listed.nodup).2.2 member (by simp)
    have member : h ∈ client.resources := (freeing.resources h).mpr ⟨inside,by simp [gone,fresh]⟩
    have call : ∀ invalidateOnly, clientFreeResource start.depth client h invalidateOnly =
        clientFreeResource (depth + 1) client h invalidateOnly := fun _ => by rw [deep]
    have free : goes start start.depth target h = true →
        Freeing start (clientFreeResource start.depth client h false)
          start.depth target (done ++ [h]) rest := by
      intro leaves
      have children := children_gone wellFormed listed inside leaves
      rw [call]
      exact freeing.free wellFormed member inside leaves children
    simp only [freeLoop,freeing.pendingFreeList]
    by_cases last : h = target
    · have nothing : rest = [] := by
        obtain ⟨before,ends⟩ := walking.ends
        cases before with
        | nil => exact (cons.inj ends).2
        | cons first before =>
          have tail : rest = before ++ [target] := (cons.inj ends).2
          have nodup := (nodup_append'.mp listed.nodup).2.1
          exact absurd (by simp [tail,last]) (nodup_cons.mp nodup).1
      subst nothing
      rw [if_pos last]
      exact free (by simp [goes,last])
    · rw [if_neg last,append_cons]
      have choice : invalidatesOnly start.depth client ⟨target,false,false⟩ h =
          !goes start start.depth target h := by
        have ancestor := refHasAncestor_congr freeing.parentRef start.depth h target
        simp only [invalidatesOnly,freeing.freeStack,stack,any_cons,ancestor,goes,last]
        cases refHasAncestor start start.depth h target <;> rfl
      rw [choice]
      refine ih enough ?_ (walking.pass last)
      cases leaves : goes start start.depth target h with
      | true => exact free leaves
      | false =>
        rw [call]
        exact freeing.invalidate member leaves

/-- The outcomes of a list tell the resources apart. -/
theorem outcome_handle {depth c : Nat}
    (same : outcome client depth target h = outcome client depth target c) : h = c := by
  simp only [outcome] at same
  split at same <;> split at same <;> cases same <;> rfl

theorem idxOf_outcome {depth : Nat} :
    (list.map (outcome client depth target)).idxOf (outcome client depth target h) =
      list.idxOf h := by
  induction list with
  | nil => rfl
  | cons c list ih =>
    by_cases same : c = h
    · simp [same]
    · have differ : outcome client depth target c ≠ outcome client depth target h :=
        fun eq => same (outcome_handle eq)
      rw [map_cons,idxOf_cons_ne _ differ,idxOf_cons_ne _ same,ih]

theorem mem_outcomes {depth : Nat} {event : Event}
    (isEvent : event = .freed h ∨ event = .invalidated h) :
    event ∈ list.map (outcome client depth target) ↔
      h ∈ list ∧ outcome client depth target h = event := by
  rw [mem_map]
  constructor
  · rintro ⟨c,member,rfl⟩
    have same : c = h := by
      simp only [outcome] at isEvent
      split at isEvent <;> simpa using isEvent
    subst same
    exact ⟨member,rfl⟩
  · rintro ⟨member,same⟩
    exact ⟨h,member,same⟩

/-- Everything a free of the tree promises, with the events it adds. -/
structure TreeFreed (client final : Client) (target : Nat) (events : List Event) : Prop where
  events_eq : final.events = client.events ++ events
  nodup : events.Nodup
  freed : ∀ h, .freed h ∈ events ↔ h ∈ client.resources ∧ InTree client target h
  invalidated : ∀ h, .invalidated h ∈ events ↔
    Reach (following client) target h ∧ ¬InTree client target h
  children_first : ∀ h p, h ∈ client.resources → (client.ref h).parentRef = some p →
    InTree client target p → events.idxOf (.freed h) < events.idxOf (.freed p)
  target_last : events.getLast? = some (.freed target)
  resources : ∀ h, h ∈ final.resources ↔ h ∈ client.resources ∧ ¬InTree client target h
  pendingFreeList : final.pendingFreeList = []
  freeStack : final.freeStack = client.freeStack

theorem Freeing.treeFreed {start final : Client} (wellFormed : WellFormed start)
    (inStart : target ∈ start.resources) (listed : Listed (following start) target list)
    (freeing : Freeing start final start.depth target list []) :
    TreeFreed start final target (list.map (outcome start start.depth target)) := by
  have inside : ∀ h ∈ list, h ∈ start.resources := fun h member =>
    wellFormed.reach_mem inStart ((listed.mem h).mp member)
  have listedTree : ∀ h ∈ start.resources, InTree start target h → h ∈ list := fun h member inTree =>
    (listed.mem h).mpr (wellFormed.inTree_reach member inTree)
  refine ⟨freeing.events,listed.nodup.map fun _ _ => outcome_handle,?_,?_,?_,?_,?_,
    freeing.pendingFreeList,freeing.freeStack⟩
  · intro h
    rw [mem_outcomes (.inl rfl)]
    constructor
    · rintro ⟨member,same⟩
      refine ⟨inside h member,(wellFormed.goes_iff (inside h member)).mp ?_⟩
      by_contra stays
      simp [outcome,stays] at same
    · rintro ⟨member,inTree⟩
      exact ⟨listedTree h member inTree,wellFormed.outcome_freed member inTree⟩
  · intro h
    rw [mem_outcomes (.inr rfl),listed.mem]
    refine and_congr_right fun path => ?_
    rw [← wellFormed.goes_iff (wellFormed.reach_mem inStart path),outcome]
    split <;> simp [*]
  · intro h p member parent inTree
    have above := wellFormed.parent_mem h member p parent
    have below : InTree start target h := .head parent inTree
    have inH := listedTree h member below
    have inP := listedTree p above inTree
    have edge : h ∈ following start p :=
      mem_append_left _ ((wellFormed.child_iff p above h member).mpr parent)
    have differ : p ≠ h := by
      rintro rfl
      exact wellFormed.acyclic p member (.single edge)
    rw [← wellFormed.outcome_freed member below,← wellFormed.outcome_freed above inTree,
      idxOf_outcome,idxOf_outcome]
    exact listed.settled.idxOf_lt inP inH edge differ
  · obtain ⟨before,rfl⟩ := listed.last
    simp [wellFormed.outcome_freed inStart .refl]
  · intro h
    rw [freeing.resources,gone]
    refine and_congr_right fun member => ?_
    have goes : goes start start.depth target h = true ↔ InTree start target h :=
      wellFormed.goes_iff member
    by_cases inTree : InTree start target h
    · simp [inTree,goes.mpr inTree,listedTree h member inTree]
    · simp [inTree,mt goes.mp inTree]

/-- The pending free list after the update for a target. -/
structure FreeOrder (client : Client) (target : Nat) (list : List Nat) : Prop where
  nodup : list.Nodup
  mem : ∀ h, h ∈ list ↔ Reach (following client) target h
  target_last : list.getLast? = some target
  after_following : ∀ h ∈ list, ∀ y ∈ following client h, list.idxOf y < list.idxOf h

theorem Listed.freeOrder (wellFormed : WellFormed client) (member : target ∈ client.resources)
    (listed : Listed (following client) target list) : FreeOrder client target list := by
  refine ⟨listed.nodup,listed.mem,?_,?_⟩
  · obtain ⟨before,rfl⟩ := listed.last
    simp
  · intro h inList y edge
    refine listed.settled.idxOf_lt inList (listed.closed inList edge) edge ?_
    rintro rfl
    exact wellFormed.acyclic h (wellFormed.reach_mem member ((listed.mem h).mp inList))
      (.single edge)

theorem tree_freed_in_order (wellFormed : WellFormed client) (member : target ∈ client.resources)
    (outermost : client.freeStack = []) (nodup : client.pendingFreeList.Nodup)
    (left : ∀ y ∈ client.pendingFreeList, Reach (following client) target y) :
    FreeOrder client target (pendingList client target).pendingFreeList ∧
      ∃ events, TreeFreed client (serverFreeResourceTree ⟨target,false,false⟩ client) target
        events := by
  obtain ⟨list,eq,listed⟩ := pendingList_listed wellFormed member outermost nodup left
  refine ⟨by simpa only [eq] using listed.freeOrder wellFormed member,?_⟩
  have bounded : ∀ h, Reach (following client) target h →
      Bounded (following client) client.depth h := fun h path =>
    wellFormed.bounded (wellFormed.reach_mem member path)
  set listedClient : Client := { client with freeStack := [target], pendingFreeList := list }
  have listedOrder : Listed (following listedClient) target listedClient.pendingFreeList := listed
  obtain ⟨processed,processedEq,order⟩ := postProcess_listed rfl rfl listedOrder bounded
  set start : Client := { listedClient with pendingFreeList := processed }
  have startFormed : WellFormed start :=
    ⟨wellFormed.closed,wellFormed.parent_mem,wellFormed.child_iff,wellFormed.nodup,
      wellFormed.acyclic⟩
  have begun : Freeing start start start.depth target [] processed :=
    ⟨rfl,rfl,fun h => by simp [gone],fun _ => rfl,fun p _ => by simp [gone],by simp⟩
  have freeing : Freeing start (freeLoop start.depth ⟨target,false,false⟩
      (firstLowPriority start target) processed.length start) start.depth target
      processed [] :=
    freeLoop_spec startFormed rfl member processed le_rfl begun ⟨order,order.last⟩
  have freed := freeing.treeFreed startFormed member order
  have result : serverFreeResourceTree ⟨target,false,false⟩ client =
      { freeLoop start.depth ⟨target,false,false⟩ (firstLowPriority start target)
          processed.length start with freeStack := client.freeStack } := by
    have low : (postProcessPendingFreeList client.depth listedClient target).2 =
        firstLowPriority (postProcessPendingFreeList client.depth listedClient target).1
          target := rfl
    simp only [serverFreeResourceTree,Bool.false_eq_true,false_and,if_false,eq]
    rw [low,processedEq]
  rw [result]
  exact ⟨_,freed.events_eq,freed.nodup,freed.freed,freed.invalidated,freed.children_first,
    freed.target_last,freed.resources,freed.pendingFreeList,rfl⟩

section Sample

/-- A root with the children 1 and 2, each with one child; 4 depends on 3 and is freed early. -/
def sampleRef : Nat → ResourceRef
  | 0 => ⟨none,[1,2],[],[],false,.default⟩
  | 1 => ⟨some 0,[3],[],[],false,.default⟩
  | 2 => ⟨some 0,[4],[],[],false,.default⟩
  | 3 => ⟨some 1,[],[4],[],false,.default⟩
  | 4 => ⟨some 2,[],[],[3],false,.high⟩
  | _ => ⟨none,[],[],[],false,.default⟩

def sampleClient : Client := ⟨{0,1,2,3,4},sampleRef,[],[],[]⟩

theorem sampleRef_increasing {x y : Nat} (edge : y ∈ following sampleClient x) : x < y := by
  match x with
  | 0 | 1 | 2 | 3 | 4 =>
    simp [following,sampleClient,sampleRef] at edge <;> omega
  | x + 5 => simp [following,sampleClient,sampleRef] at edge

theorem sampleClient_wellFormed : WellFormed sampleClient := by
  have parents : ∀ h ∈ sampleClient.resources, ∀ p ∈ (sampleClient.ref h).parentRef,
      p ∈ sampleClient.resources := by decide
  refine ⟨by decide,parents,by decide,by decide,?_⟩
  · intro h _ cycle
    have increasing : ∀ y, Relation.TransGen (Edge (following sampleClient)) h y → h < y := by
      intro y path
      induction path with
      | single edge => exact sampleRef_increasing edge
      | tail _ edge ih => exact ih.trans (sampleRef_increasing edge)
    exact lt_irrefl h (increasing h cycle)

theorem tree_freed_in_order_sample : (serverFreeResourceTree ⟨1,false,false⟩ sampleClient).events =
      [.invalidated 4,.freed 3,.freed 1] ∧
    ∃ events, TreeFreed sampleClient (serverFreeResourceTree ⟨1,false,false⟩ sampleClient) 1
      events :=
  ⟨by decide +kernel,(tree_freed_in_order sampleClient_wellFormed (by decide) rfl (by decide)
    (forall_mem_nil _)).2⟩

end Sample

end GpuExt.ClientFree
