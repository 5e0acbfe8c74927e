import GpuExt.ClientFreeOrder

/-! Dependants are registered in any direction, and the recursion that builds the pending free list
keeps no set of resources it has seen: it ends where the dependants close no cycle. -/
namespace GpuExt.ClientFree

open MoveToFront List Option

/-- `indexAdd` on a map whose values have distinct keys. -/
def indexAdd (map : List Nat) (handle : Nat) : Option (List Nat) :=
  if handle ∈ map then none else some (map ++ [handle])

section

variable (fuel : Nat) (client : Client) (target : Nat)

/-- `refAddDependant`: whether it was accepted. The number of resources bounds the chain of
parents. -/
def refAddDependant (resource dependant : Nat) : Bool × Client :=
  if refHasAncestor client client.resources.card dependant resource then (true,client)
  else
    match indexAdd (client.ref dependant).depBackRefMap resource with
    | none => (false,client)
    | some depBackRefMap =>
      let client := setRef client dependant { client.ref dependant with depBackRefMap }
      match indexAdd (client.ref resource).depRefMap dependant with
      | none => (false,client)
      | some depRefMap => (true,setRef client resource { client.ref resource with depRefMap })

def updateAll (update : Client → Nat → Option Client) : List Nat → Client → Option Client
  | [], client => some client
  | handle :: rest, client => (update client handle).bind (updateAll update rest)

/-- `clientUpdatePendingFreeList` with a bound on the depth of the recursion: nothing if it goes
deeper. -/
def updateWithin : Nat → Client → Nat → Nat → Bool → Option Client
  | 0, _, _, _, _ => none
  | fuel + 1, client, target, reference, move =>
    if move ∧ isCircular client target reference then some client
    else
      let update := fun client handle => updateWithin fuel client handle reference true
      (updateAll update (client.ref target).childRefMap (putInList client target move)).bind
        (updateAll update (client.ref target).depRefMap)

def buildPendingFreeList : Option Client :=
  updateWithin fuel { client with freeStack := [target] } target target false

/-! Where no path is longer than the bound, the recursion ends. -/

theorem putInList_ref (move : Bool) : (putInList client target move).ref = client.ref := by
  unfold putInList
  split
  · rfl
  · split <;> rfl

theorem putInList_freeStack (move : Bool) :
    (putInList client target move).freeStack = client.freeStack := by
  unfold putInList
  split
  · rfl
  · split <;> rfl

theorem foldl_ref {update : Client → Nat → Client}
    (each : ∀ client handle,(update client handle).ref = client.ref) (list : List Nat)
    (client : Client) : (list.foldl update client).ref = client.ref := by
  induction list generalizing client with
  | nil => rfl
  | cons handle rest ih => rw [foldl_cons,ih,each]

theorem update_ref : ∀ (client : Client) (target reference : Nat) (move : Bool),
    (clientUpdatePendingFreeList fuel client target reference move).ref = client.ref := by
  induction fuel with
  | zero => exact fun _ _ _ _ => rfl
  | succ fuel ih =>
    intro client target reference move
    rw [clientUpdatePendingFreeList]
    split
    · rfl
    · rw [foldl_ref (fun client handle => ih client handle reference true),
        foldl_ref (fun client handle => ih client handle reference true),putInList_ref]

end

variable {update : Client → Nat → Option Client} {client client' : Client}

theorem updateAll_some {update' : Client → Nat → Client} {ref : Nat → ResourceRef}
    (frame : ∀ client handle,(update' client handle).ref = client.ref) :
    ∀ {list : List Nat} {client : Client},client.ref = ref →
      (∀ handle ∈ list,∀ client,client.ref = ref → update client handle =
        some (update' client handle)) →
      updateAll update list client = some (list.foldl update' client)
  | [], _, _, _ => rfl
  | handle :: rest, client, same, each => by
    rw [updateAll,each handle mem_cons_self client same,bind_some,foldl_cons]
    exact updateAll_some frame ((frame client handle).trans same)
      fun other member => each other (mem_cons_of_mem _ member)

theorem following_congr (same : client'.ref = client.ref) :
    following client' = following client := by
  unfold following
  rw [same]

theorem updateWithin_some : ∀ {fuel : Nat} {client : Client} {target : Nat} (reference : Nat)
    (move : Bool),Bounded (following client) fuel target →
    updateWithin fuel client target reference move =
      some (clientUpdatePendingFreeList fuel client target reference move)
  | 0, _, _, _, _, bounded => bounded.elim
  | fuel + 1, client, target, reference, move, bounded => by
    have each : ∀ handle ∈ following client target,∀ other : Client,other.ref = client.ref →
        updateWithin fuel other handle reference true =
          some (clientUpdatePendingFreeList fuel other handle reference true) := by
      intro handle member other same
      refine updateWithin_some reference true ?_
      rw [following_congr same]
      exact bounded handle member
    have frame := fun client handle => update_ref fuel client handle reference true
    rw [updateWithin,clientUpdatePendingFreeList]
    split
    · rfl
    · dsimp only
      rw [updateAll_some frame (putInList_ref client target move) fun handle member =>
          each handle (mem_append_left _ member),bind_some]
      exact updateAll_some frame ((foldl_ref frame _ _).trans (putInList_ref client target move))
        fun handle member => each handle (mem_append_right _ member)

theorem updateAll_mono {update' : Client → Nat → Option Client}
    (each : ∀ {client handle client'},update client handle = some client' →
      update' client handle = some client') :
    ∀ {list : List Nat} {client client' : Client},updateAll update list client = some client' →
      updateAll update' list client = some client'
  | [], _, _, run => run
  | handle :: rest, client, client', run => by
    obtain ⟨between,first,second⟩ := bind_eq_some_iff.mp run
    rw [updateAll,each first]
    exact updateAll_mono each second

theorem updateWithin_mono : ∀ {fuel : Nat} {client client' : Client} {target reference : Nat}
    {move : Bool},updateWithin fuel client target reference move = some client' →
    updateWithin (fuel + 1) client target reference move = some client'
  | fuel + 1, client, client', target, reference, move, run => by
    rw [updateWithin] at run ⊢
    split
    next circular => rwa [if_pos circular] at run
    next passes =>
      rw [if_neg passes] at run
      obtain ⟨between,first,second⟩ := bind_eq_some_iff.mp run
      dsimp only
      rw [updateAll_mono (fun step => updateWithin_mono step) first]
      exact updateAll_mono (fun step => updateWithin_mono step) second

theorem updateWithin_le {fuel fuel' : Nat} {target reference : Nat} {move : Bool}
    (le : fuel ≤ fuel') (run : updateWithin fuel client target reference move = some client') :
    updateWithin fuel' client target reference move = some client' := by
  induction le with
  | refl => exact run
  | step _ ih => exact updateWithin_mono ih

/-! Registering dependants. -/

/-- The two resources are there, and the dependant does not lead to the resource. -/
structure Apart (client : Client) (resource dependant : Nat) : Prop where
  resource_mem : resource ∈ client.resources
  dependant_mem : dependant ∈ client.resources
  apart : ¬ Reach (following client) dependant resource

structure Added (client : Client) (resource dependant : Nat) (client' : Client) : Prop where
  resources : client'.resources = client.resources
  pendingFreeList : client'.pendingFreeList = client.pendingFreeList
  freeStack : client'.freeStack = client.freeStack
  parentRef : ∀ h,(client'.ref h).parentRef = (client.ref h).parentRef
  childRefMap : ∀ h,(client'.ref h).childRefMap = (client.ref h).childRefMap
  depRefMap : ∀ x y,y ∈ (client'.ref x).depRefMap →
    y ∈ (client.ref x).depRefMap ∨ x = resource ∧ y = dependant

theorem setRef_ref (client : Client) (handle other : Nat) (ref : ResourceRef) :
    (setRef client handle ref).ref other = if other = handle then ref else client.ref other :=
  Function.update_apply _ _ _ _

theorem refAddDependant_added (client : Client) (resource dependant : Nat) :
    Added client resource dependant (refAddDependant client resource dependant).2 := by
  unfold refAddDependant
  split
  · exact ⟨rfl,rfl,rfl,fun _ => rfl,fun _ => rfl,fun _ _ => .inl⟩
  · split
    · exact ⟨rfl,rfl,rfl,fun _ => rfl,fun _ => rfl,fun _ _ => .inl⟩
    next depBackRefMap _ =>
      -- The entry in the dependant, which the graph does not see.
      have back : ∀ h,((setRef client dependant
            { client.ref dependant with depBackRefMap }).ref h).depRefMap =
            (client.ref h).depRefMap ∧
          ((setRef client dependant { client.ref dependant with depBackRefMap }).ref h).parentRef =
            (client.ref h).parentRef ∧
          ((setRef client dependant
            { client.ref dependant with depBackRefMap }).ref h).childRefMap =
            (client.ref h).childRefMap := by
        intro h
        rw [setRef_ref]
        split
        next same => rw [same]; exact ⟨rfl,rfl,rfl⟩
        · exact ⟨rfl,rfl,rfl⟩
      dsimp only
      split
      · exact ⟨rfl,rfl,rfl,fun h => (back h).2.1,fun h => (back h).2.2,fun x y member => .inl
          ((back x).1 ▸ member)⟩
      next depRefMap add =>
        have grown : ∀ y ∈ depRefMap,y ∈ (client.ref resource).depRefMap ∨ y = dependant := by
          intro y member
          rw [(back resource).1] at add
          unfold indexAdd at add
          split at add
          · exact nomatch add
          · rw [← some.inj add,mem_append,mem_singleton] at member
            exact member
        refine ⟨rfl,rfl,rfl,fun h => ?_,fun h => ?_,fun x y member => ?_⟩
        · rw [setRef_ref]
          split
          next same => rw [same]; exact (back resource).2.1
          · exact (back h).2.1
        · rw [setRef_ref]
          split
          next same => rw [same]; exact (back resource).2.2
          · exact (back h).2.2
        · rw [setRef_ref] at member
          split at member
          next same => exact (grown y member).imp (same ▸ ·) fun new => ⟨same,new⟩
          · exact .inl ((back x).1 ▸ member)

theorem Added.following_mem {resource dependant : Nat}
    (added : Added client resource dependant client') (x y : Nat) (edge : y ∈ following client' x) :
    y ∈ following client x ∨ x = resource ∧ y = dependant := by
  rcases mem_append.mp edge with child | dep
  · rw [added.childRefMap] at child
    exact .inl (mem_append_left _ child)
  · exact (added.depRefMap x y dep).imp (mem_append_right _) id

theorem Added.wellFormed {resource dependant : Nat}
    (added : Added client resource dependant client') (wellFormed : WellFormed client)
    (apart : Apart client resource dependant) : WellFormed client' where
  closed := by
    intro h member y edge
    rw [added.resources] at member ⊢
    rcases added.following_mem h y edge with old | ⟨_,rfl⟩
    · exact wellFormed.closed h member y old
    · exact apart.dependant_mem
  parent_mem := by
    intro h member p parent
    rw [added.resources] at member ⊢
    rw [added.parentRef] at parent
    exact wellFormed.parent_mem h member p parent
  child_iff := by
    intro p inside h member
    rw [added.resources] at inside member
    rw [added.childRefMap,added.parentRef]
    exact wellFormed.child_iff p inside h member
  nodup := by
    intro p inside
    rw [added.resources] at inside
    rw [added.childRefMap]
    exact wellFormed.nodup p inside
  acyclic := by
    intro h member
    rw [added.resources] at member
    exact acyclic_added added.following_mem apart.apart (wellFormed.acyclic h member)

def addDependants : List (Nat × Nat) → Client → Client
  | [], client => client
  | call :: calls, client => addDependants calls (refAddDependant client call.1 call.2).2

/-- No call closes a cycle. -/
def NoCycle : List (Nat × Nat) → Client → Prop
  | [], _ => True
  | call :: calls, client =>
    Apart client call.1 call.2 ∧ NoCycle calls (refAddDependant client call.1 call.2).2

theorem addDependants_wellFormed : ∀ {calls : List (Nat × Nat)} {client : Client},
    WellFormed client → NoCycle calls client → WellFormed (addDependants calls client)
  | [], _, wellFormed, _ => wellFormed
  | call :: calls, client, wellFormed, ⟨apart,rest⟩ =>
    @addDependants_wellFormed calls _
      ((refAddDependant_added client call.1 call.2).wellFormed wellFormed apart) rest

theorem addDependants_frame : ∀ (calls : List (Nat × Nat)) (client : Client),
    (addDependants calls client).resources = client.resources ∧
    (addDependants calls client).pendingFreeList = client.pendingFreeList ∧
    (addDependants calls client).freeStack = client.freeStack
  | [], _ => ⟨rfl,rfl,rfl⟩
  | call :: calls, client => by
    have added := refAddDependant_added client call.1 call.2
    obtain ⟨resources,list,stack⟩ := addDependants_frame calls (refAddDependant client call.1 call.2).2
    exact ⟨resources.trans added.resources,list.trans added.pendingFreeList,
      stack.trans added.freeStack⟩

/-- The list that is built for a target has everything that the target leads to, each resource
once. -/
structure Built (client : Client) (target : Nat) (list : List Nat) : Prop where
  returns : ∀ fuel,client.resources.card ≤ fuel → buildPendingFreeList fuel client target =
    some { client with freeStack := [target], pendingFreeList := list }
  once : list.Nodup
  reached : ∀ h,h ∈ list ↔ Reach (following client) target h

/-- As long as no dependant closes a cycle, the list is built. -/
theorem pending_list_built {client : Client} (wellFormed : WellFormed client)
    (idle : client.pendingFreeList = [] ∧ client.freeStack = []) {calls : List (Nat × Nat)}
    (noCycle : NoCycle calls client) {target : Nat} (member : target ∈ client.resources) :
    ∃ list,Built (addDependants calls client) target list := by
  have after := addDependants_wellFormed wellFormed noCycle
  obtain ⟨resources,pending,stack⟩ := addDependants_frame calls client
  rw [← resources] at member
  rw [idle.1] at pending
  rw [idle.2] at stack
  obtain ⟨list,built,listed⟩ := pendingList_listed after member stack
    (by rw [pending]; exact nodup_nil) (by rw [pending]; nofun)
  refine ⟨list,fun fuel enough => ?_,listed.nodup,listed.mem⟩
  have bounded := after.bounded member
  refine updateWithin_le enough ?_
  rw [updateWithin_some target false (following_congr (by rfl) ▸ bounded),← built,pendingList,stack]
  rfl

/-- A root with two children, which have nothing to do with each other yet. -/
def siblings : Client where
  resources := {0,1,2}
  ref := fun handle => ⟨if handle = 0 then none else some 0,if handle = 0 then [1,2] else [],[],[],
    false,.default⟩
  pendingFreeList := []
  freeStack := []
  events := []

theorem siblings_wellFormed : WellFormed siblings where
  closed := by decide
  parent_mem := by
    intro h member p parent
    have root : p = 0 := by
      change (if h = 0 then none else some 0) = some p at parent
      split at parent
      · exact nomatch parent
      · exact (some.inj parent).symm
    rw [root]
    decide
  child_iff := by decide
  nodup := by decide
  acyclic := by
    intro h _ cycle
    have down : ∀ {x y : Nat},Relation.TransGen (Edge (following siblings)) x y → x = 0 ∧ y ≠ 0 := by
      have step : ∀ {x y : Nat},Edge (following siblings) x y → x = 0 ∧ y ≠ 0 := by
        intro x y edge
        change y ∈ (if x = 0 then [1,2] else []) ++ [] at edge
        split at edge
        next root =>
          refine ⟨root,?_⟩
          rintro rfl
          exact absurd edge (by decide)
        · exact absurd edge (by simp)
      intro x y path
      induction path with
      | single edge => exact step edge
      | tail _ edge ih => exact ⟨ih.1,(step edge).2⟩
    obtain ⟨root,other⟩ := down cycle
    exact other root

theorem siblings_noCycle : NoCycle [(1,2)] siblings := by
  refine ⟨⟨by decide,by decide,fun path => ?_⟩,trivial⟩
  rcases reach_iff.mp path with same | ⟨z,edge,_⟩
  · exact nomatch same
  · exact absurd edge (by simp [following,siblings])

/-- One of the children depends on the other. -/
theorem pending_list_built_siblings : ∃ list,Built (addDependants [(1,2)] siblings) 0 list :=
  pending_list_built siblings_wellFormed ⟨rfl,rfl⟩ siblings_noCycle (by decide)

/-- Two resources without children that depend on each other: the recursion for one of them goes
deeper than any bound. -/
theorem updateWithin_circular (client : Client) {first second : Nat}
    (children : (client.ref first).childRefMap = [] ∧ (client.ref second).childRefMap = [])
    (dependants : (client.ref first).depRefMap = [second] ∧
      (client.ref second).depRefMap = [first]) (other : second ≠ first) :
    ∀ (fuel : Nat) (between : Client) (move : Bool),between.ref = client.ref →
      between.freeStack = [first] →
      updateWithin fuel between first first move = none ∧
      updateWithin fuel between second first true = none := by
  intro fuel
  induction fuel with
  | zero => exact fun _ _ _ _ => ⟨rfl,rfl⟩
  | succ fuel ih =>
    intro between move same stack
    -- Neither is skipped: the first one is what is freed, and the second one is not on the stack.
    have passes : ∀ target,target = first ∨ target = second →
        ¬ (isCircular between target first = true) := by
      rintro target (rfl | rfl)
      · simp [isCircular]
      · simp [isCircular,stack,other]
    have placed : ∀ target move,(putInList between target move).ref = client.ref ∧
        (putInList between target move).freeStack = [first] := fun target move =>
      ⟨(putInList_ref between target move).trans same,
        (putInList_freeStack between target move).trans stack⟩
    constructor
    · rw [updateWithin,if_neg fun both => passes first (.inl rfl) both.2]
      dsimp only
      rw [same,children.1,dependants.1,updateAll,bind_some,updateAll,
        (ih _ true (placed first move).1 (placed first move).2).2]
      rfl
    · rw [updateWithin,if_neg fun both => passes second (.inr rfl) both.2]
      dsimp only
      rw [same,children.2,dependants.2,updateAll,bind_some,updateAll,
        (ih _ true (placed second true).1 (placed second true).2).1]
      rfl

/-- Both depend on each other, and the recursion goes on for ever. -/
theorem circular_dependants : WellFormed siblings ∧ (refAddDependant siblings 1 2).1 = true ∧
    (refAddDependant (addDependants [(1,2)] siblings) 2 1).1 = true ∧
    ∀ fuel,buildPendingFreeList fuel (addDependants [(1,2),(2,1)] siblings) 1 = none := by
  refine ⟨siblings_wellFormed,by decide,by decide,fun fuel => ?_⟩
  let client := addDependants [(1,2),(2,1)] siblings
  have children : (client.ref 1).childRefMap = [] ∧ (client.ref 2).childRefMap = [] := by decide
  have dependants : (client.ref 1).depRefMap = [2] ∧ (client.ref 2).depRefMap = [1] := by decide
  exact (updateWithin_circular client children dependants (by decide) fuel
    { client with freeStack := [1] } false rfl rfl).1

end GpuExt.ClientFree
