import Mathlib.Logic.Function.Basic
import Mathlib.Data.List.Basic
import Mathlib.Data.List.Perm.Basic
import Mathlib.Data.List.Pairwise

/-! `clientRefOrderedIter`: a walk over the resources below a scope with a stack of index iterators,
whose size is the limit on the depth of a resource. -/
namespace GpuExt.OrderedIterator

open Function List Option

def rsMaxResourceDepth : Nat := 6

structure ResourceRef where
  internalClassId : Nat
  /-- The classes that the resource can be cast to. -/
  castClassIds : List Nat
  live : Bool
  parentRef : Option Nat
  childRefMap : List Nat
  depth : Nat
  deriving DecidableEq, Repr

structure Client where
  hClient : Nat
  resourceMap : List Nat
  ref : Nat → ResourceRef

structure Filter where
  scope : Nat
  internalClassId : Nat
  bExactMatch : Bool
  deriving DecidableEq, Repr

section

variable (client : Client) (filter : Filter) (handle : Nat) (ref : ResourceRef)

def Client.setRef : Client :=
  { client with ref := update client.ref handle ref }

/-! Trees under the depth limit. -/

/-- A client with nothing but its client resource. -/
def newClient (hClient internalClassId : Nat) (castClassIds : List Nat) : Client :=
  ⟨hClient,[hClient],fun _ => ⟨internalClassId,castClassIds,true,none,[],0⟩⟩

/-- The part of `_clientAllocResourceHelper` that puts a resource into the tree. It comes to any
place among its siblings. -/
def allocResource (hParent handle internalClassId : Nat) (castClassIds : List Nat)
    (place : Nat) : Option Client :=
  let parent := client.ref hParent
  let depth := parent.depth + 1
  if hParent ∉ client.resourceMap ∨ handle ∈ client.resourceMap then none
  else if rsMaxResourceDepth + 1 ≤ depth then none
  else
    let linked := client.setRef hParent { parent with
      childRefMap := parent.childRefMap.take place ++ handle :: parent.childRefMap.drop place }
    some { linked.setRef handle ⟨internalClassId,castClassIds,true,some hParent,[],depth⟩ with
      resourceMap := handle :: client.resourceMap }

/-- The object of a resource is gone, its reference is still there. -/
def invalidate : Client :=
  client.setRef handle { client.ref handle with live := false }

inductive Built : Client → Prop where
  | new (hClient internalClassId : Nat) (castClassIds : List Nat) :
    Built (newClient hClient internalClassId castClassIds)
  | alloc {client client' : Client} {hParent handle internalClassId place : Nat}
    {castClassIds : List Nat} : Built client →
    allocResource client hParent handle internalClassId castClassIds place = some client' →
    Built client'
  | invalidate {client : Client} (handle : Nat) : Built client → Built (invalidate client handle)

/-! The iterators. -/

/-- The parents as far as the depth of a reference goes. -/
def hasAncestor (client : Client) (ancestor : Nat) : Nat → Nat → Bool
  | 0, _ => false
  | depth + 1, handle =>
    match (client.ref handle).parentRef with
    | none => false
    | some parent => parent = ancestor || hasAncestor client ancestor depth parent

def refHasAncestor (ancestor : Nat) : Bool :=
  hasAncestor client ancestor (client.ref handle).depth handle

def Filter.matches : Bool :=
  (filter.internalClassId = 0 ∨
    if filter.bExactMatch then filter.internalClassId = ref.internalClassId
    else ref.live ∧ filter.internalClassId ∈ ref.castClassIds) ∧ ref.live

/-- What `clientRefIterNext` visits of the resource map. -/
def clientRefIterDescendants : List Nat :=
  client.resourceMap.filter fun handle =>
    (handle = filter.scope || refHasAncestor client handle filter.scope) &&
      filter.matches (client.ref handle)

/-- The index iterators as what is left of their maps; there are `rsMaxResourceDepth + 1`. -/
structure Stack where
  depth : Nat
  idxIt : Nat → List Nat

/-- The next sibling, or that of a parent. Nothing if the stack is left. -/
def nextSibling (idxIt : Nat → List Nat) : Nat → Option (Option (Nat × Stack))
  | 0 =>
    match idxIt 0 with
    | [] => some none
    | handle :: rest => some (some (handle,⟨0,update idxIt 0 rest⟩))
  | depth + 1 =>
    if rsMaxResourceDepth < depth + 1 then none
    else
      match idxIt (depth + 1) with
      | [] => nextSibling idxIt depth
      | handle :: rest => some (some (handle,⟨depth + 1,update idxIt (depth + 1) rest⟩))

def descend (stack : Stack) : Stack :=
  if stack.depth < rsMaxResourceDepth then
    ⟨stack.depth + 1,update stack.idxIt (stack.depth + 1) (client.ref handle).childRefMap⟩
  else stack

/-- The loop of `clientRefOrderedIterNext`, with a bound on its turns. -/
def nextMatch (client : Client) (filter : Filter) : Nat → Stack → Option (Option Nat × Stack)
  | 0, _ => none
  | fuel + 1, stack =>
    match nextSibling stack.idxIt stack.depth with
    | none => none
    | some none => some (none,{ stack with depth := 0 })
    | some (some (handle,found)) =>
      let stack := descend client handle found
      if refHasAncestor client handle filter.scope && filter.matches (client.ref handle) then
        some (some handle,stack)
      else nextMatch client filter fuel stack

/-- Without a stack, the scope itself is still to be visited (the depth of -1). -/
def clientRefOrderedIterNext (fuel : Nat) (it : Option Stack) : Option (Option Nat × Stack) :=
  match it with
  | some stack => nextMatch client filter fuel stack
  | none =>
    let scope := client.ref filter.scope
    let stack : Stack := ⟨0,fun _ => scope.childRefMap⟩
    if filter.scope ≠ client.hClient ∧
        (filter.internalClassId = 0 ∨ filter.internalClassId = scope.internalClassId) ∧ scope.live then
      some (some filter.scope,stack)
    else nextMatch client filter fuel stack

end

/-- All calls until the iterator is at its end. -/
def visitAll (client : Client) (filter : Filter) (fuel : Nat) : Nat → Option Stack → Option (List Nat)
  | 0, _ => none
  | calls + 1, it =>
    match clientRefOrderedIterNext client filter fuel it with
    | none => none
    | some (none,_) => some []
    | some (some handle,stack) => (visitAll client filter fuel calls (some stack)).map (handle :: ·)

/-! What a stack is still going to meet. -/

section Walk

variable (client : Client)

/-- A resource and those below it, each before its children. -/
def subtree : Nat → Nat → List Nat
  | 0, handle => [handle]
  | levels + 1, handle => handle :: (client.ref handle).childRefMap.flatMap (subtree levels)

def ahead (idxIt : Nat → List Nat) : Nat → List Nat
  | 0 => (idxIt 0).flatMap (subtree client rsMaxResourceDepth)
  | depth + 1 =>
    (idxIt (depth + 1)).flatMap (subtree client (rsMaxResourceDepth - (depth + 1))) ++ ahead idxIt depth

def Stack.ahead (stack : Stack) : List Nat := OrderedIterator.ahead client stack.idxIt stack.depth

variable {client}

variable {depth fuel : Nat} {stack : Stack}

theorem ahead_update {idxIt : Nat → List Nat} {above : Nat} (lt : depth < above) (list : List Nat) :
    ahead client (update idxIt above list) depth = ahead client idxIt depth := by
  induction depth with
  | zero => rw [ahead,ahead,update_of_ne (Nat.ne_of_lt lt)]
  | succ depth ih => rw [ahead,ahead,update_of_ne (Nat.ne_of_lt lt),ih (Nat.lt_of_succ_lt lt)]

theorem ahead_put (idxIt : Nat → List Nat) (depth : Nat) (list : List Nat) :
    ahead client (update idxIt (depth + 1) list) (depth + 1) =
      list.flatMap (subtree client (rsMaxResourceDepth - (depth + 1))) ++ ahead client idxIt depth := by
  rw [ahead,update_self,ahead_update (Nat.lt_succ_self depth)]

variable (client) in
theorem nextSibling_ahead (idxIt : Nat → List Nat) (le : depth ≤ rsMaxResourceDepth) :
    (nextSibling idxIt depth = some none ∧ ahead client idxIt depth = []) ∨
    ∃ handle stack,nextSibling idxIt depth = some (some (handle,stack)) ∧
      stack.depth ≤ rsMaxResourceDepth ∧ ahead client idxIt depth =
        subtree client (rsMaxResourceDepth - stack.depth) handle ++ stack.ahead client := by
  induction depth with
  | zero =>
    rcases list : idxIt 0 with _ | ⟨handle,rest⟩
    · exact .inl ⟨by rw [nextSibling,list],by rw [ahead,list]; rfl⟩
    · refine .inr ⟨handle,⟨0,update idxIt 0 rest⟩,by rw [nextSibling,list],Nat.zero_le _,?_⟩
      dsimp only [Stack.ahead]
      rw [ahead,list]
      rfl
  | succ depth ih =>
    have inside : ¬ rsMaxResourceDepth < depth + 1 := Nat.not_lt.mpr le
    rcases list : idxIt _ with _ | ⟨handle,rest⟩
    · have skip : nextSibling idxIt (depth + 1) = nextSibling idxIt depth := by
        rw [nextSibling,if_neg inside,list]
      rw [skip,ahead,list]
      exact ih (Nat.le_of_succ_le le)
    · refine .inr ⟨handle,⟨depth + 1,update idxIt _ rest⟩,
        by rw [nextSibling,if_neg inside,list],le,?_⟩
      dsimp only [Stack.ahead]
      rw [ahead_put,ahead,list,flatMap_cons,append_assoc]

variable (client) in
theorem descend_ahead (handle : Nat) (le : stack.depth ≤ rsMaxResourceDepth) :
    (descend client handle stack).depth ≤ rsMaxResourceDepth ∧
    subtree client (rsMaxResourceDepth - stack.depth) handle ++ stack.ahead client =
      handle :: (descend client handle stack).ahead client := by
  unfold descend
  split
  next lt =>
    refine ⟨lt,?_⟩
    have levels : rsMaxResourceDepth - stack.depth =
        rsMaxResourceDepth - (stack.depth + 1) + 1 := by omega
    dsimp only [Stack.ahead]
    rw [levels,ahead_put]
    rfl
  next full =>
    have bottom : rsMaxResourceDepth - stack.depth = 0 := Nat.sub_eq_zero_of_le (Nat.not_lt.mp full)
    exact ⟨le,by rw [bottom]; rfl⟩

/-- What the walk stops at. -/
def selected (client : Client) (filter : Filter) (handle : Nat) : Bool :=
  refHasAncestor client handle filter.scope && filter.matches (client.ref handle)

/-- A call of the iterator takes what it met out of the rest. -/
theorem nextMatch_ahead (filter : Filter) (le : stack.depth ≤ rsMaxResourceDepth)
    (enough : (stack.ahead client).length < fuel) :
    (∃ stack',nextMatch client filter fuel stack = some (none,stack') ∧
      (stack.ahead client).filter (selected client filter) = []) ∨
    ∃ handle stack',nextMatch client filter fuel stack = some (some handle,stack') ∧
      stack'.depth ≤ rsMaxResourceDepth ∧
      (stack'.ahead client).length < (stack.ahead client).length ∧
      (stack.ahead client).filter (selected client filter) =
        handle :: (stack'.ahead client).filter (selected client filter) := by
  induction fuel generalizing stack with
  | zero => exact absurd enough (Nat.not_lt_zero _)
  | succ fuel ih =>
    rcases nextSibling_ahead client stack.idxIt le with
      ⟨ends,nothing⟩ | ⟨handle,found,next,inside,rest⟩
    · refine .inl ⟨{ stack with depth := 0 },by rw [nextMatch,ends],?_⟩
      rw [Stack.ahead,nothing]
      rfl
    · obtain ⟨bounded,onward⟩ := descend_ahead client handle inside
      rw [Stack.ahead,rest,onward] at enough ⊢
      have step : nextMatch client filter (fuel + 1) stack =
          if selected client filter handle then some (some handle,descend client handle found)
          else nextMatch client filter fuel (descend client handle found) := by
        rw [nextMatch,next]
        rfl
      rw [filter_cons,step]
      split
      · exact .inr ⟨handle,_,rfl,bounded,Nat.lt_succ_self _,rfl⟩
      · refine (ih bounded (Nat.lt_of_succ_lt_succ enough)).imp_right ?_
        exact fun ⟨other,stack',run,inside,less,same⟩ =>
          ⟨other,stack',run,inside,Nat.lt_succ_of_lt less,same⟩

theorem visitAll_ahead (filter : Filter) {calls : Nat} (stack : Stack)
    (le : stack.depth ≤ rsMaxResourceDepth) (enough : (stack.ahead client).length < fuel)
    (turns : (stack.ahead client).length < calls) :
    visitAll client filter fuel calls (some stack) =
      some ((stack.ahead client).filter (selected client filter)) := by
  induction calls generalizing stack with
  | zero => exact absurd turns (Nat.not_lt_zero _)
  | succ calls ih =>
    rcases nextMatch_ahead filter le enough with ⟨stack',run,none⟩ | ⟨handle,stack',run,inside,less,rest⟩
    · rw [visitAll,clientRefOrderedIterNext,run,none]
    · rw [visitAll,clientRefOrderedIterNext,run,rest]
      dsimp only
      rw [ih stack' inside (Nat.lt_trans less enough) (Nat.lt_of_lt_of_le less (Nat.le_of_lt_succ turns))]
      rfl

end Walk

/-! The tree. -/

structure WellFormed (client : Client) : Prop where
  client_mem : client.hClient ∈ client.resourceMap
  root : (client.ref client.hClient).parentRef = none
  child_iff : ∀ p ∈ client.resourceMap,∀ h,h ∈ (client.ref p).childRefMap ↔
    h ∈ client.resourceMap ∧ (client.ref h).parentRef = some p
  parent_mem : ∀ h ∈ client.resourceMap,∀ p,(client.ref h).parentRef = some p →
    p ∈ client.resourceMap ∧ (client.ref h).depth = (client.ref p).depth + 1
  nodup : ∀ p ∈ client.resourceMap,(client.ref p).childRefMap.Nodup
  limit : ∀ h ∈ client.resourceMap,(client.ref h).depth ≤ rsMaxResourceDepth

theorem newClient_wellFormed (hClient internalClassId : Nat) (castClassIds : List Nat) :
    WellFormed (newClient hClient internalClassId castClassIds) where
  client_mem := mem_singleton_self _
  root := rfl
  child_iff _ _ _ := ⟨nofun,fun child => nomatch child.2⟩
  parent_mem _ _ _ := nofun
  nodup _ _ := nodup_nil
  limit _ _ := Nat.zero_le _

structure Allocated (client client' : Client) (hParent handle : Nat) : Prop where
  hClient : client'.hClient = client.hClient
  resourceMap : client'.resourceMap = handle :: client.resourceMap
  parent_mem : hParent ∈ client.resourceMap
  fresh : handle ∉ client.resourceMap
  parentRef : (client'.ref handle).parentRef = some hParent
  depth : (client'.ref handle).depth = (client.ref hParent).depth + 1
  limit : (client.ref hParent).depth + 1 ≤ rsMaxResourceDepth
  childRefMap : (client'.ref handle).childRefMap = []
  grown : (client'.ref hParent).childRefMap.Perm (handle :: (client.ref hParent).childRefMap)
  kept : ∀ h ∈ client.resourceMap,(client'.ref h).parentRef = (client.ref h).parentRef ∧
    (client'.ref h).depth = (client.ref h).depth
  others : ∀ h ∈ client.resourceMap,h ≠ hParent →
    (client'.ref h).childRefMap = (client.ref h).childRefMap

variable {client client' : Client} {hParent handle : Nat} {filter : Filter}

theorem allocResource_allocated {internalClassId place : Nat}
    {castClassIds : List Nat}
    (run : allocResource client hParent handle internalClassId castClassIds place = some client') :
    Allocated client client' hParent handle := by
  unfold allocResource at run
  dsimp only at run
  split at run
  · exact nomatch run
  next valid =>
    split at run
    · exact nomatch run
    next shallow =>
      obtain ⟨parent_mem,fresh⟩ : hParent ∈ client.resourceMap ∧ handle ∉ client.resourceMap := by
        simpa using valid
      have other : ∀ h ∈ client.resourceMap,h ≠ handle := fun h member same => fresh (same ▸ member)
      obtain rfl := some.inj run
      have lookup : ∀ h ∈ client.resourceMap,h ≠ hParent →
          update (update client.ref hParent { client.ref hParent with
            childRefMap := (client.ref hParent).childRefMap.take place ++
              handle :: (client.ref hParent).childRefMap.drop place }) handle
            ⟨internalClassId,castClassIds,true,some hParent,[],(client.ref hParent).depth + 1⟩ h =
          client.ref h := fun h member apart => by
        rw [update_of_ne (other h member),update_of_ne apart]
      refine ⟨rfl,rfl,parent_mem,fresh,?_,?_,by omega,?_,?_,fun h member => ?_,fun h member apart => ?_⟩
      · simp [Client.setRef]
      · simp [Client.setRef]
      · simp [Client.setRef]
      · simp only [Client.setRef,update_of_ne (other hParent parent_mem),update_self]
        refine perm_middle.trans ?_
        rw [take_append_drop]
      · by_cases same : h = hParent
        · subst same
          simp [Client.setRef,update_of_ne (other h member)]
        · simp [Client.setRef,lookup h member same]
      · simp only [Client.setRef,lookup h member apart]

theorem Allocated.mem_child (allocated : Allocated client client' hParent handle)
    {p : Nat} (member : p ∈ client.resourceMap) (h : Nat) : h ∈ (client'.ref p).childRefMap ↔
      h ∈ (client.ref p).childRefMap ∨ p = hParent ∧ h = handle := by
  by_cases same : p = hParent
  · rw [same,allocated.grown.mem_iff,mem_cons,or_comm,and_iff_right rfl]
  · rw [allocated.others p member same]
    exact ⟨.inl,fun old => old.elim id fun new => absurd new.1 same⟩

theorem WellFormed.alloc (wellFormed : WellFormed client)
    (allocated : Allocated client client' hParent handle) : WellFormed client' := by
  have map := allocated.resourceMap
  constructor
  · rw [map,allocated.hClient]
    exact mem_cons_of_mem _ wellFormed.client_mem
  · rw [allocated.hClient,(allocated.kept _ wellFormed.client_mem).1]
    exact wellFormed.root
  · intro p member h
    rw [map,mem_cons] at member
    rw [map,mem_cons]
    rcases member with rfl | member
    · -- The new resource has no children, and nothing has it as its parent.
      rw [allocated.childRefMap]
      refine ⟨nofun,fun ⟨inside,parent⟩ => ?_⟩
      rcases inside with rfl | inside
      · rw [allocated.parentRef] at parent
        exact absurd (some.inj parent ▸ allocated.parent_mem) allocated.fresh
      · rw [(allocated.kept h inside).1] at parent
        exact absurd (wellFormed.parent_mem h inside _ parent).1 allocated.fresh
    · rw [allocated.mem_child member,wellFormed.child_iff p member]
      constructor
      · rintro (⟨inside,parent⟩ | ⟨rfl,rfl⟩)
        · exact ⟨.inr inside,(allocated.kept h inside).1.trans parent⟩
        · exact ⟨.inl rfl,allocated.parentRef⟩
      · rintro ⟨rfl | inside,parent⟩
        · rw [allocated.parentRef] at parent
          exact .inr ⟨(some.inj parent).symm,rfl⟩
        · rw [(allocated.kept h inside).1] at parent
          exact .inl ⟨inside,parent⟩
  · intro h member p parent
    rw [map,mem_cons] at member ⊢
    rcases member with rfl | member
    · rw [allocated.parentRef] at parent
      obtain rfl := some.inj parent
      rw [allocated.depth,(allocated.kept _ allocated.parent_mem).2]
      exact ⟨.inr allocated.parent_mem,rfl⟩
    · rw [(allocated.kept h member).1] at parent
      obtain ⟨inside,depth⟩ := wellFormed.parent_mem h member p parent
      rw [(allocated.kept h member).2,(allocated.kept p inside).2]
      exact ⟨.inr inside,depth⟩
  · intro p member
    rw [map,mem_cons] at member
    rcases member with rfl | member
    · rw [allocated.childRefMap]
      exact nodup_nil
    · by_cases same : p = hParent
      · subst same
        refine (allocated.grown.nodup_iff).mpr (nodup_cons.mpr ⟨fun child => ?_,
          wellFormed.nodup p member⟩)
        exact allocated.fresh ((wellFormed.child_iff p member handle).mp child).1
      · rw [allocated.others p member same]
        exact wellFormed.nodup p member
  · intro h member
    rw [map,mem_cons] at member
    rcases member with rfl | member
    · rw [allocated.depth]
      exact allocated.limit
    · rw [(allocated.kept h member).2]
      exact wellFormed.limit h member

theorem WellFormed.invalidate (wellFormed : WellFormed client) (handle : Nat) :
    WellFormed (invalidate client handle) := by
  have same : ∀ h, ∃ live, (OrderedIterator.invalidate client handle).ref h =
      { client.ref h with live } := by
    intro h
    simp only [OrderedIterator.invalidate,Client.setRef,update_apply]
    split
    next eq => exact ⟨false,by rw [eq]⟩
    · exact ⟨_,rfl⟩
  choose live same using same
  obtain ⟨client_mem,root,child_iff,parent_mem,nodup,limit⟩ := wellFormed
  constructor
  · exact client_mem
  all_goals simp only [same]
  all_goals assumption

theorem Built.wellFormed (built : Built client) : WellFormed client := by
  induction built with
  | new => exact newClient_wellFormed _ _ _
  | alloc _ run ih => exact ih.alloc (allocResource_allocated run)
  | invalidate handle _ ih => exact ih.invalidate handle

section Tree

variable (client) in
/-- The parents of a resource, one after the other. -/
def up : Nat → Nat → Option Nat
  | 0, handle => some handle
  | k + 1, handle => (client.ref handle).parentRef.bind (up k)

variable (client) in
/-- All resources below a scope, in the order of the walk. -/
def below (scope : Nat) : List Nat :=
  (client.ref scope).childRefMap.flatMap (subtree client rsMaxResourceDepth)

/-- Neither the same as, nor below, the other one. -/
def NotBelow (client : Client) (x y : Nat) : Prop := ∀ k,up client k x ≠ some y

theorem up_add (j k h : Nat) : up client (j + k) h = (up client j h).bind (up client k) := by
  induction j generalizing h with
  | zero =>
    rw [Nat.zero_add]
    rfl
  | succ j ih =>
    rw [Nat.add_right_comm,up,up]
    cases (client.ref h).parentRef with
    | none => rfl
    | some p => exact ih p

theorem up_succ (k h : Nat) : up client (k + 1) h = (up client k h).bind fun p =>
    (client.ref p).parentRef := by
  have one : up client 1 = fun p => (client.ref p).parentRef := funext fun p => bind_fun_some _
  rw [up_add,one]

theorem hasAncestor_iff {ancestor n h : Nat} :
    hasAncestor client ancestor n h = true ↔ ∃ k < n,up client (k + 1) h = some ancestor := by
  induction n generalizing h with
  | zero => exact ⟨nofun,fun ⟨_,lt,_⟩ => absurd lt (Nat.not_lt_zero _)⟩
  | succ n ih =>
    rw [hasAncestor]
    rcases parent : (client.ref h).parentRef with _ | p
    · simp [up,parent]
    · simp only [Bool.or_eq_true,decide_eq_true_eq,ih,up,parent]
      constructor
      · rintro (rfl | ⟨k,lt,above⟩)
        · exact ⟨0,Nat.succ_pos n,rfl⟩
        · exact ⟨k + 1,Nat.succ_lt_succ lt,above⟩
      · rintro ⟨k,lt,above⟩
        cases k with
        | zero => exact .inl (some.inj above)
        | succ k => exact .inr ⟨k,Nat.lt_of_succ_lt_succ lt,above⟩

section

variable {levels : Nat} (wellFormed : WellFormed client)
include wellFormed

theorem WellFormed.up_mem {h p k : Nat}
    (member : h ∈ client.resourceMap) (above : up client k h = some p) :
    p ∈ client.resourceMap ∧ (client.ref h).depth = (client.ref p).depth + k := by
  induction k generalizing h with
  | zero =>
    obtain rfl := some.inj above
    exact ⟨member,rfl⟩
  | succ k ih =>
    obtain ⟨parent,first,rest⟩ := bind_eq_some_iff.mp above
    obtain ⟨parentMember,deeper⟩ := wellFormed.parent_mem h member parent first
    obtain ⟨inside,depth⟩ := ih parentMember rest
    exact ⟨inside,by rw [deeper,depth,Nat.add_assoc]⟩

theorem WellFormed.refHasAncestor_iff {h ancestor : Nat}
    (member : h ∈ client.resourceMap) :
    refHasAncestor client h ancestor = true ↔ ∃ k,up client (k + 1) h = some ancestor := by
  rw [refHasAncestor,hasAncestor_iff]
  refine ⟨fun ⟨k,_,above⟩ => ⟨k,above⟩,fun ⟨k,above⟩ => ⟨k,?_,above⟩⟩
  rw [(wellFormed.up_mem member above).2]
  omega

theorem WellFormed.ancestor_depth {h ancestor : Nat}
    (member : h ∈ client.resourceMap) (is : refHasAncestor client h ancestor = true) :
    (client.ref ancestor).depth < (client.ref h).depth := by
  obtain ⟨k,above⟩ := (wellFormed.refHasAncestor_iff member).mp is
  rw [(wellFormed.up_mem member above).2]
  omega

theorem WellFormed.mem_subtree {c x : Nat}
    (member : c ∈ client.resourceMap) : x ∈ subtree client levels c ↔
      x ∈ client.resourceMap ∧ ∃ k ≤ levels,up client k x = some c := by
  induction levels generalizing c with
  | zero =>
    rw [subtree,mem_singleton]
    constructor
    · rintro rfl
      exact ⟨member,0,Nat.le_refl 0,rfl⟩
    · rintro ⟨_,k,le,above⟩
      obtain rfl := Nat.le_zero.mp le
      exact some.inj above
  | succ levels ih =>
    rw [subtree,mem_cons,mem_flatMap]
    constructor
    · rintro (rfl | ⟨child,below,inside⟩)
      · exact ⟨member,0,Nat.zero_le _,rfl⟩
      · obtain ⟨childMember,parent⟩ := (wellFormed.child_iff c member child).mp below
        obtain ⟨xMember,k,le,above⟩ := (ih childMember).mp inside
        exact ⟨xMember,k + 1,Nat.succ_le_succ le,by rwa [up_succ,above]⟩
    · rintro ⟨xMember,k,le,above⟩
      cases k with
      | zero => exact .inl (some.inj above)
      | succ k =>
        -- The child is what `k` steps lead to.
        rw [up_succ] at above
        obtain ⟨child,between,parent⟩ := bind_eq_some_iff.mp above
        have childMember := (wellFormed.up_mem xMember between).1
        exact .inr ⟨child,(wellFormed.child_iff c member child).mpr ⟨childMember,parent⟩,
          (ih childMember).mpr ⟨xMember,k,Nat.le_of_succ_le_succ le,between⟩⟩

/-- The subtrees of a resource's children are apart. -/
theorem WellFormed.children_pairwise {p : Nat}
    (member : p ∈ client.resourceMap)
    (each : ∀ c ∈ (client.ref p).childRefMap,(subtree client levels c).Pairwise (NotBelow client)) :
    ((client.ref p).childRefMap.flatMap (subtree client levels)).Pairwise (NotBelow client) := by
  refine pairwise_flatMap.mpr ⟨each,?_⟩
  refine (wellFormed.nodup p member).imp_of_mem fun {c d} cChild dChild different x inC y inD k below => ?_
  obtain ⟨cMember,cParent⟩ := (wellFormed.child_iff p member c).mp cChild
  obtain ⟨dMember,dParent⟩ := (wellFormed.child_iff p member d).mp dChild
  obtain ⟨xMember,i,_,toC⟩ := (wellFormed.mem_subtree cMember).mp inC
  obtain ⟨_,j,_,toD⟩ := (wellFormed.mem_subtree dMember).mp inD
  have viaY : up client (k + j) x = some d := by rw [up_add,below,bind_some,toD]
  -- Both children are at one depth, so the ways to them have one length.
  have cDepth := (wellFormed.parent_mem c cMember p cParent).2
  have dDepth := (wellFormed.parent_mem d dMember p dParent).2
  have toC_depth := (wellFormed.up_mem xMember toC).2
  have toD_depth := (wellFormed.up_mem xMember viaY).2
  have length : i = k + j := by omega
  rw [length,viaY] at toC
  exact different (some.inj toC).symm

theorem WellFormed.subtree_pairwise {c : Nat}
    (member : c ∈ client.resourceMap) : (subtree client levels c).Pairwise (NotBelow client) := by
  induction levels generalizing c with
  | zero => exact pairwise_singleton _ _
  | succ levels ih =>
    have child_mem := fun d below => ((wellFormed.child_iff c member d).mp below).1
    refine pairwise_cons.mpr ⟨fun y inside k above => ?_,
      wellFormed.children_pairwise member fun d below => ih (child_mem d below)⟩
    obtain ⟨d,below,inside⟩ := mem_flatMap.mp inside
    obtain ⟨dMember,parent⟩ := (wellFormed.child_iff c member d).mp below
    obtain ⟨yMember,j,_,toD⟩ := (wellFormed.mem_subtree dMember).mp inside
    have dDepth := (wellFormed.parent_mem d dMember c parent).2
    have yDepth := (wellFormed.up_mem yMember toD).2
    have cDepth := (wellFormed.up_mem member above).2
    omega

theorem WellFormed.mem_below {scope x : Nat}
    (member : scope ∈ client.resourceMap) : x ∈ below client scope ↔
      x ∈ client.resourceMap ∧ refHasAncestor client x scope = true := by
  unfold below
  rw [mem_flatMap]
  constructor
  · rintro ⟨c,child,inside⟩
    obtain ⟨cMember,parent⟩ := (wellFormed.child_iff scope member c).mp child
    obtain ⟨xMember,k,_,above⟩ := (wellFormed.mem_subtree cMember).mp inside
    refine ⟨xMember,(wellFormed.refHasAncestor_iff xMember).mpr ⟨k,?_⟩⟩
    rw [up_succ,above]
    exact parent
  · rintro ⟨xMember,ancestor⟩
    obtain ⟨k,above⟩ := (wellFormed.refHasAncestor_iff xMember).mp ancestor
    have depth := (wellFormed.up_mem xMember above).2
    have limit := wellFormed.limit x xMember
    rw [up_succ] at above
    obtain ⟨c,toC,parent⟩ := bind_eq_some_iff.mp above
    have cMember := (wellFormed.up_mem xMember toC).1
    exact ⟨c,(wellFormed.child_iff scope member c).mpr ⟨cMember,parent⟩,
      (wellFormed.mem_subtree cMember).mpr ⟨xMember,k,by omega,toC⟩⟩

end

end Tree

/-! What the iterator is for. -/

structure Visits (client : Client) (filter : Filter) (visited : List Nat) : Prop where
  members : ∀ h,h ∈ visited ↔ h ∈ client.resourceMap ∧
    (h = filter.scope ∧ h ≠ client.hClient ∨ refHasAncestor client h filter.scope = true) ∧
      filter.matches (client.ref h) = true
  /-- Each one once, and none before its parent or another ancestor. -/
  ordered : visited.Pairwise fun h later => h ≠ later ∧ refHasAncestor client h later = false
  scope_first : filter.scope ∈ visited → visited.head? = some filter.scope
  unordered : ∀ h,h ∈ visited ↔ h ∈ clientRefIterDescendants client filter ∧ h ≠ client.hClient

/-- The scope's own test, which knows no derived classes, agrees with that of its descendants. It
is only made for a live scope that is not the client resource. -/
def ScopeAgrees (client : Client) (filter : Filter) : Prop :=
  filter.scope ≠ client.hClient → (client.ref filter.scope).live = true →
    filter.bExactMatch = false → filter.internalClassId ≠ 0 →
      (filter.internalClassId = (client.ref filter.scope).internalClassId ↔
        filter.internalClassId ∈ (client.ref filter.scope).castClassIds)

/-- The test that the iterator makes for its scope. -/
def ScopeVisited (client : Client) (filter : Filter) : Prop :=
  filter.scope ≠ client.hClient ∧ (filter.internalClassId = 0 ∨
    filter.internalClassId = (client.ref filter.scope).internalClassId) ∧
    (client.ref filter.scope).live = true

instance : Decidable (ScopeVisited client filter) := inferInstanceAs (Decidable (_ ∧ _))

theorem scopeAgrees_iff : ScopeAgrees client filter ↔ (ScopeVisited client filter ↔
    filter.scope ≠ client.hClient ∧ filter.matches (client.ref filter.scope) = true) := by
  simp only [ScopeAgrees,ScopeVisited,Filter.matches,decide_eq_true_eq]
  by_cases other : filter.scope = client.hClient
  · simp [other]
  · cases live : (client.ref filter.scope).live with
    | false => simp
    | true =>
      by_cases any : filter.internalClassId = 0
      · simp [any]
      · cases filter.bExactMatch <;> simp [other,any]

theorem WellFormed.visits (wellFormed : WellFormed client)
    (inside : filter.scope ∈ client.resourceMap) (front : List Nat)
    (here : ∀ h,h ∈ front ↔ h = filter.scope ∧ h ≠ client.hClient ∧
      filter.matches (client.ref h) = true) (few : front = [] ∨ front = [filter.scope]) :
    Visits client filter (front ++ (below client filter.scope).filter (selected client filter)) := by
  have members : ∀ h,h ∈ front ++ (below client filter.scope).filter (selected client filter) ↔
      h ∈ client.resourceMap ∧ (h = filter.scope ∧ h ≠ client.hClient ∨
        refHasAncestor client h filter.scope = true) ∧ filter.matches (client.ref h) = true := by
    intro h
    rw [mem_append,here,mem_filter,wellFormed.mem_below inside,selected,Bool.and_eq_true]
    constructor
    · rintro (⟨rfl,other,fits⟩ | ⟨⟨member,ancestor⟩,_,fits⟩)
      · exact ⟨inside,.inl ⟨rfl,other⟩,fits⟩
      · exact ⟨member,.inr ancestor,fits⟩
    · rintro ⟨member,⟨rfl,other⟩ | ancestor,fits⟩
      · exact .inl ⟨rfl,other,fits⟩
      · exact .inr ⟨⟨member,ancestor⟩,ancestor,fits⟩
  have rest : (below client filter.scope).Pairwise (NotBelow client) :=
    wellFormed.children_pairwise inside fun c child => wellFormed.subtree_pairwise
      ((wellFormed.child_iff _ inside c).mp child).1
  have tail : ((below client filter.scope).filter (selected client filter)).Pairwise fun h later =>
      h ≠ later ∧ refHasAncestor client h later = false := by
    refine (rest.filter _).imp_of_mem fun {x y} first _ not => ?_
    have member := ((wellFormed.mem_below inside).mp (mem_filter.mp first).1).1
    refine ⟨fun same => not 0 (congrArg some same),Bool.eq_false_iff.mpr fun ancestor => ?_⟩
    obtain ⟨k,above⟩ := (wellFormed.refHasAncestor_iff member).mp ancestor
    exact not _ above
  refine ⟨members,?_,?_,?_⟩
  · rcases few with rfl | rfl
    · exact tail
    · refine pairwise_cons.mpr ⟨fun y later => ?_,tail⟩
      obtain ⟨member,ancestor⟩ := (wellFormed.mem_below inside).mp (mem_filter.mp later).1
      have deeper := wellFormed.ancestor_depth member ancestor
      exact ⟨fun same => Nat.ne_of_lt deeper (same ▸ rfl),Bool.eq_false_iff.mpr fun higher =>
        Nat.lt_asymm deeper (wellFormed.ancestor_depth inside higher)⟩
  · intro member
    rcases few with rfl | rfl
    · have ancestor := ((wellFormed.mem_below inside).mp (mem_filter.mp member).1).2
      exact absurd (wellFormed.ancestor_depth inside ancestor) (Nat.lt_irrefl _)
    · rfl
  · intro h
    rw [members,clientRefIterDescendants,mem_filter,Bool.and_eq_true,Bool.or_eq_true,
      decide_eq_true_eq]
    constructor
    · rintro ⟨member,⟨same,other⟩ | ancestor,fits⟩
      · exact ⟨⟨member,.inl same,fits⟩,other⟩
      · refine ⟨⟨member,.inr ancestor,fits⟩,?_⟩
        rintro rfl
        obtain ⟨k,above⟩ := (wellFormed.refHasAncestor_iff member).mp ancestor
        rw [up,wellFormed.root] at above
        exact nomatch above
    · rintro ⟨⟨member,same | ancestor,fits⟩,other⟩
      · exact ⟨member,.inl ⟨same,other⟩,fits⟩
      · exact ⟨member,.inr ancestor,fits⟩

theorem WellFormed.scope_not_below (wellFormed : WellFormed client)
    (inside : filter.scope ∈ client.resourceMap) : filter.scope ∉ below client filter.scope :=
  fun member => absurd (wellFormed.ancestor_depth inside ((wellFormed.mem_below inside).mp member).2)
    (Nat.lt_irrefl _)

/-- The iterator ends without leaving its stack, and it visits what it should just when the
scope's test agrees. -/
theorem ordered_iteration {client : Client} (built : Built client) {filter : Filter}
    (inside : filter.scope ∈ client.resourceMap) :
    ∃ visited bound,(∀ fuel calls,bound ≤ fuel → bound ≤ calls →
      visitAll client filter fuel calls none = some visited) ∧
        (Visits client filter visited ↔ ScopeAgrees client filter) := by
  have wellFormed := built.wellFormed
  have apart := wellFormed.scope_not_below inside
  let stack : Stack := ⟨0,fun _ => (client.ref filter.scope).childRefMap⟩
  have walk : ∀ fuel calls, (below client filter.scope).length < fuel →
      (below client filter.scope).length < calls → visitAll client filter fuel calls (some stack) =
        some ((below client filter.scope).filter (selected client filter)) :=
    fun _ _ => visitAll_ahead filter stack (Nat.zero_le _)
  let front := if ScopeVisited client filter then [filter.scope] else []
  have here : ∀ h,h ∈ front ↔ h = filter.scope ∧ ScopeVisited client filter := by
    intro h
    by_cases first : ScopeVisited client filter <;> simp [front,first]
  refine ⟨front ++ (below client filter.scope).filter (selected client filter),
    (below client filter.scope).length + 2,fun fuel calls enough turns => ?_,?_,fun agrees => ?_⟩
  · obtain ⟨calls,rfl⟩ : ∃ k,calls = k + 1 := ⟨calls - 1,by omega⟩
    by_cases first : ScopeVisited client filter
    · have scope : clientRefOrderedIterNext client filter fuel none =
          some (some filter.scope,stack) := if_pos first
      rw [visitAll,scope]
      dsimp only [front]
      rw [walk fuel calls (by omega) (by omega),if_pos first]
      rfl
    · have skip : clientRefOrderedIterNext client filter fuel none =
          clientRefOrderedIterNext client filter fuel (some stack) := if_neg first
      have same : visitAll client filter fuel (calls + 1) none =
          visitAll client filter fuel (calls + 1) (some stack) := by rw [visitAll,visitAll,skip]
      dsimp only [front]
      rw [same,walk fuel _ (by omega) (by omega),if_neg first]
      rfl
  · intro visits
    have scope := visits.members filter.scope
    have loops : ¬refHasAncestor client filter.scope filter.scope = true := fun ancestor =>
      apart ((wellFormed.mem_below inside).mpr ⟨inside,ancestor⟩)
    rw [mem_append,here,mem_filter] at scope
    rw [scopeAgrees_iff]
    simpa [apart,loops,inside] using scope
  · refine wellFormed.visits inside front (fun h => ?_) ?_
    · rw [here,scopeAgrees_iff.mp agrees]
      constructor <;> (rintro ⟨rfl,rest⟩; exact ⟨rfl,rest⟩)
    · dsimp only [front]
      split
      · exact .inr rfl
      · exact .inl rfl

/-- A resource of class 5, which can also be used as one of class 3, under the client resource. -/
def derivedClient : Client :=
  ((allocResource (newClient 0 1 [1]) 0 1 5 [5,3] 0)).getD (newClient 0 1 [1])

theorem derivedClient_built : Built derivedClient := by
  have run : allocResource (newClient 0 1 [1]) 0 1 5 [5,3] 0 = some derivedClient := rfl
  exact .alloc (.new 0 1 [1]) run

theorem ordered_iteration_exact : ∃ visited bound,(∀ fuel calls,bound ≤ fuel → bound ≤ calls →
    visitAll derivedClient ⟨1,5,true⟩ fuel calls none = some visited) ∧
      Visits derivedClient ⟨1,5,true⟩ visited := by
  obtain ⟨visited,bound,run,visits⟩ :=
    @ordered_iteration _ derivedClient_built ⟨1,5,true⟩ (by decide)
  exact ⟨visited,bound,run,visits.mpr nofun⟩

/-- With derived matching, the other iterator finds the scope. -/
theorem scope_missed : Built derivedClient ∧
    Filter.matches ⟨1,3,false⟩ (derivedClient.ref 1) = true ∧ 1 ≠ derivedClient.hClient ∧
    visitAll derivedClient ⟨1,3,false⟩ 4 4 none = some [] ∧
    clientRefIterDescendants derivedClient ⟨1,3,false⟩ = [1] :=
  ⟨derivedClient_built,by decide,by decide,by decide,by decide⟩

end GpuExt.OrderedIterator
