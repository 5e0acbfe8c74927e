import Mathlib.Data.Finset.Lattice.Basic
import Mathlib.Data.Finset.SDiff
import Mathlib.Logic.Function.Basic

/-! Share policies of resources. A resource inherits the list of its nearest ancestor with a list
of its own; the first call that composes copies that list. -/
namespace GpuExt.SharePolicy

open Function List

def rsShareTypeClient : Nat := 3

structure Policy where
  type : Nat
  target : Nat
  /-- Rights are denied to those who do not meet the policy, instead of given to those who do. -/
  require : Bool
  accessMask : Finset Nat
  deriving DecidableEq

def rsSharePolicyEquals (a b : Policy) : Bool :=
  if a.type ≠ b.type then false
  else if a.require ≠ b.require then false
  else if a.type = rsShareTypeClient then a.target = b.target
  else true

/-- The union of the rights into the first policy that matches. -/
def mergeFirst (policy : Policy) : List Policy → List Policy
  | [] => []
  | p :: rest =>
    if rsSharePolicyEquals p policy then
      { p with accessMask := p.accessMask ∪ policy.accessMask } :: rest
    else p :: mergeFirst policy rest

/-- Whether it was inserted, which takes memory only for a new entry. -/
def rsShareListInsert (list : List Policy) (policy : Policy) (noMemory : Bool) :
    Bool × List Policy :=
  if list.any (rsSharePolicyEquals · policy) then (true,mergeFirst policy list)
  else if noMemory then (false,list)
  else (true,list ++ [policy])

def rsShareListRemove (policy : Policy) : List Policy → List Policy
  | [] => []
  | p :: rest =>
    if rsSharePolicyEquals p policy then
      let accessMask := p.accessMask \ policy.accessMask
      if accessMask = ∅ then rest else { p with accessMask } :: rest
    else p :: rsShareListRemove policy rest

/-- `copied` is how many entries there is memory for, if not for all. -/
def rsShareListCopy (dst src : List Policy) (copied : Option Nat) : Bool × List Policy :=
  match copied with
  | none => (true,dst ++ src)
  | some k => if k < src.length then (false,dst ++ src.take k) else (true,dst ++ src)

/-- Parents of resources, which do not change. -/
structure Tree where
  parentRef : Nat → Option Nat
  depth : Nat → Nat
  parent_depth : ∀ r p,parentRef r = some p → depth p < depth r

structure State where
  sharePolicyList : Nat → List Policy
  bSharePolicyListModified : Nat → Bool

def State.start : State := ⟨fun _ => [],fun _ => false⟩

section Calls

variable (tree : Tree) (defaultInherited : List Policy)

def rsAccessGetActiveShareList (s : State) (resource : Nat) : List Policy :=
  if s.bSharePolicyListModified resource then s.sharePolicyList resource
  else
    match _above : tree.parentRef resource with
    | none => defaultInherited
    | some parent => rsAccessGetActiveShareList s parent
termination_by tree.depth resource
decreasing_by exact tree.parent_depth resource parent _above

/-- The rights of a client for which `meets` says which policies it meets. -/
def rightsShared (globalInternal : List Policy) (meets : Policy → Bool) (s : State)
    (resource : Nat) : Finset Nat :=
  let policies := rsAccessGetActiveShareList tree defaultInherited s resource ++ globalInternal
  let rights (selected : Policy → Bool) := policies.foldl (fun rights p =>
    if selected p then rights ∪ p.accessMask else rights) ∅
  rights (fun p => meets p && !p.require) \ rights (fun p => !meets p && p.require)

structure Call where
  resource : Nat
  policy : Policy
  revoke : Bool
  compose : Bool
  /-- The answer of `clientCanShareResource`. -/
  canShare : Bool
  copied : Option Nat
  noMemory : Bool

def edit (list : List Policy) (call : Call) : Bool × List Policy :=
  let list := if call.compose then list else []
  if call.revoke then (true,rsShareListRemove call.policy list)
  else rsShareListInsert list call.policy call.noMemory

def setList (s : State) (resource : Nat) (list : List Policy) (modified : Bool) : State :=
  ⟨update s.sharePolicyList resource list,update s.bSharePolicyListModified resource modified⟩

def clientShareResource (s : State) (call : Call) : Bool × State :=
  let own := s.sharePolicyList call.resource
  if !call.canShare then (false,s)
  else
    let (ready,list) :=
      if call.compose && !s.bSharePolicyListModified call.resource then
        rsShareListCopy own (rsAccessGetActiveShareList tree defaultInherited s call.resource)
          call.copied
      else (true,own)
    if !ready then (false,setList s call.resource list false)
    else
      let (done,list) := edit list call
      (done,setList s call.resource list true)

/-- No copy stops after its first entry, and a policy that replaces the list can be inserted. -/
def HasMemory (s : State) (call : Call) : Prop :=
  (call.compose = true → s.bSharePolicyListModified call.resource = false → ∀ k,call.copied = some k →
    k = 0 ∨ (rsAccessGetActiveShareList tree defaultInherited s call.resource).length ≤ k) ∧
  (call.compose = false → call.revoke = false → call.noMemory = false)

inductive Reachable : State → Prop where
  | start : Reachable .start
  | call {s : State} (call : Call) : Reachable s → HasMemory tree defaultInherited s call →
    Reachable (clientShareResource tree defaultInherited s call).2

end Calls

/-! Lists without two policies that could be merged. -/

/-- What two policies that match have in common. -/
def Policy.key (p : Policy) : Nat × Bool × Nat :=
  (p.type,p.require,if p.type = rsShareTypeClient then p.target else 0)

theorem rsSharePolicyEquals_iff (a b : Policy) : rsSharePolicyEquals a b = true ↔ a.key = b.key := by
  unfold rsSharePolicyEquals Policy.key
  by_cases types : a.type = b.type
  · by_cases kinds : a.require = b.require
    · by_cases client : a.type = rsShareTypeClient
      · simp [types,types ▸ client]
      · simp [types,types ▸ client]
    · simp [kinds]
  · simp [types]

def Merged (list : List Policy) : Prop := (list.map Policy.key).Nodup

variable {list : List Policy} {policy : Policy}

theorem mergeFirst_key : (mergeFirst policy list).map Policy.key = list.map Policy.key := by
  induction list with
  | nil => rfl
  | cons p rest ih =>
    rw [mergeFirst]
    split
    · rfl
    · rw [map_cons,ih,map_cons]

theorem rsShareListInsert_failed {noMemory : Bool}
    (failed : (rsShareListInsert list policy noMemory).1 = false) :
    noMemory = true ∧ (rsShareListInsert list policy noMemory).2 = list := by
  unfold rsShareListInsert at failed ⊢
  split
  next found =>
    rw [if_pos found] at failed
    exact nomatch failed
  next unmatched =>
    rw [if_neg unmatched] at failed
    cases noMemory with
    | true => exact ⟨rfl,rfl⟩
    | false => exact nomatch failed

theorem Merged.insert (merged : Merged list) (noMemory : Bool) :
    Merged (rsShareListInsert list policy noMemory).2 := by
  unfold rsShareListInsert
  split
  · exact (congrArg List.Nodup mergeFirst_key).mpr merged
  next unmatched =>
    split
    · exact merged
    · rw [Merged,map_append]
      refine nodup_append.mpr ⟨merged,nodup_singleton _,fun key old other new same => ?_⟩
      obtain ⟨p,member,rfl⟩ := mem_map.mp old
      rw [mem_singleton.mp new] at same
      exact unmatched (any_eq_true.mpr ⟨p,member,(rsSharePolicyEquals_iff p policy).mpr same⟩)

theorem rsShareListRemove_key :
    ((rsShareListRemove policy list).map Policy.key).Sublist (list.map Policy.key) := by
  induction list with
  | nil => exact .slnil
  | cons p rest ih =>
    rw [rsShareListRemove]
    split
    · dsimp only
      split
      · exact sublist_cons_self _ _
      · exact List.Sublist.refl _
    · exact ih.cons_cons _

/-- What is revoked is gone from every policy that matches. -/
theorem Merged.remove (merged : Merged list) {p : Policy}
    (member : p ∈ rsShareListRemove policy list) (same : p.key = policy.key) :
    Disjoint p.accessMask policy.accessMask := by
  induction list with
  | nil => exact nomatch member
  | cons q rest ih =>
    obtain ⟨alone,merged⟩ := nodup_cons.mp merged
    rw [rsShareListRemove] at member
    split at member
    next found =>
      -- No further policy has this key.
      rw [rsSharePolicyEquals_iff] at found
      have last : p ∉ rest := fun inside =>
        alone (mem_map.mpr ⟨p,inside,same.trans found.symm⟩)
      dsimp only at member
      split at member
      · exact absurd member last
      · rcases mem_cons.mp member with rfl | inside
        · exact disjoint_sdiff_self_left
        · exact absurd inside last
    next other =>
      rcases mem_cons.mp member with rfl | inside
      · exact absurd ((rsSharePolicyEquals_iff p policy).mpr same) other
      · exact ih merged inside

theorem Merged.edit (merged : Merged list) (call : Call) : Merged (edit list call).2 := by
  have base : Merged (if call.compose then list else []) := by
    split
    · exact merged
    · exact nodup_nil
  unfold SharePolicy.edit
  dsimp only
  split
  · exact List.Nodup.sublist rsShareListRemove_key base
  · exact base.insert call.noMemory

/-! What is inherited. -/

theorem setList_list (s : State) (resource r : Nat) (list : List Policy) (modified : Bool) :
    (setList s resource list modified).sharePolicyList r =
      if r = resource then list else s.sharePolicyList r :=
  update_apply _ _ _ _

theorem setList_modified (s : State) (resource r : Nat) (list : List Policy) (modified : Bool) :
    (setList s resource list modified).bSharePolicyListModified r =
      if r = resource then modified else s.bSharePolicyListModified r :=
  update_apply _ _ _ _

section Inherited

variable {tree : Tree} {defaultInherited : List Policy} {s s' : State}

theorem active_modified {resource : Nat} (modified : s.bSharePolicyListModified resource = true) :
    rsAccessGetActiveShareList tree defaultInherited s resource = s.sharePolicyList resource := by
  rw [rsAccessGetActiveShareList,if_pos modified]

/-- Only the lists that are in use count. -/
theorem active_congr (change : ∀ r,s'.bSharePolicyListModified r = s.bSharePolicyListModified r ∧
      (s.bSharePolicyListModified r = true → s'.sharePolicyList r = s.sharePolicyList r) ∨
      s'.bSharePolicyListModified r = true ∧
        s'.sharePolicyList r = rsAccessGetActiveShareList tree defaultInherited s r) (resource : Nat) :
    rsAccessGetActiveShareList tree defaultInherited s' resource =
      rsAccessGetActiveShareList tree defaultInherited s resource := by
  induction depth : tree.depth resource using Nat.strong_induction_on generalizing resource with
  | _ n ih =>
    rcases change resource with ⟨flag,same⟩ | ⟨flag,copied⟩
    · by_cases modified : s.bSharePolicyListModified resource = true
      · rw [active_modified modified,active_modified (flag.trans modified),same modified]
      · rw [rsAccessGetActiveShareList,rsAccessGetActiveShareList,flag,if_neg modified,
          if_neg modified]
        split
        · rfl
        next parent above =>
          exact ih _ (depth ▸ tree.parent_depth resource parent above) parent rfl
    · rw [active_modified flag,copied]

variable (defaultInherited) in
/-- A list that is not in use is empty. -/
structure Inv (s : State) : Prop where
  default : Merged defaultInherited
  merged : ∀ r,Merged (s.sharePolicyList r)
  unused : ∀ r,s.bSharePolicyListModified r = false → s.sharePolicyList r = []

theorem Inv.active (inv : Inv defaultInherited s) (resource : Nat) :
    Merged (rsAccessGetActiveShareList tree defaultInherited s resource) := by
  induction depth : tree.depth resource using Nat.strong_induction_on generalizing resource with
  | _ n ih =>
    rw [rsAccessGetActiveShareList]
    split
    · exact inv.merged resource
    · split
      · exact inv.default
      next parent above => exact ih _ (depth ▸ tree.parent_depth resource parent above) parent rfl

/-- What a call does: nothing, or it edits a list that shares the same rights. -/
theorem Inv.call_cases (inv : Inv defaultInherited s) {call : Call}
    (memory : HasMemory tree defaultInherited s call) :
    clientShareResource tree defaultInherited s call = (false,s) ∨
    ∃ list,Merged list ∧
      (call.compose = true →
        list = rsAccessGetActiveShareList tree defaultInherited s call.resource) ∧
      clientShareResource tree defaultInherited s call = ((edit list call).1,
        setList s call.resource (edit list call).2 true) := by
  unfold clientShareResource
  cases call.canShare with
  | false => exact .inl rfl
  | true =>
    cases composes : call.compose with
    | false => exact .inr ⟨s.sharePolicyList call.resource,inv.merged _,nofun,rfl⟩
    | true =>
      cases modified : s.bSharePolicyListModified call.resource with
      | true => exact .inr ⟨s.sharePolicyList call.resource,inv.merged _,
          fun _ => (active_modified modified).symm,rfl⟩
      | false =>
        have copies : rsShareListCopy (s.sharePolicyList call.resource)
            (rsAccessGetActiveShareList tree defaultInherited s call.resource) call.copied =
              (true,rsAccessGetActiveShareList tree defaultInherited s call.resource) ∨
            rsShareListCopy (s.sharePolicyList call.resource)
              (rsAccessGetActiveShareList tree defaultInherited s call.resource) call.copied =
              (false,[]) := by
          rw [inv.unused call.resource modified]
          unfold rsShareListCopy
          split
          · exact .inl rfl
          next k copied =>
            split
            next short =>
              rcases memory.1 composes modified k copied with rfl | all
              · exact .inr rfl
              · exact absurd short (Nat.not_lt.mpr all)
            · exact .inl rfl
        rcases copies with copied | failed
        · exact .inr ⟨_,inv.active call.resource,fun _ => rfl,by
            simp [copied]⟩
        · left
          simp only [failed]
          refine Prod.ext rfl ?_
          have own := inv.unused call.resource modified
          exact congrArg₂ State.mk (by rw [← own]; exact update_eq_self _ _)
            (by rw [← modified]; exact update_eq_self _ _)

theorem Inv.call (inv : Inv defaultInherited s) {call : Call}
    (memory : HasMemory tree defaultInherited s call) :
    Inv defaultInherited (clientShareResource tree defaultInherited s call).2 := by
  rcases inv.call_cases memory with same | ⟨list,merged,-,edited⟩
  · rwa [same]
  · rw [edited]
    refine ⟨inv.default,fun r => ?_,fun r modified => ?_⟩
    · rw [setList_list]
      split
      · exact merged.edit call
      · exact inv.merged r
    · rw [setList_modified] at modified
      rw [setList_list]
      split at modified
      · exact nomatch modified
      next other =>
        rw [if_neg other]
        exact inv.unused r modified

theorem Reachable.inv (merged : Merged defaultInherited)
    (reachable : Reachable tree defaultInherited s) : Inv defaultInherited s := by
  induction reachable with
  | start => exact ⟨merged,fun _ => nodup_nil,fun _ _ => rfl⟩
  | call call _ memory ih => exact ih.call memory

/-- A call that fails has not changed what anybody inherits. -/
theorem Inv.failed (inv : Inv defaultInherited s) {call : Call}
    (memory : HasMemory tree defaultInherited s call)
    (failed : (clientShareResource tree defaultInherited s call).1 = false) (resource : Nat) :
    rsAccessGetActiveShareList tree defaultInherited
      (clientShareResource tree defaultInherited s call).2 resource =
    rsAccessGetActiveShareList tree defaultInherited s resource := by
  rcases inv.call_cases memory with same | ⟨list,-,composed,edited⟩
  · rw [same]
  · rw [edited] at failed ⊢
    -- Only an insertion into a list that was composed can fail, and it leaves the list.
    have kept : call.compose = true ∧ (edit list call).2 = list := by
      unfold edit at failed ⊢
      cases revokes : call.revoke with
      | true =>
        rw [revokes] at failed
        exact nomatch failed
      | false =>
        rw [revokes] at failed
        obtain ⟨noMemory,same⟩ := rsShareListInsert_failed failed
        have composes : call.compose = true := by
          by_contra replaces
          rw [memory.2 (Bool.eq_false_iff.mpr replaces) revokes] at noMemory
          exact nomatch noMemory
        rw [if_pos composes] at same ⊢
        exact ⟨composes,same⟩
    refine active_congr (fun r => ?_) resource
    by_cases here : r = call.resource
    · subst here
      rw [setList_modified,setList_list,if_pos rfl,if_pos rfl,kept.2,composed kept.1]
      exact .inr ⟨rfl,rfl⟩
    · rw [setList_modified,setList_list,if_neg here,if_neg here]
      exact .inl ⟨rfl,fun _ => rfl⟩

/-- With memory for what is copied and for what replaces a list. -/
theorem share_policies (globalInternal : List Policy) (merged : Merged defaultInherited)
    (reachable : Reachable tree defaultInherited s) :
    (∀ r,(s.sharePolicyList r).Pairwise fun p q => rsSharePolicyEquals p q = false) ∧
    ∀ call,HasMemory tree defaultInherited s call →
      ((clientShareResource tree defaultInherited s call).1 = true → call.revoke = true →
        ∀ p ∈ (clientShareResource tree defaultInherited s call).2.sharePolicyList call.resource,
          rsSharePolicyEquals p call.policy = true →
          Disjoint p.accessMask call.policy.accessMask) ∧
      ((clientShareResource tree defaultInherited s call).1 = false → ∀ meets resource,
        rightsShared tree defaultInherited globalInternal meets
          (clientShareResource tree defaultInherited s call).2 resource =
        rightsShared tree defaultInherited globalInternal meets s resource) := by
  have inv := reachable.inv merged
  refine ⟨fun r => ?_,fun call memory => ⟨fun done revokes p member matched => ?_,
    fun failed meets resource => ?_⟩⟩
  · refine (pairwise_map.mp (inv.merged r)).imp fun {p q} different => ?_
    exact Bool.eq_false_iff.mpr fun same => different ((rsSharePolicyEquals_iff p q).mp same)
  · rcases inv.call_cases memory with same | ⟨list,mergedList,-,edited⟩
    · rw [same] at done
      exact nomatch done
    · rw [edited] at member
      rw [setList_list,if_pos rfl,edit,if_pos revokes] at member
      have base : Merged (if call.compose then list else []) := by
        split
        · exact mergedList
        · exact nodup_nil
      exact base.remove member ((rsSharePolicyEquals_iff _ _).mp matched)
  · rw [rightsShared,rightsShared,inv.failed memory failed]

end Inherited

/-! A server that lets client 7 use right 1 and every client use right 2, by default, and a
resource without a parent. -/

def rootsOnly : Tree := ⟨fun _ => none,fun _ => 0,fun _ _ => nofun⟩

def clientSeven : Policy := ⟨rsShareTypeClient,7,false,{1}⟩

def everyone : Policy := ⟨1,0,false,{2}⟩

theorem active_rootsOnly (defaultInherited : List Policy) (s : State) (resource : Nat) :
    rsAccessGetActiveShareList rootsOnly defaultInherited s resource =
      if s.bSharePolicyListModified resource then s.sharePolicyList resource
      else defaultInherited := by
  rw [rsAccessGetActiveShareList]
  rfl

/-- Client 7 gets right 3 of resource 5 as well, and then loses both of its rights. -/
def shareSeven : Call := ⟨5,{ clientSeven with accessMask := {3} },false,true,true,none,false⟩

def revokeSeven : Call := ⟨5,{ clientSeven with accessMask := {1,3} },true,true,true,none,false⟩

theorem share_policies_revoked :
    let s := (clientShareResource rootsOnly [clientSeven,everyone] .start shareSeven).2
    (s.sharePolicyList 5).length = 2 ∧
    ∀ p ∈ (clientShareResource rootsOnly [clientSeven,everyone] s revokeSeven).2.sharePolicyList 5,
      rsSharePolicyEquals p clientSeven = true → Disjoint p.accessMask {1,3} := by
  have merged : Merged [clientSeven,everyone] := by
    unfold Merged
    decide
  have memory (s : State) (call : Call) (copied : call.copied = none)
      (composes : call.compose = true) :
      HasMemory rootsOnly [clientSeven,everyone] s call := by
    simp [HasMemory,copied,composes]
  have reachable := Reachable.call shareSeven .start (memory .start shareSeven rfl rfl)
  exact ⟨by decide +kernel,
    ((share_policies [] merged reachable).2 revokeSeven (memory _ _ rfl rfl)).1 rfl rfl⟩

/-- A copy stops after its first entry, and the next one starts over: what is revoked is still
there. A policy that is to replace the list, without memory for it, takes all rights away. -/
theorem partly_copied :
    let first := clientShareResource rootsOnly [clientSeven,everyone] .start
      ⟨5,everyone,false,true,true,some 1,false⟩
    let second := clientShareResource rootsOnly [clientSeven,everyone] first.2 revokeSeven
    let replaced := clientShareResource rootsOnly [clientSeven,everyone] .start
      ⟨5,everyone,false,false,true,none,true⟩
    first.1 = false ∧ second.1 = true ∧ clientSeven ∈ second.2.sharePolicyList 5 ∧
    replaced.1 = false ∧
    rightsShared rootsOnly [clientSeven,everyone] [] (fun _ => true) .start 5 = {1,2} ∧
    rightsShared rootsOnly [clientSeven,everyone] [] (fun _ => true) replaced.2 5 = ∅ := by
  simp only [clientShareResource,rightsShared,active_rootsOnly]
  decide

end GpuExt.SharePolicy
