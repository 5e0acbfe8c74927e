import GpuExt.PmmLists

/-! What the hooks of a policy do to a root on one of the two eviction lists. -/
namespace GpuExt.Pmm

open ListHead Transition Function

/-- The end of a list that all requests ask for. -/
def agreedEnd : List (NvU64 × NvU64) → Option (ListState × ListOp)
  | [] => none
  | (destination,position) :: rest =>
    let moves (list : ListId) : Option ListOp :=
      if position = positionHead then some (.moveHead list)
      else if position = positionTail then some (.moveTail list) else none
    if rest.all (· = (destination,position)) then
      if destination = destinationUsed then (moves .vaBlockUsed).map (ListState.vaBlockUsed,·)
      else if destination = destinationUnused then
        (moves .vaBlockUnused).map (ListState.vaBlockUnused,·)
      else none
    else none

/-- Where the access hook puts the chunk, if it is moved. -/
def accessEnd (policy : Policy) : Option (ListState × ListOp) :=
  if policy.rawAction = actionDefault ∨ policy.rawAction = actionBypass then
    match agreedEnd policy.requests with
    | some moved => some moved
    | none => if policy.requests = [] ∧ policy.rawAction = actionDefault then
        some (.vaBlockUsed,.moveTail .vaBlockUsed) else none
  else none

/-- The lists after a move, everything else in its order. -/
def relisted (c : ChunkId) (lists : ListId → List ChunkId) : ListOp → ListId → List ChunkId
  | .moveHead list => update (fun k => (lists k).erase c) list (c :: (lists list).erase c)
  | .moveTail list => update (fun k => (lists k).erase c) list ((lists list).erase c ++ [c])
  | _ => lists

def Moved (s s' : State) (r : RootId) (lists : ListId → List ChunkId) :
    Option (ListState × ListOp) → Prop
  | none => s' = s
  | some (q,operation) => Represents s'.links (relisted (.ofRoot r) lists operation) ∧
    (s'.root r).listState = q

variable {s : State} {r : RootId} {lists : ListId → List ChunkId} {policy : Policy}

theorem record_rest (conflict : Bool) (destination position : NvU64)
    (rest : List (NvU64 × NvU64)) :
    rest.foldl (fun request r => (recordPmm request r.1 r.2).2)
        ⟨true,conflict,destination,position⟩ =
      ⟨true,conflict || !rest.all (· = (destination,position)),destination,position⟩ := by
  induction rest generalizing conflict with
  | nil => simp
  | cons next rest ih =>
    have step : (recordPmm ⟨true,conflict,destination,position⟩ next.1 next.2).2 =
        ⟨true,conflict || next ≠ (destination,position),destination,position⟩ := by
      obtain ⟨d,p⟩ := next
      cases conflict
      · by_cases same : destination = d ∧ position = p
        · simp [recordPmm,same]
        · have other : (d,p) ≠ (destination,position) := fun equal =>
            same ⟨(Prod.mk.inj equal).1.symm,(Prod.mk.inj equal).2.symm⟩
          simp [recordPmm,same,other]
      · simp [recordPmm]
    rw [List.foldl_cons,step,ih]
    simp [Bool.or_assoc]

theorem decisionCtx_request (s : State) (r : RootId) (policy : Policy) :
    (decisionCtx s (.ofRoot r) policy).request = match policy.requests with
    | [] => .zero
    | (destination,position) :: rest =>
      ⟨true,!rest.all (· = (destination,position)),destination,position⟩ := by
  rw [decisionCtx]
  cases policy.requests with
  | nil => rfl
  | cons first rest => exact (record_rest false first.1 first.2 rest).trans (by simp)

theorem agreedEnd_moves {requests : List (NvU64 × NvU64)} {q : ListState} {operation : ListOp}
    (agreed : agreedEnd requests = some (q,operation)) :
    ∃ list,operation = .moveHead list ∨ operation = .moveTail list := by
  unfold agreedEnd at agreed
  grind

section

variable {ctx : DecisionCtx} (made : decisionCtx s (.ofRoot r) policy = ctx)
  (top : chunkIsRootChunk s (.ofRoot r) = true) (inUse : (s.root r).listState.InUse)

include made top inUse in
/-- What the validation comes to for a root on one of the lists. -/
theorem validate_request : match agreedEnd policy.requests with
    | some (q,operation) => (bpfValidateReorderLocked s (.ofRoot r) ctx).1 = .apply ∧
      bpfCommitReorderLocked s (.ofRoot r) ctx =
        (.apply,rootListUpdateLocked s (.ofRoot r) q operation)
    | none => (bpfValidateReorderLocked s (.ofRoot r) ctx).1 ≠ .apply ∧
      ((bpfValidateReorderLocked s (.ofRoot r) ctx).1 = .noopDefault ↔ policy.requests = []) := by
  have listed : ¬((s.root r).listState ≠ .vaBlockUsed ∧ (s.root r).listState ≠ .vaBlockUnused) :=
    fun neither => inUse.elim neither.1 neither.2
  have request := decisionCtx_request s r policy
  have result : bpfValidateReorderLocked s (.ofRoot r) ctx =
      let result := validatePmm (snapshot s r) (snapshot s r) ctx.request
      (result,if result = .apply then some (if ctx.request.destination = destinationUsed then
          (.vaBlockUsed,.vaBlockUsed) else (.vaBlockUnused,.vaBlockUnused)) else none) := by
    obtain ⟨owner,root,observed⟩ : ctx.pmm = s.id ∧ ctx.rootChunk = r ∧
      ctx.observed = snapshot s r := made ▸ ⟨rfl,rfl,rfl⟩
    have same : rootChunk (.ofRoot r) = .ofRoot r := rfl
    rw [bpfValidateReorderLocked,if_neg (by simp [top,same]),observed]
    simp [owner,root,ChunkId.ofRoot,listed]
    cases validatePmm _ (snapshot s r) ctx.request with
    | apply =>
      dsimp only
      split <;> rfl
    | _ => rfl
  rw [made] at request
  rw [bpfCommitReorderLocked,result,request]
  cases policy.requests with
  | nil => simp [agreedEnd,validatePmm,PmmRequest.zero]
  | cons first rest =>
    obtain ⟨destination,position⟩ := first
    dsimp only [agreedEnd]
    cases rest.all _ with
    | false => simp [validatePmm]
    | true =>
      by_cases head : position = positionHead <;> by_cases tail : position = positionTail <;>
        by_cases used : destination = destinationUsed <;>
        by_cases unused : destination = destinationUnused <;> simp_all [validatePmm]

variable (rep : Represents s.links lists)

include top rep in
theorem update_moved (q : ListState) {operation : ListOp}
    (moves : ∃ list,operation = .moveHead list ∨ operation = .moveTail list) :
    Moved s (rootListUpdateLocked s (.ofRoot r) q operation) r lists (some (q,operation)) := by
  refine ⟨?_,?_⟩
  · rw [rootListUpdateLocked_links]
    obtain ⟨list,rfl | rfl⟩ := moves
    · exact rep.move _ _
    · exact rep.moveTail _ _
  · rw [rootListUpdateLocked_listState (iff_of_true top rfl),if_pos rfl]

include made top inUse rep

theorem activate_moved :
    Moved s (bpfApplyActivateLocked s (.ofRoot r) ctx) r lists (agreedEnd policy.requests) := by
  have validated := validate_request made top inUse
  rw [bpfApplyActivateLocked]
  cases agreed : agreedEnd policy.requests with
  | none =>
    rw [agreed] at validated
    simp [pmmActivateEffect,validated.1,Moved]
  | some moved =>
    rw [agreed] at validated
    rw [validated.1,validated.2]
    exact update_moved top rep _ (agreedEnd_moves agreed)

theorem access_moved : Moved s
    (let (effect,s) := bpfApplyAccessLocked s (.ofRoot r) ctx policy.rawAction
      if effect = .native then
        rootListUpdateLocked s (.ofRoot r) .vaBlockUsed (.moveTail .vaBlockUsed) else s)
    r lists (accessEnd policy) := by
  have validated := validate_request made top inUse
  have native := update_moved top rep .vaBlockUsed ⟨.vaBlockUsed,.inr rfl⟩
  rw [bpfApplyAccessLocked,accessEnd]
  by_cases raw : policy.rawAction = actionDefault ∨ policy.rawAction = actionBypass
  · have known : ¬(policy.rawAction ≠ actionDefault ∧ policy.rawAction ≠ actionBypass) :=
      fun neither => raw.elim neither.1 neither.2
    rw [if_pos raw]
    cases agreed : agreedEnd policy.requests with
    | some moved =>
      rw [agreed] at validated
      have commit : pmmAccessEffect policy.rawAction .apply = .commit := if_neg known
      rw [validated.1,validated.2,commit]
      exact update_moved top rep _ (agreedEnd_moves agreed)
    | none =>
      rw [agreed] at validated
      by_cases default : policy.requests = [] ∧ policy.rawAction = actionDefault
      · rw [validated.2.mpr default.1]
        simp only [default]
        exact native
      · have preserve : pmmAccessEffect policy.rawAction
            (bpfValidateReorderLocked s (.ofRoot r) ctx).1 = .preserve := by
          rw [pmmAccessEffect,if_neg known,if_neg validated.1,
            if_neg fun both => default ⟨validated.2.mp both.1,both.2⟩]
        simp only [preserve,default]
        rfl
  · have preserve : ∀ result,pmmAccessEffect policy.rawAction result = .preserve :=
      fun result => if_pos (not_or.mp raw)
    simp only [preserve,raw]
    rfl

end

theorem relisted_others (rep : Represents s.links lists) (c : ChunkId) (operation : ListOp)
    (list : ListId) : (relisted c lists operation list).erase c = (lists list).erase c := by
  have absent : ∀ k,c ∉ (lists k).erase c := fun k => (rep.nodup k).not_mem_erase
  have twice : ∀ k,((lists k).erase c).erase c = (lists k).erase c := fun k =>
    List.erase_of_not_mem (absent k)
  cases operation with
  | moveHead destination =>
    by_cases here : list = destination
    · simp [relisted,here]
    · simp [relisted,here,twice]
  | moveTail destination =>
    by_cases here : list = destination
    · simp [relisted,here,List.erase_append_right _ (absent destination)]
    · simp [relisted,here,twice]
  | _ => rfl

theorem relisted_mem {c : ChunkId} (listed : ∃ list,c ∈ lists list) (operation : ListOp) :
    ∃ list,c ∈ relisted c lists operation list := by
  cases operation with
  | moveHead destination => exact ⟨destination,by simp [relisted]⟩
  | moveTail destination => exact ⟨destination,by simp [relisted]⟩
  | _ => exact listed

/-- The chunk is on a list, and the others are where they were. `Represents` has every chunk at
most once. -/
def Intact (s' : State) (r : RootId) (lists : ListId → List ChunkId) : Prop :=
  ∃ lists',Represents s'.links lists' ∧ (∃ list,.ofRoot r ∈ lists' list) ∧
    ∀ list,(lists' list).erase (.ofRoot r) = (lists list).erase (.ofRoot r)

theorem Moved.intact {s' : State} {moved : Option (ListState × ListOp)}
    (done : Moved s s' r lists moved) (rep : Represents s.links lists)
    (listed : ∃ list,.ofRoot r ∈ lists list) : Intact s' r lists := by
  cases moved with
  | none =>
    obtain rfl := done
    exact ⟨lists,rep,listed,fun _ => rfl⟩
  | some moved =>
    exact ⟨_,done.1,relisted_mem listed _,relisted_others rep _ _⟩

theorem policy_hooks (hook : Hook) (rep : Represents s.links lists)
    (listed : .ofRoot r ∈ lists .vaBlockUsed ∨ .ofRoot r ∈ lists .vaBlockUnused)
    (top : chunkIsRootChunk s (.ofRoot r) = true) (inUse : (s.root r).listState.InUse)
    (evictable : chunkIsRootChunkPinned s (.ofRoot r) = false ∧
      chunkIsInEviction s (.ofRoot r) = false) :
    let access := markRootChunkUsed hook s (.ofRoot r)
    let activate := bpfCallGpuBlockActivate hook s (.ofRoot r)
    Moved s access r lists (accessEnd (hook s (.ofRoot r))) ∧
    Moved s activate r lists (agreedEnd (hook s (.ofRoot r)).requests) ∧
    Intact access r lists ∧ Intact activate r lists := by
  have access : Moved s (markRootChunkUsed hook s (.ofRoot r)) r lists
      (accessEnd (hook s (.ofRoot r))) := by
    rw [markRootChunkUsed,rootChunkUpdateEvictionList,evictable.1,evictable.2]
    exact access_moved rfl top inUse rep
  have activate : Moved s (bpfCallGpuBlockActivate hook s (.ofRoot r)) r lists
      (agreedEnd (hook s (.ofRoot r)).requests) := activate_moved rfl top inUse rep
  have listed : ∃ list,.ofRoot r ∈ lists list := listed.elim (⟨_,·⟩) (⟨_,·⟩)
  exact ⟨access,activate,access.intact rep listed,activate.intact rep listed⟩

/-- Root 0 on the list of used roots. -/
def usedRoot : State :=
  rootListUpdateLocked (init 0) (.ofRoot 0) .vaBlockUsed (.addTail .vaBlockUsed)

/-- The policy asks twice for the head of the list of unused roots. -/
theorem policy_hooks_unused :
    (agreedEnd [(2,1),(2,1)]).isSome ∧ Moved usedRoot
      (markRootChunkUsed (fun _ _ => ⟨[(2,1),(2,1)],1⟩) usedRoot (.ofRoot 0)) 0
      (update (fun _ => []) .vaBlockUsed [.ofRoot 0]) (agreedEnd [(2,1),(2,1)]) :=
  ⟨rfl,(policy_hooks (fun _ _ => ⟨[(2,1),(2,1)],1⟩)
    (represents_unlinked.addTail (fun _ => List.not_mem_nil) ListId.vaBlockUsed) (.inl (by simp))
    rfl
    (.inl rfl) ⟨rfl,rfl⟩).1⟩

end GpuExt.Pmm
