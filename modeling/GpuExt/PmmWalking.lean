import GpuExt.PmmFreeing

/-! The sections of a split and of a merge of a chunk that its caller holds. -/
namespace GpuExt.Pmm

open List

variable {cfg : Config} {s s' : System} {owner : ChunkId → Owner} {t : Thread} {c x : ChunkId}
  {o : Oracle} {b : Bool} {minSize : Nat} {todo : List ChunkId} {after : AfterMerge}

section Walk

variable (inv : Inv cfg s owner)
include inv

/-- A walk is over: the leaves below the chunk go to the caller. -/
theorem Inv.splitDone (here : s.pc t = .splitWalk c b minSize []) : Owned cfg ({ s with
      held := ((leaves s.pmm c).map fun x => (⟨x,b⟩ : Handle)) ++ s.held }.unlock.goto t .idle) := by
  obtain ⟨used,mine,_⟩ := inv.good_at here
  have leaf {x : ChunkId} (member : x ∈ leaves s.pmm c) :
      owner x = .thread t ∧ s.state x = heldState b := by
    obtain ⟨below,notSplit⟩ := of_mem_leaves member
    exact mine x below (used_of_mem_leaves inv.sound.shaped used member) notSplit
  let owner' : ChunkId → Owner := fun x => if x ∈ leaves s.pmm c then .caller b else owner x
  have inside {x : ChunkId} (member : x ∈ leaves s.pmm c) : owner' x = .caller b := if_pos member
  have outside {x : ChunkId} (not : x ∉ leaves s.pmm c) : owner' x = owner x := if_neg not
  have all (x : ChunkId) (own : owner x = .thread t) : x ∈ leaves s.pmm c := by
    obtain ⟨holds,ownable⟩ := inv.thread x t own
    rw [here] at holds
    refine mem_leaves inv.sound.shaped holds ⟨?_,ownable.leaf⟩
    by_cases top : x.path = []
    · rw [ChunkId.under_root holds top]
      exact used
    · exact ownable.used top
  refine ⟨owner',inv.handover .idle here rfl (.refl inv.sound) ⟨?_,fun x b' => ?_⟩ (fun x => ?_)
    (.release rfl rfl) rfl nofun trivial⟩
  · refine List.Nodup.append ((nodup_leaves s.pmm c).map fun x y same => ?_) inv.held.nodup ?_
    · exact congrArg Handle.chunk same
    · intro handle given before
      obtain ⟨x,member,rfl⟩ := mem_map.mp given
      have own := (inv.held.iff x b).mp before
      rw [(leaf member).1] at own
      cases own
  · have given : (⟨x,b'⟩ : Handle) ∈ (leaves s.pmm c).map (fun x => (⟨x,b⟩ : Handle)) ↔
        x ∈ leaves s.pmm c ∧ b = b' := by simp
    refine (mem_append.trans (or_congr given (inv.held.iff x b'))).trans ?_
    by_cases member : x ∈ leaves s.pmm c
    · simp [inside member,member,(leaf member).1]
    · simp [outside member,member]
  · by_cases member : x ∈ leaves s.pmm c
    · obtain ⟨own,state⟩ := leaf member
      rw [inside member]
      refine .inl ⟨fun u theirs => Owner.thread.inj (theirs.symm.trans own),state,
        fun flag pinned => ?_,fun top => .inl (inv.pma x.root (.inr ⟨t,?_⟩))⟩
      · exact absurd (inv.pinned x flag pinned) (by simp [own])
      · rwa [← ChunkId.eq_ofRoot top]
    · exact .inr ⟨outside member,rfl,fun own => absurd (all x own) member,fun _ => rfl⟩

theorem Inv.splitNext {k : Nat} {todo' : List ChunkId} (here : s.pc t = .splitWalk c b minSize (x :: todo))
    (able : Splittable cfg s.pmm x k)
    (next : todo' = todo ∨
      todo' = (range (numSubchunks (divideChunk s.pmm x k) x)).map x.child ++ todo) :
    Owned cfg ({ s with pmm := divideChunk s.pmm x k }.goto t (.splitWalk c b minSize todo')) := by
  obtain ⟨used,mine,distinct,inside⟩ := inv.good_at here
  obtain ⟨below,state⟩ := inside x (by simp)
  obtain ⟨absent,distinct⟩ := nodup_cons.mp distinct
  have same : (s.pmm.chunk x).state = heldState b := state
  have own : owner x = .thread t := (mine x below (by simpa [System.state] using able.used)
    (by simpa [System.state] using able.leaf)).1
  have done := (divideChunk_reshaped inv.sound able).1
  generalize width : 2 ^ ((s.pmm.chunk x).log2Size - k) = n at done
  -- Subchunks of the leaf `x` did not exist, so none of them is on the list.
  have fresh (i : Nat) : s.state (x.child i) = .pmaOwned := by
    rw [System.state,inv.sound.shaped.leaf x i able.leaf]
    rfl
  have sub (i : Nat) (bound : i < n) : splitStates s.pmm x n (x.child i) = heldState b := by
    have isSub : x.IsSubchunk n (x.child i) := isSubchunk_child.mpr ⟨rfl,bound⟩
    simp [splitStates,x.child_ne i,isSub,same]
  have old (y : ChunkId) (member : y ∈ todo) :
      c.Under y ∧ splitStates s.pmm x n y = heldState b := by
    obtain ⟨belowY,stateY⟩ := inside y (by simp [member])
    have other : y ≠ x := fun equal => absent (equal ▸ member)
    have notSub : ¬x.IsSubchunk n y := by
      intro isSub
      obtain ⟨i,_,rfl⟩ := isSubchunk_iff.mp isSub
      rw [fresh i] at stateY
      exact (heldState_busy b).2.2 stateY.symm
    exact ⟨belowY,by simpa [splitStates,other,notSub,System.state] using stateY⟩
  refine ⟨_,inv.divide _ here able own rfl rfl rfl rfl rfl rfl rfl rfl rfl
    (fun y _ ownY => ?_) (fun i => below.trans (x.under_child i)) ?_⟩
  · have holds := (inv.thread y t ownY).1
    rwa [here] at holds
  rw [width]
  refine ⟨?_,fun y belowY exist leaf => ?_,?_,fun y member => ?_⟩
  · by_cases equal : c = x
    · simp [splitStates,equal]
    · have notSub : ¬x.IsSubchunk n c := by
        intro isSub
        obtain ⟨i,_,rfl⟩ := isSubchunk_iff.mp isSub
        exact ChunkId.not_child_under below
      simpa [splitStates,equal,notSub,System.state] using used
  · by_cases equal : y = x
    · simp [splitStates,equal] at leaf
    by_cases isSub : x.IsSubchunk n y
    · exact ⟨by simp [splitOwners,equal,isSub],by simp [splitStates,equal,isSub,same]⟩
    · have keeps : splitStates s.pmm x n y = s.state y := by
        simp [splitStates,equal,isSub,System.state]
      rw [keeps] at exist leaf ⊢
      rw [splitOwners,if_neg equal,if_neg isSub]
      exact mine y belowY exist leaf
  · rcases next with rfl | rfl
    · exact distinct
    · refine List.Nodup.append (nodup_range.map fun i j equal => (ChunkId.child_inj.mp equal).2)
        distinct ?_
      intro y new listed
      obtain ⟨i,_,rfl⟩ := mem_map.mp new
      have stateY := (inside _ (mem_cons_of_mem x listed)).2
      rw [fresh i] at stateY
      exact (heldState_busy b).2.2 stateY.symm
  · rcases next with rfl | rfl
    · exact old y member
    · rcases mem_append.mp member with new | listed
      · obtain ⟨i,inRange,rfl⟩ := mem_map.mp new
        refine ⟨below.trans (x.under_child i),sub i ?_⟩
        have split : ((divideChunk s.pmm x k).chunk x).state = .isSplit := by
          rw [done.state,splitStates,if_pos rfl]
        have exist := done.sound.shaped.exists_child.mpr ⟨split,mem_range.mp inRange⟩
        rw [done.state,splitStates,if_neg (x.child_ne i)] at exist
        by_contra above
        rw [if_neg fun isSub => above (isSubchunk_child.mp isSub).2] at exist
        exact exist (fresh i)
      · exact old y listed

theorem Inv.advance_splitWalk (here : s.pc t = .splitWalk c b minSize todo)
    (run : advance cfg o t s (.splitWalk c b minSize todo) = some s') : Owned cfg s' := by
  cases todo with
  | nil =>
    cases run
    exact inv.splitDone here
  | cons x todo =>
    obtain ⟨used,mine,_,inside⟩ := inv.good_at here
    rw [advance] at run
    split at run
    next =>
      cases run
      refine ⟨owner,inv.control _ here rfl (.refl inv.sound) rfl rfl (.keep rfl)
        rfl nofun (fun y own => ?_) ⟨used,mine⟩⟩
      have holds := (inv.thread y t own).1
      rwa [here] at holds
    next pmm divided =>
      cases run
      obtain ⟨k,size,rfl⟩ := splitGpuChunk_some divided
      have state : (s.pmm.chunk x).state = heldState b := (inside x (by simp)).2
      have able : Splittable cfg s.pmm x k := by
        refine ⟨?_,size⟩
        cases b with
        | true => exact .inl state
        | false => exact .inr state
      refine inv.splitNext here able ?_
      split
      · exact .inl rfl
      · exact .inr rfl

/-- The chunk that a walk merges next has subchunks in the one state of all leaves. -/
theorem Inv.mergeable_next {q : ChunkState} (found : nextMerge s.pmm c = some x) (busy : q = .tempPinned ∨ q = .allocated)
    (all : ∀ y, c.Under y → s.state y ≠ .pmaOwned → s.state y ≠ .isSplit → s.state y = q) :
    c.Under x ∧ Mergeable s.pmm x q := by
  obtain ⟨below,split,notSplit⟩ := nextMerge_some inv.sound.shaped found
  exact ⟨below,split,fun i bound => all _ (below.trans (x.under_child i))
    (inv.sound.shaped.exists_child.mpr ⟨split,bound⟩) (notSplit i bound),busy⟩

omit inv in
theorem mergeStates_above {s : State} {q : ChunkState} (below : c.Under x) (busy : q ≠ .pmaOwned)
    (used : (s.chunk c).state ≠ .pmaOwned) : mergeStates s x q c ≠ .pmaOwned := by
  by_cases equal : c = x
  · rwa [mergeStates,if_pos equal]
  · have notSub : ¬x.IsSubchunk (numSubchunks s x) c := by
      intro isSub
      obtain ⟨i,_,rfl⟩ := isSubchunk_iff.mp isSub
      exact ChunkId.not_child_under below
    rwa [mergeStates,if_neg equal,if_neg notSub]

theorem Inv.mergeNext {q : ChunkState} {p : Owner} (here : s.pc t = .mergeWalk c after)
    (below : c.Under x) (able : Mergeable s.pmm x q)
    (theirs : ∀ y, s.state y = q → c.Under y → owner y = p)
    (becomes : p = .nobody ∨ p = .thread t ∧ ∃ b, after = .caller b)
    (orphan : s.inEviction x.root = true → q = .tempPinned → p = .nobody)
    (good : (Pc.mergeWalk c after).Good (mergeStates s.pmm x q)
      (mergeOwners owner p x (numSubchunks s.pmm x)) t) :
    Owned cfg { s with pmm := mergeGpuChunk s.pmm x } := by
  have pcs : s.pc = Function.update s.pc t (.mergeWalk c after) := by
    rw [← here,Function.update_eq_self]
  refine ⟨_,inv.merge (o := p) _ here able (fun i bound => ?_) pcs rfl rfl rfl rfl rfl
    rfl rfl (fun r => id) (fun y own _ => ?_) ?_ orphan good⟩
  · rw [theirs _ (able.subchunk i bound) (below.trans (x.under_child i))]
    rcases becomes with rfl | ⟨rfl,_⟩ <;> simp
  · have holds := (inv.thread y t own).1
    rwa [here] at holds
  · rcases becomes with rfl | ⟨rfl,b,rfl⟩
    · exact .inl rfl
    · exact .inr ⟨rfl,below⟩

theorem Inv.mergeWalk_caller (here : s.pc t = .mergeWalk c (.caller b))
    (run : advance cfg o t s (.mergeWalk c (.caller b)) = some s') : Owned cfg s' := by
  obtain ⟨used,mine⟩ := inv.good_at here
  cases found : Pmm.nextMerge s.pmm c with
  | some x =>
    simp only [advance,found,Option.some.injEq] at run
    subst run
    have busy : heldState b = .tempPinned ∨ heldState b = .allocated := by
      cases b <;> simp
    obtain ⟨below,able⟩ := inv.mergeable_next found busy fun y under exist leaf =>
      (mine y under exist leaf).2
    have own (y : ChunkId) (state : s.state y = heldState b) (under : c.Under y) :
        owner y = .thread t := by
      refine (mine y under ?_ ?_).1 <;> rw [state]
      · exact (heldState_busy b).2.2
      · exact (heldState_busy b).2.1
    refine inv.mergeNext here below able own (.inr ⟨rfl,b,rfl⟩) (fun flag pinned => ?_)
      ⟨mergeStates_above below (heldState_busy b).2.2 used,fun y under exist leaf => ?_⟩
    · have first := able.subchunk 0 (numSubchunks_pos _ _)
      have owned := own _ first (below.trans (x.under_child 0))
      exact absurd (inv.pinned (x.child 0) flag (first.trans pinned)) (by simp [owned])
    · by_cases equal : y = x
      · simp [mergeOwners,mergeStates,equal]
      by_cases isSub : x.IsSubchunk (numSubchunks s.pmm x) y
      · simp [mergeStates,equal,isSub] at exist
      · have keeps : mergeStates s.pmm x (heldState b) y = s.state y := by
          simp [mergeStates,equal,isSub,System.state]
        rw [keeps] at exist leaf ⊢
        rw [mergeOwners,if_neg equal,if_neg isSub]
        exact mine y under exist leaf
  | none =>
    simp only [advance,found,Option.some.injEq] at run
    subst run
    have leaf : s.state c ≠ .isSplit := nextMerge_none found
    obtain ⟨own,state⟩ := mine c c.under_refl used leaf
    refine inv.giveCaller here own (fun x theirs => ?_) (.refl inv.sound state) state rfl rfl
      (.release rfl rfl)
    obtain ⟨holds,ownable⟩ := inv.thread x t theirs
    rw [here] at holds
    by_contra other
    have gone : s.state x = .pmaOwned := by
      rw [System.state,inv.sound.shaped.below_leaf leaf holds other]
      rfl
    by_cases top : x.path = []
    · exact other (ChunkId.under_root holds top)
    · exact ownable.used top gone

theorem Inv.mergeWalk_evict {goal : Goal} (here : s.pc t = .mergeWalk c (.evict goal))
    (run : advance cfg o t s (.mergeWalk c (.evict goal)) = some s') : Owned cfg s' := by
  obtain ⟨top,used,all⟩ := inv.good_at here
  cases found : Pmm.nextMerge s.pmm c with
  | some x =>
    simp only [advance,found,Option.some.injEq] at run
    subst run
    have flag : s.inEviction c.root = true := (inv.evicting c.root).mpr ⟨t,by rw [here]; rfl⟩
    obtain ⟨below,able⟩ := inv.mergeable_next found (.inl rfl) fun y under exist leaf =>
      all y under.1 exist leaf
    refine inv.mergeNext here below able (fun y state under => inv.pinned y (under.1 ▸ flag) state)
      (.inl rfl) (fun _ _ => rfl)
      ⟨top,mergeStates_above below (by decide) used,fun y root exist leaf => ?_⟩
    by_cases equal : y = x
    · simp [mergeStates,equal]
    by_cases isSub : x.IsSubchunk (numSubchunks s.pmm x) y
    · simp [mergeStates,equal,isSub] at exist
    · have keeps : mergeStates s.pmm x .tempPinned y = s.state y := by
        simp [mergeStates,equal,isSub,System.state]
      rw [keeps] at exist leaf ⊢
      exact all y root exist leaf
  | none =>
    simp only [advance,found,Option.some.injEq] at run
    subst run
    have state := all c rfl used (nextMerge_none found)
    rw [ChunkId.eq_ofRoot top] at state
    exact inv.goto _ here (.keep rfl) (fun _ => id) rfl rfl state

end Walk

end GpuExt.Pmm
