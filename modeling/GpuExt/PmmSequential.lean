import GpuExt.PmmRuns

/-! Runs in which every operation is completed before another thread goes on. No eviction
meets the operation of somebody else then, so all their steps are safe. -/
namespace GpuExt.Pmm

open Function Option

variable {cfg : Config} {s s' : System} {owner : ChunkId → Owner} {t u : Thread} {o : Oracle}
  {pc : Pc} {r : RootId}

/-- Only the thread that takes the step has an operation in progress. -/
def Alone (s : System) : Event → Prop
  | .thread t _ _ => ∀ u, u ≠ t → s.pc u = .idle
  | _ => True

def SequentialRun (cfg : Config) : List Event → System → Prop
  | [], _ => True
  | event :: events, s => Alone s event ∧ ∀ s', step cfg s event = some s' → SequentialRun cfg events s'

/-- No caller holds a pinned chunk of the root. -/
def Unclaimed (held : List Handle) (r : RootId) : Prop := ∀ x, x.root = r → ⟨x,true⟩ ∉ held

/-- What the cleanup after a failed eviction relies on. -/
def Pc.Cleans (held : List Handle) : Pc → Prop
  | .cleanup _ r todo => Unclaimed held r ∧ ∀ x ∈ todo, x.root = r
  | .freeMerge (.cleanup _ r) _ => Unclaimed held r
  | .mergeParent (.cleanup _ r) _ => Unclaimed held r
  | _ => True

/-- The thread goes on elsewhere and no other thread moves. -/
structure Moves (s s' : System) (t : Thread) (pc : Pc) : Prop where
  pcs : s'.pc = update s.pc t pc
  cleans : pc.Cleans s'.held

theorem moves_idle (idle : s.pc t = .idle) (pcs : s'.pc = s.pc) : ∃ pc, Moves s s' t pc :=
  ⟨.idle,by rw [pcs,← idle,update_eq_self],trivial⟩

theorem begin_moves {action : Action} (run : begin cfg o t s action = some s') (idle : s.pc t = .idle) :
    ∃ pc, Moves s s' t pc := by
  cases action with
  | alloc request =>
    rw [begin] at run
    split at run
    · obtain ⟨⟨pmm,found⟩,_,run⟩ := bind_eq_some_iff.mp run
      cases found with
      | some c =>
        cases run
        exact moves_idle idle rfl
      | none =>
        cases run
        refine ⟨_,rfl,?_⟩
        split <;> trivial
    · cases run
  | unpin | unpinKernel | markUsed | markUnused =>
    rw [begin] at run
    split at run <;> cases run
    exact moves_idle idle rfl
  | free c pinned =>
    rw [begin] at run
    split at run
    · split at run <;> cases run
      · refine ⟨_,rfl,?_⟩
        split <;> trivial
      · exact ⟨_,rfl,trivial⟩
    · cases run
  | split | merge =>
    rw [begin] at run
    split at run
    · obtain ⟨_,rfl⟩ := System.acquire_some run
      exact ⟨_,rfl,trivial⟩
    · cases run
  | evictPages =>
    cases run
    exact ⟨_,rfl,trivial⟩
  | evictRange r =>
    rw [begin] at run
    split at run
    · cases run
    · obtain ⟨pmm,_,run⟩ := bind_eq_some_iff.mp run
      cases run
      exact ⟨_,rfl,trivial⟩
  | advance => cases run

theorem gotRoot_moves {request : Request} {next : System} (pcs : next.pc = s.pc) :
    ∃ pc, Moves s (gotRoot next t request r) t pc := by
  unfold gotRoot
  split
  · exact ⟨.idle,by rw [← pcs]; rfl,trivial⟩
  · exact ⟨_,by rw [← pcs]; rfl,by trivial⟩

theorem evictFailed_moves (goal : Goal) : ∃ pc, Moves s (evictFailed s t goal) t pc := by
  cases goal with
  | alloc request =>
    rw [evictFailed]
    split <;> exact ⟨_,rfl,trivial⟩
  | pages | range => exact ⟨_,rfl,trivial⟩

theorem pmaFailed_moves (request : Request) : ∃ pc, Moves s (pmaFailed s t request) t pc := by
  unfold pmaFailed
  split
  · refine ⟨_,rfl,?_⟩
    split <;> trivial
  · split <;> exact ⟨_,rfl,trivial⟩

theorem afterRoot_moves {next : System} (pcs : next.pc = s.pc) (after : AfterRoot) :
    ∃ pc, Moves s (afterRoot next t after) t pc := by
  cases after with
  | done => exact ⟨.idle,by rw [← pcs]; rfl,trivial⟩
  | evictFailed goal =>
    obtain ⟨pc,moves⟩ := evictFailed_moves (s := next) (t := t) goal
    exact ⟨pc,pcs ▸ moves.pcs,moves.cleans⟩
  | retry goal =>
    cases goal with
    | alloc | pages => exact ⟨_,by rw [← pcs]; rfl,by trivial⟩
    | range => exact ⟨.idle,by rw [← pcs]; rfl,trivial⟩

theorem evictedRoot_moves (goal : Goal) : ∃ pc, Moves s (evictedRoot o s t r goal) t pc := by
  unfold evictedRoot
  split
  · exact ⟨_,rfl,trivial⟩
  cases goal with
  | range => exact ⟨_,rfl,trivial⟩
  | pages =>
    dsimp only
    split <;> exact ⟨_,rfl,trivial⟩
  | alloc request =>
    dsimp only
    split
    · exact gotRoot_moves (by split <;> rfl)
    split
    · exact ⟨_,rfl,trivial⟩
    · exact gotRoot_moves (by split <;> rfl)

theorem afterFree_moves {after : AfterFree} {next : System} {c : ChunkId}
    (cleans : (Pc.freeMerge after c).Cleans s.held) (pcs : next.pc = s.pc) (held : next.held = s.held) :
    ∃ pc, Moves s (afterFree next t after) t pc := by
  cases after with
  | freed | splitFailed => exact ⟨_,by rw [← pcs]; rfl,by trivial⟩
  | cleanup goal r =>
    have unclaimed : Unclaimed s.held r := cleans
    exact ⟨.cleanup goal r _,by rw [← pcs]; rfl,held ▸ unclaimed,fun x => preOrder_root⟩

section

variable {request : Request} {size : Nat} {sizes : List Nat} {c parent : ChunkId} {after : AfterFree}
  {goal : Goal} {r : RootId} {todo : List ChunkId}

theorem withSplits_moves (run : advance cfg o t s (.withSplits request sizes) = some s') :
    ∃ pc, Moves s s' t pc := by
  cases sizes with
  | nil =>
    cases run
    exact ⟨_,rfl,trivial⟩
  | cons size sizes =>
    obtain ⟨⟨pmm,found⟩,_,run⟩ := bind_eq_some_iff.mp run
    cases found <;> cases run <;> exact ⟨_,rfl,trivial⟩

theorem allocRoot_moves (run : advance cfg o t s (.allocRoot request) = some s') :
    ∃ pc, Moves s s' t pc := by
  rw [advance] at run
  split at run
  · cases run
    exact pmaFailed_moves request
  · split at run <;> cases run
    exact ⟨_,rfl,trivial⟩

theorem splitDown_moves (run : advance cfg o t s (.splitDown request size c) = some s') :
    ∃ pc, Moves s s' t pc := by
  rw [advance] at run
  split at run
  · cases run
    exact ⟨_,rfl,trivial⟩
  · split at run <;> cases run <;> exact ⟨_,rfl,trivial⟩

theorem freeMerge_moves (cleans : (Pc.freeMerge after c).Cleans s.held)
    (run : advance cfg o t s (.freeMerge after c) = some s') : ∃ pc, Moves s s' t pc := by
  rw [advance] at run
  split at run <;> cases run
  · exact afterFree_moves cleans rfl rfl
  · cases after with
    | cleanup goal r => exact ⟨.mergeParent _ _,rfl,cleans⟩
    | freed | splitFailed => exact ⟨_,rfl,trivial⟩

theorem mergeParent_moves (cleans : (Pc.mergeParent after parent).Cleans s.held)
    (run : advance cfg o t s (.mergeParent after parent) = some s') : ∃ pc, Moves s s' t pc := by
  cases run
  cases after with
  | cleanup goal r => exact ⟨.freeMerge _ parent,rfl,cleans⟩
  | freed | splitFailed => exact ⟨_,rfl,trivial⟩

theorem mergeWalk_moves {after : AfterMerge} (here : s.pc t = .mergeWalk c after)
    (run : advance cfg o t s (.mergeWalk c after) = some s') : ∃ pc, Moves s s' t pc := by
  cases found : nextMerge s.pmm c with
  | some x =>
    simp only [advance,found,some.injEq] at run
    subst run
    refine ⟨.mergeWalk c after,?_,trivial⟩
    rw [← here,update_eq_self]
  | none =>
    cases after <;> simp only [advance,found,some.injEq] at run <;> subst run <;>
      exact ⟨_,rfl,trivial⟩

theorem evictBlock_moves (here : s.pc t = .evictBlock goal r)
    (run : advance cfg o t s (.evictBlock goal r) = some s') : ∃ pc, Moves s s' t pc := by
  rw [advance] at run
  split at run
  · split at run <;> cases run
    refine ⟨.evictBlock goal r,?_,trivial⟩
    change s.pc = _
    rw [← here,update_eq_self]
  · obtain ⟨_,rfl⟩ := System.acquire_some run
    refine ⟨_,rfl,?_⟩
    split <;> trivial

theorem cleanup_moves (cleans : (Pc.cleanup goal r todo).Cleans s.held)
    (run : advance cfg o t s (.cleanup goal r todo) = some s') : ∃ pc, Moves s s' t pc := by
  cases todo with
  | nil =>
    cases run
    exact ⟨_,rfl,trivial⟩
  | cons c todo =>
    obtain ⟨unclaimed,inside⟩ := cleans
    rw [advance] at run
    split at run <;> cases run
    · exact ⟨.freeMerge _ c,rfl,unclaimed⟩
    · exact ⟨.cleanup goal r todo,rfl,unclaimed,fun x member => inside x (by simp [member])⟩

end

theorem advance_moves (cleans : pc.Cleans s.held) (here : s.pc t = pc)
    (failed : ∀ goal r, pc = .evictError goal r → Unclaimed s.held r)
    (run : advance cfg o t s pc = some s') : ∃ pc, Moves s s' t pc := by
  cases pc with
  | idle => cases run
  | lockWait | freeWait | pickWait | evictWait =>
    obtain ⟨_,rfl⟩ := System.acquire_some run
    exact ⟨_,rfl,trivial⟩
  | withSplits request sizes => exact withSplits_moves run
  | allocRoot request => exact allocRoot_moves run
  | initRoots request isZero first pending =>
    cases first <;> cases pending <;> cases run
    · exact ⟨_,rfl,trivial⟩
    · exact gotRoot_moves rfl
    · exact ⟨_,rfl,trivial⟩
  | splitDown request size c => exact splitDown_moves run
  | freeSiblings request size parent =>
    obtain ⟨smaller,_,run⟩ := bind_eq_some_iff.mp run
    cases run
    exact ⟨_,rfl,trivial⟩
  | freeMerge after c => exact freeMerge_moves cleans run
  | mergeParent after parent => exact mergeParent_moves cleans run
  | freeNext type after =>
    rw [advance] at run
    split at run <;> cases run
    · exact ⟨_,rfl,trivial⟩
    · exact afterRoot_moves rfl after
  | freeRoot r heir after =>
    cases run
    refine afterRoot_moves ?_ after
    rfl
  | splitWalk _ _ _ todo | evictFind _ _ todo =>
    cases todo with
    | nil =>
      cases run
      exact ⟨_,rfl,trivial⟩
    | cons x todo =>
      rw [advance] at run
      split at run <;> cases run <;> exact ⟨_,rfl,trivial⟩
  | mergeWalk c after => exact mergeWalk_moves here run
  | pick goal =>
    rw [advance] at run
    split at run <;> cases run
    · exact ⟨_,rfl,trivial⟩
    · exact evictFailed_moves goal
  | evictPin goal r todo =>
    cases todo <;> cases run <;> exact ⟨_,rfl,trivial⟩
  | evictBlock goal r => exact evictBlock_moves here run
  | evictDone goal r =>
    cases run
    exact ⟨_,rfl,trivial⟩
  | evicted goal r =>
    cases run
    exact evictedRoot_moves goal
  | evictError goal r =>
    cases run
    exact ⟨.cleanup goal r _,rfl,failed goal r rfl,fun x => preOrder_root⟩
  | cleanup goal r todo => exact cleanup_moves cleans run

/-- The invariant of sequential runs. -/
structure Orderly (cfg : Config) (s : System) : Prop where
  inv : ∃ owner, Inv cfg s owner
  cleans : ∀ t, (s.pc t).Cleans s.held

theorem orderly_start (id : Nat) : Orderly cfg (System.start id) :=
  ⟨⟨_,inv_start id⟩,fun _ => trivial⟩

theorem Inv.unclaimed (inv : Inv cfg s owner) (evicting : s.inEviction r = true) :
    Unclaimed s.held r := by
  intro x root member
  obtain ⟨own,state⟩ := inv.held_state member
  have nobody := inv.pinned x (root ▸ evicting) state
  rw [own] at nobody
  cases nobody

/-- Nobody evicts while the only thread at work does something else. -/
theorem Inv.no_eviction (inv : Inv cfg s owner) (alone : ∀ u, u ≠ t → s.pc u = .idle)
    (calm : (s.pc t).evicts = none) (r : RootId) : s.inEviction r = false := by
  cases flag : s.inEviction r with
  | false => rfl
  | true =>
    obtain ⟨u,evicts⟩ := (inv.evicting r).mp flag
    by_cases same : u = t
    · rw [same,calm] at evicts
      cases evicts
    · rw [alone u same] at evicts
      cases evicts

theorem Inv.safe_alone (inv : Inv cfg s owner) (cleans : (s.pc t).Cleans s.held)
    (alone : ∀ u, u ≠ t → s.pc u = .idle) : SafeAdvance s t (s.pc t) := by
  cases here : s.pc t with
  | cleanup goal r todo =>
    cases todo with
    | nil => trivial
    | cons c todo =>
      rw [here] at cleans
      obtain ⟨unclaimed,inside⟩ := cleans
      refine fun pinned => ⟨fun b member => ?_,fun u other holds => ?_,?_⟩
      · have state := (inv.held_state member).2
        cases b with
        | true => exact unclaimed c (inside c (by simp)) member
        | false => exact absurd (pinned.symm.trans state) (by decide)
      · rw [alone u other] at holds
        exact holds
      · exact inv.no_eviction alone (by rw [here]; rfl) c.root
  | freeMerge after c =>
    rintro ⟨flag,_⟩
    have calm := inv.no_eviction alone (by rw [here]; rfl) c.root
    exact absurd (flag.symm.trans calm) (by decide)
  | _ => trivial

section

variable (orderly : Orderly cfg s)
include orderly

theorem Orderly.moves {action : Action} (run : step cfg s (.thread t action o) = some s') :
    ∃ pc, Moves s s' t pc := by
  obtain ⟨⟨owner,inv⟩,cleans⟩ := orderly
  by_cases moving : action = .advance
  · subst moving
    exact advance_moves (cleans t) rfl (fun goal r here => inv.unclaimed (inv.evicting_at here rfl)) run
  · have starts : (if s.pc t = .idle then begin cfg o t s action else none) = some s' := by
      cases action <;> first | exact run | exact absurd rfl moving
    split at starts
    next idle => exact begin_moves starts idle
    next => cases starts

theorem Orderly.safe {event : Event} (alone : Alone s event) : Safe s event := by
  obtain ⟨⟨owner,inv⟩,cleans⟩ := orderly
  cases event with
  | thread t action o =>
    cases action with
    | advance => exact inv.safe_alone (cleans t) alone
    | _ => trivial
  | rmAlloc | rmFree => trivial

theorem Orderly.event {event : Event} (alone : Alone s event) (run : step cfg s event = some s') :
    Orderly cfg s' := by
  have safe := orderly.safe alone
  obtain ⟨owner,inv⟩ := orderly.inv
  refine ⟨inv.event safe run,?_⟩
  cases event with
  | thread t action o =>
    obtain ⟨pc,moves⟩ := orderly.moves run
    intro u
    rw [moves.pcs]
    by_cases same : u = t
    · rw [same,update_self]
      exact moves.cleans
    · rw [update_of_ne same,alone u same]
      trivial
  | rmAlloc | rmFree =>
    rw [step] at run
    split at run <;> cases run
    exact orderly.cleans

/-- A thread that is alone stays alone. -/
theorem Orderly.sequential {events : List Event}
    (single : ∀ event ∈ events, ∃ action o, event = .thread t action o)
    (others : ∀ u, u ≠ t → s.pc u = .idle) : SequentialRun cfg events s := by
  induction events generalizing s with
  | nil => trivial
  | cons event events ih =>
    obtain ⟨action,o,rfl⟩ := single event (by simp)
    have alone : Alone s (.thread t action o) := others
    refine ⟨alone,fun s' run => ?_⟩
    obtain ⟨pc,moves⟩ := orderly.moves run
    refine ih (orderly.event alone run) (fun e member => single e (by simp [member])) fun u other => ?_
    rw [moves.pcs,update_of_ne other,others u other]

theorem Orderly.run {events : List Event} (sequential : SequentialRun cfg events s)
    (run : execute cfg events s = some s') : Orderly cfg s' := by
  induction events generalizing s with
  | nil =>
    cases run
    exact orderly
  | cons event events ih =>
    obtain ⟨middle,stepped,rest⟩ := bind_eq_some_iff.mp run
    exact ih (orderly.event sequential.1 stepped) (sequential.2 middle stepped) rest

end

/-! Physical memory. -/

/-- The leaves of a root are aligned chunks of supported sizes that cover its 2 MiB once. -/
structure Tiled (cfg : Config) (s : State) (r : RootId) : Prop where
  inside : ∀ x, x.root = r → Leaf s x → ∀ a, Covers (s.chunk x) a →
    r * 2 ^ chunkSizeMax ≤ a ∧ a < (r + 1) * 2 ^ chunkSizeMax
  once : ∀ a, r * 2 ^ chunkSizeMax ≤ a → a < (r + 1) * 2 ^ chunkSizeMax →
    ∃! x, x.root = r ∧ Leaf s x ∧ Covers (s.chunk x) a
  aligned : ∀ x, x.root = r → Leaf s x → 2 ^ (s.chunk x).log2Size ∣ (s.chunk x).address
  supported : ∀ x, x.root = r → Leaf s x →
    (cfg.chunkSizes (s.chunk x).type).testBit (s.chunk x).log2Size = true
  type : ∀ x, x.root = r → Leaf s x → (s.chunk x).type = (s.chunk (.ofRoot r)).type
  child : ∀ x i, x.root = r → (s.chunk (x.child i)).state ≠ .pmaOwned →
    chunkFindPrevSize (cfg.chunkSizes (s.chunk x).type) (s.chunk x).log2Size =
      some (s.chunk (x.child i)).log2Size

theorem Shaped.tiled {s : State} (shaped : Shaped cfg s)
    (used : (s.chunk (.ofRoot r)).state ≠ .pmaOwned) : Tiled cfg s r := by
  have whole (a : Nat) : Covers (s.chunk (.ofRoot r)) a ↔
      r * 2 ^ chunkSizeMax ≤ a ∧ a < (r + 1) * 2 ^ chunkSizeMax := by
    rw [Covers,(shaped.root r).1,(shaped.root r).2,Nat.succ_mul]
  refine ⟨fun x root leaf a covers => ?_,fun a low high => shaped.tiles used ((whole a).mpr ⟨low,high⟩),
    fun x _ leaf => shaped.aligned leaf.1,fun x _ leaf => shaped.supported leaf.1,
    fun x root leaf => ?_,fun x i _ exist => ?_⟩
  · exact (whole a).mp (shaped.covers_under (root ▸ x.root_under) leaf.1 covers)
  · rw [shaped.type_root leaf.1,rootChunk,root]
  · obtain ⟨k,size,_,fits⟩ := shaped.fits exist
    rw [size,fits.size]

theorem memory_safe {id : Nat} {events : List Event}
    (sequential : SequentialRun cfg events (System.start id))
    (run : execute cfg events (System.start id) = some s) :
    (∀ r, s.state (.ofRoot r) ≠ .pmaOwned → Tiled cfg s.pmm r) ∧
      s.held.Pairwise fun left right => ∀ a, Covers (s.pmm.chunk left.chunk) a →
        ¬Covers (s.pmm.chunk right.chunk) a := by
  obtain ⟨⟨owner,inv⟩,_⟩ := (orderly_start id).run sequential run
  refine ⟨fun r used => inv.sound.shaped.tiled used,?_⟩
  have leaf (handle : Handle) (member : handle ∈ s.held) : Leaf s.pmm handle.chunk := by
    have state := (inv.held_state (c := handle.chunk) (b := handle.pinned) member).2
    have busy := heldState_busy handle.pinned
    rw [← state] at busy
    exact ⟨busy.2.2,busy.2.1⟩
  refine inv.held.nodup.imp_of_mem fun {left right} leftHeld rightHeld apart a covers => ?_
  refine inv.sound.shaped.leaves_disjoint (leaf left leftHeld) (leaf right rightHeld) ?_ covers
  intro same
  have ownLeft := (inv.held.iff left.chunk left.pinned).mp leftHeld
  have ownRight := (inv.held.iff right.chunk right.pinned).mp rightHeld
  cases left
  cases right
  exact apart (by simp_all)

theorem memory_safe_single : ∃ s, execute twoSizes (lastFree.take 13) (System.start 0) = some s ∧
    s.held ≠ [] ∧ Tiled twoSizes s.pmm 0 ∧
      s.held.Pairwise fun left right => ∀ a, Covers (s.pmm.chunk left.chunk) a →
        ¬Covers (s.pmm.chunk right.chunk) a := by
  have completes : (execute twoSizes (lastFree.take 13) (System.start 0)).isSome := by decide +kernel
  obtain ⟨s,run⟩ := isSome_iff_exists.mp completes
  have facts : ((execute twoSizes (lastFree.take 13) (System.start 0)).map fun s =>
      (s.held,s.state (.ofRoot 0))) = some ([⟨⟨0,[0]⟩,false⟩],.isSplit) := by decide +kernel
  rw [run,map_some,some.injEq,Prod.mk.injEq] at facts
  have sequential : SequentialRun twoSizes (lastFree.take 13) (System.start 0) := by
    refine (orderly_start 0).sequential (t := 0) (fun event member => ?_) fun _ _ => rfl
    simp only [lastFree,halfRoot,List.replicate,List.cons_append,List.nil_append,List.take,List.mem_cons,
      List.not_mem_nil,or_false] at member
    rcases member with rfl | rfl | rfl | rfl | rfl | rfl | rfl | rfl | rfl | rfl | rfl | rfl | rfl <;>
      exact ⟨_,_,rfl⟩
  obtain ⟨tiled,apart⟩ := memory_safe sequential run
  exact ⟨s,run,by simp [facts.1],tiled 0 (by simp [facts.2]),apart⟩

end GpuExt.Pmm
