import GpuExt.FaultGroups
import GpuExt.FaultReplay

/-! No fault is consumed without a later replay. Every path on which the service routine ends
well either pushed a START replay after its last fetch or flush, or found no GPU VA space for
any fault of the last batch. -/
namespace GpuExt.FaultReplay

open FaultBatch AtsFaults List Option

/-- After its consumption the entry is replayed, or was reached without a GPU VA space. -/
def Covered (entry : Nat) (later : List Event) : Prop :=
  .replay .start ∈ later ∨ ∃ entries, .ignored entries ∈ later ∧ entry ∈ entries

/-- Every consumed entry is covered by what comes after it. -/
def NoneLost : List Event → Prop
  | [] => True
  | .consumed entry :: later => Covered entry later ∧ NoneLost later
  | _ :: later => NoneLost later

def Quiet (events : List Event) : Prop := ∀ entry, .consumed entry ∉ events

variable {events : List Event}

theorem Covered.append {entry : Nat} {more : List Event} (covered : Covered entry events) :
    Covered entry (events ++ more) := by
  rcases covered with replayed | ⟨entries,ignored,member⟩
  · exact .inl (mem_append_left _ replayed)
  · exact .inr ⟨entries,mem_append_left _ ignored,member⟩

theorem NoneLost.append {more : List Event} (front : NoneLost events) (back : NoneLost more) :
    NoneLost (events ++ more) := by
  induction events with
  | nil => exact back
  | cons event events ih =>
    cases event with
    | consumed entry => exact ⟨front.1.append,ih front.2⟩
    | replay type => exact ih front
    | ignored entries => exact ih front

theorem Quiet.noneLost (quiet : Quiet events) : NoneLost events := by
  induction events with
  | nil => trivial
  | cons event events ih =>
    have later : Quiet events := fun entry member => quiet entry (mem_cons_of_mem _ member)
    cases event with
    | consumed entry => exact absurd mem_cons_self (quiet entry)
    | replay type => exact ih later
    | ignored entries => exact ih later

/-- A final replay covers everything before it. -/
theorem noneLost_replay (events : List Event) : NoneLost (events ++ [.replay .start]) := by
  induction events with
  | nil => trivial
  | cons event events ih =>
    cases event with
    | consumed entry => exact ⟨.inl (by simp),ih⟩
    | replay type => exact ih
    | ignored entries => exact ih

/-- A batch of consumed entries, all covered by the quiet events after it. -/
theorem noneLost_batch {entries : List Nat} {later : List Event} (quiet : Quiet later)
    (covered : ∀ entry ∈ entries, Covered entry later) :
    NoneLost (entries.map .consumed ++ later) := by
  induction entries with
  | nil => exact quiet.noneLost
  | cons entry entries ih =>
    refine ⟨?_,ih fun entry member => covered entry (mem_cons_of_mem _ member)⟩
    rcases covered entry mem_cons_self with replayed | ⟨others,ignored,member⟩
    · exact .inl (mem_append_right _ replayed)
    · exact .inr ⟨others,mem_append_right _ ignored,member⟩

/-- The last thing in the history is a START replay. -/
def EndsInReplay (s : State) : Prop := ∃ before, s.trace = before ++ [.replay .start]

theorem EndsInReplay.noneLost {s : State} (ends : EndsInReplay s) : NoneLost s.trace := by
  obtain ⟨before,trace⟩ := ends
  rw [trace]
  exact noneLost_replay before

variable {env : Env}

section Statuses

variable (s : State)

@[simp] theorem ask_trace : (ask env s).2.trace = s.trace := rfl

/-- The call does not ask for more processing. -/
def Genuine (result : NvStatus × State) : Prop := result.1 ≠ .warnMoreProcessingRequired

theorem ask_genuine : Genuine (ask env s) := env.genuine _

theorem ok_genuine : Genuine (.ok,s) := by simp [Genuine]

variable {s}

variable {first : NvStatus × State} {next : State → NvStatus × State}

theorem andThen_genuine (firstGenuine : Genuine first) (nextGenuine : ∀ s, Genuine (next s)) :
    Genuine (andThen first next) := by
  simp only [andThen]
  split
  · exact nextGenuine _
  · exact firstGenuine

theorem andThen_ok (ok : (andThen first next).1 = .ok) :
    first.1 = .ok ∧ (next first.2).1 = .ok ∧ andThen first next = next first.2 := by
  simp only [andThen] at ok ⊢
  split at ok
  next passed => exact ⟨passed,ok,if_pos passed⟩
  next failed => exact absurd ok failed

theorem pushReplay_genuine (type : ReplayType) : Genuine (pushReplay env type s) :=
  andThen_genuine (ask_genuine s) fun _ => ask_genuine _

theorem pushReplay_start (ok : (pushReplay env .start s).1 = .ok) :
    EndsInReplay (pushReplay env .start s).2 := by
  obtain ⟨_,_,result⟩ := andThen_ok ok
  rw [pushReplay,result]
  exact ⟨s.trace,rfl⟩

/-- At most a question was asked. -/
def Asked (s : State) (result : NvStatus × State) : Prop :=
  Genuine result ∧ result.2.trace = s.trace ∧ result.2.fatal = s.fatal

theorem asked_ite (s : State) (c : Prop) [Decidable c] :
    Asked s (if c then ask env s else (.ok,s)) := by
  split
  · exact ⟨ask_genuine s,rfl,rfl⟩
  · exact ⟨ok_genuine s,rfl,rfl⟩

theorem hwFaultBufferFlush_genuine : Genuine (hwFaultBufferFlush env s) := (asked_ite s _).1

theorem flushEntries_genuine (entries : Nat) : Genuine (flushEntries env entries s) := by
  induction entries generalizing s with
  | zero => exact ok_genuine s
  | succ entries ih =>
    simp only [flushEntries]
    split
    next status failed => exact (env.spinGenuine _ _ failed).2
    · exact ih

theorem updatePut_genuine (mode : FlushMode) : Genuine (updatePut env mode s) := by
  cases mode with
  | cachedPut => exact ok_genuine s
  | updatePut => exact andThen_genuine hwFaultBufferFlush_genuine fun _ => ok_genuine _
  | waitUpdatePut =>
    exact andThen_genuine (ask_genuine s) fun _ =>
      andThen_genuine hwFaultBufferFlush_genuine fun _ => ok_genuine _

theorem faultBufferFlush_genuine (mode : FlushMode) (type : ReplayType) :
    Genuine (faultBufferFlush env mode type s) :=
  andThen_genuine (updatePut_genuine mode) fun _ =>
    andThen_genuine (flushEntries_genuine _) fun _ => pushReplay_genuine type

theorem faultBufferFlush_start {mode : FlushMode}
    (ok : (faultBufferFlush env mode .start s).1 = .ok) :
    EndsInReplay (faultBufferFlush env mode .start s).2 := by
  obtain ⟨_,skipped,result⟩ := andThen_ok ok
  obtain ⟨_,pushed,inner⟩ := andThen_ok skipped
  rw [faultBufferFlush,result,inner]
  exact pushReplay_start pushed

end Statuses

section Fetching

variable {s : State} {mode : FetchMode}

variable (env) in
theorem fetchEntries_spec (mode : FetchMode) (entries : Nat) (cached : List Nat) (s : State) :
    let fetched := fetchEntries env mode entries cached s
    fetched.1 ≠ .warnMoreProcessingRequired ∧
    ∃ more, fetched.2.1 = cached ++ more ∧
      fetched.2.2.trace = s.trace ++ more.map Event.consumed := by
  induction entries generalizing cached s with
  | zero => exact ⟨by simp [fetchEntries],[],by simp [fetchEntries]⟩
  | succ entries ih =>
    have nothing : ∃ more, cached = cached ++ more ∧ s.trace = s.trace ++ more.map Event.consumed :=
      ⟨[],by simp⟩
    simp only [fetchEntries]
    split
    · exact ⟨by simp,nothing⟩
    · split
      next status failed => exact ⟨(env.spinGenuine _ _ failed).2,nothing⟩
      · split
        · exact ⟨by simp,nothing⟩
        · split
          · exact ⟨env.genuine _,nothing⟩
          · obtain ⟨genuine,more,grown,traced⟩ := ih (cached ++ [s.tick.consumed]) _
            refine ⟨genuine,s.tick.consumed :: more,?_,?_⟩
            · exact grown.trans (by simp)
            · refine traced.trans ?_
              simp [advance,State.log,State.tick,ask]

variable (env) in
/-- A fetch consumes exactly the entries it caches. -/
theorem fetch_spec (mode : FetchMode) (s : State) :
    let fetched := fetchFaultBufferEntries env mode s
    fetched.1 ≠ .warnMoreProcessingRequired ∧
      fetched.2.2.trace = s.trace ++ fetched.2.1.map Event.consumed := by
  simp only [fetchFaultBufferEntries]
  split
  · obtain ⟨genuine,more,cached,traced⟩ := fetchEntries_spec env mode
      _ []
      { s.tick with cachedPut := env.readPut s.time }
    exact ⟨genuine,cached ▸ traced⟩
  · obtain ⟨genuine,more,cached,traced⟩ := fetchEntries_spec env mode _ [] s
    exact ⟨genuine,cached ▸ traced⟩

end Fetching

section Preprocessing

/-- A translation that asks for more processing has flushed the buffer and replayed. -/
def Translated (s : State) (result : NvStatus × State) : Prop :=
  (result.1 = .warnMoreProcessingRequired → EndsInReplay result.2) ∧
    (result.1 = .ok → result.2.trace = s.trace ∧ result.2.fatal = s.fatal)

theorem andThen_translated {s : State} {first : NvStatus × State} {next : State → NvStatus × State}
    (genuine : Genuine first) (rest : first.1 = .ok → Translated s (next first.2)) :
    Translated s (andThen first next) := by
  simp only [andThen]
  split
  next ok => exact rest ok
  next failed => exact ⟨fun warned => absurd warned genuine,fun ok => absurd ok failed⟩

variable (env)

theorem translateInstancePtrs_spec (s : State) : Translated s (translateInstancePtrs env s) := by
  have flushed (s' : State) : Translated s
      (andThen (faultBufferFlush env .updatePut .start s') fun s => (.warnMoreProcessingRequired,s)) :=
    andThen_translated (faultBufferFlush_genuine _ _) fun ok => ⟨fun _ => faultBufferFlush_start ok,nofun⟩
  unfold translateInstancePtrs
  split
  · exact ⟨nofun,fun _ => ⟨rfl,rfl⟩⟩
  · exact andThen_translated (ask_genuine _) fun _ => flushed _
  · exact flushed _

/-- Preprocessing passes the batch on, or has flushed the buffer and replayed. -/
theorem preprocess_spec (cached : List Nat) (s : State) :
    let processed := preprocessFaultBatch env cached s
    (processed.1 = .warnMoreProcessingRequired → EndsInReplay processed.2.2) ∧
    (processed.1 = .ok → processed.2.2.trace = s.trace ∧ processed.2.2.fatal = s.fatal) ∧
    ∀ entry ∈ cached, ∃ group ∈ processed.2.1, entry ∈ group.entries := by
  obtain ⟨warned,ok⟩ := translateInstancePtrs_spec env s.tick
  exact ⟨warned,ok,env.grouped s.time cached⟩

end Preprocessing

section Servicing

variable {perBlock : Bool} {groups : List Group} {group : Group} {scan : Scan}

theorem invalidatePrevious_asked (prev : Option (Nat × Nat)) (s : State) :
    Asked s (invalidatePrevious env prev s) := asked_ite s _

theorem invalidateOther_asked (prev gpuVaSpace : Option (Nat × Nat)) (s : State) :
    Asked s (invalidateOther env prev gpuVaSpace s) := asked_ite s _

variable {fuel index : Nat} {s : State}

/-- With replays per block, as long as no fault is fatal: what was scanned is covered. -/
def Scanned (groups : List Group) (before : List Event) (index : Nat) (s : State) : Prop :=
  ∃ later, s.trace = before ++ later ∧ Quiet later ∧
    (s.fatal = none → ∀ group ∈ groups.take index, ∀ entry ∈ group.entries, Covered entry later)

variable {before : List Event}

section

variable (scanned : Scanned groups before index s)
include scanned

theorem Scanned.kept {s' : State} (trace : s'.trace = s.trace) (fatal : s'.fatal = none → s.fatal = none) :
    Scanned groups before index s' := by
  obtain ⟨later,traced,quiet,covered⟩ := scanned
  exact ⟨later,trace.trans traced,quiet,fun none => covered (fatal none)⟩

theorem Scanned.fatal {index' : Nat} {s' : State} (trace : s'.trace = s.trace) (fatal : s'.fatal ≠ none) : Scanned groups before index' s' := by
  obtain ⟨later,traced,quiet,_⟩ := scanned
  exact ⟨later,trace.trans traced,quiet,fun none => absurd none fatal⟩

/-- A replay covers everything, however far the scan has moved. -/
theorem Scanned.replay {index' : Nat} {s' : State} (trace : s'.trace = s.trace ++ [.replay .start]) : Scanned groups before index' s' := by
  obtain ⟨later,traced,quiet,_⟩ := scanned
  refine ⟨later ++ [.replay .start],by rw [trace,traced,append_assoc],?_,fun _ _ _ _ _ => ?_⟩
  · intro entry member
    exact quiet entry (by simpa using member)
  · exact .inl (by simp)

end

theorem Scanned.ignore (scanned : Scanned groups before scan.index s)
    (atIndex : groups[scan.index]? = some group) :
    Scanned groups before (scan.index + 1) (s.log (.ignored group.entries)) := by
  obtain ⟨later,traced,quiet,covered⟩ := scanned
  refine ⟨later ++ [.ignored group.entries],by simp [State.log,traced],?_,?_⟩
  · intro entry member
    exact quiet entry (by simpa using member)
  · intro none other member entry inOther
    rw [take_add_one,atIndex] at member
    rcases mem_append.mp member with earlier | here
    · exact (covered none other earlier entry inOther).append
    · obtain rfl : other = group := by simpa using here
      exact .inr ⟨_,by simp,inOther⟩

theorem serviceDispatch_kept (group : Group) (s : State) :
    (serviceDispatch env group s).2.trace = s.trace ∧
      ((serviceDispatch env group s).2.fatal = none → s.fatal = none) := by
  refine ⟨rfl,fun none => ?_⟩
  simp only [serviceDispatch] at none
  split at none
  · exact none
  · exact (or_eq_none_iff.mp none).1

/-- A step of the scan does not ask for more processing, and covers what it passes. -/
def Goes (perBlock : Bool) (groups : List Group) (before : List Event) (result : NvStatus × Scan) :
    Prop :=
  result.1 ≠ .warnMoreProcessingRequired ∧ (result.1 = .ok → perBlock = true →
    Scanned groups before result.2.index result.2.state)

section

variable (scanned : perBlock = true → Scanned groups before scan.index scan.state)
include scanned

theorem serviceDispatched_goes :
    Goes perBlock groups before (serviceDispatched env perBlock group scan) := by
  obtain ⟨traced,fatalKept⟩ := @serviceDispatch_kept env group scan.state
  simp only [serviceDispatched]
  split
  · exact ⟨nofun,fun _ per => (scanned per).kept traced fatalKept⟩
  next other =>
    split
    next failed => exact ⟨fun warned => other (.inl warned),fun ok => absurd ok failed⟩
    split
    · refine ⟨pushReplay_genuine .start,fun ok per => (scanned per).replay ?_⟩
      obtain ⟨_,_,result⟩ := andThen_ok ok
      rw [pushReplay,result]
      rfl
    next stuck =>
      exact ⟨nofun,fun _ per => (scanned per).fatal traced fun none => stuck ⟨per,none⟩⟩

theorem serviceGroup_goes (atIndex : groups[scan.index]? = some group) :
    Goes perBlock groups before (serviceGroup env perBlock group scan) := by
  simp only [serviceGroup,serviceLiveGroup]
  split
  · exact ⟨nofun,fun _ per => (scanned per).fatal rfl (by simp)⟩
  obtain ⟨genuine,traced,fatalKept⟩ := @invalidateOther_asked env scan.prevGpuVaSpace
    _ scan.state.tick
  have kept := fun per => (scanned per).kept traced (fun none => fatalKept ▸ none)
  split
  next failed => exact ⟨genuine,fun ok => absurd ok failed⟩
  split
  · exact ⟨nofun,fun _ per => (kept per).ignore atIndex⟩
  · exact serviceDispatched_goes kept

theorem serviceTurn_goes (atIndex : groups[scan.index]? = some group) :
    Goes perBlock groups before (serviceTurn env perBlock group scan) := by
  simp only [serviceTurn]
  split
  · exact serviceGroup_goes scanned atIndex
  obtain ⟨genuine,traced,fatalKept⟩ := @invalidatePrevious_asked env scan.prevGpuVaSpace scan.state
  split
  next failed => exact ⟨genuine,fun ok => absurd ok failed⟩
  · exact serviceGroup_goes
      (fun per => (scanned per).kept traced (fun none => fatalKept ▸ none)) atIndex

theorem serviceLoop_spec {result : NvStatus × State}
    (ended : serviceLoop env perBlock groups fuel scan = some result) : Genuine result ∧
      (result.1 = .ok → perBlock = true → Scanned groups before groups.length result.2) := by
  induction fuel generalizing scan with
  | zero => simp [serviceLoop] at ended
  | succ fuel ih =>
    simp only [serviceLoop] at ended
    split at ended
    next finished =>
      cases ended
      have all : groups.length ≤ scan.index := getElem?_eq_none_iff.mp finished
      obtain ⟨genuine,traced,fatalKept⟩ :=
        @invalidatePrevious_asked env scan.prevGpuVaSpace scan.state
      refine ⟨genuine,fun _ per => ?_⟩
      obtain ⟨later,trace,quiet,covered⟩ := (scanned per).kept traced (fun none => fatalKept ▸ none)
      refine ⟨later,trace,quiet,fun none => ?_⟩
      rw [take_of_length_le le_rfl,← take_of_length_le all]
      exact covered none
    next group atIndex =>
      have goes : Goes _ _ _ (serviceTurn env perBlock group scan) := serviceTurn_goes scanned atIndex
      split at ended
      next failed =>
        cases ended
        exact ⟨goes.1,fun ok => absurd ok failed⟩
      next passed => exact ih (goes.2 (not_not.mp passed)) ended

end

theorem serviceFaultBatch_spec {mode : ServiceMode} {result : NvStatus × State}
    (ended : serviceFaultBatch env mode groups fuel s = some result) : Genuine result ∧
      (result.1 = .ok → (decide (mode ≠ .cancel ∧ env.policy = .block)) = true →
        Scanned groups s.trace groups.length result.2) :=
  serviceLoop_spec (fun _ => ⟨[],by simp,by simp [Quiet],by simp⟩) ended

/-- A batch serviced with replays per block and without fatal faults is covered. -/
theorem serviceFaultBatch_covered (policy : env.policy = .block) {s' : State} {entries : List Nat}
    {earlier : List Event} (noneLost : NoneLost earlier)
    (traced : s.trace = earlier ++ entries.map Event.consumed)
    (grouped : ∀ entry ∈ entries, ∃ group ∈ groups, entry ∈ group.entries)
    (ended : serviceFaultBatch env .regular groups fuel s = some (.ok,s'))
    (live : s'.fatal = none) : NoneLost s'.trace := by
  obtain ⟨later,trace,quiet,covered⟩ := (serviceFaultBatch_spec ended).2 rfl (by simp [policy])
  rw [trace,traced,append_assoc]
  refine noneLost.append (noneLost_batch quiet fun entry member => ?_)
  obtain ⟨group,inGroups,inGroup⟩ := grouped entry member
  exact covered live group (by simpa using inGroups) entry inGroup

end Servicing

section Cancelling

/-- A result of a loop, if it ends, does not ask for more processing. -/
def LoopGenuine (result : Option (NvStatus × State)) : Prop :=
  ∀ ended, result = some ended → Genuine ended

theorem some_genuine {result : NvStatus × State} (genuine : Genuine result) :
    LoopGenuine (some result) := by
  rintro ended ⟨⟩
  exact genuine

theorem andLoop_genuine {first : NvStatus × State} {next : State → Option (NvStatus × State)}
    (firstGenuine : Genuine first) (nextGenuine : ∀ s, LoopGenuine (next s)) :
    LoopGenuine (andLoop first next) := by
  simp only [andLoop]
  split
  · exact nextGenuine _
  · exact some_genuine firstGenuine

theorem cancelFaults_genuine (groups : List Group) (faults index : Nat) (s : State) :
    (cancelFaults env groups faults index s).1 ≠ .warnMoreProcessingRequired := by
  induction faults generalizing index s with
  | zero => simp [cancelFaults]
  | succ faults ih =>
    simp only [cancelFaults]
    split
    · split
      · exact ih _ _
      · exact ask_genuine s
    · exact ih _ _

theorem cancelLoop_genuine (target : Nat × Nat) (fuel : Nat) (groups : List Group) (index : Nat)
    {status : NvStatus} (genuine : status ≠ .warnMoreProcessingRequired) (s : State) :
    LoopGenuine (cancelLoop env target fuel groups index status s) := by
  induction fuel generalizing groups index status s with
  | zero => rintro ended ⟨⟩
  | succ fuel ih =>
    simp only [cancelLoop]
    split
    · exact some_genuine genuine
    · split
      · exact some_genuine genuine
      · split
        · exact andLoop_genuine (ask_genuine s) fun s => ih _ _ (by simp) s
        · split
          · exact some_genuine (ok_genuine _)
          next other =>
            refine andLoop_genuine (fun warned => other (.inl warned)) fun s => ?_
            refine andLoop_genuine (ask_genuine s) fun s => ?_
            exact ih _ _ (cancelFaults_genuine _ _ _ s) _

theorem refetchAndCancel_genuine (target : Nat × Nat) (fuel : Nat) (s : State) :
    LoopGenuine (refetchAndCancel env target fuel s) := by
  simp only [refetchAndCancel]
  split
  · exact some_genuine (fetch_spec env .all s.resetBatch).1
  · split
    · exact some_genuine (ok_genuine _)
    next other => exact andLoop_genuine other fun s => cancelLoop_genuine _ _ _ _ (by simp) s

theorem cancelUnderLock_genuine (target : Nat × Nat) (fuel : Nat) (s : State) :
    LoopGenuine (cancelUnderLock env target fuel s) := by
  refine andLoop_genuine (faultBufferFlush_genuine _ _) fun s => ?_
  refine andLoop_genuine (ask_genuine s) fun s => ?_
  refine andLoop_genuine hwFaultBufferFlush_genuine fun s => ?_
  split
  · exact refetchAndCancel_genuine _ _ _
  · exact some_genuine (ok_genuine _)

theorem cancelTlbLoop_genuine (fuel : Nat) (s : State) : LoopGenuine (cancelTlbLoop env fuel s) := by
  induction fuel generalizing s with
  | zero => rintro ended ⟨⟩
  | succ fuel ih =>
    refine andLoop_genuine (faultBufferFlush_genuine _ _) fun s => ?_
    refine andLoop_genuine (ask_genuine s) fun s => ?_
    dsimp only
    split
    · exact some_genuine (fetch_spec env .all s.resetBatch).1
    · split
      · exact ih _
      next other =>
        refine andLoop_genuine other fun s => ?_
        rintro ended result
        obtain ⟨serviced,ended',result⟩ := bind_eq_some_iff.mp result
        split at result
        · exact ih _ _ result
        · refine andLoop_genuine (serviceFaultBatch_spec ended').1 (fun s => ?_) _ result
          split
          · exact some_genuine (ok_genuine s)
          · exact ih _

/-- A cancel that succeeds ends with a START replay. -/
theorem cancelFaultsPrecise_spec (target : Nat × Nat) (fuel : Nat) (s : State)
    {cancelled : NvStatus × State}
    (ended : cancelFaultsPrecise env target fuel s = some cancelled) :
    Genuine cancelled ∧ (cancelled.1 = .ok → EndsInReplay cancelled.2) := by
  simp only [cancelFaultsPrecise] at ended
  split at ended
  · obtain ⟨locked,ended',rfl⟩ := map_eq_some_iff.mp ended
    refine ⟨andThen_genuine (cancelUnderLock_genuine _ _ _ _ ended') fun _ =>
      faultBufferFlush_genuine _ _,fun ok => ?_⟩
    obtain ⟨_,flushed,result⟩ := andThen_ok ok
    rw [result]
    exact faultBufferFlush_start flushed
  · obtain ⟨tlb,ended',rfl⟩ := map_eq_some_iff.mp ended
    have genuine : Genuine (andThen tlb (pushReplay env .start)) :=
      andThen_genuine (cancelTlbLoop_genuine _ _ _ ended') fun _ => pushReplay_genuine .start
    constructor
    · simp only [Genuine]
      split
      · exact env.genuine _
      · exact genuine
    · intro ok
      simp only at ok
      split at ok
      next replayed =>
        obtain ⟨_,pushed,result⟩ := andThen_ok replayed
        obtain ⟨before,trace⟩ := pushReplay_start pushed
        exact ⟨before,by rw [ask_trace,result,trace]⟩
      next failed => exact absurd ok failed

end Cancelling

section Service

/-- When a turn leaves the loop well, nothing is lost; when it goes on, nothing is lost. -/
def Turn.Safe : Turn → Prop
  | .leave status _ s => status = .ok ∨ status = .warnMoreProcessingRequired → NoneLost s.trace
  | .next _ _ s => NoneLost s.trace

theorem ofStatus_safe {last : NvStatus × State} {failed passed : Counters} (genuine : Genuine last)
    (ok : last.1 = .ok → NoneLost last.2.trace) : (Turn.ofStatus last failed passed).Safe := by
  simp only [Turn.ofStatus]
  split
  next passed => exact ok passed
  next failed => exact fun well => (well.elim failed genuine).elim

theorem replayBatch_genuine (cached : List Nat) (s : State) :
    Genuine (replayBatch env cached s).1 := by
  simp only [replayBatch]
  split
  · exact pushReplay_genuine .start
  · exact andThen_genuine (faultBufferFlush_genuine _ _) fun _ => ask_genuine _
  · exact ok_genuine s

theorem replayBatch_covered (cached : List Nat) (s : State) (policy : env.policy ≠ .once)
    (perBlock : env.policy = .block → NoneLost s.trace)
    (ok : (replayBatch env cached s).1.1 = .ok) :
    NoneLost (replayBatch env cached s).1.2.trace := by
  simp only [replayBatch] at ok ⊢
  cases same : env.policy with
  | once => exact absurd same policy
  | block => exact perBlock same
  | batch =>
    simp only [same] at ok ⊢
    exact (pushReplay_start ok).noneLost
  | batchFlush =>
    simp only [same] at ok ⊢
    obtain ⟨flushed,_,result⟩ := andThen_ok ok
    rw [result]
    exact (faultBufferFlush_start flushed).noneLost

variable {counters : Counters} {fuel : Nat} {s : State} {turn : Turn} {status : NvStatus}

theorem serviceBatch_safe (policy : env.policy ≠ .once) {cached : List Nat} {groups : List Group}
    {earlier : List Event} (noneLost : NoneLost earlier)
    (traced : s.trace = earlier ++ cached.map Event.consumed)
    (grouped : ∀ entry ∈ cached, ∃ group ∈ groups, entry ∈ group.entries)
    (ended : serviceBatch env cached groups counters fuel s = some turn) : turn.Safe := by
  obtain ⟨serviced,serviceEnded,ended⟩ := bind_eq_some_iff.mp ended
  have genuine := (serviceFaultBatch_spec serviceEnded).1
  split at ended
  next failed =>
    cases ended
    exact fun well => (well.elim failed genuine).elim
  next passed =>
    split at ended
    next target fatal =>
      obtain ⟨cancelled,cancelEnded,rfl⟩ := map_eq_some_iff.mp ended
      simp only [andLoop] at cancelEnded
      split at cancelEnded
      · obtain ⟨cancelGenuine,replayed⟩ := cancelFaultsPrecise_spec target fuel _ cancelEnded
        exact ofStatus_safe cancelGenuine fun ok => (replayed ok).noneLost
      next failed =>
        cases cancelEnded
        exact ofStatus_safe (ask_genuine _) fun ok => absurd ok failed
    next live =>
      cases ended
      refine ofStatus_safe (replayBatch_genuine _ _) fun ok => ?_
      refine replayBatch_covered cached _ policy (fun perBlock => ?_) ok
      have result : serviceFaultBatch env .regular groups fuel s = some (.ok,serviced.2) := by
        rw [serviceEnded,← not_not.mp passed]
      exact serviceFaultBatch_covered perBlock noneLost traced grouped result live

theorem batchTurn_safe (policy : env.policy ≠ .once) (noneLost : NoneLost s.trace)
    (ended : batchTurn env status counters fuel s = some turn) : turn.Safe := by
  obtain ⟨genuine,traced⟩ := fetch_spec env .batchReady s.resetBatch
  simp only [batchTurn] at ended
  split at ended
  · cases ended
    exact fun _ => noneLost
  · split at ended
    next stop =>
      cases ended
      intro well
      rcases stop with failed | empty
      · exact (well.elim failed genuine).elim
      · have reset : s.resetBatch.trace = s.trace := rfl
        rw [traced,empty,reset]
        simpa using noneLost
    next go =>
      obtain ⟨flushed,passed,grouped⟩ := preprocess_spec env
        (fetchFaultBufferEntries env .batchReady s.resetBatch).2.1
        (fetchFaultBufferEntries env .batchReady s.resetBatch).2.2
      split at ended
      next again =>
        cases ended
        exact (flushed again).noneLost
      next notAgain =>
        split at ended
        next failed =>
          cases ended
          exact fun well => (well.elim failed notAgain).elim
        next ok =>
          refine serviceBatch_safe policy noneLost ?_ grouped ended
          rw [(passed (not_not.mp ok)).1,traced]
          rfl

theorem batchLoop_safe (policy : env.policy ≠ .once) {final : NvStatus} {counters' : Counters}
    {s' : State} (noneLost : NoneLost s.trace)
    (ended : batchLoop env fuel status counters s = some (final,counters',s'))
    (well : final = .ok ∨ final = .warnMoreProcessingRequired) : NoneLost s'.trace := by
  induction fuel generalizing status counters s with
  | zero => simp [batchLoop] at ended
  | succ fuel ih =>
    simp only [batchLoop] at ended
    split at ended
    · simp at ended
    next result =>
      cases ended
      exact batchTurn_safe policy noneLost result well
    next result => exact ih (batchTurn_safe policy noneLost result) ended

/-- If the service routine ends with status OK, every entry it consumed and whose GPU VA space
existed when it was reached is followed by a START replay. -/
theorem none_lost (env : Env) (fuel : Nat) (s s' : State) (fresh : s.trace = [])
    (ended : serviceReplayableFaults env fuel s = some (.ok,s')) : NoneLost s'.trace := by
  simp only [serviceReplayableFaults] at ended
  split at ended
  · simp at ended
  next status counters looped result =>
    split at ended
    · have pushed := some.inj ended
      have ok : (pushReplay env .start looped).1 = .ok := by rw [pushed]
      have ends := (pushReplay_start ok).noneLost
      rwa [pushed] at ends
    next noPush =>
      obtain ⟨same,rfl⟩ := Prod.mk.inj (some.inj ended)
      have policy : env.policy ≠ .once := fun once => noPush (.inl ⟨same,once⟩)
      refine batchLoop_safe policy (by rw [fresh]; trivial) result ?_
      simp only [settleStatus] at same
      split at same
      next warned => exact .inr warned
      · exact .inl same

end Service

/-! The groups of the batches that `FaultFetch` coalesces are as the surroundings have them. -/

section Fetched

variable {utlbCount : Nat} {entries : List Nat}

/-- A fetched batch, and where the translation of its instance pointers leads to. -/
structure Batch (utlbCount count : Nat) where
  ctx : FaultFetch.Context utlbCount
  members : Nat → List Nat
  groups : FaultFetch.Groups ctx count members
  vaSpace : Nat → Nat
  gpu : Nat → Nat

/-- One group for each representative. -/
def Batch.faults (batch : Batch utlbCount entries.length) : List Group :=
  ((range entries.length).filter fun i => (batch.ctx.faultCache i).filtered = false).map fun rep =>
    { entries := (rep :: batch.members rep).filterMap (entries[·]?)
      vaSpace := batch.vaSpace rep
      gpu := batch.gpu rep
      isFatal := (batch.ctx.faultCache rep).isFatal }

theorem Batch.grouped (batch : Batch utlbCount entries.length) :
    ∀ entry ∈ entries, ∃ group ∈ batch.faults, entry ∈ group.entries := by
  intro entry member
  obtain ⟨i,atI⟩ := mem_iff_getElem?.mp member
  have bound := (List.getElem?_eq_some_iff.mp atI).1
  obtain ⟨rep,isRep,inGroup⟩ : ∃ rep, FaultFetch.Representative batch.ctx entries.length rep ∧
      i ∈ rep :: batch.members rep := by
    cases filtered : (batch.ctx.faultCache i).filtered with
    | false => exact ⟨i,⟨bound,filtered⟩,mem_cons_self⟩
    | true =>
      obtain ⟨rep,isRep,merged⟩ := batch.groups.covered i bound filtered
      exact ⟨rep,isRep,mem_cons_of_mem _ merged⟩
  have chosen : rep ∈ (range entries.length).filter
      fun i => (batch.ctx.faultCache i).filtered = false := by
    simpa [FaultFetch.Representative] using isRep
  exact ⟨_,mem_map_of_mem chosen,mem_filterMap.mpr ⟨i,inGroup,atI⟩⟩

/-- The surroundings with the groups of fetched batches. -/
def Env.fetching (env : Env)
    (batch : Nat → ∀ entries : List Nat, Batch utlbCount entries.length) : Env :=
  { env with
    groups := fun time entries => (batch time entries).faults
    grouped := fun time entries => (batch time entries).grouped }

end Fetched

/-- Two batches of one entry each under the per-block policy, the second of a VA space that
has no GPU VA space any more; then the ring is empty. -/
def sampleEnv : Env where
  policy := .block
  maxFaults := 8
  maxBatchSize := 1
  maxThrottlePerService := 5
  maxBatchesPerService := 20
  replayUpdatePutRatio := 50
  faultCancelVaSupported := true
  confComputingEnabled := false
  status _ := .ok
  genuine _ := by simp
  spin _ := .valid
  spinGenuine _ _ failed := by simp at failed
  readPut _ := 2
  translation _ := .complete
  dispatch _ := ⟨.ok,1,[],false⟩
  hasGpuVaSpace time := time < 8
  duplicateFaults _ := 0
  groups _ entries := [⟨entries,1,1,false⟩]
  grouped _ entries entry member := ⟨_,mem_singleton.mpr rfl,member⟩

def sampleStart : State := ⟨0,[],0,0,0,0,none,false⟩

def sampleTrace : List Event :=
  [.consumed 0,.replay .start,.consumed 1,.ignored [1]]

theorem none_lost_sample :
    (serviceReplayableFaults sampleEnv 9 sampleStart).map (fun result => (result.1,result.2.trace)) =
      some (.ok,sampleTrace) ∧ NoneLost sampleTrace := by
  have result : (serviceReplayableFaults sampleEnv 9 sampleStart).map
      (fun result => (result.1,result.2.trace)) = some (.ok,sampleTrace) := by decide +kernel
  obtain ⟨ended,run,same⟩ := map_eq_some_iff.mp result
  obtain ⟨status,trace⟩ := Prod.mk.inj same
  refine ⟨result,trace ▸ none_lost sampleEnv 9 sampleStart ended.2 rfl ?_⟩
  rw [run,← status]

end GpuExt.FaultReplay
