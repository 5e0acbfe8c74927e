import GpuExt.AtsFaults

/-! The bottom half of replayable faults: fetch a batch, preprocess it, service it, cancel
fatal faults and replay. The state keeps the history of the call: which ring entries GET moved
past, which replays were pushed and which entries were reached without a GPU VA space. The
parent GPU has a valid GPU, so every replay is pushed on some GPU. -/
namespace GpuExt.FaultReplay

open FaultBatch AtsFaults

inductive ReplayType where
  | start
  | startAckAll
  deriving DecidableEq, Repr

inductive Event where
  /-- GET moved past the entry, counted from the start of the call. -/
  | consumed (entry : Nat)
  | replay (type : ReplayType)
  /-- The entries were reached, but their VA space has no GPU VA space for the GPU. -/
  | ignored (entries : List Nat)
  deriving DecidableEq, Repr

/-- A coalesced fault with all the ring entries merged into it. -/
structure Group where
  entries : List Nat
  vaSpace : Nat
  gpu : Nat
  isFatal : Bool
  deriving DecidableEq, Repr

/-- What waiting for the valid bit of an entry ends with. -/
inductive Spin where
  | valid
  /-- Not valid yet; a batch that has entries already leaves it for later. -/
  | pending
  | failed (status : NvStatus)
  deriving DecidableEq, Repr

/-- The first instance pointer that cannot be translated, if any. -/
inductive Translation where
  | complete
  | pageTableNotAvail
  | invalidChannel
  deriving DecidableEq, Repr

/-- What `service_fault_batch_dispatch` does to the batch. -/
structure Dispatch where
  status : NvStatus
  blockFaults : Nat
  /-- Which of the faults it took are marked fatal. -/
  fatalFaults : List Nat
  throttles : Bool

/-- The surroundings: every question is asked at its own time and may be answered in any way.
Only translation and dispatching ask for more processing. -/
structure Env where
  policy : ReplayPolicy
  maxFaults : Nat
  maxBatchSize : Nat
  maxThrottlePerService : Nat
  maxBatchesPerService : Nat
  replayUpdatePutRatio : Nat
  faultCancelVaSupported : Bool
  confComputingEnabled : Bool
  status : Nat → NvStatus
  genuine : ∀ time, status time ≠ .warnMoreProcessingRequired
  spin : Nat → Spin
  spinGenuine : ∀ time status, spin time = .failed status →
    status ≠ .ok ∧ status ≠ .warnMoreProcessingRequired
  readPut : Nat → Nat
  translation : Nat → Translation
  dispatch : Nat → Dispatch
  hasGpuVaSpace : Nat → Bool
  duplicateFaults : Nat → Nat
  /-- Coalescing and sorting: every entry of the batch is in some group. -/
  groups : Nat → List Nat → List Group
  grouped : ∀ time entries, ∀ entry ∈ entries, ∃ group ∈ groups time entries, entry ∈ group.entries

structure State where
  time : Nat
  trace : List Event
  cachedGet : Nat
  cachedPut : Nat
  /-- Ring entries GET moved past so far. -/
  consumed : Nat
  numReplays : Nat
  /-- `fatal_va_space` with `fatal_gpu`. -/
  fatal : Option (Nat × Nat)
  hasThrottledFaults : Bool

def State.tick (s : State) : State := { s with time := s.time + 1 }

def State.log (s : State) (event : Event) : State := { s with trace := s.trace ++ [event] }

/-- The fields of the batch context that each batch starts with. -/
def State.resetBatch (s : State) : State :=
  { s with numReplays := 0, fatal := none, hasThrottledFaults := false }

variable (env : Env)

section

variable (target : Nat × Nat) (replayPerVaBlock : Bool) (group : Group) (s : State)

/-- A call whose only result of interest is its status. -/
def ask : NvStatus × State := (env.status s.time,s.tick)

section

variable (type : ReplayType) (s : State) (first : NvStatus × State)

/-- `if (status != NV_OK) return status;` between two calls. -/
def andThen (next : State → NvStatus × State) : NvStatus × State :=
  if first.1 = .ok then next first.2 else first

/-- The same in front of a loop that needs fuel. -/
def andLoop (next : State → Option (NvStatus × State)) : Option (NvStatus × State) :=
  if first.1 = .ok then next first.2 else some first

/-- The replay reaches the GPU; a replay that acknowledges all faults is not counted. -/
def logReplay : State :=
  let s := s.log (.replay type)
  if type = .startAckAll then s else { s with numReplays := s.numReplays + 1 }

/-- The push begins, and its tracker is added to the replay tracker. -/
def pushReplay : NvStatus × State :=
  andThen (ask env s) fun s => ask env (logReplay type s)

end

inductive FlushMode where
  | cachedPut
  | updatePut
  | waitUpdatePut
  deriving DecidableEq, Repr

def hwFaultBufferFlush : NvStatus × State :=
  if env.confComputingEnabled then ask env s else (.ok,s)

def available : Nat := (s.cachedPut + env.maxFaults - s.cachedGet) % env.maxFaults

def advance : State :=
  { s.log (.consumed s.consumed) with
    cachedGet := if s.cachedGet + 1 = env.maxFaults then 0 else s.cachedGet + 1
    consumed := s.consumed + 1 }

/-- The loop of `fault_buffer_flush_locked` over the entries before PUT. -/
def flushEntries : Nat → State → NvStatus × State
  | 0, s => (.ok,s)
  | entries + 1, s =>
    match env.spin s.time with
    | .failed status => (status,s.tick)
    | _ => flushEntries entries (advance env s.tick)

/-- The cached PUT after the part of the flush that depends on its mode. -/
def updatePut (mode : FlushMode) (s : State) : NvStatus × State :=
  match mode with
  | .cachedPut => (.ok,s)
  | .updatePut =>
    andThen (hwFaultBufferFlush env s) fun s =>
      (.ok,{ s.tick with cachedPut := env.readPut s.time })
  | .waitUpdatePut =>
    andThen (ask env s) fun s => andThen (hwFaultBufferFlush env s) fun s =>
      (.ok,{ s.tick with cachedPut := env.readPut s.time })

def faultBufferFlush (mode : FlushMode) (type : ReplayType) (s : State) : NvStatus × State :=
  andThen (updatePut env mode s) fun s =>
    andThen (flushEntries env (available env s) s) (pushReplay env type)

inductive FetchMode where
  | batchReady
  | all
  deriving DecidableEq, Repr

/-- The loop of `fetch_fault_buffer_entries`: status and the entries cached so far. -/
def fetchEntries (mode : FetchMode) : Nat → List Nat → State → NvStatus × List Nat × State
  | 0, cached, s => (.ok,cached,s)
  | entries + 1, cached, s =>
    if mode = .batchReady ∧ env.maxBatchSize ≤ cached.length then (.ok,cached,s)
    else
      match env.spin s.time with
      | .failed status => (status,cached,s.tick)
      | spin =>
        if spin = .pending ∧ mode = .batchReady ∧ cached ≠ [] then (.ok,cached,s.tick)
        else
          -- `parse_replayable_entry`
          let parsed := ask env s.tick
          if parsed.1 ≠ .ok then (parsed.1,cached,parsed.2)
          else
            fetchEntries mode entries (cached ++ [parsed.2.consumed]) (advance env parsed.2)

def fetchFaultBufferEntries (mode : FetchMode) (s : State) : NvStatus × List Nat × State :=
  let s :=
    if s.cachedGet = s.cachedPut then { s.tick with cachedPut := env.readPut s.time } else s
  fetchEntries env mode (available env s) [] s

/-- Translation of the instance pointers. A fault without page tables is cancelled; a fault
that cannot be translated makes the buffer be flushed. -/
def translateInstancePtrs : NvStatus × State :=
  match env.translation s.time with
  | .complete => (.ok,s.tick)
  | .pageTableNotAvail =>
    andThen (ask env s.tick) fun s => andThen (faultBufferFlush env .updatePut .start s) fun s =>
      (.warnMoreProcessingRequired,s)
  | .invalidChannel =>
    andThen (faultBufferFlush env .updatePut .start s.tick) fun s =>
      (.warnMoreProcessingRequired,s)

/-- The groups of the batch, and the status of the translation. -/
def preprocessFaultBatch (cached : List Nat) (s : State) : NvStatus × List Group × State :=
  let translated := translateInstancePtrs env s.tick
  (translated.1,env.groups s.time cached,translated.2)

def serviceDispatch : Dispatch × State :=
  let dispatch := env.dispatch s.time
  (dispatch,{ s.tick with
    fatal := if dispatch.fatalFaults = [] then s.fatal else s.fatal.or (some (group.vaSpace,group.gpu))
    hasThrottledFaults := s.hasThrottledFaults || dispatch.throttles })

structure Scan where
  index : Nat
  vaSpace : Option Nat
  prevGpuVaSpace : Option (Nat × Nat)
  state : State

/-- `uvm_ats_invalidate_tlbs` of the previous GPU VA space, if there is one. -/
def invalidatePrevious (prev : Option (Nat × Nat)) (s : State) : NvStatus × State :=
  if prev.isSome then ask env s else (.ok,s)

/-- A dispatched group, on a GPU VA space that exists. -/
def serviceDispatched (scan : Scan) : NvStatus × Scan :=
  let dispatched := serviceDispatch env group scan.state
  if dispatched.1.status = .warnMoreProcessingRequired ∨
      dispatched.1.status = .warnMismatchedTarget then
    -- The locks are dropped and the entry is looked at again.
    (.ok,⟨scan.index,none,none,dispatched.2⟩)
  else if dispatched.1.status ≠ .ok then (dispatched.1.status,{ scan with state := dispatched.2 })
  else
    let replayed :=
      if replayPerVaBlock ∧ dispatched.2.fatal = none then pushReplay env .start dispatched.2
      else (.ok,dispatched.2)
    (replayed.1,{ scan with
      index := scan.index + dispatched.1.blockFaults
      state := replayed.2 })

def gpuVaSpaceGet : Option (Nat × Nat) :=
  if env.hasGpuVaSpace s.time then some (group.vaSpace,group.gpu) else none

/-- TLB entries are invalidated per GPU VA space. -/
def invalidateOther (prev gpuVaSpace : Option (Nat × Nat)) (s : State) : NvStatus × State :=
  if prev.isSome ∧ prev ≠ gpuVaSpace then ask env s else (.ok,s)

section

variable (scan : Scan) (fuel : Nat) (s : State)

/-- A group that is not fatal by its fault type. -/
def serviceLiveGroup : NvStatus × Scan :=
  let gpuVaSpace := gpuVaSpaceGet env group scan.state
  let invalidated := invalidateOther env scan.prevGpuVaSpace gpuVaSpace scan.state.tick
  let scan := ⟨scan.index,scan.vaSpace,gpuVaSpace,invalidated.2⟩
  if invalidated.1 ≠ .ok then (invalidated.1,scan)
  else if gpuVaSpace = none then
    (.ok,{ scan with
      index := scan.index + 1
      state := scan.state.log (.ignored group.entries) })
  else serviceDispatched env replayPerVaBlock group scan

/-- The part of a turn after the VA space of the entry has been locked. -/
def serviceGroup : NvStatus × Scan :=
  if group.isFatal then
    (.ok,{ scan with
      index := scan.index + 1
      state := { scan.state with
        fatal := scan.state.fatal.or (some (group.vaSpace,group.gpu)) } })
  else serviceLiveGroup env replayPerVaBlock group scan

/-- One turn of the loop of `service_fault_batch`. -/
def serviceTurn : NvStatus × Scan :=
  if some group.vaSpace = scan.vaSpace then serviceGroup env replayPerVaBlock group scan
  else
    let invalidated := invalidatePrevious env scan.prevGpuVaSpace scan.state
    let scan := ⟨scan.index,some group.vaSpace,none,invalidated.2⟩
    if invalidated.1 ≠ .ok then (invalidated.1,scan)
    else serviceGroup env replayPerVaBlock group scan

def serviceLoop (replayPerVaBlock : Bool) (groups : List Group) :
    Nat → Scan → Option (NvStatus × State)
  | 0, _ => none
  | fuel + 1, scan =>
    match groups[scan.index]? with
    | none => some (invalidatePrevious env scan.prevGpuVaSpace scan.state)
    | some group =>
      let turn := serviceTurn env replayPerVaBlock group scan
      if turn.1 ≠ .ok then some (turn.1,turn.2.state)
      else serviceLoop replayPerVaBlock groups fuel turn.2

inductive ServiceMode where
  | regular
  | cancel
  deriving DecidableEq, Repr

def serviceFaultBatch (mode : ServiceMode) (groups : List Group) (fuel : Nat) (s : State) :
    Option (NvStatus × State) :=
  serviceLoop env (mode ≠ .cancel ∧ env.policy = .block) groups fuel ⟨0,none,none,s⟩

/-- The flags of the faults that a dispatch took. -/
def markFatal (groups : List Group) (index : Nat) (dispatch : Dispatch) : List Group :=
  groups.mapIdx fun i group =>
    if index ≤ i ∧ i < index + dispatch.blockFaults then
      { group with isFatal := i - index ∈ dispatch.fatalFaults }
    else group

/-- The inner loop: one `cancel_fault_precise_va` for each of the next faults that is fatal. A
failed cancel leaves only this loop, with its fault as the next one. -/
def cancelFaults (groups : List Group) : Nat → Nat → State → NvStatus × Nat × State
  | 0, index, s => (.ok,index,s)
  | faults + 1, index, s =>
    if groups[index]?.any (·.isFatal) then
      let (status,s) := ask env s
      if status = .ok then cancelFaults groups faults (index + 1) s else (status,index,s)
    else cancelFaults groups faults (index + 1) s

/-- The loop of `service_fault_batch_for_cancel` over the faults of the fatal VA space, with the
status so far. -/
def cancelLoop (target : Nat × Nat) :
    Nat → List Group → Nat → NvStatus → State → Option (NvStatus × State)
  | 0, _, _, _, _ => none
  | fuel + 1, groups, index, status, s =>
    match groups[index]? with
    | none => some (status,s)
    | some group =>
      if (group.vaSpace,group.gpu) ≠ target then some (status,s)
      else if group.isFatal then
        andLoop (ask env s) (cancelLoop target fuel groups (index + 1) .ok)
      else
        let dispatched := serviceDispatch env group s
        if dispatched.1.status = .warnMoreProcessingRequired ∨
            dispatched.1.status = .warnMismatchedTarget then
          some (.ok,dispatched.2)
        else
          andLoop (dispatched.1.status,dispatched.2) fun s => andLoop (ask env s) fun s =>
            let groups := markFatal groups index dispatched.1
            let (status,next,s) := cancelFaults env groups dispatched.1.blockFaults index s
            cancelLoop target fuel groups next status s

/-- Re-fetch, preprocess and service the faults of the fatal VA space. -/
def refetchAndCancel : Option (NvStatus × State) :=
  let fetched := fetchFaultBufferEntries env .all s.resetBatch
  if fetched.1 ≠ .ok ∨ fetched.2.1 = [] then some (fetched.1,fetched.2.2)
  else
    let processed := preprocessFaultBatch env fetched.2.1 fetched.2.2
    if processed.1 = .warnMoreProcessingRequired then some (.ok,processed.2.2)
    else
      andLoop (processed.1,processed.2.2)
        (cancelLoop env target fuel processed.2.1
          (processed.2.1.findIdx fun group => (group.vaSpace,group.gpu) = target) .ok)

/-- Everything `service_fault_batch_for_cancel` does under the locks. -/
def cancelUnderLock : Option (NvStatus × State) :=
  andLoop (faultBufferFlush env .waitUpdatePut .start s) fun s => andLoop (ask env s) fun s =>
    andLoop (hwFaultBufferFlush env s) fun s =>
      if env.hasGpuVaSpace s.time then refetchAndCancel env target fuel s.tick
      else some (.ok,s.tick)

def serviceFaultBatchForCancel : Option (NvStatus × State) :=
  (cancelUnderLock env target fuel s).map fun cancelled =>
    andThen cancelled (faultBufferFlush env .updatePut .start)

/-- The loop of `cancel_faults_precise_tlb`. The cancels of `try_to_cancel_utlbs` neither move
GET nor replay, and their status is dropped. -/
def cancelTlbLoop : Nat → State → Option (NvStatus × State)
  | 0, _ => none
  | fuel + 1, s =>
    andLoop (faultBufferFlush env .updatePut .startAckAll s) fun s => andLoop (ask env s) fun s =>
      let fetched := fetchFaultBufferEntries env .all s.resetBatch
      if fetched.1 ≠ .ok ∨ fetched.2.1 = [] then some (fetched.1,fetched.2.2)
      else
        let processed := preprocessFaultBatch env fetched.2.1 fetched.2.2
        if processed.1 = .warnMoreProcessingRequired then cancelTlbLoop fuel processed.2.2
        else
          andLoop (processed.1,processed.2.2) fun s =>
            (serviceFaultBatch env .cancel processed.2.1 fuel s).bind fun serviced =>
              if serviced.1 = .noMemory then cancelTlbLoop fuel serviced.2
              else
                andLoop serviced fun s =>
                  if s.fatal = none then some (.ok,s) else cancelTlbLoop fuel s.tick

def cancelFaultsPreciseTlb : Option (NvStatus × State) :=
  (cancelTlbLoop env fuel s).map fun cancelled =>
    let replayed := andThen cancelled (pushReplay env .start)
    let waited := ask env replayed.2
    (if replayed.1 = .ok then waited.1 else replayed.1,waited.2)

def cancelFaultsPrecise : Option (NvStatus × State) :=
  if env.faultCancelVaSupported then serviceFaultBatchForCancel env target fuel s
  else cancelFaultsPreciseTlb env fuel s

end

end

section

variable (status : NvStatus) (cached : List Nat) (groups : List Group) (counters : Counters)

/-- `cancel_fault_batch`, whose status is dropped. -/
def cancelFaultBatch (s : State) : State :=
  -- `cancel_faults_all` takes every fault for a fatal one.
  let groups := groups.map ({ · with isFatal := true })
  let cancelled := (cancelFaults env groups groups.length 0 s).2.2
  if env.faultCancelVaSupported then (faultBufferFlush env .updatePut .start cancelled).2
  else cancelled

structure Counters where
  numReplays : Nat
  numBatches : Nat
  numThrottled : Nat

/-- The replay at the end of a batch without fatal faults, and how many it adds to the
replays of the call. -/
def replayBatch (s : State) : (NvStatus × State) × Nat :=
  match env.policy with
  | .batch =>
    let pushed := pushReplay env .start s
    (pushed,if pushed.1 = .ok then 1 else 0)
  | .batchFlush =>
    let mode :=
      if env.duplicateFaults s.time * 100 > cached.length * env.replayUpdatePutRatio then
        FlushMode.updatePut
      else .cachedPut
    let flushed := faultBufferFlush env mode .start s.tick
    (andThen flushed (ask env),if flushed.1 = .ok then 1 else 0)
  | _ => ((.ok,s),0)

/-- The result of one turn of the main loop: the loop ends with a status, or goes on. -/
inductive Turn where
  | leave (status : NvStatus) (counters : Counters) (s : State)
  | next (status : NvStatus) (counters : Counters) (s : State)

/-- The end of a turn, given the status of its last call. -/
def Turn.ofStatus (last : NvStatus × State) (failed passed : Counters) : Turn :=
  if last.1 = .ok then .next .ok passed last.2 else .leave last.1 failed last.2

/-- The turn after a successful preprocessing. -/
def serviceBatch (fuel : Nat) (s : State) : Option Turn :=
  (serviceFaultBatch env .regular groups fuel s).bind fun serviced =>
    let counters := { counters with numReplays := counters.numReplays + serviced.2.numReplays }
    if serviced.1 ≠ .ok then
      some (.leave serviced.1 counters (cancelFaultBatch env groups serviced.2))
    else
      match serviced.2.fatal with
      | some target =>
        (andLoop (ask env serviced.2) (cancelFaultsPrecise env target fuel)).map fun cancelled =>
          .ofStatus cancelled counters { counters with numBatches := counters.numBatches + 1 }
      | none =>
        let replayed := replayBatch env cached serviced.2
        let counters := { counters with numReplays := counters.numReplays + replayed.2 }
        some (.ofStatus replayed.1 counters
          { counters with
            numBatches := counters.numBatches + 1
            numThrottled :=
              if serviced.2.hasThrottledFaults then counters.numThrottled + 1
              else counters.numThrottled })

/-- One turn of the loop of `uvm_parent_gpu_service_replayable_faults`. -/
def batchTurn (fuel : Nat) (s : State) : Option Turn :=
  if env.maxThrottlePerService ≤ counters.numThrottled ∨
      env.maxBatchesPerService ≤ counters.numBatches then
    some (.leave status counters s)
  else
    let fetched := fetchFaultBufferEntries env .batchReady s.resetBatch
    if fetched.1 ≠ .ok ∨ fetched.2.1 = [] then some (.leave fetched.1 counters fetched.2.2)
    else
      let processed := preprocessFaultBatch env fetched.2.1 fetched.2.2
      let counters :=
        { counters with numReplays := counters.numReplays + processed.2.2.numReplays }
      if processed.1 = .warnMoreProcessingRequired then
        some (.next processed.1 counters processed.2.2)
      else if processed.1 ≠ .ok then some (.leave processed.1 counters processed.2.2)
      else serviceBatch env fetched.2.1 processed.2.1 counters fuel processed.2.2

def batchLoop : Nat → NvStatus → Counters → State → Option (NvStatus × Counters × State)
  | 0, _, _, _ => none
  | fuel + 1, status, counters, s =>
    match batchTurn env status counters fuel s with
    | none => none
    | some (.leave status counters s) => some (status,counters,s)
    | some (.next status counters s) => batchLoop fuel status counters s

/-- More processing is no error at the end. -/
def settleStatus : NvStatus :=
  if status = .warnMoreProcessingRequired then .ok else status

end

/-- `uvm_parent_gpu_service_replayable_faults`, given enough fuel for its loops. -/
def serviceReplayableFaults (fuel : Nat) (s : State) : Option (NvStatus × State) :=
  match batchLoop env fuel .ok ⟨0,0,0⟩ s with
  | none => none
  | some (status,counters,s) =>
    if (settleStatus status = .ok ∧ env.policy = .once) ∨ counters.numReplays = 0 then
      some (pushReplay env .start s)
    else some (settleStatus status,s)

end GpuExt.FaultReplay
