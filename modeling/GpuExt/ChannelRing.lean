import GpuExt.Ring
import Mathlib.Logic.Function.Basic
import Mathlib.Data.List.Basic

/-! A channel: a ring of GPFIFO entries and its tracking semaphore. Threads reserve entries,
fill them and give them back; the GPU releases tracking values in order and the driver frees
the entries whose values it has seen. Each event is one critical section of the pool lock or
of the semaphore lock, or a step of the GPU. -/
namespace GpuExt.ChannelRing

open List

def numGpfifoEntriesDefault : Nat := 1024
def numGpfifoEntriesMin : Nat := 32
def numGpfifoEntriesMax : Nat := 1024 * 1024

inductive PoolType where
  | wlc
  | lcic
  | other
  deriving DecidableEq, Repr

def isPowerOf2 (n : Nat) : Bool := n ≠ 0 ∧ n &&& (n - 1) = 0

section

variable (parameter : Nat) (channel : Channel) (entry : GpfifoEntry) (numGpfifoEntries : Nat)

def clampNumGpfifoEntries : Nat :=
  if parameter < numGpfifoEntriesMin then numGpfifoEntriesMin
  else if parameter > numGpfifoEntriesMax then numGpfifoEntriesMax
  else parameter

/-- The value of the module parameter that `init_channel_manager_conf` accepts. -/
def confNumGpfifoEntries : Nat :=
  let entries := clampNumGpfifoEntries parameter
  if isPowerOf2 entries then entries else numGpfifoEntriesDefault

def poolNumGpfifoEntries : PoolType → Nat
  | .wlc => 16
  | .lcic => 4
  | .other => confNumGpfifoEntries parameter

inductive EntryType where
  | normal
  | control
  deriving DecidableEq, Repr

/-- Tracking values are words of 64 bits in the source, which support 2^64 synchronization points.
Here they are numbers: a run stands for one of fewer pushes than that. -/
structure GpfifoEntry where
  type : EntryType
  trackingSemaphoreValue : Nat
  pushbufferOffset : Nat
  pushbufferSize : Nat
  controlValue : Nat
  deriving DecidableEq, Repr

structure TrackingSemaphore where
  completedValue : Nat
  queuedValue : Nat
  deriving DecidableEq, Repr

structure Channel where
  numGpfifoEntries : Nat
  gpfifoEntries : Nat → GpfifoEntry
  cpuPut : Nat
  gpuGet : Nat
  currentGpfifoCount : Nat
  suspendedP2p : Bool
  trackingSem : TrackingSemaphore

def create : Channel :=
  ⟨numGpfifoEntries,fun _ => ⟨.normal,0,0,0,0⟩,0,0,0,false,⟨0,0⟩⟩

inductive ReserveType where
  | withP2p
  | noP2p
  deriving DecidableEq, Repr

/-- The counters of a channel are 32-bit words. -/
def minus (a b : Nat) : Nat := (a + 2 ^ 32 - b) % 2 ^ 32

def getAvailableGpfifoEntries : Nat :=
  let available := minus channel.numGpfifoEntries 1
  let available := minus available channel.currentGpfifoCount
  if channel.cpuPut ≥ channel.gpuGet then minus available (channel.cpuPut - channel.gpuGet)
  else minus available (channel.cpuPut + channel.numGpfifoEntries - channel.gpuGet)

def tryClaimChannelLocked (reserveType : ReserveType) : Option Channel :=
  if reserveType = .withP2p ∧ channel.suspendedP2p then none
  else if getAvailableGpfifoEntries channel ≥ numGpfifoEntries then
    some { channel with
      currentGpfifoCount := (channel.currentGpfifoCount + numGpfifoEntries) % 2 ^ 32 }
  else none

def submit : Channel :=
  { channel with
    gpfifoEntries := Function.update channel.gpfifoEntries channel.cpuPut entry
    currentGpfifoCount := minus channel.currentGpfifoCount 1
    cpuPut := (channel.cpuPut + 1) % channel.numGpfifoEntries }

def endPush (pushbufferOffset pushbufferSize : Nat) : Channel :=
  let newTrackingValue := channel.trackingSem.queuedValue + 1
  let channel := { channel with
    trackingSem := { channel.trackingSem with queuedValue := newTrackingValue } }
  submit channel { channel.gpfifoEntries channel.cpuPut with
    type := .normal
    trackingSemaphoreValue := newTrackingValue
    pushbufferOffset := pushbufferOffset
    pushbufferSize := pushbufferSize }

def writeCtrlGpfifo (controlValue : Nat) : Channel :=
  submit channel ⟨.control,channel.trackingSem.queuedValue + 1,0,0,controlValue⟩

def release : Channel :=
  { channel with currentGpfifoCount := minus channel.currentGpfifoCount numGpfifoEntries }

/-- The semaphore has the lower 32 bits only. -/
def updateCompletedValueLocked (oldValue newSemValue : Nat) : Nat :=
  let oldSemValue := oldValue % 2 ^ 32
  if oldSemValue = newSemValue then oldValue
  else
    let newValue := oldValue / 2 ^ 32 * 2 ^ 32 + newSemValue
    if newSemValue < oldSemValue then newValue + 2 ^ 32 else newValue

/-- The loop of `uvm_channel_update_progress_with_max`: the entries that it marks completed,
and the new `gpu_get`. -/
def completeEntries (channel : Channel) (completedValue : Nat) : Nat → Nat → List GpfifoEntry × Nat
  | 0, gpuGet => ([],gpuGet)
  | maxToComplete + 1, gpuGet =>
    let entry := channel.gpfifoEntries gpuGet
    if gpuGet = channel.cpuPut ∨ entry.trackingSemaphoreValue > completedValue then ([],gpuGet)
    else
      let (marked,gpuGet) :=
        completeEntries channel completedValue maxToComplete ((gpuGet + 1) % channel.numGpfifoEntries)
      (if entry.type = .normal then entry :: marked else marked,gpuGet)

/-! The threads and the GPU. -/

/-- A call of `uvm_pushbuffer_mark_completed`, with what the GPU had released by then. -/
structure Mark where
  entry : GpfifoEntry
  released : Nat
  deriving DecidableEq, Repr

structure System where
  channel : Channel
  /-- The last value that the GPU has released. -/
  released : Nat
  channelError : Bool
  /-- What is left of the reservations, in the order in which they were made. -/
  reservations : List Nat
  /-- Completed values that some thread has got and may still work with. -/
  observed : List Nat
  marked : List Mark

def System.start : System :=
  ⟨create numGpfifoEntries,0,false,[],[],[]⟩

inductive Event where
  | claim (numGpfifoEntries : Nat) (reserveType : ReserveType)
  | endPush (reservation pushbufferOffset pushbufferSize : Nat)
  | writeCtrl (reservation controlValue : Nat)
  | release (reservation numGpfifoEntries : Nat)
  /-- `channel_suspend_p2p` with a reservation of all entries. -/
  | suspend (reservation : Nat)
  /-- `channel_suspend_p2p` after `uvm_channel_reserve` has failed. -/
  | suspendFailed
  | resume
  | updateCompletedValue
  | updateProgress (observed maxToComplete : Nat)
  | gpuRelease
  | gpuError
  deriving DecidableEq, Repr

def step (s : System) : Event → Option System
  | .claim numGpfifoEntries reserveType =>
    if 0 < numGpfifoEntries ∧ numGpfifoEntries < s.channel.numGpfifoEntries then
      (tryClaimChannelLocked s.channel numGpfifoEntries reserveType).map fun channel =>
        { s with channel := channel, reservations := s.reservations ++ [numGpfifoEntries] }
    else none
  | .endPush reservation offset size =>
    match s.reservations[reservation]? with
    | some (left + 1) =>
      some { s with
        channel := endPush s.channel offset size
        reservations := s.reservations.set reservation left }
    | _ => none
  | .writeCtrl reservation controlValue =>
    match s.reservations[reservation]? with
    | some (left + 2) =>
      some { s with
        channel := writeCtrlGpfifo s.channel controlValue
        reservations := s.reservations.set reservation (left + 1) }
    | _ => none
  | .release reservation numGpfifoEntries =>
    match s.reservations[reservation]? with
    | some held =>
      if numGpfifoEntries ≤ held then
        some { s with
          channel := release s.channel numGpfifoEntries
          reservations := s.reservations.set reservation (held - numGpfifoEntries) }
      else none
    | none => none
  | .suspend reservation =>
    if s.reservations[reservation]? = some (s.channel.numGpfifoEntries - 1) then
      some { s with channel := { s.channel with suspendedP2p := true } }
    else none
  | .suspendFailed =>
    if s.channelError then
      some { s with channel := release s.channel (s.channel.numGpfifoEntries - 1) }
    else none
  | .resume => some { s with channel := { s.channel with suspendedP2p := false } }
  | .updateCompletedValue =>
    let value :=
      updateCompletedValueLocked s.channel.trackingSem.completedValue (s.released % 2 ^ 32)
    some { s with
      channel := { s.channel with
        trackingSem := { s.channel.trackingSem with completedValue := value } }
      observed := s.observed ++ [value] }
  | .updateProgress observed maxToComplete =>
    match s.observed[observed]? with
    | some completedValue =>
      let (marked,gpuGet) :=
        completeEntries s.channel completedValue maxToComplete s.channel.gpuGet
      some { s with
        channel := { s.channel with gpuGet := gpuGet }
        marked := s.marked ++ marked.map (⟨·,s.released⟩) }
    | none => none
  | .gpuRelease =>
    if s.released < s.channel.trackingSem.queuedValue ∧ !s.channelError then
      some { s with released := s.released + 1 }
    else none
  | .gpuError => some { s with channelError := true }

def execute : List Event → System → Option System
  | [], s => some s
  | event :: events, s => (step s event).bind (execute events)

/-! What the ring is to guarantee. -/

def pendingCount : Nat :=
  (channel.cpuPut + channel.numGpfifoEntries - channel.gpuGet) % channel.numGpfifoEntries

def pendingEntries : List GpfifoEntry :=
  (range (pendingCount channel)).map fun i =>
    channel.gpfifoEntries ((channel.gpuGet + i) % channel.numGpfifoEntries)

@[simp] def GpfifoEntry.isNormal : Bool := entry.type = .normal

end

structure Accounted (s : System) : Prop where
  room : pendingCount s.channel + s.channel.currentGpfifoCount ≤ s.channel.numGpfifoEntries - 1
  /-- The next entry is not written over a pending one. -/
  unused : ∀ i, i < pendingCount s.channel →
    (s.channel.gpuGet + i) % s.channel.numGpfifoEntries ≠ s.channel.cpuPut
  ordered : (pendingEntries s.channel).Pairwise
    (·.trackingSemaphoreValue ≤ ·.trackingSemaphoreValue)
  /-- A push is known by its tracking value. All pushes are here, each of them once. -/
  once : (s.marked.map Mark.entry ++
    (pendingEntries s.channel).filter GpfifoEntry.isNormal).map GpfifoEntry.trackingSemaphoreValue =
      range' 1 s.channel.trackingSem.queuedValue
  completed : ∀ mark ∈ s.marked, mark.entry.type = .normal ∧
    mark.entry.trackingSemaphoreValue ≤ mark.released

/-! The entries as positions of an unbounded history. -/

variable {s s' : System} {history : List GpfifoEntry} {get : Nat} {entry : GpfifoEntry}

/-- `history` has all entries ever submitted, of which the first `get` are freed. -/
structure Tracks (s : System) (history : List GpfifoEntry) (get : Nat) : Prop where
  size : 0 < s.channel.numGpfifoEntries ∧ s.channel.numGpfifoEntries < 2 ^ 32
  put : s.channel.cpuPut = history.length % s.channel.numGpfifoEntries
  slot : s.channel.gpuGet = get % s.channel.numGpfifoEntries
  order : get ≤ history.length
  room : history.length - get + s.channel.currentGpfifoCount < s.channel.numGpfifoEntries
  held : s.reservations.sum = s.channel.currentGpfifoCount
  entries : ∀ i, get ≤ i → i < history.length →
    history[i]? = some (s.channel.gpfifoEntries (i % s.channel.numGpfifoEntries))
  values : history.Pairwise (·.trackingSemaphoreValue ≤ ·.trackingSemaphoreValue)
  bounded : ∀ entry ∈ history,entry.trackingSemaphoreValue ≤ s.channel.trackingSem.queuedValue + 1
  pushes : (history.filter GpfifoEntry.isNormal).map GpfifoEntry.trackingSemaphoreValue =
    range' 1 s.channel.trackingSem.queuedValue
  freed : ∀ entry ∈ history.take get,
    entry.trackingSemaphoreValue ≤ s.channel.trackingSem.completedValue
  semaphore : s.channel.trackingSem.completedValue ≤ s.released ∧
    s.released ≤ s.channel.trackingSem.queuedValue
  observed : ∀ value ∈ s.observed, value ≤ s.channel.trackingSem.completedValue
  marked : s.marked.map Mark.entry = (history.take get).filter GpfifoEntry.isNormal
  released : ∀ mark ∈ s.marked, mark.entry.trackingSemaphoreValue ≤ mark.released

theorem minus_of_le {a b : Nat} (le : b ≤ a) (small : a < 2 ^ 32) : minus a b = a - b := by
  unfold minus
  omega

theorem sum_set_add {held : List Nat} {i old : Nat} (new : Nat) (there : held[i]? = some old) :
    (held.set i new).sum + old = held.sum + new := by
  induction held generalizing i with
  | nil => simp at there
  | cons first rest hypothesis =>
    cases i with
    | zero =>
      cases there
      simp only [set_cons_zero,sum_cons]
      omega
    | succ i =>
      have rest_eq := hypothesis there
      simp only [set_cons_succ,sum_cons]
      omega

variable {numGpfifoEntries reservation : Nat}

theorem tracks_start (some : 0 < numGpfifoEntries) (small : numGpfifoEntries < 2 ^ 32) :
    Tracks (.start numGpfifoEntries) [] 0 := by
  refine ⟨⟨some,small⟩,?_,?_,?_,?_,?_,?_,?_,?_,?_,?_,?_,?_,?_,?_⟩ <;> simp [System.start,create,some]

section

variable (tracks : Tracks s history get)
include tracks

/-- Which of two slots is larger decides how the code computes their distance. -/
theorem Tracks.available : getAvailableGpfifoEntries s.channel = s.channel.numGpfifoEntries - 1 -
      s.channel.currentGpfifoCount - (history.length - get) := by
  obtain ⟨d,length⟩ := Nat.exists_eq_add_of_le tracks.order
  have room := tracks.room
  obtain ⟨some,small⟩ := tracks.size
  have put := tracks.put
  rw [length,Ring.slot_add (by omega : d ≤ s.channel.numGpfifoEntries)] at put
  have sentinel : minus s.channel.numGpfifoEntries 1 = s.channel.numGpfifoEntries - 1 :=
    minus_of_le (by omega) small
  have unreserved : minus (s.channel.numGpfifoEntries - 1) s.channel.currentGpfifoCount =
      s.channel.numGpfifoEntries - 1 - s.channel.currentGpfifoCount :=
    minus_of_le (by omega) (by omega)
  simp only [getAvailableGpfifoEntries,tracks.slot,sentinel]
  split at put <;> split <;> rw [minus_of_le (by omega) (by omega)] <;> omega

theorem Tracks.claim (available : numGpfifoEntries ≤ getAvailableGpfifoEntries s.channel) :
    Tracks { s with
      channel := { s.channel with
        currentGpfifoCount := (s.channel.currentGpfifoCount + numGpfifoEntries) % 2 ^ 32 }
      reservations := s.reservations ++ [numGpfifoEntries] } history get := by
  have room := tracks.room
  have small := tracks.size.2
  rw [tracks.available] at available
  have count : (s.channel.currentGpfifoCount + numGpfifoEntries) % 2 ^ 32 =
      s.channel.currentGpfifoCount + numGpfifoEntries := Nat.mod_eq_of_lt (by omega)
  refine { tracks with room := ?_, held := ?_ }
  · dsimp only
    omega
  · simp only [count,sum_append,sum_singleton,tracks.held]

theorem Tracks.release {held : Nat} (there : s.reservations[reservation]? = some held)
    (enough : numGpfifoEntries ≤ held) :
    Tracks { s with
      channel := release s.channel numGpfifoEntries
      reservations := s.reservations.set reservation (held - numGpfifoEntries) } history get := by
  have room := tracks.room
  have small := tracks.size.2
  have sum := tracks.held
  have changed := sum_set_add (held - numGpfifoEntries) there
  have count : ChannelRing.release s.channel numGpfifoEntries = { s.channel with
      currentGpfifoCount := s.channel.currentGpfifoCount - numGpfifoEntries } := by
    rw [ChannelRing.release,minus_of_le (by omega) (by omega)]
  rw [count]
  refine { tracks with room := ?_, held := ?_ }
  · dsimp only
    omega
  · dsimp only
    omega

/-- A thread fills the entry at `cpu_put` with one that it has reserved. -/
theorem Tracks.submit {left : Nat} (semaphore : TrackingSemaphore)
    (there : s.reservations[reservation]? = some (left + 1))
    (completed : semaphore.completedValue = s.channel.trackingSem.completedValue)
    (queued : s.channel.trackingSem.queuedValue ≤ semaphore.queuedValue)
    (newest : s.channel.trackingSem.queuedValue + 1 = entry.trackingSemaphoreValue)
    (bounded : entry.trackingSemaphoreValue ≤ semaphore.queuedValue + 1)
    (pushes : ((history ++ [entry]).filter GpfifoEntry.isNormal).map
      GpfifoEntry.trackingSemaphoreValue = range' 1 semaphore.queuedValue) :
    Tracks { s with
      channel := submit { s.channel with trackingSem := semaphore } entry
      reservations := s.reservations.set reservation left } (history ++ [entry]) get := by
  have room := tracks.room
  obtain ⟨some,small⟩ := tracks.size
  have order := tracks.order
  have sum := tracks.held
  have changed := sum_set_add left there
  have count : minus s.channel.currentGpfifoCount 1 = s.channel.currentGpfifoCount - 1 :=
    minus_of_le (by omega) (by omega)
  refine { tracks with
    put := ?_, order := ?_, room := ?_, held := ?_, entries := ?_, values := ?_, bounded := ?_,
    pushes := pushes, freed := ?_, semaphore := ?_, observed := ?_, marked := ?_ }
  · simp only [tracks.put,length_append]
    exact Nat.mod_add_mod _ _ _
  · simp only [length_append]
    omega
  · simp only [ChannelRing.submit,length_append,length_singleton]
    omega
  · simp only [ChannelRing.submit]
    omega
  · intro i notFreed within
    simp only [length_append] at within
    simp only [ChannelRing.submit]
    rcases Nat.lt_or_eq_of_le (Nat.le_of_lt_succ within) with old | new
    · have free := Ring.slot_ne old (by omega : history.length < i + s.channel.numGpfifoEntries)
      rw [tracks.put,Function.update_of_ne free,getElem?_append_left old]
      exact tracks.entries i notFreed old
    · subst new
      rw [tracks.put,Function.update_self]
      exact getElem?_concat_length
  · rw [pairwise_append]
    refine ⟨tracks.values,pairwise_singleton _ _,fun old member new here => ?_⟩
    cases mem_singleton.mp here
    exact Nat.le_trans (tracks.bounded old member) (Nat.le_of_eq newest)
  · intro old member
    rcases mem_append.mp member with earlier | here
    · exact Nat.le_trans (tracks.bounded old earlier) (Nat.succ_le_succ queued)
    · cases mem_singleton.mp here
      exact bounded
  · rw [take_append_of_le_length order]
    exact fun old member => Nat.le_trans (tracks.freed old member) (Nat.le_of_eq completed.symm)
  · exact ⟨Nat.le_trans (Nat.le_of_eq completed) tracks.semaphore.1,
      Nat.le_trans tracks.semaphore.2 queued⟩
  · exact fun value member =>
      Nat.le_trans (tracks.observed value member) (Nat.le_of_eq completed.symm)
  · rw [take_append_of_le_length order]
    exact tracks.marked

theorem Tracks.endPush {left : Nat} (there : s.reservations[reservation]? = some (left + 1))
    (offset size : Nat) :
    ∃ history', Tracks { s with
      channel := endPush s.channel offset size
      reservations := s.reservations.set reservation left } history' get := by
  refine ⟨_,tracks.submit _ there rfl (Nat.le_succ _) rfl (Nat.le_succ _) ?_⟩
  rw [filter_append,map_append,tracks.pushes,range'_1_concat]
  simp [Nat.add_comm]

theorem Tracks.writeCtrl {left : Nat} (there : s.reservations[reservation]? = some (left + 2))
    (controlValue : Nat) :
    ∃ history', Tracks { s with
      channel := writeCtrlGpfifo s.channel controlValue
      reservations := s.reservations.set reservation (left + 1) } history' get := by
  refine ⟨_,tracks.submit s.channel.trackingSem there rfl le_rfl rfl le_rfl ?_⟩
  rw [filter_append,map_append,tracks.pushes]
  simp

end

/-! The tracking semaphore. -/

/-- The upper half of the value is not lost as long as the GPU is less than 2³² pushes ahead. -/
theorem updateCompletedValueLocked_eq {old new : Nat} (order : old ≤ new)
    (near : new < old + 2 ^ 32) : updateCompletedValueLocked old (new % 2 ^ 32) = new := by
  unfold updateCompletedValueLocked
  dsimp only
  split
  · omega
  · split <;> omega

section

variable (tracks : Tracks s history get)
include tracks

/-- Pushes that the driver has not seen completed still have their entries. -/
theorem Tracks.near : s.channel.trackingSem.queuedValue <
      s.channel.trackingSem.completedValue + s.channel.numGpfifoEntries := by
  have pushes := tracks.pushes
  rw [← take_append_drop get history,filter_append,map_append] at pushes
  set freed := ((history.take get).filter GpfifoEntry.isNormal).map
    GpfifoEntry.trackingSemaphoreValue with freed_eq
  set pending := ((history.drop get).filter GpfifoEntry.isNormal).map
    GpfifoEntry.trackingSemaphoreValue with pending_eq
  have total : freed.length + pending.length = s.channel.trackingSem.queuedValue := by
    rw [← length_append,pushes,length_range']
  have few : pending.length ≤ history.length - get := by
    rw [length_map,← length_drop]
    exact length_filter_le _ _
  -- the freed pushes have the values from 1 on
  have last : freed.length ≤ s.channel.trackingSem.completedValue := by
    rcases Nat.eq_zero_or_pos freed.length with none | some
    · omega
    have inside : freed.length - 1 < freed.length := by omega
    have value : freed[freed.length - 1]? = Option.some freed.length := by
      rw [← getElem?_append_left inside,pushes,getElem?_range' (by omega)]
      congr 1
      omega
    obtain ⟨entry,member,same⟩ := mem_map.mp (mem_of_getElem? value)
    rw [← same]
    exact tracks.freed entry (mem_of_mem_filter member)
  have room := tracks.room
  omega

theorem Tracks.updateCompletedValue :
    updateCompletedValueLocked s.channel.trackingSem.completedValue (s.released % 2 ^ 32) =
      s.released := by
  have near := tracks.near
  have semaphore := tracks.semaphore
  have small := tracks.size.2
  exact updateCompletedValueLocked_eq semaphore.1 (by omega)

theorem Tracks.observe : Tracks { s with
      channel := { s.channel with trackingSem := { s.channel.trackingSem with
        completedValue := s.released } }
      observed := s.observed ++ [s.released] } history get := by
  have semaphore := tracks.semaphore
  refine { tracks with freed := ?_, semaphore := ⟨le_rfl,semaphore.2⟩, observed := ?_ }
  · exact fun entry member => Nat.le_trans (tracks.freed entry member) semaphore.1
  · intro value member
    rcases mem_append.mp member with old | new
    · exact Nat.le_trans (tracks.observed value old) semaphore.1
    · exact Nat.le_of_eq (mem_singleton.mp new)

/-! Freeing entries. -/

/-- The loop frees a stretch of the history. -/
theorem Tracks.completeEntries (completedValue maxToComplete : Nat)
    {first : Nat} (notFreed : get ≤ first) (within : first ≤ history.length) :
    ∃ stop, first ≤ stop ∧ stop ≤ history.length ∧
      completeEntries s.channel completedValue maxToComplete
        (first % s.channel.numGpfifoEntries) =
          (((history.take stop).drop first).filter GpfifoEntry.isNormal,
            stop % s.channel.numGpfifoEntries) ∧
      ∀ entry ∈ (history.take stop).drop first, entry.trackingSemaphoreValue ≤ completedValue := by
  induction maxToComplete generalizing first with
  | zero => exact ⟨first,le_rfl,within,by simp [ChannelRing.completeEntries],by simp⟩
  | succ maxToComplete hypothesis =>
    unfold ChannelRing.completeEntries
    dsimp only
    split
    · exact ⟨first,le_rfl,within,by simp,by simp⟩
    next more =>
      obtain ⟨notPut,reached⟩ := not_or.mp more
      have inside : first < history.length := by
        refine Nat.lt_of_le_of_ne within fun same => notPut ?_
        rw [same,tracks.put]
      obtain ⟨stop,after,bound,result,values⟩ :=
        hypothesis (Nat.le_succ_of_le notFreed) (Nat.succ_le_of_lt inside)
      have entry := tracks.entries first notFreed inside
      have next : (first % s.channel.numGpfifoEntries + 1) % s.channel.numGpfifoEntries =
          (first + 1) % s.channel.numGpfifoEntries := Nat.mod_add_mod _ _ _
      have cons : (history.take stop).drop first =
          s.channel.gpfifoEntries (first % s.channel.numGpfifoEntries) ::
            (history.take stop).drop (first + 1) := by
        refine drop_eq_getElem?_toList_append.trans ?_
        rw [getElem?_take_of_lt after,entry]
        rfl
      refine ⟨stop,Nat.le_of_succ_le after,bound,?_,?_⟩
      · rw [next,result,cons]
        simp [filter_cons]
      · rw [cons]
        intro other member
        rcases mem_cons.mp member with rfl | rest
        · exact Nat.le_of_not_lt reached
        · exact values other rest

theorem Tracks.updateProgress {completedValue : Nat}
    (observed : completedValue ∈ s.observed) (maxToComplete : Nat) :
    ∃ get', Tracks { s with
      channel := { s.channel with
        gpuGet :=
          (ChannelRing.completeEntries s.channel completedValue maxToComplete s.channel.gpuGet).2 }
      marked := s.marked ++
        (ChannelRing.completeEntries s.channel completedValue maxToComplete s.channel.gpuGet).1.map
          (⟨·,s.released⟩) } history get' := by
  obtain ⟨stop,after,bound,result,values⟩ :=
    tracks.completeEntries completedValue maxToComplete le_rfl tracks.order
  have room := tracks.room
  have recorded := tracks.observed completedValue observed
  have freed : history.take stop = history.take get ++ (history.take stop).drop get := by
    have parts := take_append_drop get (history.take stop)
    rw [take_take,Nat.min_eq_left after] at parts
    exact parts.symm
  rw [tracks.slot,result]
  refine ⟨stop,{ tracks with
    slot := rfl, order := bound, room := ?_, entries := ?_, freed := ?_, marked := ?_,
    released := ?_ }⟩
  · dsimp only
    omega
  · exact fun i notFreed => tracks.entries i (Nat.le_trans after notFreed)
  · intro entry member
    rw [freed] at member
    rcases mem_append.mp member with old | new
    · exact tracks.freed entry old
    · exact Nat.le_trans (values entry new) recorded
  · have parts := congrArg (filter GpfifoEntry.isNormal) freed
    simp only [map_append,tracks.marked,parts]
    simp [Function.comp_def]
  · intro mark member
    rcases mem_append.mp member with old | new
    · exact tracks.released mark old
    · obtain ⟨entry,here,rfl⟩ := mem_map.mp new
      have reached := values entry (mem_of_mem_filter here)
      exact Nat.le_trans reached (Nat.le_trans recorded tracks.semaphore.1)

end

/-! Whole runs. -/

section

variable (tracks : Tracks s history get)
include tracks

theorem Tracks.step {event : Event} (run : step s event = some s') (held : event ≠ .suspendFailed) :
    ∃ history' get', Tracks s' history' get' := by
  cases event with
  | claim numGpfifoEntries reserveType =>
    rw [ChannelRing.step] at run
    split at run
    · obtain ⟨channel,claimed,result⟩ := Option.map_eq_some_iff.mp run
      cases result
      unfold tryClaimChannelLocked at claimed
      split at claimed
      · cases claimed
      · split at claimed
        · cases claimed
          exact ⟨_,_,tracks.claim ‹_›⟩
        · cases claimed
    · cases run
  | endPush reservation offset size =>
    rw [ChannelRing.step] at run
    split at run
    · cases run
      obtain ⟨history',next⟩ := tracks.endPush ‹_› offset size
      exact ⟨history',get,next⟩
    · cases run
  | writeCtrl reservation controlValue =>
    rw [ChannelRing.step] at run
    split at run
    · cases run
      obtain ⟨history',next⟩ := tracks.writeCtrl ‹_› controlValue
      exact ⟨history',get,next⟩
    · cases run
  | release reservation numGpfifoEntries =>
    rw [ChannelRing.step] at run
    split at run
    · split at run
      · cases run
        exact ⟨_,_,tracks.release ‹_› ‹_›⟩
      · cases run
    · cases run
  | suspend reservation =>
    rw [ChannelRing.step] at run
    split at run
    · cases run
      exact ⟨history,get,{ tracks with }⟩
    · cases run
  | suspendFailed => exact absurd rfl held
  | resume =>
    cases run
    exact ⟨history,get,{ tracks with }⟩
  | updateCompletedValue =>
    simp only [ChannelRing.step,tracks.updateCompletedValue] at run
    cases run
    exact ⟨_,_,tracks.observe⟩
  | updateProgress observed maxToComplete =>
    rw [ChannelRing.step] at run
    split at run
    · cases run
      obtain ⟨get',next⟩ := tracks.updateProgress (mem_of_getElem? ‹_›) maxToComplete
      exact ⟨history,get',next⟩
    · cases run
  | gpuRelease =>
    rw [ChannelRing.step] at run
    split at run
    next next =>
      cases run
      have semaphore := tracks.semaphore
      refine ⟨history,get,{ tracks with semaphore := ⟨?_,?_⟩ }⟩
      · exact Nat.le_succ_of_le semaphore.1
      · exact next.1
    · cases run
  | gpuError =>
    cases run
    exact ⟨history,get,{ tracks with }⟩

theorem Tracks.execute {events : List Event} (run : execute events s = some s')
    (held : .suspendFailed ∉ events) : ∃ history' get', Tracks s' history' get' := by
  induction events generalizing s history get with
  | nil =>
    cases run
    exact ⟨history,get,tracks⟩
  | cons event events hypothesis =>
    obtain ⟨next,first,rest⟩ := Option.bind_eq_some_iff.mp run
    obtain ⟨history',get',tracks'⟩ := tracks.step first fun same => held (by simp [same])
    exact hypothesis tracks' rest (not_mem_of_not_mem_cons held)

theorem Tracks.pendingCount_eq : pendingCount s.channel = history.length - get := by
  have room := tracks.room
  have order := tracks.order
  unfold pendingCount
  rw [tracks.put,tracks.slot]
  exact Ring.slot_distance_mod tracks.size.1 order (by omega)

theorem Tracks.pendingEntries_eq : pendingEntries s.channel = history.drop get := by
  refine ext_getElem? fun i => ?_
  unfold pendingEntries
  rw [tracks.pendingCount_eq,getElem?_map,getElem?_drop]
  rcases Nat.lt_or_ge i _ with inside | outside
  · rw [getElem?_range inside,tracks.entries _ (Nat.le_add_right _ _) (by omega),
      tracks.slot,Option.map_some,Nat.mod_add_mod]
  · rw [getElem?_eq_none (by simpa using outside),getElem?_eq_none (by omega)]
    rfl

theorem Tracks.accounted : Accounted s where
  room := by
    have room := tracks.room
    rw [tracks.pendingCount_eq]
    omega
  unused i pending := by
    have room := tracks.room
    rw [tracks.pendingCount_eq] at pending
    rw [tracks.slot,tracks.put,Nat.mod_add_mod]
    exact Ring.slot_ne (by omega) (by omega)
  ordered := by
    rw [tracks.pendingEntries_eq]
    exact tracks.values.sublist (drop_sublist get history)
  once := by
    rw [tracks.marked,tracks.pendingEntries_eq,← filter_append,take_append_drop]
    exact tracks.pushes
  completed mark member := by
    refine ⟨?_,tracks.released mark member⟩
    have entry : mark.entry ∈ (history.take get).filter GpfifoEntry.isNormal :=
      tracks.marked ▸ mem_map_of_mem member
    simpa using of_mem_filter entry

end

theorem clampNumGpfifoEntries_bounds (parameter : Nat) :
    0 < clampNumGpfifoEntries parameter ∧ clampNumGpfifoEntries parameter < 2 ^ 32 := by
  have min : numGpfifoEntriesMin = 32 := rfl
  have max : numGpfifoEntriesMax = 1048576 := rfl
  unfold clampNumGpfifoEntries
  split_ifs <;> omega

theorem poolNumGpfifoEntries_bounds (parameter : Nat) (pool : PoolType) :
    0 < poolNumGpfifoEntries parameter pool ∧ poolNumGpfifoEntries parameter pool < 2 ^ 32 := by
  have default : numGpfifoEntriesDefault = 1024 := rfl
  have clamped := clampNumGpfifoEntries_bounds parameter
  cases pool with
  | wlc | lcic =>
    simp only [poolNumGpfifoEntries]
    omega
  | other =>
    simp only [poolNumGpfifoEntries,confNumGpfifoEntries]
    split_ifs <;> omega

/-- As long as nobody gives back entries that it does not have, the ring is accounted for,
whatever the threads and the GPU do. -/
theorem channel_accounted {parameter : Nat} {pool : PoolType} {events : List Event}
    (run : execute events (.start (poolNumGpfifoEntries parameter pool)) = some s)
    (held : .suspendFailed ∉ events) : Accounted s := by
  obtain ⟨some,small⟩ := poolNumGpfifoEntries_bounds parameter pool
  obtain ⟨_,_,tracks⟩ := (tracks_start some small).execute run held
  exact tracks.accounted

/-- A control entry and a push of one reservation; another push sneaks in between them. The
control entry is freed with it. -/
def controlRun : List Event :=
  [.claim 2 .noP2p,.claim 1 .withP2p,.writeCtrl 0 7,.endPush 1 0 4,.endPush 0 4 4,.gpuRelease,
    .updateCompletedValue,.updateProgress 0 8]

theorem channel_accounted_control : ∃ s,
    execute controlRun (.start (poolNumGpfifoEntries 32 .other)) = some s ∧
      s.marked.map (·.entry.trackingSemaphoreValue) = [1] ∧ pendingCount s.channel = 1 ∧
        Accounted s := by
  have completes : (execute controlRun (.start (poolNumGpfifoEntries 32 .other))).isSome := by
    decide +kernel
  obtain ⟨s,run⟩ := Option.isSome_iff_exists.mp completes
  have facts : (execute controlRun (.start (poolNumGpfifoEntries 32 .other))).map
      (fun s => (s.marked.map (·.entry.trackingSemaphoreValue),pendingCount s.channel)) =
        some ([1],1) := by
    decide +kernel
  rw [run] at facts
  have both := Prod.mk.inj (Option.some.inj facts)
  exact ⟨s,run,both.1,both.2,channel_accounted run (by decide)⟩

/-- P2P is suspended on a channel with a pending push and an error; the driver releases
entries that it could not reserve. The next pushes go once around the ring. -/
def suspendRun : List Event :=
  [.claim 1 .noP2p,.endPush 0 0 4,.gpuError,.suspendFailed,.claim 31 .noP2p] ++
    replicate 31 (.endPush 1 0 4)

theorem suspend_overruns : ∃ s,
    execute suspendRun (.start (poolNumGpfifoEntries 32 .other)) = some s ∧
      s.channel.trackingSem.queuedValue = 32 ∧ s.marked = [] ∧ pendingCount s.channel = 0 ∧
        ¬Accounted s := by
  have completes : (execute suspendRun (.start (poolNumGpfifoEntries 32 .other))).isSome := by
    decide +kernel
  obtain ⟨s,run⟩ := Option.isSome_iff_exists.mp completes
  have facts : (execute suspendRun (.start (poolNumGpfifoEntries 32 .other))).map
      (fun s => (s.channel.trackingSem.queuedValue,s.marked,pendingCount s.channel)) =
        some (32,[],0) := by
    decide +kernel
  rw [run] at facts
  obtain ⟨queued,rest⟩ := Prod.mk.inj (Option.some.inj facts)
  obtain ⟨marked,pending⟩ := Prod.mk.inj rest
  refine ⟨s,run,queued,marked,pending,fun accounted => ?_⟩
  have once := accounted.once
  simp [marked,pendingEntries,pending,queued] at once

end GpuExt.ChannelRing
