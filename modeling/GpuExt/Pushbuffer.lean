import GpuExt.CyclicExtents
import Mathlib.Logic.Function.Basic
import Mathlib.Data.List.FinRange

/-! The pushbuffer: sixteen chunks, each with at most one push in progress and a list of
submitted pushes. Every step is one critical section of the pushbuffer lock, or the read of
the start of a push after its chunk was claimed. Pushes may complete in any order. -/
namespace GpuExt.Pushbuffer

open Function List

def maxPushSize : Nat := 128 * 1024
def chunkSize : Nat := 8 * maxPushSize
def chunkCount : Nat := 16

abbrev ChunkIndex := Fin chunkCount
abbrev PushId := Nat

/-- The part of a GPFIFO entry that describes its push. -/
structure Gpfifo where
  push : PushId
  pushbufferOffset : Nat
  pushbufferSize : Nat
  deriving DecidableEq, Repr

structure Chunk where
  nextPushStart : Nat
  pendingGpfifos : List Gpfifo
  currentPush : Option PushId
  deriving DecidableEq, Repr

structure State where
  chunks : ChunkIndex → Chunk
  availableChunks : ChunkIndex → Bool
  idleChunks : ChunkIndex → Bool

def create : State := ⟨fun _ => ⟨0,[],none⟩,fun _ => true,fun _ => true⟩

def getChunkInMask (mask : ChunkIndex → Bool) : Option ChunkIndex :=
  (finRange chunkCount).find? mask

section

variable (pb : State) (c : ChunkIndex)

def pickChunk : Option ChunkIndex :=
  (getChunkInMask pb.idleChunks).orElse fun _ => getChunkInMask pb.availableChunks

@[simp] def State.modify (f : Chunk → Chunk) : State :=
  { pb with chunks := update pb.chunks c (f (pb.chunks c)) }

@[simp] def State.setIdle (b : Bool) : State :=
  { pb with idleChunks := update pb.idleChunks c b }

@[simp] def State.setAvailable (b : Bool) : State :=
  { pb with availableChunks := update pb.availableChunks c b }

def tryClaimChunk (push : PushId) : Option (State × ChunkIndex) :=
  (pickChunk pb).map fun c =>
    (((pb.modify c fun chunk => { chunk with currentPush := some push }).setIdle c false).setAvailable
      c false,c)

def chunkGetOffset : Nat := c.val * chunkSize

def chunkGetCpuPut : Nat :=
  match (pb.chunks c).pendingGpfifos.getLast? with
  | some gpfifo => gpfifo.pushbufferOffset + gpfifo.pushbufferSize - chunkGetOffset c
  | none => 0

def chunkGetGpuGet : Nat :=
  match (pb.chunks c).pendingGpfifos.head? with
  | some gpfifo => gpfifo.pushbufferOffset - chunkGetOffset c
  | none => 0

@[simp] def State.offer (start : Nat) : State :=
  (pb.setAvailable c true).modify c fun chunk => { chunk with nextPushStart := start }

def updateChunk : State :=
  let gpuGet := chunkGetGpuGet pb c
  let cpuPut := chunkGetCpuPut pb c
  if gpuGet = cpuPut then
    if (pb.chunks c).pendingGpfifos ≠ [] then pb else (pb.setIdle c true).offer c 0
  else if gpuGet > cpuPut then
    if gpuGet - cpuPut ≥ maxPushSize then pb.offer c cpuPut else pb
  else if chunkSize ≥ cpuPut + maxPushSize then pb.offer c cpuPut
  else if gpuGet ≥ maxPushSize then pb.offer c 0
  else pb

def offsetToChunk (offset : Nat) : ChunkIndex :=
  ⟨offset / chunkSize % chunkCount,Nat.mod_lt _ (by decide)⟩

def markCompleted (gpfifo : Gpfifo) : State :=
  let c := offsetToChunk gpfifo.pushbufferOffset
  let pending := (pb.chunks c).pendingGpfifos
  let needToUpdateChunk := pending.head? = some gpfifo ∨ pending.getLast? = some gpfifo
  let pb := pb.modify c fun chunk => { chunk with pendingGpfifos := pending.erase gpfifo }
  if needToUpdateChunk ∧ (pb.chunks c).currentPush = none then updateChunk pb c else pb

def endPush (gpfifo : Gpfifo) : State :=
  let c := offsetToChunk gpfifo.pushbufferOffset
  let pb := pb.modify c fun chunk =>
    { chunk with pendingGpfifos := chunk.pendingGpfifos ++ [gpfifo] }
  (updateChunk pb c).modify c fun chunk => { chunk with currentPush := none }

end

/-! The pushes of all threads. -/

inductive Push where
  | fresh
  | claimed (c : ChunkIndex)
  /-- An error was found before the chunk was claimed, so that the push does not begin. -/
  | failed (c : ChunkIndex)
  /-- In progress, with its offset in the pushbuffer. -/
  | ongoing (c : ChunkIndex) (offset : Nat)
  | submitted (gpfifo : Gpfifo)
  | completed
  deriving DecidableEq, Repr

structure System where
  pb : State
  push : PushId → Push

def System.start : System := ⟨create,fun _ => .fresh⟩

inductive Event where
  | claim (id : PushId)
  | begin (id : PushId)
  | fail (id : PushId)
  | finish (id : PushId) (size : Nat)
  | complete (id : PushId)
  deriving DecidableEq, Repr

def Event.id : Event → PushId
  | .claim id => id
  | .begin id => id
  | .fail id => id
  | .finish id _ => id
  | .complete id => id

def step (s : System) : Event → Option System
  | .claim id =>
    match s.push id with
    | .fresh =>
      (tryClaimChunk s.pb id).map fun (pb,c) => ⟨pb,update s.push id (.claimed c)⟩
    | _ => none
  | .begin id =>
    match s.push id with
    | .claimed c =>
      let offset := chunkGetOffset c + (s.pb.chunks c).nextPushStart
      some { s with push := update s.push id (.ongoing c offset) }
    | _ => none
  | .fail id =>
    match s.push id with
    | .claimed c => some { s with push := update s.push id (.failed c) }
    | _ => none
  | .finish id size =>
    match s.push id with
    | .ongoing _ offset =>
      if 4 ≤ size ∧ size ≤ maxPushSize then
        let gpfifo := ⟨id,offset,size⟩
        some ⟨endPush s.pb gpfifo,update s.push id (.submitted gpfifo)⟩
      else none
    | _ => none
  | .complete id =>
    match s.push id with
    | .submitted gpfifo => some ⟨markCompleted s.pb gpfifo,update s.push id .completed⟩
    | _ => none

def execute : List Event → System → Option System
  | [], s => some s
  | event :: events, s => (step s event).bind (execute events)

/-! The invariant of a chunk. -/

open CyclicExtents

def Gpfifo.extent (gpfifo : Gpfifo) : Extent :=
  ⟨gpfifo.pushbufferOffset,gpfifo.pushbufferOffset + gpfifo.pushbufferSize⟩

/-- The space that a push gets, whatever it will use of it. -/
def window (c : ChunkIndex) (start : Nat) : Extent :=
  ⟨chunkGetOffset c + start,chunkGetOffset c + start + maxPushSize⟩

variable {pb pb' : State} {c d : ChunkIndex} {id : PushId} {s s' : System} {pending : List Gpfifo}
  {start : Nat} {gpfifo : Gpfifo}

structure Inside (c : ChunkIndex) (gpfifo : Gpfifo) : Prop where
  low : chunkGetOffset c ≤ gpfifo.pushbufferOffset
  high : gpfifo.pushbufferOffset + gpfifo.pushbufferSize ≤ chunkGetOffset c + chunkSize
  positive : 0 < gpfifo.pushbufferSize

/-- Submitted pushes of a chunk in the order of submission. -/
structure Placed (c : ChunkIndex) (pending : List Gpfifo) : Prop where
  inside : ∀ gpfifo ∈ pending, Inside c gpfifo
  cyclic : Cyclic (pending.map Gpfifo.extent)

/-- There is room for a push at the start. -/
structure Ready (c : ChunkIndex) (pending : List Gpfifo) (start : Nat) : Prop where
  fits : start + maxPushSize ≤ chunkSize
  cyclic : Cyclic (pending.map Gpfifo.extent ++ [window c start])

theorem Placed.sublist {kept : List Gpfifo} (placed : Placed c pending) (sub : kept.Sublist pending) :
    Placed c kept :=
  ⟨fun gpfifo member => placed.inside gpfifo (sub.subset member),placed.cyclic.sublist (sub.map _)⟩

theorem Ready.sublist {kept : List Gpfifo} (ready : Ready c pending start)
    (sub : kept.Sublist pending) : Ready c kept start :=
  ⟨ready.fits,ready.cyclic.sublist ((sub.map _).append_right _)⟩

/-- The push takes a part of its window. -/
theorem Ready.placed (ready : Ready c pending start) (inside : ∀ gpfifo ∈ pending, Inside c gpfifo)
    (offset : gpfifo.pushbufferOffset = chunkGetOffset c + start)
    (positive : 0 < gpfifo.pushbufferSize) (size : gpfifo.pushbufferSize ≤ maxPushSize) :
    Placed c (pending ++ [gpfifo]) := by
  have fits := ready.fits
  refine ⟨fun other member => ?_,?_⟩
  · rcases mem_append.mp member with old | new
    · exact inside other old
    · cases mem_singleton.mp new
      exact ⟨by omega,by omega,positive⟩
  · rw [map_append]
    refine ready.cyclic.shrink (w := window c start) offset ?_
    simp only [Gpfifo.extent,window]
    omega

/-! `update_chunk` -/

inductive Updated (pb : State) (c : ChunkIndex) : State → Prop
  | none (busy : (pb.chunks c).pendingGpfifos ≠ []) : Updated pb c pb
  | idle (empty : (pb.chunks c).pendingGpfifos = []) (ready : Ready c [] 0) :
      Updated pb c ((pb.setIdle c true).offer c 0)
  | available (start : Nat) (busy : (pb.chunks c).pendingGpfifos ≠ [])
      (ready : Ready c (pb.chunks c).pendingGpfifos start) : Updated pb c (pb.offer c start)

theorem ready_empty (fits : start + maxPushSize ≤ chunkSize) : Ready c [] start :=
  ⟨fits,cyclic_single⟩

theorem Placed.ready {first last : Gpfifo} (placed : Placed c pending)
    (oldest : pending.head? = some first) (newest : pending.getLast? = some last)
    (fits : start + maxPushSize ≤ chunkSize)
    (room : Room first.extent last.extent (window c start)) : Ready c pending start := by
  refine ⟨fits,placed.cyclic.append (fun extent member => ?_) ?_ ?_ room⟩
  · obtain ⟨gpfifo,inside,rfl⟩ := mem_map.mp member
    have positive := (placed.inside gpfifo inside).positive
    simp only [Gpfifo.extent]
    omega
  · rw [head?_map,oldest]
    rfl
  · rw [getLast?_map,newest]
    rfl

theorem updateChunk_updated (placed : Placed c (pb.chunks c).pendingGpfifos) :
    Updated pb c (updateChunk pb c) := by
  have whole : maxPushSize ≤ chunkSize := by decide
  rcases shape : (pb.chunks c).pendingGpfifos with _ | ⟨first,rest⟩
  · have put : chunkGetCpuPut pb c = 0 := by simp [chunkGetCpuPut,shape]
    have get : chunkGetGpuGet pb c = 0 := by simp [chunkGetGpuGet,shape]
    simp only [updateChunk,put,get,shape]
    exact .idle shape (ready_empty (by omega))
  have busy : (pb.chunks c).pendingGpfifos ≠ [] := by simp [shape]
  obtain ⟨last,newest⟩ : ∃ last, (pb.chunks c).pendingGpfifos.getLast? = some last :=
    ⟨_,getLast?_eq_some_getLast busy⟩
  have oldest : (pb.chunks c).pendingGpfifos.head? = some first := by simp [shape]
  have firstInside := placed.inside first (mem_of_head? oldest)
  obtain ⟨firstLow,firstHigh,firstPositive⟩ := firstInside
  have put : chunkGetCpuPut pb c =
      last.pushbufferOffset + last.pushbufferSize - chunkGetOffset c := by
    simp [chunkGetCpuPut,newest]
  have get : chunkGetGpuGet pb c = first.pushbufferOffset - chunkGetOffset c := by
    simp [chunkGetGpuGet,oldest]
  unfold updateChunk
  dsimp only
  split
  · exact .none busy
  split
  · split
    · refine .available _ busy (placed.ready oldest newest (by omega) (.inl ?_))
      simp only [Gpfifo.extent,window]
      omega
    · exact .none busy
  split
  · refine .available _ busy (placed.ready oldest newest (by omega) (.inr ⟨?_,.inl ?_⟩)) <;>
      simp only [Gpfifo.extent,window] <;> omega
  split
  · refine .available 0 busy (placed.ready oldest newest (by omega) (.inr ⟨?_,.inr ?_⟩)) <;>
      simp only [Gpfifo.extent,window] <;> omega
  · exact .none busy

/-- A chunk without a push in progress, right after an update. -/
structure Settled (c : ChunkIndex) (pb : State) : Prop where
  ready : pb.availableChunks c = true →
    Ready c (pb.chunks c).pendingGpfifos (pb.chunks c).nextPushStart
  idle : pb.idleChunks c = true ↔ (pb.chunks c).pendingGpfifos = []
  start : pb.idleChunks c = true → (pb.chunks c).nextPushStart = 0 ∧ pb.availableChunks c = true

/-- The other chunks stay as they are. -/
structure Elsewhere (c : ChunkIndex) (pb pb' : State) : Prop where
  chunks : ∀ d, d ≠ c → pb'.chunks d = pb.chunks d
  available : ∀ d, d ≠ c → pb'.availableChunks d = pb.availableChunks d
  idle : ∀ d, d ≠ c → pb'.idleChunks d = pb.idleChunks d

theorem Elsewhere.trans {pb'' : State} (first : Elsewhere c pb pb') (second : Elsewhere c pb' pb'') :
    Elsewhere c pb pb'' :=
  ⟨fun d other => (second.chunks d other).trans (first.chunks d other),
    fun d other => (second.available d other).trans (first.available d other),
    fun d other => (second.idle d other).trans (first.idle d other)⟩

section

variable (pb) (c)

theorem State.modify_elsewhere (f : Chunk → Chunk) : Elsewhere c pb (pb.modify c f) := by
  constructor <;> simp +contextual

theorem State.setAvailable_elsewhere (b : Bool) : Elsewhere c pb (pb.setAvailable c b) := by
  constructor <;> simp +contextual

theorem State.setIdle_elsewhere (b : Bool) : Elsewhere c pb (pb.setIdle c b) := by
  constructor <;> simp +contextual

theorem State.offer_elsewhere (start : Nat) : Elsewhere c pb (pb.offer c start) :=
  (pb.setAvailable_elsewhere c true).trans (State.modify_elsewhere _ c _)

end

theorem Updated.elsewhere (updated : Updated pb c pb') : Elsewhere c pb pb' := by
  cases updated with
  | none => exact ⟨fun _ _ => rfl,fun _ _ => rfl,fun _ _ => rfl⟩
  | idle => exact (pb.setIdle_elsewhere c true).trans (State.offer_elsewhere _ c 0)
  | available start => exact pb.offer_elsewhere c start

theorem Updated.same_pending (updated : Updated pb c pb') :
    (pb'.chunks c).pendingGpfifos = (pb.chunks c).pendingGpfifos := by
  cases updated <;> simp

theorem Updated.settled (updated : Updated pb c pb') (ready : pb.availableChunks c = true →
      Ready c (pb.chunks c).pendingGpfifos (pb.chunks c).nextPushStart)
    (idle : pb.idleChunks c = true → (pb.chunks c).pendingGpfifos = []) : Settled c pb' := by
  cases updated with
  | none busy =>
    exact ⟨ready,⟨idle,fun empty => absurd empty busy⟩,fun flag => absurd (idle flag) busy⟩
  | idle empty readyEmpty =>
    constructor <;>
      simp [empty,readyEmpty]
  | available start busy readyThere =>
    have calm : pb.idleChunks c = false := by
      cases flag : pb.idleChunks c with
      | false => rfl
      | true => exact absurd (idle flag) busy
    constructor <;>
      simp [busy,calm,readyThere]

/-! The invariant of the whole pushbuffer. -/

structure ChunkInv (c : ChunkIndex) (pb : State) (push : PushId → Push) : Prop where
  placed : Placed c (pb.chunks c).pendingGpfifos
  nodup : (pb.chunks c).pendingGpfifos.Nodup
  listed : ∀ gpfifo ∈ (pb.chunks c).pendingGpfifos, push gpfifo.push = .submitted gpfifo
  ready : pb.availableChunks c = true ∨ (pb.chunks c).currentPush ≠ none →
    Ready c (pb.chunks c).pendingGpfifos (pb.chunks c).nextPushStart
  available : pb.availableChunks c = true → (pb.chunks c).currentPush = none
  idle : pb.idleChunks c = true ↔
    (pb.chunks c).currentPush = none ∧ (pb.chunks c).pendingGpfifos = []
  start : pb.idleChunks c = true → (pb.chunks c).nextPushStart = 0 ∧ pb.availableChunks c = true

/-- The push is the current one of a chunk. -/
@[simp] def Push.Holds (push : Push) (c : ChunkIndex) : Prop :=
  push = .claimed c ∨ push = .failed c ∨ ∃ offset, push = .ongoing c offset

structure Inv (s : System) : Prop where
  chunk : ∀ c, ChunkInv c s.pb s.push
  current : ∀ c id, (s.pb.chunks c).currentPush = some id ↔ (s.push id).Holds c
  ongoing : ∀ id c offset, s.push id = .ongoing c offset →
    offset = chunkGetOffset c + (s.pb.chunks c).nextPushStart
  submitted : ∀ id gpfifo, s.push id = .submitted gpfifo →
    gpfifo.push = id ∧ ∃ c, gpfifo ∈ (s.pb.chunks c).pendingGpfifos

theorem inv_start : Inv .start where
  chunk c := by
    have ready : Ready c [] 0 := ready_empty (by decide)
    constructor <;> simp [System.start,create,ready]
    exact ⟨by simp,cyclic_nil⟩
  current c id := by simp [System.start,create]
  ongoing := by simp [System.start]
  submitted := by simp [System.start]

variable {push push' : PushId → Push}

/-- Steps of other chunks. -/
theorem ChunkInv.other (inv : ChunkInv d pb push) (chunk : pb'.chunks d = pb.chunks d)
    (available : pb'.availableChunks d = pb.availableChunks d)
    (idle : pb'.idleChunks d = pb.idleChunks d)
    (listed : ∀ gpfifo ∈ (pb.chunks d).pendingGpfifos, push' gpfifo.push = push gpfifo.push) :
    ChunkInv d pb' push' := by
  obtain ⟨placed,nodup,submitted,ready,unavailable,idle',start⟩ := inv
  constructor <;> simp only [chunk,available,idle]
  · exact placed
  · exact nodup
  · exact fun gpfifo member => (listed gpfifo member).trans (submitted gpfifo member)
  · exact ready
  · exact unavailable
  · exact idle'
  · exact start

theorem offsetToChunk_inside (inside : Inside c gpfifo) :
    offsetToChunk gpfifo.pushbufferOffset = c := by
  obtain ⟨low,high,positive⟩ := inside
  refine Fin.ext ?_
  have quotient : gpfifo.pushbufferOffset / chunkSize = c.val := by
    rw [Nat.div_eq_iff (by decide)]
    simp only [chunkGetOffset] at low high
    omega
  simp only [offsetToChunk,quotient]
  exact Nat.mod_eq_of_lt c.isLt

/-- A step of one push in one chunk. -/
theorem Inv.local (inv : Inv s) {state : Push} (elsewhere : Elsewhere c s.pb pb')
    (unlisted : ∀ d, d ≠ c → ∀ gpfifo ∈ (s.pb.chunks d).pendingGpfifos, gpfifo.push ≠ id)
    (notCurrent : ∀ d, d ≠ c → (s.pb.chunks d).currentPush ≠ some id)
    (notThere : ∀ d, d ≠ c → ¬state.Holds d)
    (chunkInv : ChunkInv c pb' (update s.push id state))
    (current : (pb'.chunks c).currentPush = some id ↔ state.Holds c)
    (ongoing : ∀ offset, state = .ongoing c offset →
      offset = chunkGetOffset c + (pb'.chunks c).nextPushStart)
    (submitted : ∀ gpfifo, state = .submitted gpfifo →
      gpfifo.push = id ∧ gpfifo ∈ (pb'.chunks c).pendingGpfifos)
    (others : ∀ other, other ≠ id →
      ((pb'.chunks c).currentPush = some other ↔ (s.pb.chunks c).currentPush = some other))
    (start : ∀ other, other ≠ id → (s.pb.chunks c).currentPush = some other →
      (pb'.chunks c).nextPushStart = (s.pb.chunks c).nextPushStart)
    (pending : ∀ gpfifo ∈ (s.pb.chunks c).pendingGpfifos, gpfifo.push ≠ id →
      gpfifo ∈ (pb'.chunks c).pendingGpfifos) :
    Inv ⟨pb',update s.push id state⟩ where
  chunk d := by
    rcases eq_or_ne d c with rfl | other
    · exact chunkInv
    · refine (inv.chunk d).other (elsewhere.chunks d other) (elsewhere.available d other)
        (elsewhere.idle d other) fun gpfifo member => ?_
      exact update_of_ne (unlisted d other gpfifo member) _ _
  current d other := by
    dsimp only
    rcases eq_or_ne other id with rfl | distinct
    · rw [update_self]
      rcases eq_or_ne d c with rfl | different
      · exact current
      · rw [elsewhere.chunks d different]
        exact iff_of_false (notCurrent d different) (notThere d different)
    · rw [update_of_ne distinct,← inv.current]
      rcases eq_or_ne d c with rfl | different
      · exact others other distinct
      · rw [elsewhere.chunks d different]
  ongoing other d offset running := by
    dsimp only at running ⊢
    rcases eq_or_ne other id with rfl | distinct
    · rw [update_self] at running
      rcases eq_or_ne d c with rfl | different
      · exact ongoing offset running
      · exact absurd (.inr (.inr ⟨offset,running⟩)) (notThere d different)
    · rw [update_of_ne distinct] at running
      rw [inv.ongoing other d offset running]
      rcases eq_or_ne d c with rfl | different
      · rw [start other distinct ((inv.current d other).mpr (.inr (.inr ⟨offset,running⟩)))]
      · rw [elsewhere.chunks d different]
  submitted other gpfifo there := by
    dsimp only at there ⊢
    rcases eq_or_ne other id with rfl | distinct
    · rw [update_self] at there
      exact (submitted gpfifo there).imp_right fun member => ⟨c,member⟩
    · rw [update_of_ne distinct] at there
      obtain ⟨tag,d,member⟩ := inv.submitted other gpfifo there
      refine ⟨tag,d,?_⟩
      rcases eq_or_ne d c with rfl | different
      · exact pending gpfifo member (tag ▸ distinct)
      · rwa [elsewhere.chunks d different]

variable (id) in
theorem Inv.unlisted (inv : Inv s) (notSubmitted : ∀ gpfifo, s.push id ≠ .submitted gpfifo)
    (d : ChunkIndex) : ∀ gpfifo ∈ (s.pb.chunks d).pendingGpfifos, gpfifo.push ≠ id :=
  fun gpfifo member same => notSubmitted gpfifo (same ▸ (inv.chunk d).listed gpfifo member)

theorem pickChunk_flagged (pick : pickChunk pb = some c) :
    pb.idleChunks c = true ∨ pb.availableChunks c = true := by
  unfold pickChunk at pick
  cases idle : getChunkInMask pb.idleChunks with
  | some d =>
    rw [idle] at pick
    cases pick
    exact .inl (find?_some idle)
  | none =>
    rw [idle] at pick
    exact .inr (find?_some pick)

/-- The chunk a push gets has room for it, and no other push in progress. -/
theorem Inv.picked (inv : Inv s) (pick : pickChunk s.pb = some c) :
    (s.pb.chunks c).currentPush = none ∧
      Ready c (s.pb.chunks c).pendingGpfifos (s.pb.chunks c).nextPushStart := by
  have chunkInv := inv.chunk c
  have offered : s.pb.availableChunks c = true :=
    (pickChunk_flagged pick).elim (fun idle => (chunkInv.start idle).2) fun flag => flag
  exact ⟨chunkInv.available offered,chunkInv.ready (.inl offered)⟩

theorem Inv.claim (inv : Inv s) (fresh : s.push id = .fresh)
    (claimed : tryClaimChunk s.pb id = some (pb',c)) : Inv ⟨pb',update s.push id (.claimed c)⟩ := by
  obtain ⟨c',pick,result⟩ := Option.map_eq_some_iff.mp claimed
  cases result
  obtain ⟨free,ready⟩ := inv.picked pick
  have chunkInv := inv.chunk c
  have unlisted := inv.unlisted id (by simp [fresh])
  have elsewhere := ((s.pb.modify_elsewhere c fun chunk => { chunk with currentPush := some id }).trans
    (State.setIdle_elsewhere _ c false)).trans (State.setAvailable_elsewhere _ c false)
  refine inv.local elsewhere (fun d _ => unlisted d) ?_ ?_ ?_ ?_ ?_ ?_ ?_ ?_ ?_
  · intro d _ isCurrent
    simp [inv.current,fresh] at isCurrent
  · intro d different
    simp [different.symm]
  · constructor <;> simp
    · exact chunkInv.placed
    · exact chunkInv.nodup
    · intro gpfifo member
      rw [update_of_ne (unlisted c gpfifo member)]
      exact chunkInv.listed gpfifo member
    · exact ready
  · simp
  · simp
  · simp
  · intro other distinct
    simp [distinct.symm,free]
  · simp
  · intro gpfifo member _
    simpa using member

/-- A push that has claimed its chunk goes on there. -/
theorem Inv.turn (inv : Inv s) (claimed : s.push id = .claimed c) {state : Push}
    (holds : ∀ d,state.Holds d ↔ d = c) (start : ∀ offset, state = .ongoing c offset →
      offset = chunkGetOffset c + (s.pb.chunks c).nextPushStart)
    (unsubmitted : ∀ gpfifo, state ≠ .submitted gpfifo) : Inv ⟨s.pb,update s.push id state⟩ := by
  have unlisted := inv.unlisted id (by simp [claimed])
  refine inv.local (c := c) ⟨fun _ _ => rfl,fun _ _ => rfl,fun _ _ => rfl⟩
    (fun d _ => unlisted d) ?_ (fun d => mt (holds d).mp) ?_ ?_ start
    (fun gpfifo there => absurd there (unsubmitted gpfifo)) (fun _ _ => .rfl) (fun _ _ _ => rfl)
    (fun _ member _ => member)
  · intro d different isCurrent
    simp [inv.current,claimed,different.symm] at isCurrent
  · refine (inv.chunk c).other rfl rfl rfl fun gpfifo member => ?_
    exact update_of_ne (unlisted c gpfifo member) _ _
  · simp [inv.current,claimed,-Push.Holds,holds]
    simp

/-- Whose turn it is in a chunk is clear. -/
theorem Inv.only (inv : Inv s) (mine : (s.pb.chunks c).currentPush = some id) {other : PushId}
    (distinct : other ≠ id) : ¬(s.push other).Holds c := by
  intro there
  rw [← inv.current,mine] at there
  exact distinct (Option.some.inj there).symm

theorem Inv.finish (inv : Inv s) {offset size : Nat} (running : s.push id = .ongoing c offset)
    (least : 4 ≤ size) (most : size ≤ maxPushSize) :
    Inv ⟨endPush s.pb ⟨id,offset,size⟩,update s.push id (.submitted ⟨id,offset,size⟩)⟩ := by
  set gpfifo : Gpfifo := ⟨id,offset,size⟩ with gpfifo_eq
  have chunkInv := inv.chunk c
  have mine : (s.pb.chunks c).currentPush = some id := (inv.current c id).mpr (.inr (.inr ⟨offset,running⟩))
  have unlisted := inv.unlisted id (by simp [running])
  have ready := chunkInv.ready (.inr (by simp [mine]))
  have placed : Placed c ((s.pb.chunks c).pendingGpfifos ++ [gpfifo]) :=
    ready.placed chunkInv.placed.inside (inv.ongoing id c offset running)
      (Nat.lt_of_lt_of_le (by decide) least) most
  have unavailable : s.pb.availableChunks c ≠ true := by
    intro flag
    simp [chunkInv.available flag] at mine
  have notIdle : s.pb.idleChunks c ≠ true := fun flag => unavailable (chunkInv.start flag).2
  have home : offsetToChunk gpfifo.pushbufferOffset = c :=
    offsetToChunk_inside (placed.inside gpfifo (by simp))
  set added := s.pb.modify c fun chunk =>
    { chunk with pendingGpfifos := chunk.pendingGpfifos ++ [gpfifo] } with added_eq
  have addedChunk : (added.chunks c).pendingGpfifos = (s.pb.chunks c).pendingGpfifos ++ [gpfifo] := by
    simp [added_eq]
  have updated : Updated added c (updateChunk added c) := updateChunk_updated (addedChunk ▸ placed)
  have settled := updated.settled (fun flag => absurd flag unavailable)
    (fun flag => absurd flag notIdle)
  have result : endPush s.pb gpfifo =
      (updateChunk added c).modify c fun chunk => { chunk with currentPush := none } := by
    simp only [endPush,home,added_eq]
  have list := updated.same_pending.trans addedChunk
  rw [result]
  refine inv.local (((s.pb.modify_elsewhere c _).trans updated.elsewhere).trans
    (State.modify_elsewhere _ c _)) (fun d _ => unlisted d) ?_ ?_ ?_ ?_ ?_ ?_ ?_ ?_ ?_
  · intro d different isCurrent
    simp [inv.current,running,different.symm] at isCurrent
  · simp
  · constructor <;> simp only [State.modify,update_self]
    · exact list ▸ placed
    · rw [list,nodup_append]
      refine ⟨chunkInv.nodup,nodup_singleton _,fun other old new member => ?_⟩
      cases mem_singleton.mp member
      exact fun same => unlisted c other old (by rw [same])
    · intro other member
      rw [list,mem_append,mem_singleton] at member
      rcases member with old | rfl
      · rw [update_of_ne (unlisted c other old)]
        exact chunkInv.listed other old
      · simp [gpfifo_eq]
    · simpa using settled.ready
    · simp
    · simpa using settled.idle
    · exact settled.start
  · simp
  · simp
  · simp [list,gpfifo_eq]
  · intro other distinct
    simp [mine,distinct.symm]
  · intro other distinct
    simp [mine,distinct.symm]
  · intro entry member _
    simp [list,member]

/-- An entry strictly inside the list leaves others behind. -/
theorem erase_ne_nil (member : gpfifo ∈ pending) (notFirst : pending.head? ≠ some gpfifo) :
    pending.erase gpfifo ≠ [] := by
  cases pending with
  | nil => simp at member
  | cons first rest =>
    have different : first ≠ gpfifo := fun same => notFirst (by simp [same])
    simp [different]

theorem Updated.same_current (updated : Updated pb c pb') :
    (pb'.chunks c).currentPush = (pb.chunks c).currentPush := by
  cases updated <;> simp

/-- What completing a push does to its chunk. A push in progress there keeps its start. -/
structure Erased (c : ChunkIndex) (gpfifo : Gpfifo) (pb pb' : State) (push' : PushId → Push) :
    Prop where
  chunkInv : ChunkInv c pb' push'
  elsewhere : Elsewhere c pb pb'
  pending : (pb'.chunks c).pendingGpfifos = (pb.chunks c).pendingGpfifos.erase gpfifo
  current : (pb'.chunks c).currentPush = (pb.chunks c).currentPush
  start : (pb.chunks c).currentPush ≠ none →
    (pb'.chunks c).nextPushStart = (pb.chunks c).nextPushStart

theorem ChunkInv.markCompleted (inv : ChunkInv c pb push)
    (member : gpfifo ∈ (pb.chunks c).pendingGpfifos)
    (listed : ∀ other ∈ (pb.chunks c).pendingGpfifos.erase gpfifo,
      push' other.push = .submitted other) :
    Erased c gpfifo pb (markCompleted pb gpfifo) push' := by
  have home := offsetToChunk_inside (inv.placed.inside gpfifo member)
  have sub := erase_sublist (a := gpfifo) (l := (pb.chunks c).pendingGpfifos)
  have placed := inv.placed.sublist sub
  have notIdle : pb.idleChunks c ≠ true := fun flag => by
    simp [(inv.idle.mp flag).2] at member
  have ready := fun premise => (inv.ready premise).sublist sub
  set erased := pb.modify c fun chunk =>
    { chunk with pendingGpfifos := (pb.chunks c).pendingGpfifos.erase gpfifo } with erased_eq
  have chunk : erased.chunks c =
      { pb.chunks c with pendingGpfifos := (pb.chunks c).pendingGpfifos.erase gpfifo } := by
    simp [erased_eq]
  simp only [Pushbuffer.markCompleted,home,← erased_eq,chunk]
  split
  · -- the first or the last entry, with nobody in the way: the chunk is updated
    rename_i update
    have updated : Updated erased c (updateChunk erased c) :=
      updateChunk_updated (by rw [chunk]; exact placed)
    have settled := updated.settled (fun flag => by rw [chunk]; exact ready (.inl flag))
      (fun flag => absurd flag notIdle)
    have list : ((updateChunk erased c).chunks c).pendingGpfifos =
        (pb.chunks c).pendingGpfifos.erase gpfifo := by rw [updated.same_pending,chunk]
    have current : ((updateChunk erased c).chunks c).currentPush = none := by
      rw [updated.same_current,chunk]
      exact update.2
    refine ⟨⟨?_,?_,?_,?_,fun _ => current,?_,settled.start⟩,
      (pb.modify_elsewhere c _).trans updated.elsewhere,list,current.trans update.2.symm,
      fun busy => absurd update.2 busy⟩
    · exact list ▸ placed
    · exact list ▸ inv.nodup.erase gpfifo
    · exact list ▸ listed
    · simpa [current] using settled.ready
    · simpa [current] using settled.idle
  next quiet =>
    refine ⟨⟨?_,?_,?_,?_,?_,?_,fun flag => absurd flag notIdle⟩,pb.modify_elsewhere c _,?_,?_,?_⟩ <;>
      simp only [chunk]
    · exact placed
    · exact inv.nodup.erase gpfifo
    · exact listed
    · exact ready
    · exact inv.available
    · refine ⟨fun flag => absurd flag notIdle,fun ⟨free,empty⟩ => ?_⟩
      exact absurd empty (erase_ne_nil member fun first => quiet ⟨.inl first,free⟩)
    · exact fun _ => trivial

theorem Inv.complete (inv : Inv s) (submitted : s.push id = .submitted gpfifo) :
    Inv ⟨markCompleted s.pb gpfifo,update s.push id .completed⟩ := by
  obtain ⟨tag,c,member⟩ := inv.submitted id gpfifo submitted
  have chunkInv := inv.chunk c
  have only : ∀ d, ∀ other ∈ (s.pb.chunks d).pendingGpfifos, other.push = id → other = gpfifo := by
    intro d other there same
    have listed := (inv.chunk d).listed other there
    rw [same,submitted] at listed
    exact (Push.submitted.inj listed).symm
  have gone : ∀ other ∈ (s.pb.chunks c).pendingGpfifos.erase gpfifo, other.push ≠ id := by
    intro other there same
    have still := only c other (mem_of_mem_erase there) same
    subst still
    exact chunkInv.nodup.not_mem_erase there
  have erased : Erased c gpfifo s.pb (markCompleted s.pb gpfifo)
      (update s.push id .completed) := by
    refine chunkInv.markCompleted member fun other there => ?_
    rw [update_of_ne (gone other there)]
    exact chunkInv.listed other (mem_of_mem_erase there)
  refine inv.local erased.elsewhere ?_ ?_ ?_ erased.chunkInv ?_ ?_ ?_ ?_ ?_ ?_
  · intro d different other there same
    have still := only d other there same
    subst still
    have here := offsetToChunk_inside (chunkInv.placed.inside other member)
    exact different ((offsetToChunk_inside ((inv.chunk d).placed.inside other there)).symm.trans here)
  · intro d _ isCurrent
    simp [inv.current,submitted] at isCurrent
  · simp
  · simp [erased.current,inv.current,submitted]
  · simp
  · simp
  · intro other _
    rw [erased.current]
  · intro other _ busy
    exact erased.start (by simp [busy])
  · intro other there distinct
    rw [erased.pending,chunkInv.nodup.mem_erase_iff]
    exact ⟨fun same => distinct (same ▸ tag),there⟩

/-! Whole runs. -/

theorem Inv.step (inv : Inv s) {event : Event} (run : step s event = some s') : Inv s' := by
  cases event with
  | claim id =>
    simp only [Pushbuffer.step] at run
    split at run
    · obtain ⟨⟨pb,c⟩,claimed,result⟩ := Option.map_eq_some_iff.mp run
      cases result
      exact inv.claim ‹_› claimed
    · cases run
  | «begin» id =>
    simp only [Pushbuffer.step] at run
    split at run
    · cases run
      exact inv.turn ‹_› (by simp [eq_comm]) (by simp) nofun
    · cases run
  | fail id =>
    simp only [Pushbuffer.step] at run
    split at run
    · cases run
      exact inv.turn ‹_› (by simp [eq_comm]) nofun nofun
    · cases run
  | finish id size =>
    simp only [Pushbuffer.step] at run
    split at run
    · split at run
      next sizes =>
        cases run
        exact inv.finish ‹_› sizes.1 sizes.2
      · cases run
    · cases run
  | complete id =>
    simp only [Pushbuffer.step] at run
    split at run
    · cases run
      exact inv.complete ‹_›
    · cases run

theorem Inv.execute {events : List Event} (inv : Inv s) (run : execute events s = some s') :
    Inv s' := by
  induction events generalizing s with
  | nil =>
    cases run
    exact inv
  | cons event events hypothesis =>
    obtain ⟨next,first,rest⟩ := Option.bind_eq_some_iff.mp run
    exact hypothesis (inv.step first) rest

/-- The space of a push that starts at an offset of the pushbuffer. -/
def windowAt (offset : Nat) : Extent := ⟨offset,offset + maxPushSize⟩

def Here (push : Push) (c : ChunkIndex) : Prop :=
  push = .claimed c ∨ (∃ offset, push = .ongoing c offset) ∨
    ∃ gpfifo, push = .submitted gpfifo ∧ offsetToChunk gpfifo.pushbufferOffset = c

structure Exclusive (s : System) : Prop where
  inside : ∀ id c offset, s.push id = .ongoing c offset →
    chunkGetOffset c ≤ offset ∧ offset + maxPushSize ≤ chunkGetOffset c + chunkSize
  submitted : ∀ id c offset other gpfifo, s.push id = .ongoing c offset →
    s.push other = .submitted gpfifo → (windowAt offset).Apart gpfifo.extent
  ongoing : ∀ id c offset other d offset', s.push id = .ongoing c offset →
    s.push other = .ongoing d offset' → id ≠ other → (windowAt offset).Apart (windowAt offset')
  single : ∀ c id offset other offset', s.push id = .ongoing c offset →
    s.push other = .ongoing c offset' → id = other
  idle : ∀ c, (∀ id, ¬Here (s.push id) c) →
    s.pb.idleChunks c = true ∧ (s.pb.chunks c).nextPushStart = 0

theorem Inv.ready (inv : Inv s) {offset : Nat} (running : s.push id = .ongoing c offset) :
    Ready c (s.pb.chunks c).pendingGpfifos (s.pb.chunks c).nextPushStart := by
  have mine := (inv.current c id).mpr (.inr (.inr ⟨offset,running⟩))
  exact (inv.chunk c).ready (.inr (by simp [mine]))

theorem Inv.inside (inv : Inv s) {offset : Nat} (running : s.push id = .ongoing c offset) :
    chunkGetOffset c ≤ offset ∧ offset + maxPushSize ≤ chunkGetOffset c + chunkSize := by
  have fits := (inv.ready running).fits
  have start := inv.ongoing id c offset running
  omega

/-- Different chunks do not share bytes. -/
theorem chunks_apart {a b : Extent} (different : c ≠ d)
    (inside : chunkGetOffset c ≤ a.start ∧ a.stop ≤ chunkGetOffset c + chunkSize)
    (inside' : chunkGetOffset d ≤ b.start ∧ b.stop ≤ chunkGetOffset d + chunkSize) : a.Apart b := by
  have apart : c.val < d.val ∨ d.val < c.val := Nat.lt_or_gt_of_ne fun same => different (Fin.ext same)
  unfold Extent.Apart Extent.Before
  simp only [chunkGetOffset] at inside inside'
  rcases apart with less | less
  · have := Nat.mul_le_mul_right chunkSize (Nat.succ_le_of_lt less)
    rw [Nat.succ_mul] at this
    omega
  · have := Nat.mul_le_mul_right chunkSize (Nat.succ_le_of_lt less)
    rw [Nat.succ_mul] at this
    omega

/-- A chunk whose push failed is in use for another push. -/
def Recovered (s : System) : Prop :=
  ∀ id c, s.push id = .failed c → ∃ other, Here (s.push other) c

theorem Inv.exclusive (inv : Inv s) (recovered : Recovered s) : Exclusive s where
  inside _ _ _ running := inv.inside running
  submitted id c offset other gpfifo running submitted := by
    obtain ⟨_,d,member⟩ := inv.submitted other gpfifo submitted
    have extent := (inv.chunk d).placed.inside gpfifo member
    rcases eq_or_ne c d with rfl | different
    · have apart := pairwise_append.mp (inv.ready running).cyclic.apart
      have start := inv.ongoing id c offset running
      have clear := apart.2.2 gpfifo.extent (mem_map_of_mem member) _ (mem_singleton_self _)
      rw [start]
      exact clear.symm
    · exact chunks_apart different (inv.inside running) ⟨extent.low,extent.high⟩
  ongoing id c offset other d offset' running running' distinct := by
    rcases eq_or_ne c d with rfl | different
    · have mine := (inv.current c id).mpr (.inr (.inr ⟨offset,running⟩))
      exact absurd (.inr (.inr ⟨offset',running'⟩)) (inv.only mine distinct.symm)
    · exact chunks_apart different (inv.inside running) (inv.inside running')
  single c id offset other offset' running running' := by
    by_contra distinct
    have mine := (inv.current c id).mpr (.inr (.inr ⟨offset,running⟩))
    exact inv.only mine (Ne.symm distinct) (.inr (.inr ⟨offset',running'⟩))
  idle c nobody := by
    have chunkInv := inv.chunk c
    have free : (s.pb.chunks c).currentPush = none := by
      by_contra busy
      obtain ⟨id,mine⟩ := Option.ne_none_iff_exists'.mp busy
      rcases (inv.current c id).mp mine with claimed | failed | running
      · exact nobody id (.inl claimed)
      · obtain ⟨other,here⟩ := recovered id c failed
        exact nobody other here
      · exact nobody id (.inr (.inl running))
    have empty : (s.pb.chunks c).pendingGpfifos = [] := by
      refine eq_nil_iff_forall_not_mem.mpr fun gpfifo member => ?_
      have home := offsetToChunk_inside (chunkInv.placed.inside gpfifo member)
      exact nobody gpfifo.push (.inr (.inr ⟨gpfifo,chunkInv.listed gpfifo member,home⟩))
    have flag := chunkInv.idle.mpr ⟨free,empty⟩
    exact ⟨flag,(chunkInv.start flag).1⟩

theorem Inv.recovered (inv : Inv s) (exclusive : Exclusive s) : Recovered s := by
  intro id c failed
  by_contra nobody
  have idle := (exclusive.idle c (not_exists.mp nobody)).1
  have mine := (inv.current c id).mpr (.inr (.inl failed))
  rw [((inv.chunk c).idle.mp idle).1] at mine
  cases mine

/-- A step is one of its own push, and only a begin that fails makes it a failed one. -/
theorem step_push {event : Event} (run : step s event = some s') :
    ∃ state,s'.push = update s.push event.id state ∧
      ∀ c,state = .failed c → event = .fail event.id := by
  cases event with
  | claim id =>
    simp only [step] at run
    split at run
    · obtain ⟨_,-,rfl⟩ := Option.map_eq_some_iff.mp run
      exact ⟨_,rfl,nofun⟩
    · cases run
  | finish id size =>
    simp only [step] at run
    split at run
    · split at run <;> cases run
      exact ⟨_,rfl,nofun⟩
    · cases run
  | fail id =>
    simp only [step] at run
    split at run <;> cases run
    exact ⟨_,rfl,fun _ _ => rfl⟩
  | _ =>
    simp only [step] at run
    split at run <;> cases run
    exact ⟨_,rfl,nofun⟩

theorem execute_unfailed {events : List Event} (run : execute events s = some s')
    (begins : ∀ id,.fail id ∉ events) (unfailed : ∀ id c,s.push id ≠ .failed c) :
    ∀ id c,s'.push id ≠ .failed c := by
  induction events generalizing s with
  | nil => cases run; exact unfailed
  | cons event events ih =>
    obtain ⟨next,first,rest⟩ := Option.bind_eq_some_iff.mp run
    refine ih rest (fun id later => begins id (mem_cons_of_mem _ later)) fun id c failed => ?_
    obtain ⟨state,moved,only⟩ := step_push first
    rw [moved] at failed
    rcases eq_or_ne id event.id with rfl | other
    · rw [update_self] at failed
      exact begins event.id (only c failed ▸ mem_cons_self)
    · rw [update_of_ne other] at failed
      exact unfailed id c failed

/-- Whatever the threads do and in whichever order the GPU completes pushes, nobody writes to
the space of another push. A chunk is idle when nobody uses it, just if no push has failed there
after it claimed the chunk. -/
theorem pushes_exclusive {events : List Event} (run : execute events .start = some s) :
    (Exclusive s ↔ Recovered s) ∧ ((∀ id,.fail id ∉ events) → Exclusive s) := by
  have inv := inv_start.execute run
  refine ⟨⟨inv.recovered,inv.exclusive⟩,fun begins => inv.exclusive fun id c failed => ?_⟩
  exact absurd failed (execute_unfailed run begins (fun _ _ => nofun) id c)

/-- Every chunk gets a push; the next two go behind pending ones, in chunks 0 and 1. The
push of chunk 0 completes while the second one of that chunk is in progress. -/
def crowdedRun : List Event :=
  (range 16).flatMap (fun id => [.claim id,.begin id,.finish id maxPushSize]) ++
    [.claim 16,.begin 16,.claim 17,.complete 0,.begin 17]

theorem pushes_exclusive_crowded : ∃ s, execute crowdedRun .start = some s ∧
    s.push 16 = .ongoing ⟨0,by decide⟩ maxPushSize ∧
      s.push 17 = .ongoing ⟨1,by decide⟩ (chunkSize + maxPushSize) ∧ Exclusive s := by
  have completes : (execute crowdedRun .start).isSome := by decide +kernel
  obtain ⟨s,run⟩ := Option.isSome_iff_exists.mp completes
  have pushes : (execute crowdedRun .start).map (fun s => (s.push 16,s.push 17)) =
      some (.ongoing ⟨0,by decide⟩ maxPushSize,.ongoing ⟨1,by decide⟩ (chunkSize + maxPushSize)) := by
    decide +kernel
  rw [run] at pushes
  have both := Prod.mk.inj (Option.some.inj pushes)
  exact ⟨s,run,both.1,both.2,(pushes_exclusive run).2 (by simp [crowdedRun])⟩

/-- Fifteen pushes are in progress, and the last chunk is full of submitted ones. -/
def fullRun : List Event :=
  (range 15).map .claim ++ (range' 15 8).flatMap fun push =>
    [.claim push,.begin push,.finish push maxPushSize]

/-- No chunk can be claimed at first, then one by a push that has found an error. All other pushes
of the chunk complete, and it is not idle. -/
theorem failed_push_keeps_chunk :
    (execute fullRun .start).map (fun s => (tryClaimChunk s.pb 23).isNone) = some true ∧
    (execute (fullRun ++ [.complete 15,.claim 23,.fail 23] ++ (range' 16 7).map .complete)
      .start).map (fun s => (s.push 23,(s.pb.chunks ⟨15,by decide⟩).pendingGpfifos,
        s.pb.idleChunks ⟨15,by decide⟩)) = some (.failed ⟨15,by decide⟩,[],false) := by
  decide +kernel

end GpuExt.Pushbuffer
