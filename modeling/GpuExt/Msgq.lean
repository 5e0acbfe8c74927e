import GpuExt.NvTypes
import GpuExt.Word

/-! Message queues over a shared backing store: creation, linking, and the calls of both
endpoints. A call is split where it touches the shared pointers twice. Buffers are byte
offsets from the first entry. -/
namespace GpuExt.Msgq

open Word

structure TxHeader where
  version : NvU32
  size : NvU32
  msgSize : NvU32
  msgCount : NvU32
  writePtr : NvU32
  flags : NvU32
  rxHdrOff : NvU32
  entryOff : NvU32
  deriving DecidableEq, Repr

def msgSizeMin : NvU32 := 16
def metaMinAlign : NvU32 := 3
def metaMaxAlign : NvU32 := 12
def msgqVersion : NvU32 := 0
def txHeaderSize : NvU32 := 32
def rxHeaderSize : NvU32 := 4

/-- The endpoint that owns the backing store. `tx` is its private copy of the header. -/
structure Sender where
  tx : TxHeader
  txReadPtr : NvU32
  txFree : NvU32
  txLinked : Bool
  deriving DecidableEq, Repr

structure Receiver where
  rx : TxHeader
  rxReadPtr : NvU32
  rxAvail : NvU32
  rxLinked : Bool
  deriving DecidableEq, Repr

def msgqTxCreate (backingStore : BitVec 64) (size msgSize hdrAlign entryAlign flags : NvU32) :
    Option Sender :=
  if msgSize < msgSizeMin ∨ msgSize > size then none
  else if hdrAlign < metaMinAlign ∨ hdrAlign > metaMaxAlign then none
  else if entryAlign < metaMinAlign ∨ entryAlign > metaMaxAlign then none
  else if backingStore = 0 then none
  else if backingStore &&& (hdrAlign - 1).setWidth 64 ≠ 0 then none
  else
    let rxHdrOff := alignUp txHeaderSize (1 <<< hdrAlign.toNat)
    let entryOff := alignUp (rxHdrOff + rxHeaderSize) (1 <<< entryAlign.toNat)
    if size < entryOff + msgSize then none
    else
      let msgCount := (size - entryOff) / msgSize
      some ⟨⟨msgqVersion,size,msgSize,msgCount,0,flags,rxHdrOff,entryOff⟩,0,msgCount - 1,true⟩

/-- `header` is what the other side has written; `ownRxHdrOff` belongs to the queue that this
endpoint sends on, if any. -/
def msgqRxLink (header : TxHeader) (backingStore : BitVec 64) (size msgSize ownRxHdrOff : NvU32) :
    Except Int Receiver :=
  if msgSize < msgSizeMin then .error (-2)
  else if msgSize > size then .error (-3)
  else if backingStore = 0 then .error (-5)
  else if size < header.entryOff + msgSize then .error (-6)
  else if header.size ≠ size then .error (-7)
  else if header.msgSize ≠ msgSize then .error (-8)
  else if header.version ≠ msgqVersion then .error (-9)
  -- The second sum is one of `size_t`.
  else if header.rxHdrOff < txHeaderSize ∨
      header.entryOff.toNat < ownRxHdrOff.toNat + rxHeaderSize.toNat ∨
      header.msgCount ≠ (size - header.entryOff) / msgSize then .error (-10)
  else .ok ⟨header,0,0,true⟩

/-- Bring a sum of two indices back into the ring. -/
def wrap (index msgCount : NvU32) : NvU32 := if index ≥ msgCount then index - msgCount else index

theorem wrap_toNat (index count : NvU32) : (wrap index count).toNat =
      if count.toNat ≤ index.toNat then index.toNat - count.toNat else index.toNat := by
  unfold wrap
  simp only [BitVec.le_def]
  split
  next above => exact BitVec.toNat_sub_of_le above
  next => rfl

section

variable (q : Sender) (readIncoming n : NvU32)

/-- `readIncoming` is the value of the shared read pointer. -/
def msgqTxGetFreeSpace : Sender × NvU32 :=
  if !q.txLinked then (q,0)
  else if readIncoming ≥ q.tx.msgCount then ({ q with txReadPtr := readIncoming },0)
  else
    let txFree := wrap (readIncoming + q.tx.msgCount - q.tx.writePtr - 1) q.tx.msgCount
    ({ q with txReadPtr := readIncoming, txFree },txFree)

def msgqTxGetWriteBuffer : Sender × Option NvU32 :=
  if !q.txLinked then (q,none)
  else
    let (q,free) := if n ≥ q.txFree then msgqTxGetFreeSpace q readIncoming else (q,q.txFree)
    if n ≥ free then (q,none)
    else (q,some (wrap (q.tx.writePtr + n) q.tx.msgCount * q.tx.msgSize))

/-- `msgqTxSubmitBuffers` up to the publication of the write pointer. -/
def msgqTxSubmitCheck : Sender × Bool :=
  if !q.txLinked then (q,false)
  else
    let (q,free) := if n > q.txFree then msgqTxGetFreeSpace q readIncoming else (q,q.txFree)
    if n > free then (q,false)
    else
      let writePtr := wrap (q.tx.writePtr + n) q.tx.msgCount
      ({ q with tx := { q.tx with writePtr } },true)

/-- The rest of `msgqTxSubmitBuffers`. -/
def msgqTxSubmitDone : Sender := { q with txFree := q.txFree - n }

end

section

variable (q : Receiver) (writeIncoming n : NvU32)

def msgqRxGetReadAvailable : Receiver × NvU32 :=
  if !q.rxLinked then (q,0)
  else
    let q := { q with rx := { q.rx with writePtr := writeIncoming } }
    if writeIncoming ≥ q.rx.msgCount then (q,0)
    else
      let rxAvail := wrap (writeIncoming + q.rx.msgCount - q.rxReadPtr) q.rx.msgCount
      ({ q with rxAvail },rxAvail)

def msgqRxGetReadBuffer : Receiver × Option NvU32 :=
  if !q.rxLinked then (q,none)
  else
    let (q,avail) := if n ≥ q.rxAvail then msgqRxGetReadAvailable q writeIncoming else (q,q.rxAvail)
    if n ≥ avail then (q,none)
    else (q,some (wrap (q.rxReadPtr + n) q.rx.msgCount * q.rx.msgSize))

/-- `msgqRxMarkConsumed` up to the publication of the read pointer. -/
def msgqRxConsumeCheck : Receiver × Bool :=
  if !q.rxLinked then (q,false)
  else
    let (q,avail) := if n > q.rxAvail then msgqRxGetReadAvailable q writeIncoming else (q,q.rxAvail)
    if n > avail then (q,false)
    else ({ q with rxReadPtr := wrap (q.rxReadPtr + n) q.rx.msgCount },true)

/-- The rest of `msgqRxMarkConsumed`. -/
def msgqRxConsumeDone : Receiver := { q with rxAvail := q.rxAvail - n }

end

/-! Both endpoints at work. -/

/-- A buffer in the hands of an endpoint, with its number in the order of submission. -/
structure Buffer where
  number : Nat
  offset : NvU32
  deriving DecidableEq, Repr

/-- A call between its check and its publication, with the contents that it passes on. -/
structure Transfer (α : Type) where
  n : NvU32
  contents : List α
  deriving DecidableEq, Repr

/-- `writePtr`, `readPtr` and `entries` are shared. The last five fields are the history; no
code reads them. -/
structure State (α : Type) where
  writePtr : NvU32
  readPtr : NvU32
  entries : NvU32 → α
  sender : Sender
  receiver : Receiver
  submitting : Option (Transfer α)
  consuming : Option (Transfer α)
  writable : List Buffer
  readable : List Buffer
  submitted : List α
  received : List α
  obtained : List (Nat × α)

inductive Event (α : Type) where
  | getFreeSpace
  | getWriteBuffer (n : NvU32)
  | write (buffer : Buffer) (content : α)
  | submit (n : NvU32)
  | publishWrite
  | getReadAvailable
  | getReadBuffer (n : NvU32)
  | read (buffer : Buffer)
  | consume (n : NvU32)
  | publishRead
  deriving DecidableEq, Repr

variable {α : Type}

/-- Contents of `n` slots of the ring from `first` on. -/
def slots (entries : NvU32 → α) (first n : NvU32) (header : TxHeader) : List α :=
  (List.range n.toNat).map fun i =>
    entries (wrap (first + BitVec.ofNat 32 i) header.msgCount * header.msgSize)

def step (s : State α) : Event α → Option (State α)
  | .getFreeSpace =>
    if s.submitting.isSome then none
    else some { s with sender := (msgqTxGetFreeSpace s.sender s.readPtr).1 }
  | .getWriteBuffer n =>
    if s.submitting.isSome then none
    else
      match msgqTxGetWriteBuffer s.sender s.readPtr n with
      | (sender,none) => some { s with sender }
      | (sender,some offset) =>
        let buffer := ⟨s.submitted.length + n.toNat,offset⟩
        some { s with sender, writable := buffer :: s.writable }
  | .write buffer content =>
    if s.submitting.isSome ∨ buffer ∉ s.writable then none
    else some { s with entries := Function.update s.entries buffer.offset content }
  | .submit n =>
    if s.submitting.isSome then none
    else
      match msgqTxSubmitCheck s.sender s.readPtr n with
      | (sender,false) => some { s with sender }
      | (sender,true) =>
        let contents := slots s.entries s.sender.tx.writePtr n s.sender.tx
        -- The buffers that are submitted are no longer the sender's.
        let kept := s.writable.filter fun buffer => s.submitted.length + n.toNat ≤ buffer.number
        some { s with sender, submitting := some ⟨n,contents⟩, writable := kept }
  | .publishWrite => do
    let ⟨n,contents⟩ ← s.submitting
    return { s with
      writePtr := s.sender.tx.writePtr
      sender := msgqTxSubmitDone s.sender n
      submitting := none
      submitted := s.submitted ++ contents }
  | .getReadAvailable =>
    if s.consuming.isSome then none
    else some { s with receiver := (msgqRxGetReadAvailable s.receiver s.writePtr).1 }
  | .getReadBuffer n =>
    if s.consuming.isSome then none
    else
      match msgqRxGetReadBuffer s.receiver s.writePtr n with
      | (receiver,none) => some { s with receiver }
      | (receiver,some offset) =>
        let buffer := ⟨s.received.length + n.toNat,offset⟩
        some { s with receiver, readable := buffer :: s.readable }
  | .read buffer =>
    if s.consuming.isSome ∨ buffer ∉ s.readable then none
    else some { s with obtained := s.obtained ++ [(buffer.number,s.entries buffer.offset)] }
  | .consume n =>
    if s.consuming.isSome then none
    else
      match msgqRxConsumeCheck s.receiver s.writePtr n with
      | (receiver,false) => some { s with receiver }
      | (receiver,true) =>
        let contents := slots s.entries s.receiver.rxReadPtr n s.receiver.rx
        let kept := s.readable.filter fun buffer => s.received.length + n.toNat ≤ buffer.number
        some { s with receiver, consuming := some ⟨n,contents⟩, readable := kept }
  | .publishRead => do
    let ⟨n,contents⟩ ← s.consuming
    return { s with
      readPtr := s.receiver.rxReadPtr
      receiver := msgqRxConsumeDone s.receiver n
      consuming := none
      received := s.received ++ contents }

def execute : List (Event α) → State α → Option (State α)
  | [], s => some s
  | event :: events, s => (step s event).bind (execute events)

/-- Both endpoints right after linking: the sender has written its header, the receiver has
read it and cleared the read pointer. -/
def linked (sender : Sender) (receiver : Receiver) (entries : NvU32 → α) : State α :=
  ⟨sender.tx.writePtr,0,entries,sender,receiver,none,none,[],[],[],[],[]⟩

end GpuExt.Msgq
