import GpuExt.GspRecord
import GpuExt.MsgqPeer

/-! `GspMsgQueueReceiveStatus` as a machine that asks the queue for buffers, copies elements to the
staging area and marks them consumed. Each answer of the queue takes it one step further. -/
namespace GpuExt.Gsp

def nothingToDo : NvStatus := .other 0x10006
def notReady : NvStatus := .other 0x55
def invalidData : NvStatus := .other 0x25
def invalidParamStruct : NvStatus := .other 0x3A
def generic : NvStatus := .other 0xFFFF

/-- Confidential computing: the elements are decrypted in place, behind the header. -/
structure Config where
  confidential : Bool
  decrypt : Staging → Nat → NvStatus × Staging
  keepsHeader : ∀ staging n, ∀ k < 6, (decrypt staging n).2 k = staging k

def plain : Config := ⟨false,fun staging _ => (.ok,staging),fun _ _ _ _ => rfl⟩

structure Retry where
  nRetries : Nat
  nMaxRetries : Nat
  seqMismatchDiff : NvU32

inductive Pc where
  /-- Before `msgqRxGetReadBuffer(i)`. -/
  | fetch (i : Nat)
  /-- Before the copy of element `i`. -/
  | copy (i : Nat)
  /-- Before `msgqRxMarkConsumed` for an old record. -/
  | discard
  /-- Before `msgqRxMarkConsumed` for an accepted record. -/
  | consume
  | done (status : NvStatus)
  deriving DecidableEq

structure Rx where
  staging : Staging
  rxSeqNum : NvU32
  retry : Retry
  nElements : NvU32
  pc : Pc

def receiveStart (staging : Staging) (rxSeqNum : NvU32) : Rx :=
  ⟨staging,rxSeqNum,⟨0,3,0xFFFFFFFF⟩,1,.fetch 0⟩

section

variable (cfg : Config) (rx : Rx)

/-- The end of a turn that failed. The counters are compared as 32-bit numbers. -/
def Rx.again (status : NvStatus) : Rx :=
  let nRetries := rx.retry.nRetries + 1
  let rx := { rx with retry := { rx.retry with nRetries } }
  if nRetries % 2 ^ 32 < rx.retry.nMaxRetries % 2 ^ 32 then
    { rx with nElements := 1, pc := .fetch 0 }
  else { rx with pc := .done status }

/-- The number of bytes that are summed up. -/
def checkedLength : NvU32 :=
  if cfg.confidential then rx.nElements * 4096 else msgLen rx.staging

/-- After the retry loop: the length is checked, and the record accepted. -/
def Rx.accept : Rx :=
  if lengthOk rx.staging then { rx with rxSeqNum := rx.rxSeqNum + 1, pc := .consume }
  else { rx with pc := .done invalidParamStruct }

def Rx.decrypt : Rx :=
  if cfg.confidential then
    let decrypted := cfg.decrypt rx.staging rx.nElements.toNat
    let rx := { rx with staging := decrypted.2 }
    if decrypted.1 ≠ .ok then { rx with pc := .done decrypted.1 } else rx.accept
  else rx.accept

/-- The checks of a record that has been copied. -/
def Rx.check : Rx :=
  if checkSum32 rx.staging (checkedLength cfg rx).toNat ≠ 0 then rx.again invalidData
  else if seqNum rx.staging ≠ rx.rxSeqNum then
    if seqNum rx.staging < rx.rxSeqNum ∧
        rx.rxSeqNum - seqNum rx.staging < rx.retry.seqMismatchDiff then
      { rx with
        retry := { rx.retry with seqMismatchDiff := rx.rxSeqNum - seqNum rx.staging }
        pc := .discard }
    else rx.again invalidData
  else rx.decrypt cfg

/-- `msgqRxGetReadBuffer(i)` has returned. -/
def Rx.gotBuffer (i : Nat) (found : Bool) : Rx :=
  if found then { rx with pc := .copy i }
  else if i = 0 then { rx with pc := .done nothingToDo }
  else rx.again notReady

/-- Element `i` has been read. The first one has the number of elements. -/
def Rx.gotPage (i : Nat) (page : Page) : Rx :=
  let staging := load rx.staging i page
  let nElements := if i = 0 then elemCount staging else rx.nElements
  let rx := { rx with staging, nElements }
  if i + 1 < nElements.toNat then { rx with pc := .fetch (i + 1) } else rx.check cfg

/-- The old record has been marked consumed; that it fails is only reported. -/
def Rx.discarded : Rx :=
  { rx with retry := { rx.retry with nMaxRetries := rx.retry.nMaxRetries + 1 } }.again invalidData

def Rx.consumed (ok : Bool) : Rx :=
  { rx with pc := .done (if ok then .ok else generic) }

/-! The machine on a queue whose ring and write pointer the firmware writes at any time. -/

end

/-- The metadata of the queue lie behind the staging area, and a seventeenth element is copied
over them. -/
def metadataOf (page : Page) : Msgq.Receiver where
  rx := ⟨high (page 15),low (page 16),high (page 16),low (page 17),high (page 17),low (page 18),
    high (page 18),low (page 19)⟩
  rxReadPtr := high (page 19)
  rxAvail := low (page 20)
  rxLinked := (high (page 20)).extractLsb' 0 8 ≠ 0

/-- What the firmware presents to a step. -/
structure Presented where
  writeIncoming : NvU32
  page : Page

/-- A record that was marked consumed, with the read pointer before. -/
structure Taken where
  seqNum : NvU32
  nElements : NvU32
  readPtr : NvU32
  deriving DecidableEq

/-- `extent` is the end of the part of the staging area that was touched. -/
structure Receiving where
  rx : Rx
  queue : Msgq.Receiver
  extent : Nat
  discards : List Taken
  accepted : Option Taken

def Receiving.start (queue : Msgq.Receiver) (staging : Staging) (rxSeqNum : NvU32) : Receiving :=
  ⟨receiveStart staging rxSeqNum,queue,0,[],none⟩

/-- Up to where a record is summed up, if its elements are complete. -/
def summed (cfg : Config) (rx : Rx) (i : Nat) (page : Page) : Nat :=
  let staging := load rx.staging i page
  let nElements := if i = 0 then elemCount staging else rx.nElements
  if i + 1 < nElements.toNat then 0
  else ((checkedLength cfg { rx with staging, nElements }).toNat + 7) / 8 * 8

def Receiving.step (cfg : Config) (s : Receiving) (presented : Presented) : Receiving :=
  let taken : Taken := ⟨seqNum s.rx.staging,s.rx.nElements,s.queue.rxReadPtr⟩
  match s.rx.pc with
  | .fetch i =>
    let called := Msgq.msgqRxGetReadBuffer s.queue presented.writeIncoming (BitVec.ofNat 32 i)
    { s with rx := s.rx.gotBuffer i called.2.isSome, queue := called.1 }
  | .copy i =>
    { s with
      rx := s.rx.gotPage cfg i presented.page
      queue := if i = 16 then metadataOf presented.page else s.queue
      extent := max s.extent (max (4096 * (i + 1)) (summed cfg s.rx i presented.page)) }
  | .discard =>
    { s with
      rx := s.rx.discarded
      queue := Msgq.msgqRxMarkConsumed s.queue presented.writeIncoming s.rx.nElements
      discards := s.discards ++ [taken] }
  | .consume =>
    let checked := Msgq.msgqRxConsumeCheck s.queue presented.writeIncoming s.rx.nElements
    { s with
      rx := s.rx.consumed checked.2
      queue := Msgq.msgqRxMarkConsumed s.queue presented.writeIncoming s.rx.nElements
      accepted := if checked.2 then some taken else none }
  | .done _ => s

def Receiving.run (cfg : Config) (s : Receiving) (presented : List Presented) : Receiving :=
  presented.foldl (Receiving.step cfg) s

end GpuExt.Gsp
