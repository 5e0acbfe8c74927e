import GpuExt.GspReceive
import GpuExt.MsgqFifo

/-! `GspMsgQueueSendCommand` and the receive loop at the two ends of one ring, without encryption.
Every call of the queue, every element that is copied and every publication of a pointer is a step
of its own. -/
namespace GpuExt.Gsp

open Msgq (slotAt)

def busyRetry : NvStatus := .other 0x3
def invalidState : NvStatus := .other 0x40

inductive TxPc where
  | idle
  /-- Before `msgqTxGetWriteBuffer(i)`. -/
  | waiting (i : Nat)
  | copying (i : Nat) (offset : NvU32)
  /-- Before `msgqTxSubmitBuffers`. -/
  | submitting
  | publishing

/-- `record` is what the caller wants to be sent. The finished calls are the history; no code
reads them. -/
structure Tx where
  staging : Staging
  txSeqNum : NvU32
  pc : TxPc
  record : Staging
  results : List (Staging × NvStatus)

section

variable (tx : Tx) (s : Link) (rx : Rx)

def Tx.finish (status : NvStatus) : Tx :=
  { tx with pc := .idle, results := tx.results ++ [(tx.record,status)] }

/-- The sequence number advances only if it was used. -/
def Tx.sent : Tx :=
  let tx := { tx with txSeqNum := tx.txSeqNum + 1 }
  tx.finish .ok

/-- The head of the copy loop. -/
def Tx.next (i : Nat) : Tx :=
  { tx with pc := if i < (elemCount tx.staging).toNat then .waiting i else .submitting }

def Tx.send (record : Staging) : Tx :=
  let tx := { tx with record, staging := record }
  if lengthOk record then { tx with staging := prepare record tx.txSeqNum }.next 0
  else tx.finish invalidParamStruct

/-- `element` is `pNextElement` of the receiver. The finished calls of the receiver are kept with
the staging area that they left. -/
structure Link where
  queue : Msgq.State Page
  tx : Tx
  rx : Rx
  element : NvU32
  returns : List (Staging × NvStatus)

def Link.start (sender : Msgq.Sender) (receiver : Msgq.Receiver) (entries : NvU32 → Page)
    (txStaging rxStaging : Staging) : Link where
  queue := Msgq.linked sender receiver entries
  tx := ⟨txStaging,0,.idle,txStaging,[]⟩
  rx := { receiveStart rxStaging 0 with pc := .done .ok }
  element := 0
  returns := []

/-- The sender goes on. A wait in vain ends when the time has `expired`. -/
def Link.txStep (expired : Bool) : Link :=
  match s.tx.pc with
  | .idle => s
  | .waiting i =>
    let n := BitVec.ofNat 32 i
    let called := Msgq.msgqTxGetWriteBuffer s.queue.sender s.queue.readPtr n
    let writable := called.2.elim s.queue.writable fun offset =>
      ⟨s.queue.submitted.length + n.toNat,offset⟩ :: s.queue.writable
    { s with
      queue := { s.queue with sender := called.1, writable }
      tx := match called.2 with
        | some offset => { s.tx with pc := .copying i offset }
        | none => if expired then s.tx.finish busyRetry else s.tx }
  | .copying i offset =>
    { s with
      queue.entries := Function.update s.queue.entries offset (pageOf s.tx.staging i)
      tx := s.tx.next (i + 1) }
  | .submitting =>
    let n := elemCount s.tx.staging
    let called := Msgq.msgqTxSubmitCheck s.queue.sender s.queue.readPtr n
    if called.2 then
      let contents := Msgq.slots s.queue.entries s.queue.sender.tx.writePtr n s.queue.sender.tx
      { s with
        queue := { s.queue with
          sender := called.1
          submitting := some ⟨n,contents⟩
          writable := s.queue.writable.filter fun buffer =>
            s.queue.submitted.length + n.toNat ≤ buffer.number }
        tx.pc := .publishing }
    else { s with queue.sender := called.1, tx := s.tx.finish invalidState }
  | .publishing =>
    match Msgq.step s.queue .publishWrite with
    | none => s
    | some queue => { s with queue, tx := s.tx.sent }

def Link.rxTo : Link :=
  match rx.pc with
  | .done status => { s with rx, returns := s.returns ++ [(rx.staging,status)] }
  | _ => { s with rx }

/-- `msgqRxMarkConsumed` has returned. -/
def Rx.marked (ok : Bool) : Rx :=
  if rx.pc = .discard then rx.discarded else rx.consumed ok

def Link.rxStep : Link :=
  match s.rx.pc with
  | .fetch i =>
    let n := BitVec.ofNat 32 i
    let called := Msgq.msgqRxGetReadBuffer s.queue.receiver s.queue.writePtr n
    let readable := called.2.elim s.queue.readable fun offset =>
      ⟨s.queue.received.length + n.toNat,offset⟩ :: s.queue.readable
    { s with
      queue := { s.queue with receiver := called.1, readable }
      element := called.2.getD s.element }.rxTo (s.rx.gotBuffer i called.2.isSome)
  | .copy i =>
    let page := s.queue.entries s.element
    let receiver := if i = 16 then metadataOf page else s.queue.receiver
    { s with queue.receiver := receiver }.rxTo (s.rx.gotPage plain i page)
  | .discard | .consume =>
    match Msgq.step s.queue .publishRead with
    | some queue => { s with queue }.rxTo (s.rx.marked true)
    | none =>
      let n := s.rx.nElements
      let called := Msgq.msgqRxConsumeCheck s.queue.receiver s.queue.writePtr n
      if called.2 then
        let contents := Msgq.slots s.queue.entries s.queue.receiver.rxReadPtr n s.queue.receiver.rx
        { s with queue := { s.queue with
            receiver := called.1
            consuming := some ⟨n,contents⟩
            readable := s.queue.readable.filter fun buffer =>
              s.queue.received.length + n.toNat ≤ buffer.number } }
      else { s with queue.receiver := called.1 }.rxTo (s.rx.marked false)
  | .done _ => s

inductive Act where
  | send (record : Staging)
  | sender (expired : Bool)
  | receive
  | receiver

def Link.step : Act → Link
  | .send record =>
    match s.tx.pc with
    | .idle => { s with tx := s.tx.send record }
    | _ => s
  | .sender expired => s.txStep expired
  | .receive =>
    match s.rx.pc with
    | .done _ => { s with rx := receiveStart s.rx.staging s.rx.rxSeqNum }
    | _ => s
  | .receiver => s.rxStep

def Link.run (acts : List Act) : Link := acts.foldl Link.step s

/-! The history. -/

/-- The records of the calls that returned `NV_OK`. -/
def good (calls : List (Staging × NvStatus)) : List Staging :=
  calls.filterMap fun call => if call.2 = .ok then some call.1 else none

/-- The records that were sent, as the sender completed them. -/
def Link.published : List Staging :=
  (good s.tx.results).mapIdx fun k record => prepare record (BitVec.ofNat 32 k)

end

def pagesOf (staging : Staging) : List Page :=
  (List.range (elemCount staging).toNat).map (pageOf staging)

end GpuExt.Gsp
