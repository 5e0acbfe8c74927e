import GpuExt.GspReceiveRuns
import GpuExt.GspTransport

/-! Records that are sent arrive once each, in order and unchanged, at any interleaving of the two
ends. -/
namespace GpuExt.Gsp

open List BitVec Option

open Msgq (slotAt)

/-! Records. -/

/-- What the receiver checks, and what it relies on. -/
structure Valid (sent : Staging) (seq : NvU32) : Prop where
  seqNum : Gsp.seqNum sent = seq
  lengthOk : Gsp.lengthOk sent = true
  checkSum : checkSum32 sent (msgLen sent).toNat = 0
  some : 1 ≤ (elemCount sent).toNat
  few : (elemCount sent).toNat ≤ 16
  fits : (msgLen sent).toNat ≤ 4096 * (elemCount sent).toNat

section Valid

variable {record sent staging : Staging} {seq : NvU32} {n : Nat}

theorem lengthOk_iff : lengthOk record = true ↔
    elementSize ≤ msgLen record ∧ (msgLen record).toNat ≤ elementSizeMax := by
  simp [lengthOk]

section

variable (ok : lengthOk record = true)
include ok

/-- A sum that wraps around is too short. -/
theorem lengthOk_exact :
    (msgLen record).toNat = elementHdrSize.toNat + (rpcLength record).toNat := by
  have long : 80 ≤ (msgLen record).toNat := (lengthOk_iff.mp ok).1
  have header : elementHdrSize.toNat = 48 := rfl
  rw [msgLen,toNat_add] at long ⊢
  omega

/-- The sender writes the sequence number, the number of elements and the checksum, and leaves
the message as it was. -/
theorem prepare_byte (seq : NvU32) {offset : Nat}
    (inside : offset < elementHdrSize.toNat + (rpcLength record).toNat)
    (outside : offset < 32 ∨ 48 ≤ offset) :
    byte (prepare record seq) offset = byte record offset := by
  have long : 80 ≤ (msgLen record).toNat := (lengthOk_iff.mp ok).1
  rw [← lengthOk_exact ok] at inside
  by_cases last : offset / 8 = (msgLen record).toNat / 8
  · exact prepare_last record seq long last inside
  · rcases outside with front | behind
    · rw [byte,byte,prepare_front record seq (by omega) long]
    · rw [byte,byte,prepare_rest record seq (by omega) last]

theorem prepare_msgLen (seq : NvU32) : msgLen (prepare record seq) = msgLen record := by
  rw [msgLen,msgLen,prepare_rpcLength record seq (lengthOk_iff.mp ok).1]

theorem valid_prepare (seq : NvU32) : Valid (prepare record seq) seq := by
  obtain ⟨long,short⟩ := lengthOk_iff.mp ok
  have length : 80 ≤ (msgLen record).toNat := long
  obtain ⟨some,few,fits⟩ := elements_of_length (by omega) short
  have count : (elemCount (prepare record seq)).toNat =
      bytesToElements (msgLen record).toNat := by
    rw [prepare_elemCount,toNat_ofNat]
    omega
  refine ⟨prepare_seqNum record seq,?_,?_,?_,?_,?_⟩
  · rw [lengthOk_iff,prepare_msgLen ok]
    exact ⟨long,short⟩
  · rw [prepare_msgLen ok]
    exact prepare_checkSum32 record seq long
  · rwa [count]
  · rwa [count]
  · rwa [prepare_msgLen ok,count]

end

/-- The staging area holds the first `n` elements of the record. -/
def Agree (n : Nat) (staging sent : Staging) : Prop := ∀ k < 512 * n, staging k = sent k

theorem Agree.load (agree : Agree n staging sent) :
    Agree (n + 1) (load staging n (pageOf sent n)) sent := by
  intro k below
  by_cases before : k < 512 * n
  · rw [load_before _ _ before]
    exact agree k before
  · have place : k = 512 * n + (k - 512 * n) := by omega
    have inside := load_inside staging n (pageOf sent n) ⟨k - 512 * n,by omega⟩
    rw [place]
    exact inside

theorem Agree.byte (agree : Agree n staging sent) {offset : Nat} (below : offset < 4096 * n) :
    byte staging offset = byte sent offset := by
  rw [Gsp.byte,Gsp.byte,agree _ (by omega)]

/-- A valid record passes the checksum, the sequence number and the length. -/
theorem check_valid {rx : Rx} (valid : Valid sent rx.rxSeqNum)
    (agree : Agree (elemCount sent).toNat rx.staging sent) :
    rx.check plain = { rx with rxSeqNum := rx.rxSeqNum + 1, pc := .consume } := by
  have some := valid.some
  have fits := valid.fits
  have length : msgLen rx.staging = msgLen sent := by
    rw [msgLen,msgLen,rpcLength,rpcLength,agree 7 (by omega)]
  have sum : checkSum32 rx.staging (checkedLength plain rx).toNat = 0 := by
    have plainLength : checkedLength plain rx = msgLen rx.staging := rfl
    rw [plainLength,length,checkSum32_congr fun k below => agree k (by omega)]
    exact valid.checkSum
  have number : seqNum rx.staging = rx.rxSeqNum := by
    rw [seqNum,agree 4 (by omega)]
    exact valid.seqNum
  have ok : lengthOk rx.staging = true := by
    have same : lengthOk rx.staging = lengthOk sent := by rw [lengthOk,lengthOk,length]
    rw [same]
    exact valid.lengthOk
  have decrypt : rx.decrypt plain = rx.accept := rfl
  simp [Rx.check,sum,number,decrypt,Rx.accept,ok]

theorem length_pagesOf (staging : Staging) : (pagesOf staging).length = (elemCount staging).toNat := by
  simp [pagesOf]

theorem getElem_pagesOf (inside : n < (elemCount staging).toNat) :
    (pagesOf staging)[n]? = some (pageOf staging n) := by
  simp [pagesOf,inside]

end Valid

/-! The elements of a record among those of all records. -/

section Elements

variable {α β : Type} {f : β → List α} {xs : List β} {k : Nat} {x : β}

theorem flatMap_take_succ (at_ : xs[k]? = some x) :
    (xs.take (k + 1)).flatMap f = (xs.take k).flatMap f ++ f x := by
  rw [take_add_one,at_]
  simp

theorem drop_flatMap (at_ : xs[k]? = some x) :
    (xs.flatMap f).drop ((xs.take k).flatMap f).length = f x ++ (xs.drop (k + 1)).flatMap f := by
  obtain ⟨inside,rfl⟩ := List.getElem?_eq_some_iff.mp at_
  nth_rewrite 2 [← take_append_drop k xs]
  rw [flatMap_append,drop_left,drop_eq_getElem_cons inside,flatMap_cons]

theorem getElem_flatMap (at_ : xs[k]? = some x) {j : Nat} (inside : j < (f x).length) :
    (xs.flatMap f)[((xs.take k).flatMap f).length + j]? = (f x)[j]? := by
  rw [← getElem?_drop,drop_flatMap at_,getElem?_append_left inside]

end Elements

/-! Where the two ends are. -/

/-- The call of the sender has copied `i` elements to the slots behind the last one published. -/
structure Copied (c m : Nat) (queue : Msgq.State Page) (tx : Tx) (i : Nat) : Prop where
  ok : lengthOk tx.record = true
  staging : tx.staging = prepare tx.record tx.txSeqNum
  copied : ∀ j < i, queue.entries (slotAt c m (queue.submitted.length + j)) = pageOf tx.staging j

def TxPlace (c m : Nat) (queue : Msgq.State Page) (tx : Tx) : Prop :=
  match tx.pc with
  | .idle => queue.submitting = none
  | .waiting i =>
    queue.submitting = none ∧ Copied c m queue tx i ∧ i < (elemCount tx.staging).toNat
  | .copying i offset =>
    queue.submitting = none ∧ Copied c m queue tx i ∧ i < (elemCount tx.staging).toNat ∧
      ⟨queue.submitted.length + i,offset⟩ ∈ queue.writable
  | .submitting => queue.submitting = none ∧ Copied c m queue tx (elemCount tx.staging).toNat
  | .publishing =>
    Copied c m queue tx (elemCount tx.staging).toNat ∧
      ∃ t, queue.submitting = some t ∧ t.n = elemCount tx.staging

/-- The receiver has `i` elements of the record. -/
structure Loading (rx : Rx) (sent : Staging) (i : Nat) : Prop where
  inside : i < (elemCount sent).toNat
  count : i ≠ 0 → rx.nElements = elemCount sent
  agree : Agree i rx.staging sent

/-- `k` records have been received of those in `published`. -/
def RxPlace (queue : Msgq.State Page) (published : List Staging) (k : Nat) (rx : Rx)
    (element : NvU32) : Prop :=
  match rx.pc with
  | .fetch i =>
    queue.consuming = none ∧ rx.rxSeqNum = BitVec.ofNat 32 k ∧
      (i = 0 ∨ ∃ sent, published[k]? = some sent ∧ Loading rx sent i)
  | .copy i =>
    queue.consuming = none ∧ rx.rxSeqNum = BitVec.ofNat 32 k ∧
      (∃ sent, published[k]? = some sent ∧ Loading rx sent i) ∧
      ⟨queue.received.length + i,element⟩ ∈ queue.readable
  | .discard => False
  | .consume =>
    rx.rxSeqNum = BitVec.ofNat 32 (k + 1) ∧ (∀ t ∈ queue.consuming, t.n = rx.nElements) ∧
      ∃ sent, published[k]? = some sent ∧ rx.nElements = elemCount sent ∧
        Agree (elemCount sent).toNat rx.staging sent
  | .done _ => queue.consuming = none ∧ rx.rxSeqNum = BitVec.ofNat 32 k

structure Inv (c m : Nat) (s : Link) : Prop where
  queue : Msgq.Inv c m s.queue
  submitted : s.queue.submitted = s.published.flatMap pagesOf
  txSeqNum : s.tx.txSeqNum = BitVec.ofNat 32 (good s.tx.results).length
  sent : ∀ record ∈ good s.tx.results, lengthOk record = true
  received : s.queue.received = (s.published.take (good s.returns).length).flatMap pagesOf
  delivered : ∀ (k : Nat) got, (good s.returns)[k]? = some got →
    ∃ sent, s.published[k]? = some sent ∧ Agree (elemCount sent).toNat got sent
  returns : ∀ call ∈ s.returns, call.2 = .ok ∨ call.2 = nothingToDo
  untried : s.rx.retry.nRetries = 0
  tx : TxPlace c m s.queue s.tx
  rx : RxPlace s.queue s.published (good s.returns).length s.rx s.element

section Sender

variable {c m : Nat} {s : Link} {queue : Msgq.State Page} {tx : Tx}

theorem good_finish_bad (tx : Tx) {status : NvStatus} (bad : status ≠ .ok) :
    good (tx.finish status).results = good tx.results := by
  simp [Tx.finish,good,bad]

theorem RxPlace.grow {published : List Staging} {k : Nat} {rx : Rx} {element : NvU32}
    {queue' : Msgq.State Page} (more : List Staging) (place : RxPlace queue published k rx element)
    (consuming : queue'.consuming = queue.consuming) (readable : queue'.readable = queue.readable)
    (received : queue'.received = queue.received) :
    RxPlace queue' (published ++ more) k rx element := by
  have still {sent : Staging} (at_ : published[k]? = some sent) :
      (published ++ more)[k]? = some sent := by
    rwa [List.getElem?_append_left (List.getElem?_eq_some_iff.mp at_).1]
  simp only [RxPlace] at place ⊢
  rw [consuming,readable,received]
  split at place
  next => exact ⟨place.1,place.2.1,place.2.2.imp_right fun ⟨sent,at_,rest⟩ => ⟨sent,still at_,rest⟩⟩
  next =>
    obtain ⟨idle,number,⟨sent,at_,loading⟩,buffer⟩ := place
    exact ⟨idle,number,⟨sent,still at_,loading⟩,buffer⟩
  next => exact place
  next =>
    obtain ⟨number,count,sent,at_,rest⟩ := place
    exact ⟨number,count,sent,still at_,rest⟩
  next => exact place

section

variable (inv : Inv c m s)
include inv

theorem Inv.length_le : (good s.returns).length ≤ s.published.length := by
  by_contra longer
  have inside : s.published.length < (good s.returns).length := by omega
  obtain ⟨sent,at_,-⟩ := inv.delivered _ _ (getElem?_eq_getElem inside)
  simp at at_

/-- A step of the sender that publishes some more records. -/
theorem Inv.sender (queueInv : Msgq.Inv c m queue)
    (received : queue.received = s.queue.received) (consuming : queue.consuming = s.queue.consuming)
    (readable : queue.readable = s.queue.readable) (more : List Staging)
    (published : Link.published { s with queue, tx } = s.published ++ more)
    (submitted : queue.submitted = s.queue.submitted ++ more.flatMap pagesOf)
    (number : tx.txSeqNum = BitVec.ofNat 32 (good tx.results).length)
    (ok : ∀ record ∈ good tx.results, lengthOk record = true)
    (place : TxPlace c m queue tx) : Inv c m { s with queue, tx } := by
  refine ⟨queueInv,?_,number,ok,?_,?_,inv.returns,inv.untried,place,?_⟩
  · rw [published,flatMap_append,← inv.submitted]
    exact submitted
  · rw [published,take_append_of_le_length inv.length_le]
    exact received.trans inv.received
  · intro k got at_
    obtain ⟨sent,listed,agree⟩ := inv.delivered k got at_
    rw [published,List.getElem?_append_left (List.getElem?_eq_some_iff.mp listed).1]
    exact ⟨sent,listed,agree⟩
  · rw [published]
    exact inv.rx.grow more consuming readable received

/-- A step of the sender that publishes nothing. -/
theorem Inv.keep (queueInv : Msgq.Inv c m queue) (place : TxPlace c m queue tx)
    (results : good tx.results = good s.tx.results)
    (submitted : queue.submitted = s.queue.submitted)
    (received : queue.received = s.queue.received)
    (consuming : queue.consuming = s.queue.consuming)
    (readable : queue.readable = s.queue.readable)
    (number : tx.txSeqNum = s.tx.txSeqNum) : Inv c m { s with queue, tx } :=
  inv.sender queueInv received consuming readable [] (by simp [Link.published,results])
    (by simp [submitted]) (by rw [number,results,inv.txSeqNum]) (results ▸ inv.sent) place

theorem Inv.send (record : Staging) : Inv c m (s.step (.send record)) := by
  simp only [Link.step]
  split
  next idle =>
    have place := inv.tx
    simp only [TxPlace,idle] at place
    by_cases ok : lengthOk record = true
    · have count := (valid_prepare ok s.tx.txSeqNum).some
      have sent : s.tx.send record = { s.tx with
          record, staging := prepare record s.tx.txSeqNum, pc := .waiting 0 } := by
        simp only [Tx.send,ok,if_true,Tx.next]
        rw [if_pos (by omega)]
      rw [sent]
      exact inv.keep inv.queue ⟨place,⟨ok,rfl,nofun⟩,count⟩ rfl rfl rfl rfl rfl rfl
    · simp only [Tx.send,ok]
      exact inv.keep inv.queue place (good_finish_bad _ (by decide)) rfl rfl rfl rfl rfl
  next => exact inv

theorem Inv.waiting {i : Nat} (at_ : s.tx.pc = .waiting i) (expired : Bool) :
    Inv c m (s.txStep expired) := by
  have place := inv.tx
  simp only [TxPlace,at_] at place
  obtain ⟨idle,copied,inside⟩ := place
  have index : (BitVec.ofNat 32 i).toNat = i := by
    rw [toNat_ofNat]
    omega
  have queueInv := inv.queue.getWriteBuffer (n := BitVec.ofNat 32 i) idle rfl
  simp only [Link.txStep,at_]
  split
  next offset found =>
    refine inv.keep queueInv ⟨idle,{ copied with },inside,?_⟩ rfl rfl rfl rfl rfl rfl
    rw [found,index]
    exact mem_cons_self
  next full =>
    split
    next => exact inv.keep queueInv idle (good_finish_bad _ (by decide)) rfl rfl rfl rfl rfl
    next =>
      refine inv.keep queueInv ?_ rfl rfl rfl rfl rfl rfl
      simp only [TxPlace,at_]
      exact ⟨idle,{ copied with },inside⟩

theorem Inv.copying {i : Nat} {offset : NvU32}
    (at_ : s.tx.pc = .copying i offset) (expired : Bool) : Inv c m (s.txStep expired) := by
  have place := inv.tx
  simp only [TxPlace,at_] at place
  obtain ⟨idle,copied,inside,member⟩ := place
  obtain ⟨-,near,slot⟩ := inv.queue.writable _ member
  dsimp only at near slot
  have queueInv := inv.queue.write (pageOf s.tx.staging i) idle member
  have order := inv.queue.order
  -- The slots of the elements before are none of this one, because they lie in one turn.
  have written : ∀ j < i + 1, Function.update s.queue.entries offset (pageOf s.tx.staging i)
      (slotAt c m (s.queue.submitted.length + j)) = pageOf s.tx.staging j := by
    intro j below
    by_cases last : j = i
    · rw [last,← slot]
      exact Function.update_self ..
    · have apart : slotAt c m (s.queue.submitted.length + j) ≠ offset := by
        rw [slot]
        exact inv.queue.tx.geometry.slotAt_ne (by omega) (by omega)
      rw [Function.update_of_ne apart]
      exact copied.copied j (by omega)
  have after : Copied c m { s.queue with
      entries := Function.update s.queue.entries offset _ } s.tx _ :=
    ⟨copied.ok,copied.staging,written⟩
  simp only [Link.txStep,at_]
  refine inv.keep queueInv ?_ rfl rfl rfl rfl rfl rfl
  simp only [Tx.next]
  split
  next more => exact ⟨idle,{ after with },more⟩
  next whole =>
    have all : (elemCount s.tx.staging).toNat = i + 1 := by omega
    refine ⟨idle,after.ok,after.staging,?_⟩
    simp only [all]
    exact after.copied

theorem Inv.submitting (at_ : s.tx.pc = .submitting) (expired : Bool) :
    Inv c m (s.txStep expired) := by
  have place := inv.tx
  simp only [TxPlace,at_] at place
  obtain ⟨idle,copied⟩ := place
  simp only [Link.txStep,at_]
  split
  next passed =>
    have queueInv := inv.queue.submit (n := elemCount s.tx.staging) idle (Prod.ext rfl passed)
    exact inv.keep queueInv ⟨{ copied with },_,rfl,rfl⟩ rfl rfl rfl rfl rfl rfl
  next failed =>
    have view := (inv.queue.tx_idle idle).submitCheck (n := elemCount s.tx.staging)
      inv.queue.readPtr inv.queue.order
    rw [if_neg failed] at view
    exact inv.keep (inv.queue.withSender idle view) idle (good_finish_bad _ (by decide))
      rfl rfl rfl rfl rfl

/-- The elements between submission and publication are those of the record. -/
theorem Inv.contents {t : Msgq.Transfer Page}
    (copied : Copied c m s.queue s.tx (elemCount s.tx.staging).toNat)
    (found : s.queue.submitting = some t) (count : t.n = elemCount s.tx.staging) :
    t.contents = pagesOf s.tx.staging := by
  rw [inv.queue.submitting t found,count]
  exact map_congr_left fun j inside => copied.copied j (mem_range.mp inside)

omit inv in
theorem good_sent (tx : Tx) : good tx.sent.results = good tx.results ++ [tx.record] := by
  simp [Tx.sent,Tx.finish,good]

omit inv in
theorem published_sent (s : Link) (queue : Msgq.State Page)
    (number : s.tx.txSeqNum = BitVec.ofNat 32 (good s.tx.results).length) :
    Link.published { s with queue, tx := s.tx.sent } =
      s.published ++ [prepare s.tx.record s.tx.txSeqNum] := by
  simp [Link.published,good_sent,number]

theorem Inv.publishing (at_ : s.tx.pc = .publishing) (expired : Bool) :
    Inv c m (s.txStep expired) := by
  have place := inv.tx
  simp only [TxPlace,at_] at place
  obtain ⟨copied,t,found,count⟩ := place
  have contents := inv.contents copied found count
  rw [copied.staging] at contents
  simp only [Link.txStep,at_]
  split
  next => exact inv
  next queue run =>
    have queueInv := inv.queue.publishWrite run
    obtain ⟨t',found',run⟩ := bind_eq_some_iff.mp run
    cases found.symm.trans found'
    cases run
    refine inv.sender queueInv rfl rfl rfl _ (published_sent s _ inv.txSeqNum) ?_ ?_ ?_ rfl
    · rw [contents]
      simp
    · rw [good_sent,length_append,ofNat_add,← inv.txSeqNum]
      rfl
    · rw [good_sent]
      simpa [or_imp,forall_and] using ⟨inv.sent,copied.ok⟩

theorem Inv.txStep (expired : Bool) : Inv c m (s.txStep expired) := by
  cases at_ : s.tx.pc with
  | idle =>
    simp only [Link.txStep,at_]
    exact inv
  | waiting i => exact inv.waiting at_ expired
  | copying i offset => exact inv.copying at_ expired
  | submitting => exact inv.submitting at_ expired
  | publishing => exact inv.publishing at_ expired

end

end Sender

section Receiver

variable {c m : Nat} {s : Link} {queue : Msgq.State Page} {rx : Rx} {element : NvU32}
  {returns : List (Staging × NvStatus)} {sent : Staging} {k : Nat}

theorem TxPlace.keep {tx : Tx} {queue' : Msgq.State Page} (place : TxPlace c m queue tx)
    (submitting : queue'.submitting = queue.submitting)
    (submitted : queue'.submitted = queue.submitted) (entries : queue'.entries = queue.entries)
    (writable : queue'.writable = queue.writable) : TxPlace c m queue' tx := by
  have copied {i : Nat} (copied : Copied c m queue tx i) : Copied c m queue' tx i :=
    ⟨copied.ok,copied.staging,by rw [submitted,entries]; exact copied.copied⟩
  simp only [TxPlace] at place ⊢
  rw [submitting,submitted,writable]
  split at place
  next => exact place
  next => exact ⟨place.1,copied place.2.1,place.2.2⟩
  next => exact ⟨place.1,copied place.2.1,place.2.2⟩
  next => exact ⟨place.1,copied place.2⟩
  next => exact ⟨copied place.1,place.2⟩

theorem Inv.valid (inv : Inv c m s) (at_ : s.published[k]? = some sent) :
    Valid sent (BitVec.ofNat 32 k) := by
  rw [Link.published,getElem?_mapIdx] at at_
  obtain ⟨record,listed,rfl⟩ := map_eq_some_iff.mp at_
  exact valid_prepare (inv.sent record (mem_of_getElem? listed)) _

section

variable (inv : Inv c m s) (at_ : s.published[(good s.returns).length]? = some sent)
include inv at_

/-- The next record lies behind what was received. -/
theorem Inv.next_element {i : Nat} (inside : i < (elemCount sent).toNat) :
    s.queue.submitted[s.queue.received.length + i]? = some (pageOf sent i) := by
  rw [inv.submitted,inv.received,getElem_flatMap at_ (by rwa [length_pagesOf]),
    getElem_pagesOf inside]

theorem Inv.next_contents :
    (s.queue.submitted.drop s.queue.received.length).take (elemCount sent).toNat =
      pagesOf sent := by
  rw [inv.submitted,inv.received,drop_flatMap at_,← length_pagesOf,take_left]

theorem Inv.next_length :
    s.queue.received.length + (elemCount sent).toNat ≤ s.queue.submitted.length := by
  have contents := congrArg length (inv.next_contents at_)
  have some := (inv.valid at_).some
  rw [length_take,length_drop,length_pagesOf] at contents
  omega

end

section

variable (inv : Inv c m s)
include inv

/-- If an element waits, then a record does. -/
theorem Inv.next_exists (waiting : s.queue.received.length < s.queue.submitted.length) :
    ∃ sent, s.published[(good s.returns).length]? = some sent := by
  by_contra none
  have all : s.published.length ≤ (good s.returns).length := by
    by_contra fewer
    exact none ⟨_,getElem?_eq_getElem (not_le.mp fewer)⟩
  rw [inv.received,inv.submitted,take_of_length_le all] at waiting
  exact absurd waiting (Nat.lt_irrefl _)

/-- A step of the receiver. -/
theorem Inv.receiver (queueInv : Msgq.Inv c m queue)
    (place : RxPlace queue s.published (good returns).length rx element)
    (received : queue.received = (s.published.take (good returns).length).flatMap pagesOf)
    (delivered : ∀ (k : Nat) got, (good returns)[k]? = some got →
      ∃ sent, s.published[k]? = some sent ∧ Agree (elemCount sent).toNat got sent)
    (statuses : ∀ call ∈ returns, call.2 = .ok ∨ call.2 = nothingToDo)
    (untried : rx.retry.nRetries = 0)
    (submitting : queue.submitting = s.queue.submitting)
    (submitted : queue.submitted = s.queue.submitted)
    (entries : queue.entries = s.queue.entries)
    (writable : queue.writable = s.queue.writable) :
    Inv c m { s with queue, rx, element, returns } where
  queue := queueInv
  submitted := submitted.trans inv.submitted
  txSeqNum := inv.txSeqNum
  sent := inv.sent
  received := received
  delivered := delivered
  returns := statuses
  untried := untried
  tx := inv.tx.keep submitting submitted entries writable
  rx := place

theorem Inv.fetch {i : Nat} (at_ : s.rx.pc = .fetch i) : Inv c m s.rxStep := by
  have place := inv.rx
  simp only [RxPlace,at_] at place
  obtain ⟨idle,number,loading⟩ := place
  have index : (BitVec.ofNat 32 i).toNat = i := by
    rw [BitVec.toNat_ofNat]
    rcases loading with rfl | ⟨sent,next,loading⟩
    · rfl
    · have inside := loading.inside
      omega
  rcases call : Msgq.msgqRxGetReadBuffer s.queue.receiver s.queue.writePtr
    (BitVec.ofNat 32 i) with ⟨receiver,buffer⟩
  have queueInv := inv.queue.getReadBuffer idle call
  simp only [Link.rxStep,at_,call]
  cases buffer with
  | some offset =>
    have buffer := queueInv.readable _ mem_cons_self
    have next : ∃ sent, s.published[(good s.returns).length]? = some sent ∧
        Loading s.rx sent i := by
      rcases loading with rfl | next
      · obtain ⟨sent,next⟩ := inv.next_exists (by have := buffer.2.1; simp only at this; omega)
        exact ⟨sent,next,(inv.valid next).some,fun zero => absurd rfl zero,nofun⟩
      · exact next
    refine inv.receiver queueInv ⟨idle,number,?_,?_⟩
      inv.received inv.delivered inv.returns inv.untried rfl rfl rfl rfl
    · obtain ⟨sent,next,loading⟩ := next
      exact ⟨sent,next,loading.inside,loading.count,loading.agree⟩
    · rw [index]
      exact mem_cons_self
  | none =>
    -- Only the first element can be missing.
    have first : i = 0 := by
      rcases loading with first | ⟨sent,next,loading⟩
      · exact first
      · have there := (inv.queue.rx_idle idle).getReadBuffer_found (n := BitVec.ofNat 32 i)
          inv.queue.writePtr inv.queue.order inv.queue.room (by
            have := inv.next_length next
            have := loading.inside
            omega)
        simp [call] at there
    subst first
    refine inv.receiver queueInv ?_ ?_ ?_ ?_ inv.untried rfl rfl rfl rfl
    · simpa [good,Rx.gotBuffer] using ⟨idle,number⟩
    · simpa [good,nothingToDo] using inv.received
    · simpa [good,nothingToDo] using inv.delivered
    · simpa [or_imp,forall_and] using inv.returns

/-- The element that is copied is the next one of the record. With the last one the record
passes all checks. -/
theorem Inv.copy_cases {i : Nat} (at_ : s.rx.pc = .copy i) :
    ∃ sent, s.published[(good s.returns).length]? = some sent ∧
      Agree (i + 1) (s.rx.copied i (pageOf sent i)).staging sent ∧
      (s.rx.copied i (pageOf sent i)).nElements = elemCount sent ∧
      (i + 1 < (elemCount sent).toNat ∧
          s.rxStep = { s with rx := { s.rx.copied i (pageOf sent i) with pc := .fetch (i + 1) } } ∨
        i + 1 = (elemCount sent).toNat ∧
          s.rxStep = { s with rx := { s.rx.copied i (pageOf sent i) with
            rxSeqNum := s.rx.rxSeqNum + 1
            pc := .consume } }) := by
  have place := inv.rx
  simp only [RxPlace,at_] at place
  obtain ⟨idle,number,⟨sent,next,loading⟩,member⟩ := place
  have valid := inv.valid next
  have inside := loading.inside
  have page : s.queue.entries s.element = pageOf sent i := by
    have content := inv.queue.readable_content member
    exact some.inj (content.symm.trans (inv.next_element next inside))
  have metadata : i ≠ 16 := by
    have := valid.few
    omega
  have agree : Agree (i + 1) (s.rx.copied i (pageOf sent i)).staging sent := loading.agree.load
  have count : (s.rx.copied i (pageOf sent i)).nElements = elemCount sent := by
    by_cases first : i = 0
    · simp only [Rx.copied,if_pos first]
      exact congrArg low (agree 5 (by omega))
    · simpa [Rx.copied,first] using loading.count first
  refine ⟨sent,next,agree,count,?_⟩
  simp only [Link.rxStep,at_,if_neg metadata,page]
  rcases gotPage_cases plain s.rx i _ with ⟨more,step⟩ | ⟨all,step⟩
  · rw [count] at more
    rw [step]
    exact .inl ⟨more,rfl⟩
  · rw [count] at all
    have whole : (elemCount sent).toNat = i + 1 := by omega
    have sequence : Valid sent (s.rx.copied i (pageOf sent i)).rxSeqNum := number ▸ valid
    rw [step,check_valid sequence (whole ▸ agree)]
    exact .inr ⟨whole.symm,rfl⟩

theorem Inv.copy {i : Nat} (at_ : s.rx.pc = .copy i) : Inv c m s.rxStep := by
  have place := inv.rx
  simp only [RxPlace,at_] at place
  obtain ⟨idle,number,-⟩ := place
  obtain ⟨sent,next,agree,count,⟨more,step⟩ | ⟨whole,step⟩⟩ := inv.copy_cases at_
  · rw [step]
    exact inv.receiver inv.queue ⟨idle,number,.inr ⟨sent,next,more,fun _ => count,agree⟩⟩
      inv.received inv.delivered inv.returns inv.untried rfl rfl rfl rfl
  · rw [step]
    refine inv.receiver inv.queue ⟨?_,?_,sent,next,count,whole ▸ agree⟩
      inv.received inv.delivered inv.returns inv.untried rfl rfl rfl rfl
    · simp only [number,ofNat_add]
      rfl
    · simp [idle]

theorem Inv.consume (at_ : s.rx.pc = .consume) : Inv c m s.rxStep := by
  have place := inv.rx
  simp only [RxPlace,at_] at place
  obtain ⟨number,passing,sent,next,count,agree⟩ := place
  simp [Link.rxStep,at_]
  cases consuming : s.queue.consuming with
  | none =>
    have nothing : Msgq.step s.queue .publishRead = none := by simp [Msgq.step,consuming]
    have passes := (inv.queue.rx_idle consuming).consumeCheck_passes (n := s.rx.nElements)
      inv.queue.writePtr inv.queue.order inv.queue.room (by
        rw [count]
        exact inv.next_length next)
    have queueInv := inv.queue.consume (n := s.rx.nElements) consuming (Prod.ext rfl passes)
    simp only [nothing,passes]
    refine inv.receiver queueInv ?_ inv.received inv.delivered inv.returns inv.untried rfl rfl rfl rfl
    simp only [RxPlace,at_]
    exact ⟨number,by simp,sent,next,count,agree⟩
  | some t =>
    have contents : t.contents = pagesOf sent := by
      rw [inv.queue.consuming t consuming,passing t consuming,count,inv.next_contents next]
    have accepted : good (s.returns ++ [(s.rx.staging,.ok)]) =
        good s.returns ++ [s.rx.staging] := by
      simp [good]
    have moved : s.rx.marked true = { s.rx with pc := .done .ok } := by
      simp [Rx.marked,at_,Rx.consumed]
    split
    next queue run =>
      have queueInv := inv.queue.publishRead run
      obtain ⟨t',found,run⟩ := bind_eq_some_iff.mp run
      cases consuming.symm.trans found
      cases run
      rw [moved]
      refine inv.receiver queueInv ?_ ?_ ?_ ?_ inv.untried rfl rfl rfl rfl
      · rw [accepted,length_append]
        exact ⟨rfl,number⟩
      · rw [accepted,length_append,length_singleton,flatMap_take_succ next,
          ← inv.received,← contents]
      · rw [accepted]
        intro j got listed
        by_cases last : j = (good s.returns).length
        · rw [last,getElem?_concat_length] at listed
          cases listed
          exact ⟨sent,last ▸ next,agree⟩
        · have inside := (List.getElem?_eq_some_iff.mp listed).1
          rw [List.length_append,List.length_singleton] at inside
          rw [getElem?_append_left (by omega)] at listed
          exact inv.delivered j got listed
      · simpa [or_imp,forall_and] using inv.returns
    next run => simp [Msgq.step,consuming] at run

theorem Inv.rxStep : Inv c m s.rxStep := by
  cases at_ : s.rx.pc with
  | fetch i => exact inv.fetch at_
  | copy i => exact inv.copy at_
  | discard =>
    have place := inv.rx
    simp [RxPlace,at_] at place
  | consume => exact inv.consume at_
  | done status =>
    simp only [Link.rxStep,at_]
    exact inv

theorem Inv.receive : Inv c m (s.step .receive) := by
  simp only [Link.step]
  split
  next status at_ =>
    have place := inv.rx
    simp only [RxPlace,at_] at place
    exact inv.receiver inv.queue ⟨place.1,place.2,.inl rfl⟩ inv.received inv.delivered inv.returns
      rfl rfl rfl rfl rfl
  next => exact inv

end

end Receiver

section Runs

variable {c m : Nat} {s : Link}

theorem Inv.step (inv : Inv c m s) (act : Act) : Inv c m (s.step act) := by
  cases act with
  | send record => exact inv.send record
  | sender expired => exact inv.txStep expired
  | receive => exact inv.receive
  | receiver => exact inv.rxStep

theorem Inv.run (acts : List Act) : ∀ {s : Link}, Inv c m s → Inv c m (s.run acts) := by
  induction acts with
  | nil => exact fun inv => inv
  | cons act acts ih => exact fun inv => ih (inv.step act)

/-! A call of the receiver ends, and takes a record that was published when it began. -/

/-- Steps that the receiver has left. -/
def stepsLeft (s : Link) : Nat :=
  match s.rx.pc with
  | .fetch i => 2 * (16 - i) + 4
  | .copy i => 2 * (16 - i) + 3
  | .consume => if s.queue.consuming.isSome then 1 else 2
  | .discard | .done _ => 0

/-- A call is on its way, and a record waits for it. -/
structure Taking (s : Link) : Prop where
  running : s.rx.pc.isDone = false
  next : ∃ sent, s.published[(good s.returns).length]? = some sent

theorem Taking.rxStep (taking : Taking s) (inv : Inv c m s) :
    (∃ got, s.rxStep.returns = s.returns ++ [(got,.ok)]) ∨
      s.rxStep.returns = s.returns ∧ Taking s.rxStep ∧ stepsLeft s.rxStep < stepsLeft s := by
  obtain ⟨running,sent,next⟩ := taking
  have place := inv.rx
  have few := (inv.valid next).few
  have length := inv.next_length next
  cases at_ : s.rx.pc with
  | fetch i =>
    simp only [RxPlace,at_] at place
    obtain ⟨idle,-,loading⟩ := place
    have inside : i < (elemCount sent).toNat := by
      rcases loading with rfl | ⟨sent',next',loading⟩
      · exact (inv.valid next).some
      · cases next.symm.trans next'
        exact loading.inside
    have found := (inv.queue.rx_idle idle).getReadBuffer_found (n := BitVec.ofNat 32 i)
      inv.queue.writePtr inv.queue.order inv.queue.room (by
        rw [toNat_ofNat]
        omega)
    have step : s.rxStep.rx = { s.rx with pc := .copy i } ∧ s.rxStep.returns = s.returns ∧
        s.rxStep.published = s.published := by
      simp only [Link.rxStep,at_,found]
      exact ⟨rfl,rfl,rfl⟩
    obtain ⟨rx,returns,published⟩ := step
    refine .inr ⟨returns,⟨by rw [rx]; rfl,sent,by rw [published,returns]; exact next⟩,?_⟩
    simp only [stepsLeft,rx,at_]
    omega
  | copy i =>
    obtain ⟨sent',next',-,-,⟨more,step⟩ | ⟨-,step⟩⟩ := inv.copy_cases at_
    · cases next.symm.trans next'
      rw [step]
      refine .inr ⟨rfl,⟨rfl,sent,next⟩,?_⟩
      simp only [stepsLeft,at_]
      omega
    · rw [step]
      refine .inr ⟨rfl,⟨rfl,sent,next⟩,?_⟩
      simp only [stepsLeft,at_]
      split <;> omega
  | discard => simp [RxPlace,at_] at place
  | consume =>
    simp only [RxPlace,at_] at place
    obtain ⟨-,-,sent',next',count,-⟩ := place
    cases next.symm.trans next'
    cases consuming : s.queue.consuming with
    | none =>
      have passes := (inv.queue.rx_idle consuming).consumeCheck_passes (n := s.rx.nElements)
        inv.queue.writePtr inv.queue.order inv.queue.room (by rwa [count])
      have nothing : Msgq.step s.queue .publishRead = none := by simp [Msgq.step,consuming]
      simp only [Link.rxStep,at_,nothing,passes,if_true]
      refine .inr ⟨trivial,⟨by simp [Pc.isDone,at_],sent,next⟩,?_⟩
      simp [stepsLeft,at_,consuming]
    | some t =>
      simp only [Link.rxStep,at_]
      split
      next => exact .inl ⟨_,by simp [Rx.marked,at_]; rfl⟩
      next run => simp [Msgq.step,consuming] at run
  | done status => simp [at_,Pc.isDone] at running

def Act.isReceiver : Act → Bool
  | .receiver => true
  | _ => false

/-- What the sender's acts leave to the receiver. -/
structure Undisturbed (s s' : Link) : Prop where
  rx : s'.rx = s.rx
  returns : s'.returns = s.returns
  consuming : s'.queue.consuming = s.queue.consuming
  results : s.tx.results <+: s'.tx.results

theorem txStep_undisturbed (s : Link) (expired : Bool) : Undisturbed s (s.txStep expired) := by
  have finished (tx : Tx) (status : NvStatus) : tx.results <+: (tx.finish status).results :=
    prefix_append _ _
  cases at_ : s.tx.pc with
  | idle | copying =>
    simp only [Link.txStep,at_]
    exact ⟨rfl,rfl,rfl,prefix_rfl⟩
  | waiting i =>
    simp only [Link.txStep,at_]
    refine ⟨rfl,rfl,rfl,?_⟩
    split
    next => exact prefix_rfl
    next =>
      split
      next => exact finished s.tx busyRetry
      next => exact prefix_rfl
  | submitting =>
    simp only [Link.txStep,at_]
    split
    next => exact ⟨rfl,rfl,rfl,prefix_rfl⟩
    next => exact ⟨rfl,rfl,rfl,finished s.tx invalidState⟩
  | publishing =>
    simp only [Link.txStep,at_]
    split
    next => exact ⟨rfl,rfl,rfl,prefix_rfl⟩
    next queue run =>
      obtain ⟨t,-,run⟩ := bind_eq_some_iff.mp run
      cases run
      exact ⟨rfl,rfl,rfl,prefix_append _ _⟩

theorem step_undisturbed (running : s.rx.pc.isDone = false) {act : Act}
    (other : act.isReceiver = false) : Undisturbed s (s.step act) := by
  cases act with
  | send record =>
    simp only [Link.step]
    split
    next =>
      refine ⟨rfl,rfl,rfl,?_⟩
      simp only [Tx.send]
      split
      next => exact prefix_rfl
      next => exact prefix_append _ _
    next => exact ⟨rfl,rfl,rfl,prefix_rfl⟩
  | sender expired => exact txStep_undisturbed s expired
  | receive =>
    simp only [Link.step]
    split
    next at_ => simp [at_,Pc.isDone] at running
    next => exact ⟨rfl,rfl,rfl,prefix_rfl⟩
  | receiver => cases other

theorem Undisturbed.taking {s' : Link} (same : Undisturbed s s') (taking : Taking s) :
    Taking s' ∧ stepsLeft s' = stepsLeft s := by
  obtain ⟨running,sent,next⟩ := taking
  obtain ⟨more,results⟩ := same.results
  have grown : ∃ later, s'.published = s.published ++ later := by
    simp only [Link.published,← results,good,filterMap_append,mapIdx_append]
    exact ⟨_,rfl⟩
  obtain ⟨later,published⟩ := grown
  refine ⟨⟨by rwa [same.rx],sent,?_⟩,by simp only [stepsLeft,same.rx,same.consuming]⟩
  rw [published,same.returns,List.getElem?_append_left (List.getElem?_eq_some_iff.mp next).1]
  exact next

theorem rxTo_returns {returns : List (Staging × NvStatus)} (rx : Rx)
    (same : s.returns = returns) : returns <+: (s.rxTo rx).returns := by
  subst same
  simp only [Link.rxTo]
  split
  next => exact prefix_append _ _
  next => exact prefix_rfl

theorem rxStep_returns (s : Link) : s.returns <+: s.rxStep.returns := by
  have marking (queue : Msgq.State Page) (ok : Bool) :
      s.returns <+: (Link.rxTo { s with queue } (s.rx.marked ok)).returns := rxTo_returns _ rfl
  unfold Link.rxStep
  cases s.rx.pc with
  | fetch | copy => exact rxTo_returns _ rfl
  | discard | consume =>
    dsimp only
    split
    next => exact marking _ _
    next =>
      split
      next => exact prefix_rfl
      next => exact marking _ _
  | done => exact prefix_rfl

theorem step_returns (s : Link) (act : Act) : s.returns <+: (s.step act).returns := by
  cases act with
  | send | receive =>
    simp only [Link.step]
    split <;> exact prefix_rfl
  | sender expired => exact (txStep_undisturbed s expired).returns ▸ prefix_rfl
  | receiver => exact rxStep_returns s

theorem run_returns (acts : List Act) : ∀ s : Link, s.returns <+: (s.run acts).returns := by
  induction acts with
  | nil => exact fun _ => prefix_rfl
  | cons act acts ih => exact fun s => (step_returns s act).trans (ih _)

/-- By induction on the acts: those of the sender leave the call where it is. -/
theorem Taking.run (acts : List Act) : ∀ {s : Link}, Taking s → Inv c m s →
    stepsLeft s ≤ acts.countP Act.isReceiver →
    ∃ got, s.returns ++ [(got,.ok)] <+: (s.run acts).returns := by
  induction acts with
  | nil =>
    intro s taking inv enough
    rcases taking.rxStep inv with ⟨got,-⟩ | ⟨-,-,fewer⟩
    · have place := inv.rx
      have running := taking.running
      cases at_ : s.rx.pc <;> simp [stepsLeft,RxPlace,Pc.isDone,at_] at enough place running
      split at enough <;> omega
    · simp only [countP_nil] at enough
      omega
  | cons act acts ih =>
    intro s taking inv enough
    cases kind : act.isReceiver with
    | false =>
      have same := step_undisturbed taking.running kind
      obtain ⟨taking',left⟩ := same.taking taking
      rw [countP_cons_of_neg (by simp [kind])] at enough
      obtain ⟨got,listed⟩ := ih taking' (inv.step act) (by omega)
      rw [same.returns] at listed
      exact ⟨got,listed⟩
    | true =>
      have isReceiver : act = .receiver := by cases act <;> simp_all [Act.isReceiver]
      subst isReceiver
      rw [countP_cons_of_pos kind] at enough
      rcases taking.rxStep inv with ⟨got,returned⟩ | ⟨same,taking',fewer⟩
      · exact ⟨got,returned ▸ run_returns acts s.rxStep⟩
      · obtain ⟨got,listed⟩ := ih taking' inv.rxStep (by omega)
        exact ⟨got,same ▸ listed⟩

end Runs

/-! The ring of the command queue. -/

/-- `GspMsgQueuesInit` creates the ring with elements of a page, behind a page of headers. -/
theorem created_nonempty {backingStore : BitVec 64} {size flags : NvU32} {sender : Msgq.Sender}
    (created : Msgq.msgqTxCreate backingStore size 4096 4 12 flags = some sender) :
    1 ≤ sender.tx.msgCount.toNat := by
  have entryOff : Word.alignUp (Word.alignUp Msgq.txHeaderSize (1 <<< (4 : NvU32).toNat) +
      Msgq.rxHeaderSize) (1 <<< (12 : NvU32).toNat) = (4096 : NvU32) := by
    decide
  have sum : (4096 + 4096 : NvU32).toNat = 8192 := rfl
  have page : (4096 : NvU32).toNat = 4096 := rfl
  unfold Msgq.msgqTxCreate at created
  dsimp only at created
  rw [entryOff] at created
  split_ifs at created with _ _ _ _ _ small
  cases created
  rw [lt_def] at small
  rw [toNat_udiv,toNat_sub_of_le (by rw [le_def]; omega),page]
  omega

theorem start_inv {c m : Nat} {sender : Msgq.Sender} {receiver : Msgq.Receiver}
    {entries : NvU32 → Page} (txStaging rxStaging : Staging)
    (queue : Msgq.Inv c m (Msgq.linked sender receiver entries)) :
    Inv c m (.start sender receiver entries txStaging rxStaging) where
  queue := queue
  submitted := rfl
  txSeqNum := rfl
  sent := nofun
  received := rfl
  delivered := nofun
  returns := nofun
  untried := rfl
  tx := rfl
  rx := ⟨rfl,rfl⟩

/-- `good` has the records of the calls that returned `NV_OK`, of either end. -/
structure Transported (s : Link) : Prop where
  /-- The records arrive once each, in order and with the bytes that were sent. -/
  bytes : ∀ (k : Nat) got, (good s.returns)[k]? = some got →
    ∃ record, (good s.tx.results)[k]? = some record ∧
      ∀ offset < elementHdrSize.toNat + (rpcLength record).toNat,
        byte got offset = byte (prepare record (BitVec.ofNat 32 k)) offset
  /-- What was sent is the caller's, but for the fields that the sender writes. -/
  message : ∀ record ∈ good s.tx.results, ∀ seq, ∀ offset < elementHdrSize.toNat +
    (rpcLength record).toNat, offset < 32 ∨ 48 ≤ offset →
      byte (prepare record seq) offset = byte record offset
  /-- A call that failed has published nothing, and left the sequence number. -/
  published : s.queue.submitted = s.published.flatMap pagesOf
  number : s.tx.txSeqNum = BitVec.ofNat 32 (good s.tx.results).length
  /-- No record has failed a test. -/
  untried : s.rx.retry.nRetries = 0
  returns : ∀ call ∈ s.returns, call.2 = .ok ∨ call.2 = nothingToDo
  /-- A record that waits is taken by the next call. -/
  taken : ∀ status, s.rx.pc = .done status →
    (good s.returns).length < (good s.tx.results).length →
    ∀ acts : List Act, 36 ≤ acts.countP Act.isReceiver →
      ∃ got, s.returns ++ [(got,.ok)] <+: ((s.step .receive).run acts).returns

theorem Inv.transported {c m : Nat} {s : Link} (inv : Inv c m s) : Transported s where
  bytes := by
    intro k got at_
    obtain ⟨sent,listed,agree⟩ := inv.delivered k got at_
    have fits := (inv.valid listed).fits
    rw [Link.published,getElem?_mapIdx] at listed
    obtain ⟨record,called,rfl⟩ := map_eq_some_iff.mp listed
    have ok := inv.sent record (mem_of_getElem? called)
    refine ⟨record,called,fun offset below => agree.byte ?_⟩
    rw [prepare_msgLen ok,lengthOk_exact ok] at fits
    omega
  message := fun record member seq offset inside outside =>
    prepare_byte (inv.sent record member) seq inside outside
  published := inv.submitted
  number := inv.txSeqNum
  untried := inv.untried
  returns := inv.returns
  taken := by
    intro status at_ waiting acts enough
    have begun : s.step .receive = { s with rx := receiveStart s.rx.staging s.rx.rxSeqNum } := by
      simp only [Link.step,at_]
    have waits : (good s.returns).length < s.published.length := by
      rwa [Link.published,length_mapIdx]
    have taking : Taking (s.step .receive) := by
      rw [begun]
      exact ⟨rfl,_,getElem?_eq_getElem waits⟩
    obtain ⟨got,listed⟩ := taking.run acts inv.receive (by rw [begun]; exact enough)
    rw [begun] at listed ⊢
    exact ⟨got,listed⟩

/-- Records are transported from `GspMsgQueueSendCommand` to the receive loop at any interleaving
of the two, with any free space in the ring and with waits that may time out. -/
theorem records_transported {backingStore theirs : BitVec 64} {size flags size' ownRxHdrOff : NvU32}
    {sender : Msgq.Sender} {receiver : Msgq.Receiver} {entries : NvU32 → Page}
    {txStaging rxStaging : Staging}
    (created : Msgq.msgqTxCreate backingStore size 4096 4 12 flags = some sender)
    (linkedTo : Msgq.msgqRxLink sender.tx theirs size' 4096 ownRxHdrOff = .ok receiver)
    (acts : List Act) :
    Transported ((Link.start sender receiver entries txStaging rxStaging).run acts) := by
  obtain ⟨g,txLinked,start,free⟩ := Msgq.create_geometry created (created_nonempty created)
  cases Msgq.link_receiver linkedTo
  have queue := Msgq.inv_linked g txLinked start free entries
  exact ((start_inv txStaging rxStaging queue).run acts).transported

def commandSender : Msgq.Sender := ⟨⟨0,0x40000,4096,63,0,0,32,4096⟩,0,62,true⟩

/-- A record of two elements. -/
def longRecord : Staging := fun k => if k = 7 then 4952 else 0

def sampleActs : List Act :=
  [.send fun _ => 0,.send longRecord,.sender false,.sender false,.receive,.receiver] ++
    replicate 4 (.sender false) ++ .receive :: replicate 6 .receiver

theorem records_transported_sample :
    let s := (Link.start commandSender statusQueue (fun _ _ => 0) (fun _ => 0) fun _ => 0).run
      sampleActs
    s.tx.results.map Prod.snd = [invalidParamStruct,.ok] ∧
      s.returns.map Prod.snd = [nothingToDo,.ok] ∧ s.queue.submitted.length = 2 ∧
      Transported s := by
  have created : Msgq.msgqTxCreate 4096 0x40000 4096 4 12 0 = some commandSender := by decide
  have linkedTo : Msgq.msgqRxLink commandSender.tx 4096 0x40000 4096 0 = .ok statusQueue := by
    decide
  exact ⟨by decide +kernel,by decide +kernel,by decide +kernel,
    records_transported created linkedTo sampleActs⟩

end GpuExt.Gsp
