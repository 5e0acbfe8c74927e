import GpuExt.Msgq
import GpuExt.Ring

/-! A queue delivers what was submitted, in order. Positions count all buffers ever submitted
or consumed; the pointers of the code are their slots on the ring. The cached counts may be
out of date, but only to the safe side. -/
namespace GpuExt.Msgq

open List Option

variable {α : Type} {s s' : State α} {c m P R W : Nat} {h : TxHeader}

/-- The ring of a header that was checked when the queue was linked. -/
structure Geometry (h : TxHeader) (c m : Nat) : Prop where
  count : h.msgCount.toNat = c
  size : h.msgSize.toNat = m
  nonempty : 1 ≤ c
  min : 16 ≤ m
  fits : c * m < 2 ^ 32

theorem Geometry.small (g : Geometry h c m) : c < 2 ^ 28 := by
  have bound := Nat.mul_le_mul_left c g.min
  have fits := g.fits
  omega

/-- Where the buffer with a number is. -/
def slotAt (c m p : Nat) : NvU32 := BitVec.ofNat 32 (p % c * m)

section

variable (g : Geometry h c m)
include g

theorem Geometry.slotAt_toNat (p : Nat) : (slotAt c m p).toNat = p % c * m := by
  have bound : p % c * m < 2 ^ 32 :=
    (Nat.mul_le_mul_right m (Ring.slot_lt g.nonempty).le).trans_lt g.fits
  rw [slotAt,BitVec.toNat_ofNat,Nat.mod_eq_of_lt bound]

theorem Geometry.slotAt_ne {p q : Nat} (order : p < q) (near : q < p + c) :
    slotAt c m p ≠ slotAt c m q := by
  intro same
  have value := congrArg BitVec.toNat same
  rw [g.slotAt_toNat,g.slotAt_toNat] at value
  have min := g.min
  exact Ring.slot_ne order near (Nat.eq_of_mul_eq_mul_right (by omega) value)

theorem Geometry.wrap_add {ptr n : NvU32} (at_ : ptr.toNat = P % c)
    (near : n.toNat ≤ c) : (wrap (ptr + n) h.msgCount).toNat = (P + n.toNat) % c := by
  have nonempty := g.nonempty
  have small := g.small
  have slot := Ring.slot_lt (p := P) (c := c) (by omega)
  have sum : (ptr + n).toNat = P % c + n.toNat := by
    rw [BitVec.toNat_add,at_,Nat.mod_eq_of_lt (by omega)]
  rw [wrap_toNat,sum,g.count,Ring.slot_add near]

theorem Geometry.inside {ptr : NvU32} (at_ : ptr.toNat = P % c) : ¬ptr ≥ h.msgCount := by
  rw [ge_iff_le,BitVec.le_def,at_,g.count,not_le]
  exact Ring.slot_lt g.nonempty

theorem Geometry.turn_sub {ptr other : NvU32} (first : ptr.toNat = P % c)
    (second : other.toNat = R % c) : (ptr + h.msgCount - other).toNat = P % c + c - R % c := by
  have small := g.small
  have slotP := Ring.slot_lt (p := P) g.nonempty
  have slotR := Ring.slot_lt (p := R) g.nonempty
  have sum : (ptr + h.msgCount).toNat = P % c + c := by
    rw [BitVec.toNat_add,first,g.count,Nat.mod_eq_of_lt (by omega)]
  rw [BitVec.toNat_sub_of_le (by rw [BitVec.le_def]; omega),sum,second]

theorem Geometry.buffer {ptr n : NvU32} (at_ : ptr.toNat = P % c)
    (near : n.toNat ≤ c) : wrap (ptr + n) h.msgCount * h.msgSize = slotAt c m (P + n.toNat) := by
  refine BitVec.eq_of_toNat_eq ?_
  rw [BitVec.toNat_mul,g.wrap_add at_ near,g.size,slotAt,BitVec.toNat_ofNat]

end

/-! Refreshing the caches. -/

theorem freeSpace_refreshes {q : Sender} (g : Geometry q.tx c m) (linked : q.txLinked = true)
    {readIncoming : NvU32} (read : readIncoming.toNat = R % c) (write : q.tx.writePtr.toNat = W % c)
    (order : R ≤ W) (room : W ≤ R + (c - 1)) :
    ∃ free, msgqTxGetFreeSpace q readIncoming =
      ({ q with txReadPtr := readIncoming, txFree := free },free) ∧
        W + free.toNat = R + (c - 1) := by
  have nonempty := g.nonempty
  have slotW := Ring.slot_lt (p := W) nonempty
  refine ⟨wrap (readIncoming + q.tx.msgCount - q.tx.writePtr - 1) q.tx.msgCount,
    by simp [msgqTxGetFreeSpace,linked,g.inside read],?_⟩
  -- The free slots are those between the write position and one turn after the read position.
  have distance := Ring.slot_distance (p := W) (q := R + (c - 1)) (c := c) (by omega) room (by omega)
  have turn := g.turn_sub read write
  rw [wrap_toNat,Word.toNat_sub_one _ (by omega),g.count]
  rw [Ring.slot_add (by omega : c - 1 ≤ c)] at distance
  split_ifs at distance ⊢ <;> omega

variable {q : Receiver} {backingStore : BitVec 64} {sender : Sender}

theorem readAvailable_refreshes (g : Geometry q.rx c m) (linked : q.rxLinked = true)
    {writeIncoming : NvU32} (write : writeIncoming.toNat = W % c) (read : q.rxReadPtr.toNat = R % c)
    (order : R ≤ W) (room : W ≤ R + (c - 1)) :
    ∃ avail, msgqRxGetReadAvailable q writeIncoming =
      ({ q with rx := { q.rx with writePtr := writeIncoming }, rxAvail := avail },avail) ∧
        R + avail.toNat = W := by
  have nonempty := g.nonempty
  refine ⟨wrap (writeIncoming + q.rx.msgCount - q.rxReadPtr) q.rx.msgCount,
    by simp [msgqRxGetReadAvailable,linked,g.inside write],?_⟩
  rw [wrap_toNat,g.turn_sub write read,g.count,Ring.slot_distance nonempty order (by omega)]
  omega

/-- The sender's view: a count of free slots that is not too large. It is about to publish
the next `d` slots. -/
structure TxView (q : Sender) (c m R W d : Nat) : Prop where
  geometry : Geometry q.tx c m
  linked : q.txLinked = true
  writePtr : q.tx.writePtr.toNat = (W + d) % c
  enough : d ≤ q.txFree.toNat
  free : W + q.txFree.toNat ≤ R + (c - 1)

structure RxView (q : Receiver) (c m R W d : Nat) : Prop where
  geometry : Geometry q.rx c m
  linked : q.rxLinked = true
  readPtr : q.rxReadPtr.toNat = (R + d) % c
  enough : d ≤ q.rxAvail.toNat
  avail : R + q.rxAvail.toNat ≤ W

/-- Whether or not the code looks at the shared pointer, it goes on with a count that is
not too large. -/
theorem TxView.refresh {q : Sender} (view : TxView q c m R W 0) {readIncoming : NvU32}
    (read : readIncoming.toNat = R % c) (order : R ≤ W) (stale : Prop) [Decidable stale] :
    ∃ q', (if stale then msgqTxGetFreeSpace q readIncoming else (q,q.txFree)) = (q',q'.txFree) ∧
      q'.tx = q.tx ∧ TxView q' c m R W 0 := by
  split
  next =>
    obtain ⟨free,run,exact⟩ := freeSpace_refreshes view.geometry view.linked read view.writePtr order
      (by have := view.free; omega)
    exact ⟨_,run,rfl,view.geometry,view.linked,view.writePtr,Nat.zero_le _,exact.le⟩
  next => exact ⟨q,rfl,rfl,view⟩

theorem RxView.refresh (view : RxView q c m R W 0) {writeIncoming : NvU32}
    (write : writeIncoming.toNat = W % c) (order : R ≤ W) (room : W ≤ R + (c - 1)) (stale : Prop)
    [Decidable stale] :
    ∃ q', (if stale then msgqRxGetReadAvailable q writeIncoming else (q,q.rxAvail)) = (q',q'.rxAvail) ∧
      RxView q' c m R W 0 ∧ q'.rxReadPtr = q.rxReadPtr := by
  split
  next =>
    obtain ⟨avail,run,exact⟩ := readAvailable_refreshes view.geometry view.linked write view.readPtr
      order room
    have g := view.geometry
    exact ⟨_,run,⟨⟨g.count,g.size,g.nonempty,g.min,g.fits⟩,view.linked,view.readPtr,Nat.zero_le _,
      exact.le⟩,rfl⟩
  next => exact ⟨q,rfl,view,rfl⟩

/-! What the calls return. -/

section Calls

variable {n : NvU32} {readIncoming writeIncoming : NvU32}

theorem TxView.getFreeSpace {q : Sender} (view : TxView q c m R W 0)
    (read : readIncoming.toNat = R % c) (order : R ≤ W) :
    TxView (msgqTxGetFreeSpace q readIncoming).1 c m R W 0 := by
  obtain ⟨q',run,_,view'⟩ := view.refresh read order True
  rw [if_pos trivial] at run
  rwa [run]

variable {q : Receiver}

theorem RxView.getReadAvailable (view : RxView q c m R W 0) (write : writeIncoming.toNat = W % c)
    (order : R ≤ W) (room : W ≤ R + (c - 1)) :
    RxView (msgqRxGetReadAvailable q writeIncoming).1 c m R W 0 := by
  obtain ⟨q',run,view',_⟩ := view.refresh write order room True
  rw [if_pos trivial] at run
  rwa [run]

theorem TxView.getWriteBuffer {q : Sender} (view : TxView q c m R W 0)
    (read : readIncoming.toNat = R % c) (order : R ≤ W) :
    TxView (msgqTxGetWriteBuffer q readIncoming n).1 c m R W 0 ∧
      ∀ offset, (msgqTxGetWriteBuffer q readIncoming n).2 = some offset →
        W + n.toNat < R + (c - 1) ∧ offset = slotAt c m (W + n.toNat) := by
  obtain ⟨q',run,same,view'⟩ := view.refresh read order (n ≥ q.txFree)
  simp only [msgqTxGetWriteBuffer,view.linked,Bool.not_true,Bool.false_eq_true,if_false,run]
  split
  next => exact ⟨view',fun offset none => by cases none⟩
  next enough =>
    refine ⟨view',fun offset found => ?_⟩
    cases found
    rw [ge_iff_le,BitVec.le_def] at enough
    have free := view'.free
    exact ⟨by omega,view'.geometry.buffer view'.writePtr (by omega)⟩

section

variable (view : RxView q c m R W 0) (write : writeIncoming.toNat = W % c) (order : R ≤ W)
  (room : W ≤ R + (c - 1))
include view write order room

theorem RxView.getReadBuffer : RxView (msgqRxGetReadBuffer q writeIncoming n).1 c m R W 0 ∧
      ∀ offset, (msgqRxGetReadBuffer q writeIncoming n).2 = some offset →
        R + n.toNat < W ∧ offset = slotAt c m (R + n.toNat) := by
  obtain ⟨q',run,view',same⟩ := view.refresh write order room (n ≥ q.rxAvail)
  simp only [msgqRxGetReadBuffer,view.linked,Bool.not_true,Bool.false_eq_true,if_false,run]
  split
  next => exact ⟨view',fun offset none => by cases none⟩
  next enough =>
    refine ⟨view',fun offset found => ?_⟩
    cases found
    rw [ge_iff_le,BitVec.le_def] at enough
    have avail := view'.avail
    exact ⟨by omega,view'.geometry.buffer view'.readPtr (by omega)⟩

/-- A slot that was published is found, if need be after a look at the shared pointer. -/
theorem RxView.getReadBuffer_found (published : R + n.toNat < W) :
    (msgqRxGetReadBuffer q writeIncoming n).2.isSome = true := by
  obtain ⟨avail,run,exact⟩ := readAvailable_refreshes view.geometry view.linked write view.readPtr
    order room
  simp only [msgqRxGetReadBuffer,view.linked,Bool.not_true,Bool.false_eq_true,if_false]
  by_cases stale : n ≥ q.rxAvail
  · have enough : ¬n ≥ avail := by
      rw [ge_iff_le,BitVec.le_def]
      omega
    simp [if_pos stale,run,if_neg enough]
  · simp [if_neg stale]

theorem RxView.consumeCheck_passes (published : R + n.toNat ≤ W) :
    (msgqRxConsumeCheck q writeIncoming n).2 = true := by
  obtain ⟨avail,run,exact⟩ := readAvailable_refreshes view.geometry view.linked write view.readPtr
    order room
  simp only [msgqRxConsumeCheck,view.linked,Bool.not_true,Bool.false_eq_true,if_false]
  by_cases stale : n > q.rxAvail
  · have enough : ¬n > avail := by
      rw [gt_iff_lt,BitVec.lt_def]
      omega
    simp only [if_pos stale,run,if_neg enough]
  · simp only [if_neg stale]

end

/-- The sender either goes on to publish `n` slots that are free, or gives up. -/
theorem TxView.submitCheck {q : Sender} (view : TxView q c m R W 0)
    (read : readIncoming.toNat = R % c) (order : R ≤ W) :
    TxView (msgqTxSubmitCheck q readIncoming n).1 c m R W
      (if (msgqTxSubmitCheck q readIncoming n).2 then n.toNat else 0) := by
  obtain ⟨q',run,same,view'⟩ := view.refresh read order (n > q.txFree)
  simp only [msgqTxSubmitCheck,view.linked,Bool.not_true,Bool.false_eq_true,if_false,run]
  split
  next => exact view'
  next enough =>
    rw [gt_iff_lt,BitVec.lt_def,not_lt] at enough
    have free := view'.free
    have g := view'.geometry
    exact ⟨⟨g.count,g.size,g.nonempty,g.min,g.fits⟩,view'.linked,
      g.wrap_add view'.writePtr (by omega),enough,free⟩

theorem RxView.consumeCheck (view : RxView q c m R W 0) (write : writeIncoming.toNat = W % c)
    (order : R ≤ W) (room : W ≤ R + (c - 1)) :
    RxView (msgqRxConsumeCheck q writeIncoming n).1 c m R W
      (if (msgqRxConsumeCheck q writeIncoming n).2 then n.toNat else 0) := by
  obtain ⟨q',run,view',same⟩ := view.refresh write order room (n > q.rxAvail)
  simp only [msgqRxConsumeCheck,view.linked,Bool.not_true,Bool.false_eq_true,if_false,run]
  split
  next => exact view'
  next enough =>
    rw [gt_iff_lt,BitVec.lt_def,not_lt] at enough
    have avail := view'.avail
    have g := view'.geometry
    exact ⟨g,view'.linked,g.wrap_add view'.readPtr (by omega),enough,avail⟩

theorem TxView.submitDone {q : Sender} (view : TxView q c m R W n.toNat) :
    TxView (msgqTxSubmitDone q n) c m R (W + n.toNat) 0 := by
  have enough := view.enough
  have free := view.free
  have left : (q.txFree - n).toNat = q.txFree.toNat - n.toNat := BitVec.toNat_sub_of_le enough
  refine ⟨view.geometry,view.linked,view.writePtr,Nat.zero_le _,?_⟩
  simp only [msgqTxSubmitDone]
  omega

theorem RxView.consumeDone (view : RxView q c m R W n.toNat) :
    RxView (msgqRxConsumeDone q n) c m (R + n.toNat) W 0 := by
  have enough := view.enough
  have avail := view.avail
  have left : (q.rxAvail - n).toNat = q.rxAvail.toNat - n.toNat := BitVec.toNat_sub_of_le enough
  refine ⟨view.geometry,view.linked,view.readPtr,Nat.zero_le _,?_⟩
  simp only [msgqRxConsumeDone]
  omega

theorem Geometry.slots_eq (g : Geometry h c m) {first : NvU32} (at_ : first.toNat = P % c)
    (near : n.toNat ≤ c) (entries : NvU32 → α) :
    slots entries first n h = (range n.toNat).map fun i => entries (slotAt c m (P + i)) := by
  refine map_congr_left fun i inside => ?_
  have bound : i < n.toNat := mem_range.mp inside
  have value : (BitVec.ofNat 32 i).toNat = i := by
    rw [BitVec.toNat_ofNat,Nat.mod_eq_of_lt (by omega)]
  rw [g.buffer at_ (by omega),value]

end Calls

/-! The invariant of both endpoints. -/

def pending (transfer : Option (Transfer α)) : Nat := transfer.elim 0 fun t => t.n.toNat

structure Inv (c m : Nat) (s : State α) : Prop where
  tx : TxView s.sender c m s.received.length s.submitted.length (pending s.submitting)
  rx : RxView s.receiver c m s.received.length s.submitted.length (pending s.consuming)
  writePtr : s.writePtr.toNat = s.submitted.length % c
  readPtr : s.readPtr.toNat = s.received.length % c
  stored : ∀ p, s.received.length ≤ p → p < s.submitted.length →
    s.submitted[p]? = some (s.entries (slotAt c m p))
  submitting : ∀ t, s.submitting = some t → t.contents =
    (range t.n.toNat).map fun i => s.entries (slotAt c m (s.submitted.length + i))
  consuming : ∀ t, s.consuming = some t →
    t.contents = (s.submitted.drop s.received.length).take t.n.toNat
  writable : ∀ buffer ∈ s.writable, s.submitted.length + pending s.submitting ≤ buffer.number ∧
    buffer.number < s.received.length + (c - 1) ∧ buffer.offset = slotAt c m buffer.number
  readable : ∀ buffer ∈ s.readable, s.received.length + pending s.consuming ≤ buffer.number ∧
    buffer.number < s.submitted.length ∧ buffer.offset = slotAt c m buffer.number
  received : s.received = s.submitted.take s.received.length
  obtained : ∀ p content, (p,content) ∈ s.obtained → s.submitted[p]? = some content

namespace Inv

variable (inv : Inv c m s)

include inv

theorem order : s.received.length ≤ s.submitted.length := by
  have avail := inv.rx.avail
  omega

theorem room : s.submitted.length ≤ s.received.length + (c - 1) := by
  have free := inv.tx.free
  omega

variable {sender : Sender} {receiver : Receiver} {n : NvU32} {buffer : Buffer}

/-- A call of the sender that changes nothing but its cache. -/
theorem withSender (idle : s.submitting = none)
    (view : TxView sender c m s.received.length s.submitted.length 0) :
    Inv c m { s with sender } :=
  { inv with tx := by rwa [idle] }

theorem withReceiver (idle : s.consuming = none)
    (view : RxView receiver c m s.received.length s.submitted.length 0) :
    Inv c m { s with receiver } :=
  { inv with rx := by rwa [idle] }

theorem tx_idle (idle : s.submitting = none) :
    TxView s.sender c m s.received.length s.submitted.length 0 := by
  have tx := inv.tx
  rwa [idle] at tx

theorem rx_idle (idle : s.consuming = none) :
    RxView s.receiver c m s.received.length s.submitted.length 0 := by
  have rx := inv.rx
  rwa [idle] at rx

omit inv in
/-- A call that returns a buffer adds it to those in hand. -/
theorem inHand_elim {buffers : List Buffer} {Q : Buffer → Prop} (old : ∀ b ∈ buffers, Q b)
    {number : Nat} {offset : Option NvU32} (new : ∀ o, offset = some o → Q ⟨number,o⟩) :
    ∀ b ∈ offset.elim buffers fun o => ⟨number,o⟩ :: buffers, Q b := by
  cases offset with
  | none => exact old
  | some o => exact forall_mem_cons.mpr ⟨new o rfl,old⟩

theorem getWriteBuffer (idle : s.submitting = none) {buffer : Option NvU32}
    (call : msgqTxGetWriteBuffer s.sender s.readPtr n = (sender,buffer)) :
    Inv c m { s with
      sender
      writable := buffer.elim s.writable fun offset =>
        ⟨s.submitted.length + n.toNat,offset⟩ :: s.writable } := by
  obtain ⟨after,found⟩ := (inv.tx_idle idle).getWriteBuffer (n := n) inv.readPtr inv.order
  rw [call] at after found
  refine { inv.withSender idle after with writable := inHand_elim inv.writable ?_ }
  exact fun offset given => ⟨by simp [idle,pending],found offset given⟩

theorem getReadBuffer (idle : s.consuming = none) {buffer : Option NvU32}
    (call : msgqRxGetReadBuffer s.receiver s.writePtr n = (receiver,buffer)) :
    Inv c m { s with
      receiver
      readable := buffer.elim s.readable fun offset =>
        ⟨s.received.length + n.toNat,offset⟩ :: s.readable } := by
  obtain ⟨after,found⟩ := (inv.rx_idle idle).getReadBuffer (n := n) inv.writePtr inv.order inv.room
  rw [call] at after found
  refine { inv.withReceiver idle after with readable := inHand_elim inv.readable ?_ }
  exact fun offset given => ⟨by simp [idle,pending],found offset given⟩

/-- A slot in the sender's hands is none that waits for the receiver. -/
theorem writable_apart (member : buffer ∈ s.writable) {p : Nat} (low : s.received.length ≤ p)
    (high : p < s.submitted.length) : slotAt c m p ≠ buffer.offset := by
  obtain ⟨above,below,place⟩ := inv.writable buffer member
  rw [place]
  exact inv.tx.geometry.slotAt_ne (by omega) (by omega)

theorem write (content : α) (idle : s.submitting = none) (member : buffer ∈ s.writable) :
    Inv c m { s with entries := Function.update s.entries buffer.offset content } := by
  refine { inv with stored := fun p low high => ?_, submitting := fun t found => ?_ }
  · have same := Function.update_of_ne (inv.writable_apart member low high) content s.entries
    exact (inv.stored p low high).trans (congrArg some same.symm)
  · rw [idle] at found
    cases found

theorem submit (idle : s.submitting = none)
    (call : msgqTxSubmitCheck s.sender s.readPtr n = (sender,true)) :
    Inv c m { s with
      sender
      submitting := some ⟨n,slots s.entries s.sender.tx.writePtr n s.sender.tx⟩
      writable := s.writable.filter fun buffer => s.submitted.length + n.toNat ≤ buffer.number } := by
  have view := inv.tx_idle idle
  have after := view.submitCheck (n := n) inv.readPtr inv.order
  rw [call] at after
  have publishing : TxView sender c m s.received.length s.submitted.length n.toNat := after
  have near : n.toNat ≤ c := by
    have free := publishing.free
    have enough := publishing.enough
    have order := inv.order
    omega
  refine { inv with tx := publishing, submitting := ?_, writable := ?_ }
  · rintro _ ⟨⟩
    exact view.geometry.slots_eq view.writePtr near s.entries
  · intro buffer member
    obtain ⟨member,kept⟩ := mem_filter.mp member
    have rest := (inv.writable buffer member).2
    exact ⟨of_decide_eq_true kept,rest⟩

theorem publishWrite (run : step s .publishWrite = some s') : Inv c m s' := by
  obtain ⟨⟨n,contents⟩,found,run⟩ := bind_eq_some_iff.mp run
  cases run
  have view := inv.tx
  rw [found] at view
  have publishing : TxView s.sender c m s.received.length s.submitted.length n.toNat := view
  have fresh : contents = (range n.toNat).map fun i =>
      s.entries (slotAt c m (s.submitted.length + i)) := inv.submitting _ found
  have length : contents.length = n.toNat := by simp [fresh]
  have total : (s.submitted ++ contents).length = s.submitted.length + n.toNat := by simp [length]
  have still {p : Nat} {content : α} (before : s.submitted[p]? = some content) :
      (s.submitted ++ contents)[p]? = some content := by
    rwa [List.getElem?_append_left (List.getElem?_eq_some_iff.mp before).1]
  have order := inv.order
  refine ⟨?_,?_,?_,inv.readPtr,fun p low high => ?_,nofun,fun t other => ?_,
    fun buffer member => ?_,fun buffer member => ?_,?_,fun p content member => ?_⟩
  · rw [total]
    exact publishing.submitDone
  · rw [total]
    exact { inv.rx with avail := inv.rx.avail.trans (by omega) }
  · rw [total]
    exact publishing.writePtr
  · by_cases old : p < s.submitted.length
    · exact still (inv.stored p low old)
    · rw [total] at high
      obtain ⟨i,rfl⟩ := Nat.exists_eq_add_of_le (not_lt.mp old)
      have bound : i < n.toNat := by omega
      rw [fresh]
      simp [bound]
  · have room := inv.rx.avail
    have enough := inv.rx.enough
    rw [other] at enough
    have bound : t.n.toNat ≤ s.receiver.rxAvail.toNat := enough
    rw [inv.consuming t other,drop_append_of_le_length order,take_append_of_le_length]
    rw [length_drop]
    omega
  · have facts := inv.writable buffer member
    rw [found] at facts
    rw [total]
    exact facts
  · obtain ⟨low,high,place⟩ := inv.readable buffer member
    rw [total]
    exact ⟨low,by omega,place⟩
  · rw [take_append_of_le_length order]
    exact inv.received
  · exact still (inv.obtained p content member)

/-- What a slot holds that the receiver has in its hands. -/
theorem readable_content (member : buffer ∈ s.readable) :
    s.submitted[buffer.number]? = some (s.entries buffer.offset) := by
  obtain ⟨low,high,place⟩ := inv.readable buffer member
  rw [place]
  exact inv.stored _ (by omega) high

theorem read (member : buffer ∈ s.readable) :
    Inv c m { s with obtained := s.obtained ++ [(buffer.number,s.entries buffer.offset)] } := by
  refine { inv with obtained := fun p content listed => ?_ }
  rcases mem_append.mp listed with old | new
  · exact inv.obtained p content old
  · cases mem_singleton.mp new
    exact inv.readable_content member

theorem consume (idle : s.consuming = none)
    (call : msgqRxConsumeCheck s.receiver s.writePtr n = (receiver,true)) :
    Inv c m { s with
      receiver
      consuming := some ⟨n,slots s.entries s.receiver.rxReadPtr n s.receiver.rx⟩
      readable := s.readable.filter fun buffer => s.received.length + n.toNat ≤ buffer.number } := by
  have view := inv.rx_idle idle
  have after := view.consumeCheck (n := n) inv.writePtr inv.order inv.room
  rw [call] at after
  have consuming : RxView receiver c m s.received.length s.submitted.length n.toNat := after
  have avail := consuming.avail
  have enough := consuming.enough
  have room := inv.room
  refine { inv with rx := consuming, consuming := ?_, readable := ?_ }
  · rintro _ ⟨⟩
    have near : n.toNat ≤ c := by omega
    refine (view.geometry.slots_eq view.readPtr near s.entries).trans (ext_getElem? fun i => ?_)
    by_cases bound : i < n.toNat
    · have content := inv.stored (s.received.length + i) (by omega) (by omega)
      simp [bound,content]
    · simp [bound]
  · intro buffer member
    obtain ⟨member,kept⟩ := mem_filter.mp member
    have rest := (inv.readable buffer member).2
    exact ⟨of_decide_eq_true kept,rest⟩

theorem publishRead (run : step s .publishRead = some s') : Inv c m s' := by
  obtain ⟨⟨n,contents⟩,found,run⟩ := bind_eq_some_iff.mp run
  cases run
  have view := inv.rx
  rw [found] at view
  have consuming : RxView s.receiver c m s.received.length s.submitted.length n.toNat := view
  have passed : contents = (s.submitted.drop s.received.length).take n.toNat :=
    inv.consuming _ found
  have avail := consuming.avail
  have enough := consuming.enough
  have total : (s.received ++ contents).length = s.received.length + n.toNat := by
    rw [length_append,passed,length_take,length_drop]
    omega
  refine ⟨?_,?_,inv.writePtr,?_,fun p low high => ?_,inv.submitting,nofun,
    fun buffer member => ?_,fun buffer member => ?_,?_,inv.obtained⟩
  · rw [total]
    exact { inv.tx with free := inv.tx.free.trans (by omega) }
  · rw [total]
    exact consuming.consumeDone
  · rw [total]
    exact consuming.readPtr
  · rw [total] at low
    exact inv.stored p (by omega) high
  · obtain ⟨low,high,place⟩ := inv.writable buffer member
    rw [total]
    exact ⟨low,by omega,place⟩
  · have facts := inv.readable buffer member
    rw [found] at facts
    rw [total]
    exact facts
  · rw [total,take_add,← inv.received,passed]

omit inv in
/-- An endpoint that is not in the middle of a call. -/
theorem idle_of_some {β γ : Type} {busy : Option β} {next : Option γ} {result : γ}
    (run : (if busy.isSome then none else next) = some result) :
    busy = none ∧ next = some result := by
  cases busy with
  | none => exact ⟨rfl,run⟩
  | some => cases run

theorem event {event : Event α} (run : Msgq.step s event = some s') : Inv c m s' := by
  cases event with
  | publishWrite => exact inv.publishWrite run
  | publishRead => exact inv.publishRead run
  | getFreeSpace =>
    obtain ⟨idle,run⟩ := idle_of_some run
    cases run
    exact inv.withSender idle ((inv.tx_idle idle).getFreeSpace inv.readPtr inv.order)
  | getReadAvailable =>
    obtain ⟨idle,run⟩ := idle_of_some run
    cases run
    exact inv.withReceiver idle
      ((inv.rx_idle idle).getReadAvailable inv.writePtr inv.order inv.room)
  | getWriteBuffer n =>
    obtain ⟨idle,run⟩ := idle_of_some run
    split at run
    all_goals
      next call =>
        cases run
        exact inv.getWriteBuffer idle call
  | getReadBuffer n =>
    obtain ⟨idle,run⟩ := idle_of_some run
    split at run
    all_goals
      next call =>
        cases run
        exact inv.getReadBuffer idle call
  | write buffer content =>
    rw [Msgq.step] at run
    split at run
    · cases run
    next allowed =>
      cases run
      rw [not_or,not_isSome_iff_eq_none,not_not] at allowed
      exact inv.write _ allowed.1 allowed.2
  | read buffer =>
    rw [Msgq.step] at run
    split at run
    · cases run
    next allowed =>
      cases run
      rw [not_or,not_not] at allowed
      exact inv.read allowed.2
  | submit n =>
    obtain ⟨idle,run⟩ := idle_of_some run
    split at run
    next sender call =>
      cases run
      have after := (inv.tx_idle idle).submitCheck (n := n) inv.readPtr inv.order
      rw [call] at after
      exact inv.withSender idle after
    next sender call =>
      cases run
      exact inv.submit idle call
  | consume n =>
    obtain ⟨idle,run⟩ := idle_of_some run
    split at run
    next receiver call =>
      cases run
      have after := (inv.rx_idle idle).consumeCheck (n := n) inv.writePtr inv.order inv.room
      rw [call] at after
      exact inv.withReceiver idle after
    next receiver call =>
      cases run
      exact inv.consume idle call

theorem run {events : List (Event α)} (run : execute events s = some s') : Inv c m s' := by
  induction events generalizing s with
  | nil =>
    cases run
    exact inv
  | cons event events ih =>
    obtain ⟨middle,stepped,rest⟩ := bind_eq_some_iff.mp run
    exact ih (inv.event stepped) rest

end Inv

/-! Linked queues. -/

theorem create_geometry {size msgSize hdrAlign entryAlign flags : NvU32}
    (created : msgqTxCreate backingStore size msgSize hdrAlign entryAlign flags = some sender)
    (nonempty : 1 ≤ sender.tx.msgCount.toNat) :
    Geometry sender.tx sender.tx.msgCount.toNat sender.tx.msgSize.toNat ∧ sender.txLinked = true ∧
      sender.tx.writePtr = 0 ∧ sender.txFree = sender.tx.msgCount - 1 := by
  unfold msgqTxCreate at created
  dsimp only at created
  split_ifs at created with sizes
  cases created
  rw [not_or,BitVec.lt_def,not_lt] at sizes
  refine ⟨⟨rfl,rfl,nonempty,sizes.1,?_⟩,rfl,rfl,rfl⟩
  rw [BitVec.toNat_udiv]
  exact (Nat.div_mul_le_self _ _).trans_lt (BitVec.isLt _)

theorem link_receiver {header : TxHeader} {size msgSize ownRxHdrOff : NvU32} {receiver : Receiver}
    (linkedTo : msgqRxLink header backingStore size msgSize ownRxHdrOff = .ok receiver) :
    receiver = ⟨header,0,0,true⟩ := by
  unfold msgqRxLink at linkedTo
  split_ifs at linkedTo
  cases linkedTo
  rfl

theorem inv_linked (g : Geometry sender.tx c m) (txLinked : sender.txLinked = true)
    (start : sender.tx.writePtr = 0) (free : sender.txFree = sender.tx.msgCount - 1)
    (entries : NvU32 → α) : Inv c m (linked sender ⟨sender.tx,0,0,true⟩ entries) := by
  have nonempty := g.nonempty
  have room : sender.txFree.toNat = c - 1 := by
    rw [free,Word.toNat_sub_one _ (by rw [g.count]; omega),g.count]
  refine ⟨⟨g,txLinked,?_,Nat.zero_le _,?_⟩,⟨g,rfl,?_,Nat.zero_le _,Nat.le_refl _⟩,?_,?_,nofun,nofun,
    nofun,nofun,nofun,rfl,nofun⟩
  · simp [linked,start,pending]
  · simp [linked,room]
  · simp [linked,pending]
  · simp [linked,start]
  · simp [linked]

/-- The slots from the first one that is not consumed on hold what was submitted and waits
for the receiver. -/
structure Delivers (s : State α) (c m : Nat) : Prop where
  received : s.received <+: s.submitted
  obtained : ∀ p content, (p,content) ∈ s.obtained → s.submitted[p]? = some content
  writable : ∀ buffer ∈ s.writable, ∀ p, s.received.length ≤ p → p < s.submitted.length →
    buffer.offset.toNat ≠ p % c * m
  readable : ∀ buffer ∈ s.readable, s.received.length ≤ buffer.number ∧
    buffer.number < s.submitted.length ∧ buffer.offset.toNat = buffer.number % c * m
  bounded : s.submitted.length ≤ s.received.length + (c - 1)

theorem Inv.delivers (inv : Inv c m s) : Delivers s c m := by
  refine ⟨?_,inv.obtained,fun buffer member p low high same => ?_,fun buffer member => ?_,inv.room⟩
  · rw [inv.received]
    exact take_prefix _ _
  · refine inv.writable_apart member low high (BitVec.eq_of_toNat_eq ?_)
    rw [inv.tx.geometry.slotAt_toNat,same]
  · obtain ⟨low,high,place⟩ := inv.readable buffer member
    exact ⟨by omega,high,by rw [place,inv.tx.geometry.slotAt_toNat]⟩

theorem queue_delivers {backingStore theirs : BitVec 64}
    {size msgSize hdrAlign entryAlign flags size' msgSize' ownRxHdrOff : NvU32} {sender : Sender}
    {receiver : Receiver} {entries : NvU32 → α} {events : List (Event α)}
    (created : msgqTxCreate backingStore size msgSize hdrAlign entryAlign flags = some sender)
    (linkedTo : msgqRxLink sender.tx theirs size' msgSize' ownRxHdrOff = .ok receiver)
    (two : 2 ≤ sender.tx.msgCount.toNat)
    (run : execute events (linked sender receiver entries) = some s) :
    Delivers s sender.tx.msgCount.toNat sender.tx.msgSize.toNat := by
  obtain ⟨g,txLinked,start,free⟩ := create_geometry created (by omega)
  cases link_receiver linkedTo
  exact ((inv_linked g txLinked start free entries).run run).delivers

def sampleSender : Sender := ⟨⟨0,96,16,3,0,0,32,40⟩,0,2,true⟩

def sampleRun : List (Event Nat) :=
  [.getWriteBuffer 0,.write ⟨0,0⟩ 7,.getWriteBuffer 1,.write ⟨1,16⟩ 8,.submit 2,.publishWrite,
    .getReadBuffer 0,.read ⟨0,0⟩,.consume 1,.getWriteBuffer 0,.publishRead,.getWriteBuffer 0,
    .write ⟨2,32⟩ 9,.submit 1,.publishWrite,.getReadBuffer 1,.read ⟨2,32⟩]

theorem queue_delivers_sample : ∃ s, execute sampleRun
    (linked sampleSender ⟨sampleSender.tx,0,0,true⟩ fun _ => 0) = some s ∧
      s.submitted = [7,8,9] ∧ s.received = [7] ∧ s.obtained = [(0,7),(2,9)] ∧ Delivers s 3 16 := by
  have created : msgqTxCreate 4096 96 16 3 3 0 = some sampleSender := by decide
  have linkedTo : msgqRxLink sampleSender.tx 4096 96 16 0 = .ok ⟨sampleSender.tx,0,0,true⟩ := by decide
  have completes : (execute sampleRun
    (linked sampleSender ⟨sampleSender.tx,0,0,true⟩ fun _ => 0)).isSome := by decide +kernel
  obtain ⟨s,run⟩ := isSome_iff_exists.mp completes
  have facts : ((execute sampleRun (linked sampleSender ⟨sampleSender.tx,0,0,true⟩ fun _ => 0)).map
      fun s => (s.submitted,s.received,s.obtained)) = some ([7,8,9],[7],[(0,7),(2,9)]) := by
    decide +kernel
  rw [run,map_some,some.injEq] at facts
  simp only [Prod.mk.injEq] at facts
  exact ⟨s,run,facts.1,facts.2.1,facts.2.2,queue_delivers created linkedTo (by decide) run⟩

/-- The receiver finds every message that waits for it, in a slot that still holds it. -/
theorem queue_readable {backingStore theirs : BitVec 64}
    {size msgSize hdrAlign entryAlign flags size' msgSize' ownRxHdrOff n : NvU32} {sender : Sender}
    {receiver : Receiver} {entries : NvU32 → α} {events : List (Event α)}
    (created : msgqTxCreate backingStore size msgSize hdrAlign entryAlign flags = some sender)
    (linkedTo : msgqRxLink sender.tx theirs size' msgSize' ownRxHdrOff = .ok receiver)
    (two : 2 ≤ sender.tx.msgCount.toNat)
    (run : execute events (linked sender receiver entries) = some s) (idle : s.consuming = none)
    (waits : s.received.length + n.toNat < s.submitted.length) :
    s.submitted[s.received.length + n.toNat]? =
      (msgqRxGetReadBuffer s.receiver s.writePtr n).2.map s.entries := by
  obtain ⟨g,txLinked,start,free⟩ := create_geometry created (by omega)
  cases link_receiver linkedTo
  have inv := (inv_linked g txLinked start free entries).run run
  have view := inv.rx_idle idle
  obtain ⟨offset,found⟩ := isSome_iff_exists.mp
    (view.getReadBuffer_found inv.writePtr inv.order inv.room waits)
  have place := (view.getReadBuffer inv.writePtr inv.order inv.room).2 offset found
  rw [found,inv.stored _ (by omega) waits,place.2]
  rfl

theorem queue_readable_second : ∃ s, execute (sampleRun.take 6)
    (linked sampleSender ⟨sampleSender.tx,0,0,true⟩ fun _ => 0) = some s ∧
      (msgqRxGetReadBuffer s.receiver s.writePtr 1).2.map s.entries = some 8 := by
  have created : msgqTxCreate 4096 96 16 3 3 0 = some sampleSender := by decide
  have linkedTo : msgqRxLink sampleSender.tx 4096 96 16 0 = .ok _ := rfl
  refine ⟨?s,?run,(queue_readable created linkedTo (by decide) ?run ?_ ?_).symm.trans ?_⟩
  case run => rfl
  all_goals decide

end GpuExt.Msgq
