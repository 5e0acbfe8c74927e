import GpuExt.Msgq
import Mathlib.Data.List.Pairwise
import Mathlib.Tactic.SplitIfs

/-! A message queue and a peer that is not trusted. The peer writes the header that is read when
the queue is linked, and the read and write pointers at any time. -/
namespace GpuExt.Msgq

open List

/-! Linking. -/

/-- `msgqRxLink` on the receiving half of a handle. The copy of the header is written before it is
checked. -/
def rxLink (q : Receiver) (header : TxHeader) (backingStore : BitVec 64)
    (size msgSize ownRxHdrOff : NvU32) : Int × Receiver :=
  if q.rxLinked then (-1,q)
  else
    match msgqRxLink header backingStore size msgSize ownRxHdrOff with
    | .ok receiver => (0,{ receiver with rxAvail := q.rxAvail })
    | .error code =>
      (code,if msgSize < msgSizeMin ∨ msgSize > size ∨ backingStore = 0 then q
        else { q with rx := header })

/-- A part of the backing store: offset and length. -/
abbrev Part := Nat × Nat

def Part.Apart (a b : Part) : Prop := a.1 + a.2 ≤ b.1 ∨ b.1 + b.2 ≤ a.1

/-- The two headers and the entries of a queue. -/
def parts (header : TxHeader) : List Part :=
  (0,txHeaderSize.toNat) :: (header.rxHdrOff.toNat,rxHeaderSize.toNat) ::
    (range header.msgCount.toNat).map fun i =>
      (header.entryOff.toNat + i * header.msgSize.toNat,header.msgSize.toNat)

/-- The parts of a queue lie in its backing store and do not overlap, and the checks do not
wrap. -/
structure LaidOut (header : TxHeader) (size msgSize : NvU32) : Prop where
  apart : (parts header).Pairwise Part.Apart
  inside : ∀ part ∈ parts header,part.1 + part.2 ≤ size.toNat
  sum : (header.entryOff + msgSize).toNat = header.entryOff.toNat + msgSize.toNat
  difference : (size - header.entryOff).toNat = size.toNat - header.entryOff.toNat

/-- What the checks leave open. -/
structure Intact (header : TxHeader) (size msgSize : NvU32) : Prop where
  sum : header.entryOff.toNat + msgSize.toNat < 2 ^ 32
  txHeader : txHeaderSize.toNat ≤ header.entryOff.toNat
  rxHeader : header.rxHdrOff.toNat + rxHeaderSize.toNat ≤ size.toNat
  entries : header.rxHdrOff.toNat + rxHeaderSize.toNat ≤ header.entryOff.toNat ∨
    header.entryOff.toNat + header.msgCount.toNat * msgSize.toNat ≤ header.rxHdrOff.toNat

/-- The checks that a header has passed. -/
structure Passed (header : TxHeader) (size msgSize ownRxHdrOff : NvU32) : Prop where
  min : msgSizeMin ≤ msgSize
  room : header.entryOff + msgSize ≤ size
  sizes : header.size = size ∧ header.msgSize = msgSize
  rxHdrOff : txHeaderSize ≤ header.rxHdrOff
  msgCount : header.msgCount = (size - header.entryOff) / msgSize

variable {backingStore : BitVec 64} {q : Receiver} {n : NvU32} {other : TxHeader}

theorem msgqRxLink_passed {header : TxHeader} {size msgSize ownRxHdrOff : NvU32}
    {receiver : Receiver}
    (linked : msgqRxLink header backingStore size msgSize ownRxHdrOff = .ok receiver) :
    receiver = ⟨header,0,0,true⟩ ∧ Passed header size msgSize ownRxHdrOff := by
  unfold msgqRxLink at linked
  split_ifs at linked with min larger null room sizes msgSizes version calculated
  cases linked
  simp only [not_or,BitVec.not_lt,not_not] at min room sizes msgSizes calculated
  exact ⟨rfl,min,room,⟨sizes,msgSizes⟩,calculated.1,calculated.2.2⟩

theorem msgqRxLink_error {header : TxHeader} {size msgSize ownRxHdrOff : NvU32} {code : Int}
    (failed : msgqRxLink header backingStore size msgSize ownRxHdrOff = .error code) :
    code < 0 := by
  unfold msgqRxLink at failed
  split_ifs at failed <;> cases failed <;> decide

variable {header : TxHeader} {size msgSize ownRxHdrOff : NvU32}

/-- A ring behind its offset that has room for one entry. -/
theorem entries_fit {entryOff msgCount : NvU32} (min : 16 ≤ msgSize.toNat)
    (inside : entryOff.toNat + msgSize.toNat ≤ size.toNat)
    (count : msgCount = (size - entryOff) / msgSize) :
    entryOff.toNat + msgCount.toNat * msgSize.toNat ≤ size.toNat ∧ 1 ≤ msgCount.toNat := by
  have rest : (size - entryOff).toNat = size.toNat - entryOff.toNat :=
    BitVec.toNat_sub_of_le (by rw [BitVec.le_def]; omega)
  have used := Nat.div_mul_le_self (size.toNat - entryOff.toNat) msgSize.toNat
  rw [count,BitVec.toNat_udiv,rest]
  exact ⟨by omega,Nat.div_pos (by omega) (by omega)⟩

/-- Without a wrap in the sum, the first entry is inside. -/
theorem Passed.inside (passed : Passed header size msgSize ownRxHdrOff)
    (exact : header.entryOff.toNat + msgSize.toNat < 2 ^ 32) :
    header.entryOff.toNat + msgSize.toNat ≤ size.toNat := by
  have room := passed.room
  rwa [BitVec.le_def,BitVec.toNat_add,Nat.mod_eq_of_lt exact] at room

/-- The entries lie one after the other. -/
theorem entries_apart (offset size count : Nat) :
    ((range count).map fun i => ((offset + i * size,size) : Part)).Pairwise Part.Apart := by
  rw [pairwise_map]
  refine pairwise_lt_range.imp fun {i j} less => .inl ?_
  have next := Nat.mul_le_mul_right size (Nat.succ_le_of_lt less)
  simp only
  rw [Nat.succ_mul] at next
  omega

/-- Every entry lies between the first one and the end of the last. -/
theorem mem_entries {offset size count : Nat} {part : Part}
    (member : part ∈ (range count).map fun i => ((offset + i * size,size) : Part)) :
    offset ≤ part.1 ∧ part.1 + part.2 ≤ offset + count * size := by
  obtain ⟨i,inside,rfl⟩ := mem_map.mp member
  have below : i < count := mem_range.mp inside
  have next := Nat.mul_le_mul_right size (Nat.succ_le_of_lt below)
  rw [Nat.succ_mul] at next
  omega

/-- What is apart from every entry lies before the first one or behind the last. -/
theorem entries_split {part : Part} {offset size : Nat} {count : Nat} (nonempty : 0 < part.2)
    (apart : ∀ i < count,part.Apart (offset + i * size,size)) :
    part.1 + part.2 ≤ offset ∨ offset + count * size ≤ part.1 ∨ count = 0 := by
  induction count with
  | zero => exact .inr (.inr rfl)
  | succ count ih =>
    have here := apart count (Nat.lt_succ_self _)
    simp only [Part.Apart] at here
    rw [Nat.succ_mul]
    rcases ih fun i less => apart i (Nat.lt_succ_of_lt less) with before | behind | rfl <;> omega

section

variable (passed : Passed header size msgSize ownRxHdrOff)
include passed

theorem Passed.laidOut (intact : Intact header size msgSize) : LaidOut header size msgSize := by
  have inside := passed.inside intact.sum
  obtain ⟨fit,-⟩ := entries_fit passed.min inside passed.msgCount
  have first : txHeaderSize.toNat ≤ header.rxHdrOff.toNat := passed.rxHdrOff
  have entries := intact.entries
  have txHeader := intact.txHeader
  rw [← passed.sizes.2] at fit entries
  refine ⟨?_,?_,?_,BitVec.toNat_sub_of_le (by rw [BitVec.le_def]; omega)⟩
  · refine pairwise_cons.mpr ⟨?_,pairwise_cons.mpr ⟨?_,entries_apart ..⟩⟩
    · intro part member
      refine .inl ?_
      rcases mem_cons.mp member with rfl | entry
      · exact (Nat.zero_add _).trans_le first
      · exact (Nat.zero_add _).trans_le (txHeader.trans (mem_entries entry).1)
    · intro part entry
      exact entries.imp (Nat.le_trans · (mem_entries entry).1) (mem_entries entry).2.trans
  · intro part member
    simp only [parts,mem_cons] at member
    rcases member with rfl | rfl | entry
    · simp only; omega
    · exact intact.rxHeader
    · exact (mem_entries entry).2.trans fit
  · rw [BitVec.toNat_add,Nat.mod_eq_of_lt intact.sum]

theorem Passed.intact (laidOut : LaidOut header size msgSize) : Intact header size msgSize := by
  have sum : header.entryOff.toNat + msgSize.toNat < 2 ^ 32 :=
    laidOut.sum ▸ (header.entryOff + msgSize).isLt
  have min : 16 ≤ msgSize.toNat := passed.min
  obtain ⟨-,some⟩ := entries_fit passed.min (passed.inside sum) passed.msgCount
  obtain ⟨tx,rest⟩ := pairwise_cons.mp laidOut.apart
  have rx := (pairwise_cons.mp rest).1
  have entry : ∀ i < header.msgCount.toNat,(header.entryOff.toNat + i * header.msgSize.toNat,
      header.msgSize.toNat) ∈ (range header.msgCount.toNat).map fun i =>
        ((header.entryOff.toNat + i * header.msgSize.toNat,header.msgSize.toNat) : Part) :=
    fun i less => mem_map.mpr ⟨i,mem_range.mpr less,rfl⟩
  have behind := entries_split (Nat.zero_lt_succ 3) fun i less => rx _ (entry i less)
  have first := tx _ (mem_cons_of_mem _ (entry 0 some))
  rw [passed.sizes.2] at behind first
  simp only [Part.Apart] at first
  refine ⟨sum,by omega,laidOut.inside _ (mem_cons_of_mem _ mem_cons_self),?_⟩
  exact behind.imp_right (Or.resolve_right · (by omega))

end

/-- A header that is accepted describes a queue inside the backing store just when it is right
where the checks do not look. -/
theorem link_layout {q : Receiver} {header : TxHeader} {backingStore : BitVec 64}
    {size msgSize ownRxHdrOff : NvU32} (unlinked : q.rxLinked = false) :
    let result := rxLink q header backingStore size msgSize ownRxHdrOff
    (result.1 = 0 → result.2.rxLinked = true ∧ result.2.rx = header ∧
        (LaidOut header size msgSize ↔ Intact header size msgSize)) ∧
      (result.1 ≠ 0 → result.2.rxLinked = false) := by
  simp only [rxLink,unlinked,Bool.false_eq_true,if_false]
  cases linked : msgqRxLink header backingStore size msgSize ownRxHdrOff with
  | ok receiver =>
    obtain ⟨rfl,passed⟩ := msgqRxLink_passed linked
    exact ⟨fun _ => ⟨rfl,rfl,passed.intact,passed.laidOut⟩,fun failed => absurd rfl failed⟩
  | error code =>
    refine ⟨fun accepted => absurd accepted (msgqRxLink_error linked).ne,fun _ => ?_⟩
    simp only
    split
    · exact unlinked
    · rfl

section LinkSample

/-- 252 entries of 16 bytes behind the headers. -/
def sampleHeader : TxHeader := ⟨0,4096,16,252,0,0,32,64⟩

theorem link_layout_sample :
    (rxLink ⟨sampleHeader,0,0,false⟩ sampleHeader 0x1000 4096 16 32).1 = 0 ∧
      LaidOut sampleHeader 4096 16 := by
  have accepted : (rxLink ⟨sampleHeader,0,0,false⟩ sampleHeader 0x1000 4096 16 32).1 = 0 := by
    decide +kernel
  exact ⟨accepted,((link_layout rfl).1 accepted).2.2.mpr
    ⟨by decide,by decide,by decide,by decide⟩⟩

/-- A read header at the end of the address space, and entries whose offset wraps. -/
def farHeader : TxHeader := ⟨0,4096,16,252,0,0,0xFFFFFFF0,64⟩

def wrappedHeader : TxHeader := ⟨0,4096,32,128,0,0,32,0xFFFFFFF0⟩

theorem link_accepts_outside :
    (rxLink ⟨farHeader,0,0,false⟩ farHeader 0x1000 4096 16 32).1 = 0 ∧
      ¬farHeader.rxHdrOff.toNat + rxHeaderSize.toNat ≤ 4096 ∧
      (rxLink ⟨wrappedHeader,0,0,false⟩ wrappedHeader 0x1000 4096 32 32).1 = 0 ∧
      ¬wrappedHeader.entryOff.toNat + wrappedHeader.msgSize.toNat ≤ 4096 := by
  decide +kernel

end LinkSample

/-! Ring pointers. -/

structure Queue where
  tx : Sender
  rx : Receiver

/-- The calls, with the value of the peer's pointer at the moment the call reads it, if it does. -/
inductive Call where
  | txGetFreeSpace (readIncoming : NvU32)
  | txGetWriteBuffer (readIncoming n : NvU32)
  | txSubmitBuffers (readIncoming n : NvU32)
  | rxGetReadAvailable (writeIncoming : NvU32)
  | rxGetReadBuffer (writeIncoming n : NvU32)
  | rxMarkConsumed (writeIncoming n : NvU32)

def msgqTxSubmitBuffers (q : Sender) (readIncoming n : NvU32) : Sender :=
  let checked := msgqTxSubmitCheck q readIncoming n
  if checked.2 then msgqTxSubmitDone checked.1 n else checked.1

def msgqRxMarkConsumed (q : Receiver) (writeIncoming n : NvU32) : Receiver :=
  let checked := msgqRxConsumeCheck q writeIncoming n
  if checked.2 then msgqRxConsumeDone checked.1 n else checked.1

def call (q : Queue) : Call → Queue
  | .txGetFreeSpace readIncoming => { q with tx := (msgqTxGetFreeSpace q.tx readIncoming).1 }
  | .txGetWriteBuffer readIncoming n =>
    { q with tx := (msgqTxGetWriteBuffer q.tx readIncoming n).1 }
  | .txSubmitBuffers readIncoming n => { q with tx := msgqTxSubmitBuffers q.tx readIncoming n }
  | .rxGetReadAvailable writeIncoming =>
    { q with rx := (msgqRxGetReadAvailable q.rx writeIncoming).1 }
  | .rxGetReadBuffer writeIncoming n =>
    { q with rx := (msgqRxGetReadBuffer q.rx writeIncoming n).1 }
  | .rxMarkConsumed writeIncoming n => { q with rx := msgqRxMarkConsumed q.rx writeIncoming n }

def calls (q : Queue) (made : List Call) : Queue := made.foldl call q

/-- A ring that lies in 32 bits. -/
structure Fits (header : TxHeader) : Prop where
  count : 1 ≤ header.msgCount.toNat
  min : 16 ≤ header.msgSize.toNat
  size : header.msgCount.toNat * header.msgSize.toNat < 2 ^ 32

theorem Fits.small (fits : Fits header) : header.msgCount.toNat < 2 ^ 28 := by
  have bound := Nat.mul_le_mul_left header.msgCount.toNat fits.min
  have size := fits.size
  omega

/-- Pointers and counts of a half are below the number of entries. -/
structure TxBounded (q : Sender) : Prop where
  fits : Fits q.tx
  writePtr : q.tx.writePtr.toNat < q.tx.msgCount.toNat
  txFree : q.txFree.toNat < q.tx.msgCount.toNat

structure RxBounded (q : Receiver) : Prop where
  fits : Fits q.rx
  rxReadPtr : q.rxReadPtr.toNat < q.rx.msgCount.toNat
  rxAvail : q.rxAvail.toNat < q.rx.msgCount.toNat

/-- The buffer is a slot of the ring. -/
def IsSlot (header : TxHeader) (offset : NvU32) : Prop :=
  ∃ k < header.msgCount.toNat, offset.toNat = k * header.msgSize.toNat

/-- A sum of two numbers below the size of the ring is brought back below it. -/
theorem Fits.wrap_add (fits : Fits header) {a b : NvU32} (left : a.toNat < header.msgCount.toNat)
    (right : b.toNat < header.msgCount.toNat) :
    (wrap (a + b) header.msgCount).toNat < header.msgCount.toNat := by
  have small := fits.small
  rw [wrap_toNat,BitVec.toNat_add]
  split <;> omega

theorem Fits.isSlot (fits : Fits header) {slot : NvU32}
    (below : slot.toNat < header.msgCount.toNat) : IsSlot header (slot * header.msgSize) := by
  refine ⟨slot.toNat,below,?_⟩
  have size := fits.size
  have bound := Nat.mul_le_mul_right header.msgSize.toNat below.le
  rw [BitVec.toNat_mul,Nat.mod_eq_of_lt (by omega)]

/-- The bounds hold whether or not the code looks at the peer's pointer. -/
theorem TxBounded.getFreeSpace {q : Sender} (bounded : TxBounded q) (readIncoming : NvU32) :
    TxBounded (msgqTxGetFreeSpace q readIncoming).1 ∧
      (msgqTxGetFreeSpace q readIncoming).1.tx = q.tx ∧
      (msgqTxGetFreeSpace q readIncoming).2 ≤ (msgqTxGetFreeSpace q readIncoming).1.txFree := by
  have small := bounded.fits.small
  have writePtr := bounded.writePtr
  unfold msgqTxGetFreeSpace
  split
  next => exact ⟨bounded,rfl,BitVec.le_def.mpr (Nat.zero_le _)⟩
  next =>
    split
    next => exact ⟨⟨bounded.fits,writePtr,bounded.txFree⟩,rfl,BitVec.le_def.mpr (Nat.zero_le _)⟩
    next inside =>
      rw [ge_iff_le,BitVec.le_def] at inside
      refine ⟨⟨bounded.fits,writePtr,?_⟩,rfl,BitVec.le_refl _⟩
      have free : (readIncoming + q.tx.msgCount - q.tx.writePtr - 1).toNat =
          readIncoming.toNat + q.tx.msgCount.toNat - q.tx.writePtr.toNat - 1 := by bv_omega
      simp only
      rw [wrap_toNat]
      split <;> omega

theorem RxBounded.getReadAvailable (bounded : RxBounded q) (writeIncoming : NvU32) :
    RxBounded (msgqRxGetReadAvailable q writeIncoming).1 := by
  have small := bounded.fits.small
  have rxReadPtr := bounded.rxReadPtr
  have fits : Fits { q.rx with writePtr := writeIncoming } :=
    ⟨bounded.fits.count,bounded.fits.min,bounded.fits.size⟩
  unfold msgqRxGetReadAvailable
  split
  next => exact bounded
  next =>
    simp only
    split
    next => exact ⟨fits,rxReadPtr,bounded.rxAvail⟩
    next inside =>
      rw [ge_iff_le,BitVec.le_def] at inside
      refine ⟨fits,rxReadPtr,?_⟩
      have difference : (writeIncoming + q.rx.msgCount - q.rxReadPtr).toNat =
          writeIncoming.toNat + q.rx.msgCount.toNat - q.rxReadPtr.toNat := by bv_omega
      simp only
      rw [wrap_toNat]
      split <;> omega

/-! What the receiving calls keep and promise on any metadata. -/

/-- A header of the same ring; only the write pointer differs. -/
def SameRing (header other : TxHeader) : Prop :=
  header.msgCount = other.msgCount ∧ header.msgSize = other.msgSize

theorem msgqRxGetReadAvailable_keeps (q : Receiver) (writeIncoming : NvU32) :
    (msgqRxGetReadAvailable q writeIncoming).1.rxLinked = q.rxLinked ∧
      (msgqRxGetReadAvailable q writeIncoming).1.rxReadPtr = q.rxReadPtr ∧
      SameRing (msgqRxGetReadAvailable q writeIncoming).1.rx q.rx ∧
      (msgqRxGetReadAvailable q writeIncoming).2 ≤
        (msgqRxGetReadAvailable q writeIncoming).1.rxAvail := by
  unfold msgqRxGetReadAvailable
  split
  next => exact ⟨rfl,rfl,⟨rfl,rfl⟩,BitVec.le_def.mpr (Nat.zero_le _)⟩
  next =>
    simp only
    split
    next => exact ⟨rfl,rfl,⟨rfl,rfl⟩,BitVec.le_def.mpr (Nat.zero_le _)⟩
    next => exact ⟨rfl,rfl,⟨rfl,rfl⟩,BitVec.le_refl _⟩

theorem msgqRxGetReadBuffer_keeps (q : Receiver) (writeIncoming n : NvU32) :
    (msgqRxGetReadBuffer q writeIncoming n).1.rxReadPtr = q.rxReadPtr ∧
      (msgqRxGetReadBuffer q writeIncoming n).1.rx.msgCount = q.rx.msgCount ∧
      ((msgqRxGetReadBuffer q writeIncoming n).2.isSome = true →
        (msgqRxGetReadBuffer q writeIncoming n).1.rxLinked = true ∧
          n < (msgqRxGetReadBuffer q writeIncoming n).1.rxAvail) := by
  obtain ⟨linked,rxReadPtr,⟨msgCount,_⟩,avail⟩ := msgqRxGetReadAvailable_keeps q writeIncoming
  unfold msgqRxGetReadBuffer
  split
  next => exact ⟨rfl,rfl,nofun⟩
  next on =>
    have on : q.rxLinked = true := by simpa using on
    by_cases stale : n ≥ q.rxAvail
    · simp only [if_pos stale]
      split
      next => exact ⟨rxReadPtr,msgCount,nofun⟩
      next enough =>
        refine ⟨rxReadPtr,msgCount,fun _ => ⟨linked.trans on,?_⟩⟩
        exact Nat.lt_of_lt_of_le (Nat.lt_of_not_le enough) avail
    · simp only [if_neg stale]
      exact ⟨trivial,trivial,fun _ => ⟨on,Nat.lt_of_not_le stale⟩⟩

/-- What the receiver has seen to be available can be consumed. -/
theorem msgqRxConsumeCheck_available (writeIncoming : NvU32) (linked : q.rxLinked = true)
    (available : n ≤ q.rxAvail) :
    msgqRxConsumeCheck q writeIncoming n =
      ({ q with rxReadPtr := wrap (q.rxReadPtr + n) q.rx.msgCount },true) := by
  have enough : ¬ n > q.rxAvail := Nat.not_lt_of_le available
  simp [msgqRxConsumeCheck,linked,if_neg enough]

theorem msgqRxMarkConsumed_available (writeIncoming : NvU32) (linked : q.rxLinked = true)
    (available : n ≤ q.rxAvail) :
    msgqRxMarkConsumed q writeIncoming n =
      { q with rxReadPtr := wrap (q.rxReadPtr + n) q.rx.msgCount, rxAvail := q.rxAvail - n } := by
  simp [msgqRxMarkConsumed,msgqRxConsumeCheck_available writeIncoming linked available,msgqRxConsumeDone]

/-- The cached count is used if it is enough, and a new one otherwise. -/
theorem TxBounded.refresh {q : Sender} (bounded : TxBounded q) (readIncoming : NvU32)
    (stale : Prop) [Decidable stale] :
    ∃ q' free, (if stale then msgqTxGetFreeSpace q readIncoming else (q,q.txFree)) = (q',free) ∧
      TxBounded q' ∧ q'.tx = q.tx ∧ free ≤ q'.txFree := by
  split
  next => exact ⟨_,_,rfl,bounded.getFreeSpace readIncoming⟩
  next => exact ⟨_,_,rfl,bounded,rfl,BitVec.le_refl _⟩

theorem RxBounded.refresh (bounded : RxBounded q) (writeIncoming : NvU32) (stale : Prop)
    [Decidable stale] :
    ∃ q' avail,
      (if stale then msgqRxGetReadAvailable q writeIncoming else (q,q.rxAvail)) = (q',avail) ∧
        RxBounded q' ∧ SameRing q'.rx q.rx ∧ avail ≤ q'.rxAvail := by
  split
  next =>
    obtain ⟨_,_,same,enough⟩ := msgqRxGetReadAvailable_keeps q writeIncoming
    exact ⟨_,_,rfl,bounded.getReadAvailable writeIncoming,same,enough⟩
  next => exact ⟨_,_,rfl,bounded,⟨rfl,rfl⟩,BitVec.le_refl _⟩

/-- A half that takes no more slots than it has stays within the ring. -/
theorem Fits.taken (fits : Fits header) {ptr count : NvU32}
    (below : ptr.toNat < header.msgCount.toNat) (bound : count.toNat < header.msgCount.toNat)
    (enough : n ≤ count) : (wrap (ptr + n) header.msgCount).toNat < header.msgCount.toNat ∧
      (count - n).toNat < header.msgCount.toNat := by
  have enough : n.toNat ≤ count.toNat := enough
  rw [BitVec.toNat_sub_of_le enough]
  exact ⟨fits.wrap_add below (by omega),by omega⟩

theorem TxBounded.getWriteBuffer {q : Sender} (bounded : TxBounded q) (readIncoming n : NvU32) :
    TxBounded (msgqTxGetWriteBuffer q readIncoming n).1 ∧
      (msgqTxGetWriteBuffer q readIncoming n).1.tx = q.tx ∧
      ∀ offset, (msgqTxGetWriteBuffer q readIncoming n).2 = some offset → IsSlot q.tx offset := by
  unfold msgqTxGetWriteBuffer
  split
  next => exact ⟨bounded,rfl,nofun⟩
  next =>
    obtain ⟨q',free,run,bounded',same,enough⟩ := bounded.refresh readIncoming (n ≥ q.txFree)
    simp only [run]
    split
    next => exact ⟨bounded',same,nofun⟩
    next inside =>
      refine ⟨bounded',same,fun offset found => ?_⟩
      cases found
      have enough := BitVec.le_trans (BitVec.le_of_lt (BitVec.not_le.mp inside)) enough
      obtain ⟨slot,-⟩ := bounded'.fits.taken bounded'.writePtr bounded'.txFree enough
      exact same ▸ bounded'.fits.isSlot slot

theorem Fits.sameRing (fits : Fits header) (same : SameRing other header) : Fits other := by
  refine ⟨?_,?_,?_⟩
  · rw [same.1]
    exact fits.count
  · rw [same.2]
    exact fits.min
  · rw [same.1,same.2]
    exact fits.size

theorem IsSlot.sameRing {offset : NvU32} (slot : IsSlot header offset)
    (same : SameRing header other) : IsSlot other offset := by
  obtain ⟨k,below,place⟩ := slot
  exact ⟨k,same.1 ▸ below,same.2 ▸ place⟩

theorem TxBounded.submitBuffers {q : Sender} (bounded : TxBounded q) (readIncoming n : NvU32) :
    TxBounded (msgqTxSubmitBuffers q readIncoming n) ∧
      SameRing (msgqTxSubmitBuffers q readIncoming n).tx q.tx := by
  unfold msgqTxSubmitBuffers msgqTxSubmitCheck
  cases q.txLinked with
  | false => exact ⟨bounded,rfl,rfl⟩
  | true =>
    simp only [Bool.not_true,Bool.false_eq_true,if_false]
    obtain ⟨q',free,run,bounded',same,enough⟩ := bounded.refresh readIncoming (n > q.txFree)
    simp only [run]
    split
    next => exact ⟨bounded',by simp [same],by simp [same]⟩
    next inside =>
      have enough := BitVec.le_trans (BitVec.not_lt.mp inside) enough
      obtain ⟨slot,left⟩ := bounded'.fits.taken bounded'.writePtr bounded'.txFree enough
      exact ⟨⟨bounded'.fits.sameRing ⟨rfl,rfl⟩,slot,left⟩,by simp [msgqTxSubmitDone,same],
        by simp [msgqTxSubmitDone,same]⟩

theorem RxBounded.getReadBuffer (bounded : RxBounded q) (writeIncoming n : NvU32) :
    RxBounded (msgqRxGetReadBuffer q writeIncoming n).1 ∧
      SameRing (msgqRxGetReadBuffer q writeIncoming n).1.rx q.rx ∧
      ∀ offset, (msgqRxGetReadBuffer q writeIncoming n).2 = some offset → IsSlot q.rx offset := by
  unfold msgqRxGetReadBuffer
  split
  next => exact ⟨bounded,⟨rfl,rfl⟩,nofun⟩
  next =>
    obtain ⟨q',avail,run,bounded',same,enough⟩ := bounded.refresh writeIncoming (n ≥ q.rxAvail)
    simp only [run]
    split
    next => exact ⟨bounded',same,nofun⟩
    next inside =>
      refine ⟨bounded',same,fun offset found => ?_⟩
      cases found
      have enough := BitVec.le_trans (BitVec.le_of_lt (BitVec.not_le.mp inside)) enough
      obtain ⟨slot,-⟩ := bounded'.fits.taken bounded'.rxReadPtr bounded'.rxAvail enough
      exact (bounded'.fits.isSlot slot).sameRing same

theorem RxBounded.markConsumed (bounded : RxBounded q) (writeIncoming n : NvU32) :
    RxBounded (msgqRxMarkConsumed q writeIncoming n) ∧
      SameRing (msgqRxMarkConsumed q writeIncoming n).rx q.rx := by
  unfold msgqRxMarkConsumed msgqRxConsumeCheck
  cases q.rxLinked with
  | false => exact ⟨bounded,rfl,rfl⟩
  | true =>
    simp only [Bool.not_true,Bool.false_eq_true,if_false]
    obtain ⟨q',avail,run,bounded',same,enough⟩ := bounded.refresh writeIncoming (n > q.rxAvail)
    simp only [run]
    split
    next => exact ⟨bounded',same⟩
    next inside =>
      have enough := BitVec.le_trans (BitVec.not_lt.mp inside) enough
      obtain ⟨slot,left⟩ := bounded'.fits.taken bounded'.rxReadPtr bounded'.rxAvail enough
      exact ⟨⟨bounded'.fits,slot,left⟩,same⟩

/-- What holds of a queue whatever the peer writes to the pointers. -/
structure Bounded (ours theirs : TxHeader) (q : Queue) : Prop where
  tx : TxBounded q.tx
  rx : RxBounded q.rx
  txRing : SameRing q.tx.tx ours
  rxRing : SameRing q.rx.rx theirs

theorem SameRing.trans {first second third : TxHeader} (left : SameRing first second)
    (right : SameRing second third) : SameRing first third :=
  ⟨left.1.trans right.1,left.2.trans right.2⟩

theorem Bounded.call {ours theirs : TxHeader} {q : Queue} (bounded : Bounded ours theirs q)
    (made : Call) : Bounded ours theirs (call q made) := by
  cases made with
  | txGetFreeSpace readIncoming =>
    obtain ⟨after,same,-⟩ := bounded.tx.getFreeSpace readIncoming
    exact { bounded with tx := after, txRing := by rw [Msgq.call,same]; exact bounded.txRing }
  | txGetWriteBuffer readIncoming n =>
    obtain ⟨after,same,-⟩ := bounded.tx.getWriteBuffer readIncoming n
    exact { bounded with tx := after, txRing := by rw [Msgq.call,same]; exact bounded.txRing }
  | txSubmitBuffers readIncoming n =>
    obtain ⟨after,same⟩ := bounded.tx.submitBuffers readIncoming n
    exact { bounded with tx := after, txRing := same.trans bounded.txRing }
  | rxGetReadAvailable writeIncoming =>
    obtain ⟨-,-,same,-⟩ := msgqRxGetReadAvailable_keeps q.rx writeIncoming
    exact { bounded with
      rx := bounded.rx.getReadAvailable writeIncoming, rxRing := same.trans bounded.rxRing }
  | rxGetReadBuffer writeIncoming n =>
    obtain ⟨after,same,-⟩ := bounded.rx.getReadBuffer writeIncoming n
    exact { bounded with rx := after, rxRing := same.trans bounded.rxRing }
  | rxMarkConsumed writeIncoming n =>
    obtain ⟨after,same⟩ := bounded.rx.markConsumed writeIncoming n
    exact { bounded with rx := after, rxRing := same.trans bounded.rxRing }

theorem Bounded.calls {ours theirs : TxHeader} (made : List Call) :
    ∀ {q : Queue}, Bounded ours theirs q → Bounded ours theirs (calls q made) := by
  induction made with
  | nil => exact fun bounded => bounded
  | cons first rest ih => exact fun bounded => ih (bounded.call first)

theorem fits_of_inside (min : 16 ≤ header.msgSize.toNat)
    (inside : header.entryOff.toNat + header.msgSize.toNat ≤ size.toNat)
    (count : header.msgCount = (size - header.entryOff) / header.msgSize) : Fits header := by
  obtain ⟨fit,positive⟩ := entries_fit min inside count
  exact ⟨positive,min,by omega⟩

theorem created_bounded {hdrAlign entryAlign flags : NvU32} {sender : Sender}
    (created : msgqTxCreate backingStore size msgSize hdrAlign entryAlign flags = some sender)
    (inside : sender.tx.entryOff.toNat + msgSize.toNat ≤ size.toNat) : TxBounded sender := by
  unfold msgqTxCreate at created
  dsimp only at created
  split_ifs at created with sizes
  cases created
  rw [not_or,BitVec.not_lt] at sizes
  have fits : Fits ⟨msgqVersion,size,msgSize,_,0,flags,_,_⟩ := fits_of_inside sizes.1 inside rfl
  have positive := fits.count
  refine ⟨fits,positive,?_⟩
  rw [Word.toNat_sub_one _ positive]
  exact Nat.sub_lt positive Nat.one_pos

/-- Whatever the peer writes to the pointers of a queue whose entries lie in the backing stores,
the local pointers and counts stay below the number of entries, and buffers are slots. -/
theorem hostile_pointers_bounded {backingStore theirStore : BitVec 64}
    {size msgSize hdrAlign entryAlign flags theirSize theirMsgSize ownRxHdrOff : NvU32}
    {sender : Sender} {header : TxHeader} {receiver : Receiver}
    (created : msgqTxCreate backingStore size msgSize hdrAlign entryAlign flags = some sender)
    (linked : msgqRxLink header theirStore theirSize theirMsgSize ownRxHdrOff = .ok receiver)
    (ours : sender.tx.entryOff.toNat + msgSize.toNat ≤ size.toNat)
    (theirs : header.entryOff.toNat + theirMsgSize.toNat ≤ theirSize.toNat) (made : List Call) :
    let q := calls ⟨sender,receiver⟩ made
    q.tx.tx.writePtr.toNat < sender.tx.msgCount.toNat ∧
      q.tx.txFree.toNat < sender.tx.msgCount.toNat ∧
      q.rx.rxReadPtr.toNat < header.msgCount.toNat ∧
      q.rx.rxAvail.toNat < header.msgCount.toNat ∧
      (∀ readIncoming n offset, (msgqTxGetWriteBuffer q.tx readIncoming n).2 = some offset →
        IsSlot sender.tx offset) ∧
      ∀ writeIncoming n offset, (msgqRxGetReadBuffer q.rx writeIncoming n).2 = some offset →
        IsSlot header offset := by
  obtain ⟨rfl,passed⟩ := msgqRxLink_passed linked
  have fits : Fits header := by
    obtain ⟨-,rfl⟩ := passed.sizes
    exact fits_of_inside passed.min theirs passed.msgCount
  have start : Bounded sender.tx header ⟨sender,⟨header,0,0,true⟩⟩ :=
    ⟨created_bounded created ours,⟨fits,fits.count,fits.count⟩,⟨rfl,rfl⟩,⟨rfl,rfl⟩⟩
  have bounded := start.calls made
  have txCount := congrArg BitVec.toNat bounded.txRing.1
  have rxCount := congrArg BitVec.toNat bounded.rxRing.1
  refine ⟨txCount ▸ bounded.tx.writePtr,txCount ▸ bounded.tx.txFree,rxCount ▸ bounded.rx.rxReadPtr,
    rxCount ▸ bounded.rx.rxAvail,?_,?_⟩
  · intro readIncoming n offset found
    exact ((bounded.tx.getWriteBuffer readIncoming n).2.2 offset found).sameRing bounded.txRing
  · intro writeIncoming n offset found
    exact ((bounded.rx.getReadBuffer writeIncoming n).2.2 offset found).sameRing bounded.rxRing

section CallSample

def boundedSender : Sender := ⟨⟨0,4096,16,253,0,0,32,48⟩,0,252,true⟩

/-- The peer moves its pointers to and fro. -/
def hostileCalls : List Call :=
  [.txGetWriteBuffer 9 3,.txSubmitBuffers 7 200,.txGetFreeSpace 252,.txSubmitBuffers 0xFFFFFFFF 60,
    .rxGetReadBuffer 251 100,.rxMarkConsumed 0 251,.rxGetReadAvailable 0xFFFFFFFF,
    .rxMarkConsumed 3 4]

theorem hostile_pointers_bounded_sample :
    (calls ⟨boundedSender,⟨sampleHeader,0,0,true⟩⟩ hostileCalls).tx.tx.writePtr.toNat < 253 ∧
      (calls ⟨boundedSender,⟨sampleHeader,0,0,true⟩⟩ hostileCalls).rx.rxReadPtr.toNat < 252 := by
  have created : msgqTxCreate 0x1000 4096 16 4 4 0 = some boundedSender := by decide +kernel
  have linked : msgqRxLink sampleHeader 0x2000 4096 16 32 = .ok ⟨sampleHeader,0,0,true⟩ := by
    rfl
  have bounded := hostile_pointers_bounded created linked (by decide) (by decide) hostileCalls
  exact ⟨bounded.1,bounded.2.2.1⟩

end CallSample

end GpuExt.Msgq
