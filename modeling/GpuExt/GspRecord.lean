import Mathlib.Logic.Function.Basic
import GpuExt.NvTypes

/-! Records of the GSP message queues. The staging area is seen as 64-bit words; a record begins
with the queue element header, and is sent in elements of one page each. -/
namespace GpuExt.Gsp

open Function BitVec

abbrev Staging := Nat → BitVec 64
abbrev Page := Fin 512 → BitVec 64

instance pageWords : NeZero 512 := ⟨by decide⟩

def elementSizeMin : Nat := 4096
def elementSizeMax : Nat := 16 * elementSizeMin
/-- `GSP_MSG_QUEUE_ELEMENT_HDR_SIZE`, and the size of the header with that of the RPC. -/
def elementHdrSize : NvU32 := 48
def elementSize : NvU32 := 80

def low (word : BitVec 64) : NvU32 := word.extractLsb' 0 32
def high (word : BitVec 64) : NvU32 := word.extractLsb' 32 32

/-! The fields of the header, by their offsets 36, 40 and 56. -/

section

variable (staging : Staging)

def seqNum : NvU32 := high (staging 4)
def elemCount : NvU32 := low (staging 5)
def rpcLength : NvU32 := low (staging 7)

section

variable (i length : Nat) (value : NvU32)

def setCheckSum : Staging :=
  update staging 4 (high (staging 4) ++ value)

def setSeqNum : Staging :=
  update staging 4 (value ++ low (staging 4))

def setElemCount : Staging :=
  update staging 5 (high (staging 5) ++ value)

def msgLen : NvU32 := elementHdrSize + rpcLength staging

def byte (offset : Nat) : BitVec 8 :=
  (staging (offset / 8)).extractLsb' (8 * (offset % 8)) 8

def xorWords (staging : Staging) : Nat → BitVec 64
  | 0 => 0
  | n + 1 => xorWords staging n ^^^ staging n

/-- `_checkSum32`: words are read up to the next multiple of eight. -/
def checkSum32 : NvU32 :=
  let sum := xorWords staging ((length + 7) / 8)
  high sum ^^^ low sum

/-- Zero padding of the last word. -/
def padWord : Staging :=
  if length % 8 = 0 then staging
  else update staging (length / 8)
    (staging (length / 8) &&& (1#64 <<< (8 * (length % 8)) - 1))

def bytesToElements : Nat := (length + elementSizeMin - 1) / elementSizeMin

/-- The staging area before the copy loop of `GspMsgQueueSendCommand`. -/
def prepare (seq : NvU32) : Staging :=
  let length := (msgLen staging).toNat
  let staging := padWord staging length
  let staging := setSeqNum staging seq
  let staging := setElemCount staging (BitVec.ofNat 32 (bytesToElements length))
  let staging := setCheckSum staging 0
  setCheckSum staging (checkSum32 staging length)

/-- The lengths that sender and receiver accept. -/
def lengthOk : Bool :=
  elementSize ≤ msgLen staging ∧ (msgLen staging).toNat ≤ elementSizeMax

def pageOf : Page := fun j => staging (512 * i + j)

def load (page : Page) : Staging := fun k =>
  if inside : 512 * i ≤ k ∧ k - 512 * i < 512 then page ⟨k - 512 * i,inside.2⟩ else staging k

end

end

@[simp] theorem low_append (high low : NvU32) : Gsp.low (high ++ low) = low :=
  extractLsb'_append_eq_right

@[simp] theorem high_append (high low : NvU32) : Gsp.high (high ++ low) = high :=
  extractLsb'_append_eq_left

@[simp] theorem low_xor (a b : BitVec 64) : low (a ^^^ b) = low a ^^^ low b :=
  extractLsb'_xor

@[simp] theorem high_xor (a b : BitVec 64) : high (a ^^^ b) = high a ^^^ high b :=
  extractLsb'_xor

theorem xorWords_congr {staging other : Staging} {n : Nat}
    (same : ∀ k < n, staging k = other k) : xorWords staging n = xorWords other n := by
  induction n with
  | zero => rfl
  | succ n ih =>
    rw [xorWords,xorWords,ih fun k below => same k (by omega),same n (by omega)]

theorem xorWords_update (staging : Staging) {n k : Nat} (below : k < n) (word : BitVec 64) :
    xorWords (update staging k word) n = xorWords staging n ^^^ staging k ^^^ word := by
  induction n with
  | zero => omega
  | succ n ih =>
    rw [xorWords,xorWords]
    by_cases last : k = n
    · subst last
      have before : xorWords (update staging k word) k = xorWords staging k :=
        xorWords_congr fun j earlier => update_of_ne (by omega) _ _
      rw [before,update_self,xor_assoc,xor_assoc,
        ← BitVec.xor_assoc (staging k),BitVec.xor_self,BitVec.zero_xor]
    · rw [ih (by omega),update_of_ne (Ne.symm last)]
      ac_rfl

/-- The value that makes the checksum zero. -/
theorem checkSum32_setCheckSum (staging : Staging) {length : Nat} (header : 40 ≤ length)
    (cleared : low (staging 4) = 0#32) :
    checkSum32 (setCheckSum staging (checkSum32 staging length)) length = 0 := by
  have inside : 4 < (length + 7) / 8 := by omega
  generalize sum : checkSum32 staging length = value
  simp only [checkSum32] at sum ⊢
  simp only [setCheckSum,xorWords_update staging inside,high_xor,low_xor,high_append,low_append,
    cleared]
  -- The high half of the word stays, and its low half was zero.
  have high : high (xorWords staging ((length + 7) / 8)) ^^^ high (staging 4) ^^^
      high (staging 4) = high (xorWords staging ((length + 7) / 8)) := by
    rw [BitVec.xor_assoc,BitVec.xor_self,BitVec.xor_zero]
  rw [high,BitVec.xor_zero,← BitVec.xor_assoc,sum,BitVec.xor_self]
  rfl

theorem checkSum32_congr {staging other : Staging} {length : Nat}
    (same : ∀ k < (length + 7) / 8, staging k = other k) :
    checkSum32 staging length = checkSum32 other length := by
  simp only [checkSum32,xorWords_congr same]

/-! What `prepare` leaves in the staging area. -/

section Prepare

variable (staging : Staging) (seq : NvU32)

/-- The words behind the header that are not padded stay. -/
theorem prepare_rest {k : Nat} (behind : 5 < k) (whole : k ≠ (msgLen staging).toNat / 8) :
    prepare staging seq k = staging k := by
  simp only [prepare,setCheckSum,setElemCount,setSeqNum,padWord]
  rw [update_of_ne (by omega),update_of_ne (by omega),
    update_of_ne (by omega),update_of_ne (by omega)]
  split
  · rfl
  · exact update_of_ne whole _ _

theorem prepare_front {k : Nat} (front : k < 4) (long : 80 ≤ (msgLen staging).toNat) :
    prepare staging seq k = staging k := by
  simp only [prepare,setCheckSum,setElemCount,setSeqNum,padWord]
  rw [update_of_ne (by omega),update_of_ne (by omega),
    update_of_ne (by omega),update_of_ne (by omega)]
  split
  · rfl
  · exact update_of_ne (by omega) _ _

/-- Padding keeps the bytes of the message in the last word. -/
theorem prepare_last (long : 80 ≤ (msgLen staging).toNat) {offset : Nat}
    (last : offset / 8 = (msgLen staging).toNat / 8) (inside : offset < (msgLen staging).toNat) :
    byte (prepare staging seq) offset = byte staging offset := by
  have mask : ∀ r < 8, ∀ t < r,(1#64 <<< (8 * r) - 1).extractLsb' (8 * t) 8 = allOnes 8 := by
    decide
  have word : prepare staging seq (offset / 8) = padWord staging (msgLen staging).toNat
      (offset / 8) := by
    simp only [prepare,setCheckSum,setElemCount,setSeqNum]
    rw [update_of_ne (by omega),update_of_ne (by omega),
      update_of_ne (by omega),update_of_ne (by omega)]
  have partly : (msgLen staging).toNat % 8 ≠ 0 := by omega
  rw [byte,byte,word,padWord,if_neg partly,last,update_self,extractLsb'_and,
    mask _ (Nat.mod_lt _ (by decide)) _ (by omega),and_allOnes]

theorem prepare_seqNum : seqNum (prepare staging seq) = seq := by
  simp [prepare,seqNum,setCheckSum,setElemCount,setSeqNum]

theorem prepare_elemCount : elemCount (prepare staging seq) =
      BitVec.ofNat 32 (bytesToElements (msgLen staging).toNat) := by
  simp [prepare,elemCount,setCheckSum,setElemCount]

theorem prepare_rpcLength (long : elementSize ≤ msgLen staging) :
    rpcLength (prepare staging seq) = rpcLength staging := by
  have long : 80 ≤ (msgLen staging).toNat := long
  rw [rpcLength,rpcLength,prepare_rest staging seq (by omega) (by omega)]

theorem prepare_checkSum32 (long : elementSize ≤ msgLen staging) :
    checkSum32 (prepare staging seq) (msgLen staging).toNat = 0 := by
  have long : 80 ≤ (msgLen staging).toNat := long
  exact checkSum32_setCheckSum _ (by omega) (by simp [setCheckSum])

end Prepare

theorem load_inside (staging : Staging) (i : Nat) (page : Page) (j : Fin 512) :
    load staging i page (512 * i + j) = page j := by
  have inside : 512 * i ≤ 512 * i + j ∧ 512 * i + j - 512 * i < 512 := by have := j.isLt; omega
  rw [load,dif_pos inside]
  congr
  omega

theorem load_before (staging : Staging) {i k : Nat} (page : Page) (before : k < 512 * i) :
    load staging i page k = staging k := dif_neg (by omega)

/-- An accepted length fills between one and sixteen elements. -/
theorem elements_of_length {length : Nat} (positive : 0 < length)
    (bound : length ≤ elementSizeMax) :
    1 ≤ bytesToElements length ∧ bytesToElements length ≤ 16 ∧
      length ≤ 4096 * bytesToElements length := by
  simp only [bytesToElements,elementSizeMax,elementSizeMin] at *
  omega

end GpuExt.Gsp
