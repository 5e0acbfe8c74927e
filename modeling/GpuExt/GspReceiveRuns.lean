import GpuExt.GspReceive

/-! Receiving from firmware that is not trusted: the retry loop ends, skips old records only and
stays within the staging area, as long as the first elements of records are well formed. -/
namespace GpuExt.Gsp

open List BitVec

variable {cfg : Config} {rx rx' : Rx} {s : Receiving} {status : NvStatus}

/-! Termination. Every turn of the retry loop that does not discard a record uses up a retry, and a
discard brings the difference down. -/

def Rx.left (rx : Rx) : Nat :=
  rx.retry.nMaxRetries - rx.retry.nRetries + rx.retry.seqMismatchDiff.toNat

def Pc.rank : Pc → Nat
  | .fetch i => 2 * (2 ^ 32 - i) + 3
  | .copy i => 2 * (2 ^ 32 - i) + 2
  | .discard => 2 ^ 34
  | .consume => 1
  | .done _ => 0

def Pc.isDone : Pc → Bool
  | .done _ => true
  | _ => false

def Rx.measure (rx : Rx) : Nat :=
  if rx.pc.isDone then 0 else rx.left * (2 ^ 34 + 1) + rx.pc.rank

/-- While the loop runs, retries are left. -/
def Rx.Retrying (rx : Rx) : Prop :=
  rx.pc.isDone = false → rx.retry.nRetries < rx.retry.nMaxRetries

/-- A turn that failed is followed by another one or by the end. -/
inductive Failed (rx : Rx) : Rx → Prop
  | retry (more : rx.retry.nRetries + 1 ≠ rx.retry.nMaxRetries) : Failed rx { rx with
      retry := { rx.retry with nRetries := rx.retry.nRetries + 1 }
      nElements := 1
      pc := .fetch 0 }
  | stop (staging : Staging) (nRetries : Nat) {status : NvStatus} (bad : status ≠ .ok) :
      Failed rx { rx with staging, retry := { rx.retry with nRetries }, pc := .done status }

theorem failed_again (rx : Rx) (bad : status ≠ .ok) : Failed rx (rx.again status) := by
  simp only [Rx.again]
  split
  next less => exact .retry fun same => by rw [same] at less; omega
  next => exact .stop rx.staging _ bad

theorem Failed.retrying (failed : Failed rx rx') (less : rx.retry.nRetries < rx.retry.nMaxRetries) :
    rx'.Retrying ∧ rx'.measure + 1 < rx.left * (2 ^ 34 + 1) := by
  have left : 1 ≤ rx.left := by simp only [Rx.left]; omega
  cases failed with
  | retry more =>
    refine ⟨fun _ => ?_,?_⟩
    · simp only
      omega
    · simp only [Rx.measure,Pc.isDone,Bool.false_eq_true,if_false,Rx.left,Pc.rank] at left ⊢
      omega
  | stop =>
    refine ⟨nofun,?_⟩
    simp only [Rx.measure,Pc.isDone,if_true]
    omega

/-- The staging area as decryption leaves it. -/
def decrypted (cfg : Config) (rx : Rx) : Staging :=
  if cfg.confidential then (cfg.decrypt rx.staging rx.nElements.toNat).2 else rx.staging

/-- What happens to a record whose elements have been copied. -/
theorem check_cases (cfg : Config) (rx : Rx) : Failed rx (rx.check cfg) ∨
    seqNum rx.staging < rx.rxSeqNum ∧
        rx.rxSeqNum - seqNum rx.staging < rx.retry.seqMismatchDiff ∧
        rx.check cfg = { rx with
          retry := { rx.retry with seqMismatchDiff := rx.rxSeqNum - seqNum rx.staging }
          pc := .discard } ∨
    rx.check cfg = { rx with
      staging := decrypted cfg rx
      rxSeqNum := rx.rxSeqNum + 1
      pc := .consume } := by
  have accept (staging : Staging) : Failed rx (Rx.accept { rx with staging }) ∨
      Rx.accept { rx with staging } =
        { rx with staging, rxSeqNum := rx.rxSeqNum + 1, pc := .consume } := by
    simp only [Rx.accept]
    split
    next => exact .inr rfl
    next => exact .inl (.stop staging rx.retry.nRetries (by decide))
  simp only [Rx.check,Rx.decrypt,decrypted]
  split
  next => exact .inl (failed_again rx (by decide))
  split
  next =>
    split
    next old => exact .inr (.inl ⟨old.1,old.2,rfl⟩)
    next => exact .inl (failed_again rx (by decide))
  split
  next =>
    split
    next failed => exact .inl (.stop _ rx.retry.nRetries failed)
    next => exact (accept _).imp_right .inr
  next => exact (accept rx.staging).imp_right .inr

theorem check_retrying (cfg : Config) (less : rx.retry.nRetries < rx.retry.nMaxRetries) :
    (rx.check cfg).Retrying ∧ (rx.check cfg).measure < rx.left * (2 ^ 34 + 1) + 2 := by
  rcases check_cases cfg rx with failed | ⟨-,closer,old⟩ | accepted
  · obtain ⟨retrying,smaller⟩ := failed.retrying less
    exact ⟨retrying,by omega⟩
  · rw [old]
    refine ⟨fun _ => less,?_⟩
    rw [lt_def] at closer
    simp only [Rx.measure,Pc.isDone,Bool.false_eq_true,if_false,Rx.left,Pc.rank]
    omega
  · rw [accepted]
    exact ⟨fun _ => less,by simp [Rx.measure,Pc.isDone,Rx.left,Pc.rank]⟩

/-- Element `i` in the staging area; the first one says how many there are. -/
def Rx.copied (rx : Rx) (i : Nat) (page : Page) : Rx :=
  { rx with
    staging := load rx.staging i page
    nElements := if i = 0 then elemCount (load rx.staging i page) else rx.nElements }

theorem gotPage_cases (cfg : Config) (rx : Rx) (i : Nat) (page : Page) :
    i + 1 < (rx.copied i page).nElements.toNat ∧
        rx.gotPage cfg i page = { rx.copied i page with pc := .fetch (i + 1) } ∨
      (rx.copied i page).nElements.toNat ≤ i + 1 ∧
        rx.gotPage cfg i page = (rx.copied i page).check cfg := by
  by_cases more : i + 1 < (rx.copied i page).nElements.toNat
  · exact .inl ⟨more,if_pos more⟩
  · exact .inr ⟨Nat.le_of_not_lt more,if_neg more⟩

section

variable (less : rx.retry.nRetries < rx.retry.nMaxRetries)
include less

theorem gotPage_retrying (i : Nat) (page : Page) : (rx.gotPage cfg i page).Retrying ∧
      (rx.gotPage cfg i page).measure < rx.left * (2 ^ 34 + 1) + Pc.rank (.copy i) := by
  rcases gotPage_cases cfg rx i page with ⟨more,next⟩ | ⟨-,whole⟩
  · rw [next]
    refine ⟨fun _ => less,?_⟩
    simp only [Rx.measure,Pc.isDone,Bool.false_eq_true,if_false,Rx.left,Rx.copied,Pc.rank]
    omega
  · rw [whole]
    obtain ⟨retrying,smaller⟩ := check_retrying cfg (show (rx.copied i page).retry.nRetries <
      (rx.copied i page).retry.nMaxRetries from less)
    refine ⟨retrying,smaller.trans_le ?_⟩
    simp only [Rx.left,Rx.copied,Pc.rank]
    omega

omit less in
theorem gotBuffer_cases (rx : Rx) (i : Nat) (found : Bool) :
    found = true ∧ rx.gotBuffer i found = { rx with pc := .copy i } ∨
      Failed rx (rx.gotBuffer i found) := by
  simp only [Rx.gotBuffer]
  split
  next found => exact .inl ⟨found,rfl⟩
  split
  next => exact .inr (.stop rx.staging rx.retry.nRetries (by decide))
  next => exact .inr (failed_again rx (by decide))

theorem gotBuffer_retrying (i : Nat) (found : Bool) : (rx.gotBuffer i found).Retrying ∧
      (rx.gotBuffer i found).measure < rx.left * (2 ^ 34 + 1) + Pc.rank (.fetch i) := by
  rcases gotBuffer_cases rx i found with ⟨-,next⟩ | failed
  · rw [next]
    refine ⟨fun _ => less,?_⟩
    simp only [Rx.measure,Pc.isDone,Bool.false_eq_true,if_false,Rx.left,Pc.rank]
    omega
  · obtain ⟨retrying,smaller⟩ := failed.retrying less
    exact ⟨retrying,by omega⟩

omit less in
theorem failed_discarded (rx : Rx) : Failed
    { rx with retry := { rx.retry with nMaxRetries := rx.retry.nMaxRetries + 1 } } rx.discarded :=
  failed_again _ (by decide)

theorem discarded_retrying :
    rx.discarded.Retrying ∧ rx.discarded.measure < rx.left * (2 ^ 34 + 1) + 2 ^ 34 := by
  obtain ⟨retrying,smaller⟩ := (failed_discarded rx).retrying (Nat.lt_succ_of_lt less)
  refine ⟨retrying,?_⟩
  simp only [Rx.left] at smaller ⊢
  omega

end

theorem step_retrying (cfg : Config) (retrying : s.rx.Retrying) (running : s.rx.pc.isDone = false)
    (presented : Presented) :
    (s.step cfg presented).rx.Retrying ∧ (s.step cfg presented).rx.measure < s.rx.measure := by
  have less := retrying running
  have measure : s.rx.measure = s.rx.left * (2 ^ 34 + 1) + s.rx.pc.rank := by
    simp [Rx.measure,running]
  rw [measure]
  simp only [Receiving.step]
  split
  next i at_ =>
    rw [at_]
    exact gotBuffer_retrying less i _
  next i at_ =>
    rw [at_]
    exact gotPage_retrying less i _
  next at_ =>
    rw [at_]
    exact discarded_retrying less
  next at_ =>
    refine ⟨nofun,?_⟩
    simp [Rx.consumed,Rx.measure,Pc.isDone,at_,Pc.rank]
  next status at_ => simp [at_,Pc.isDone] at running

/-- A call that has returned does nothing more. -/
theorem run_of_done (presented : List Presented) (done : s.rx.pc.isDone = true) :
    s.run cfg presented = s := by
  induction presented with
  | nil => rfl
  | cons first rest ih =>
    have still : s.step cfg first = s := by
      cases at_ : s.rx.pc <;> simp_all [Receiving.step,Pc.isDone]
    rw [Receiving.run,foldl_cons,still]
    exact ih

/-- After as many steps as the measure says, the call has returned. -/
theorem run_done (presented : List Presented) : ∀ {s : Receiving}, s.rx.Retrying →
    s.rx.measure ≤ presented.length → (s.run cfg presented).rx.pc.isDone = true := by
  induction presented with
  | nil =>
    intro s retrying enough
    cases running : s.rx.pc.isDone with
    | true => exact running
    | false =>
      have positive : 0 < s.rx.measure := by
        have := (step_retrying cfg retrying running ⟨0,fun _ => 0⟩).2
        omega
      simp only [length_nil] at enough
      omega
  | cons first rest ih =>
    intro s retrying enough
    cases running : s.rx.pc.isDone with
    | true => rw [run_of_done _ running,running]
    | false =>
      obtain ⟨next,smaller⟩ := step_retrying cfg retrying running first
      simp only [length_cons] at enough
      exact ih next (by omega)

/-! Discards. What is skipped is old, and each time closer to the expected number. -/

structure Skipping (seq : NvU32) (s : Receiving) : Prop where
  old : ∀ taken ∈ s.discards, taken.seqNum < seq
  closer : s.discards.Pairwise fun earlier later => seq - later.seqNum < seq - earlier.seqNum
  bound : ∀ taken ∈ s.discards, s.rx.retry.seqMismatchDiff ≤ seq - taken.seqNum
  expected : s.rx.pc.isDone = false → s.rx.pc ≠ .consume → s.rx.rxSeqNum = seq
  next : s.rx.pc = .discard → seqNum s.rx.staging < seq ∧
    s.rx.retry.seqMismatchDiff = seq - seqNum s.rx.staging ∧
    ∀ taken ∈ s.discards, seq - seqNum s.rx.staging < seq - taken.seqNum

section Skipping

variable {seq : NvU32}

section

variable (skipping : Skipping seq s)
include skipping

/-- A step to anywhere but a discard. -/
theorem Skipping.move {s' : Receiving} (discards : s'.discards = s.discards)
    (diff : s'.rx.retry.seqMismatchDiff = s.rx.retry.seqMismatchDiff)
    (expected : s'.rx.pc.isDone = false → s'.rx.pc ≠ .consume → s'.rx.rxSeqNum = seq)
    (elsewhere : s'.rx.pc ≠ .discard) : Skipping seq s' where
  old := discards ▸ skipping.old
  closer := discards ▸ skipping.closer
  bound := by rw [discards,diff]; exact skipping.bound
  expected := expected
  next := fun at_ => absurd at_ elsewhere

theorem Skipping.failed {s' : Receiving} (failed : Failed rx s'.rx) (number : rx.rxSeqNum = seq)
    (diff : rx.retry.seqMismatchDiff = s.rx.retry.seqMismatchDiff)
    (discards : s'.discards = s.discards) : Skipping seq s' := by
  obtain ⟨rx',queue,extent,discards',accepted⟩ := s'
  cases failed with
  | retry => exact skipping.move discards diff (fun _ _ => number) nofun
  | stop => exact skipping.move discards diff nofun nofun

theorem Skipping.check {s' : Receiving} (moved : s'.rx = rx.check cfg)
    (number : rx.rxSeqNum = seq) (diff : rx.retry.seqMismatchDiff = s.rx.retry.seqMismatchDiff)
    (discards : s'.discards = s.discards) : Skipping seq s' := by
  rcases check_cases cfg rx with failed | ⟨older,closer,old⟩ | accepted
  · exact skipping.failed (moved ▸ failed) number diff discards
  · rw [old] at moved
    rw [number] at older closer moved
    have below : ∀ taken ∈ s.discards, seq - seqNum rx.staging < seq - taken.seqNum :=
      fun taken member => Nat.lt_of_lt_of_le (diff ▸ closer) (skipping.bound taken member)
    refine ⟨discards ▸ skipping.old,discards ▸ skipping.closer,?_,?_,?_⟩
    · rw [discards,moved]
      exact fun taken member => Nat.le_of_lt (below taken member)
    · rw [moved]
      exact fun _ _ => rfl
    · rw [moved,discards]
      exact fun _ => ⟨older,rfl,below⟩
  · rw [accepted] at moved
    exact skipping.move discards (by rw [moved]; exact diff)
      (fun _ elsewhere => absurd (by rw [moved]) elsewhere) (by rw [moved]; nofun)

theorem Skipping.step (presented : Presented) : Skipping seq (s.step cfg presented) := by
  cases at_ : s.rx.pc with
  | fetch i =>
    have number : s.rx.rxSeqNum = seq := skipping.expected (by rw [at_]; rfl) (by rw [at_]; nofun)
    simp only [Receiving.step,at_]
    refine (gotBuffer_cases s.rx i _).elim (fun ⟨_,next⟩ => ?_) fun failed =>
      skipping.failed failed number rfl rfl
    rw [next]
    exact skipping.move rfl rfl (fun _ _ => number) nofun
  | copy i =>
    have number : s.rx.rxSeqNum = seq := skipping.expected (by rw [at_]; rfl) (by rw [at_]; nofun)
    simp only [Receiving.step,at_]
    rcases gotPage_cases cfg s.rx i presented.page with ⟨-,next⟩ | ⟨-,whole⟩
    · simp only [next]
      exact skipping.move rfl rfl (fun _ _ => number) nofun
    · exact skipping.check whole number rfl rfl
  | discard =>
    have number : s.rx.rxSeqNum = seq := skipping.expected (by rw [at_]; rfl) (by rw [at_]; nofun)
    obtain ⟨older,diff,below⟩ := skipping.next at_
    -- The record that is discarded becomes the last of the list, and the closest.
    have counted : Skipping seq { s with
        discards := s.discards ++ [⟨seqNum s.rx.staging,s.rx.nElements,s.queue.rxReadPtr⟩]
        rx := { s.rx with pc := .fetch 0 } } := by
      refine ⟨?_,?_,?_,fun _ _ => number,nofun⟩
      · intro taken member
        rcases mem_append.mp member with earlier | last
        · exact skipping.old taken earlier
        · rw [mem_singleton.mp last]
          exact older
      · refine pairwise_append.mpr ⟨skipping.closer,pairwise_singleton _ _,?_⟩
        intro taken member last isLast
        rw [mem_singleton.mp isLast]
        exact below taken member
      · intro taken member
        rcases mem_append.mp member with earlier | last
        · exact skipping.bound taken earlier
        · rw [mem_singleton.mp last]
          exact Nat.le_of_eq (congrArg BitVec.toNat diff)
    simp only [Receiving.step,at_]
    exact counted.failed (failed_discarded s.rx) number rfl rfl
  | consume =>
    simp only [Receiving.step,at_]
    exact skipping.move rfl rfl nofun nofun
  | done status =>
    simp only [Receiving.step,at_]
    exact skipping

end

theorem Skipping.run (presented : List Presented) : ∀ {s : Receiving}, Skipping seq s →
    Skipping seq (s.run cfg presented) := by
  induction presented with
  | nil => exact fun skipping => skipping
  | cons first rest ih => exact fun skipping => ih (skipping.step first)

theorem skipping_start (queue : Msgq.Receiver) (staging : Staging) (seq : NvU32) :
    Skipping seq (.start queue staging seq) where
  old := nofun
  closer := .nil
  bound := nofun
  expected := fun _ _ => rfl
  next := nofun

end Skipping

/-! Counting. The elements that were read are there to be consumed, unless the seventeenth of a
record replaced the metadata of the queue. -/

def Pc.copying : Pc → Option Nat
  | .copy i => some i
  | _ => none

/-- Every element that is copied leaves an allowed record. -/
def Receiving.Respects (cfg : Config) (allowed : Nat → Rx → Prop) :
    Receiving → List Presented → Prop
  | _, [] => True
  | s, first :: rest =>
    (∀ i ∈ s.rx.pc.copying, allowed i (s.rx.copied i first.page)) ∧
      Respects cfg allowed (s.step cfg first) rest

instance decidableRespects (cfg : Config) (allowed : Nat → Rx → Prop)
    [∀ i rx, Decidable (allowed i rx)] :
    (s : Receiving) → (presented : List Presented) → Decidable (s.Respects cfg allowed presented)
  | _, [] => .isTrue trivial
  | s, first :: rest =>
    have := decidableRespects cfg allowed (s.step cfg first) rest
    inferInstanceAs (Decidable (_ ∧ _))

/-- No seventeenth element of a record is copied. -/
def FewElements (i : Nat) (_ : Rx) : Prop := i < 16

instance (i : Nat) (rx : Rx) : Decidable (FewElements i rx) :=
  inferInstanceAs (Decidable (i < 16))

def advance (msgCount readPtr : NvU32) (taken : List Taken) : NvU32 :=
  taken.foldl (fun ptr record => Msgq.wrap (ptr + record.nElements) msgCount) readPtr

@[simp] def Pc.accepts : Pc → Bool
  | .consume => true
  | .done status => status = .ok
  | _ => false

/-- Element `i` is the first one or one that the first one announced. -/
def Expected (rx : Rx) (i : Nat) : Prop := i = 0 ∨ i < rx.nElements.toNat

/-- What is known of the queue where the call is. -/
def Place (s : Receiving) : Prop :=
  match s.rx.pc with
  | .fetch i => s.accepted = none ∧ Expected s.rx i
  | .copy i =>
    s.accepted = none ∧ Expected s.rx i ∧ s.queue.rxLinked = true ∧ i < s.queue.rxAvail.toNat
  | .discard | .consume =>
    s.accepted = none ∧ s.queue.rxLinked = true ∧ s.rx.nElements ≤ s.queue.rxAvail
  | .done status => s.accepted.isSome = true ↔ status = .ok

/-- `queue` is the queue before the call. -/
structure Counted (queue : Msgq.Receiver) (seq : NvU32) (s : Receiving) : Prop where
  msgCount : s.queue.rx.msgCount = queue.rx.msgCount
  readPtr : s.queue.rxReadPtr =
    advance queue.rx.msgCount queue.rxReadPtr (s.discards ++ s.accepted.toList)
  number : s.rx.rxSeqNum = if s.rx.pc.accepts then seq + 1 else seq
  place : Place s

section Counted

variable {queue : Msgq.Receiver} {seq : NvU32}

theorem counted_failed {s' : Receiving} (failed : Failed rx s'.rx)
    (number : rx.rxSeqNum = seq) (accepted : s'.accepted = none)
    (msgCount : s'.queue.rx.msgCount = queue.rx.msgCount)
    (readPtr : s'.queue.rxReadPtr = advance queue.rx.msgCount queue.rxReadPtr s'.discards) :
    Counted queue seq s' := by
  have total : s'.queue.rxReadPtr =
      advance queue.rx.msgCount queue.rxReadPtr (s'.discards ++ s'.accepted.toList) := by
    simpa [accepted] using readPtr
  obtain ⟨rx',queue',extent,discards,accepted'⟩ := s'
  cases failed with
  | retry => exact ⟨msgCount,total,number,accepted,.inl rfl⟩
  | stop _ _ bad =>
    refine ⟨msgCount,total,?_,?_⟩
    · simpa [bad] using number
    · simpa [Place,bad] using accepted

theorem counted_check {s' : Receiving} (moved : s'.rx = rx.check cfg) (number : rx.rxSeqNum = seq)
    (accepted : s'.accepted = none) (msgCount : s'.queue.rx.msgCount = queue.rx.msgCount)
    (readPtr : s'.queue.rxReadPtr = advance queue.rx.msgCount queue.rxReadPtr s'.discards)
    (linked : s'.queue.rxLinked = true) (available : rx.nElements ≤ s'.queue.rxAvail) :
    Counted queue seq s' := by
  have total : s'.queue.rxReadPtr =
      advance queue.rx.msgCount queue.rxReadPtr (s'.discards ++ s'.accepted.toList) := by
    simpa [accepted] using readPtr
  rcases check_cases cfg rx with failed | ⟨-,-,old⟩ | counts
  · exact counted_failed (moved ▸ failed) number accepted msgCount readPtr
  · rw [old] at moved
    refine ⟨msgCount,total,?_,?_⟩
    · simpa [moved] using number
    · simp only [Place,moved]
      exact ⟨accepted,linked,available⟩
  · rw [counts] at moved
    refine ⟨msgCount,total,?_,?_⟩
    · simp [moved,number]
    · simp only [Place,moved]
      exact ⟨accepted,linked,available⟩

section

variable (counted : Counted queue seq s)
include counted

theorem Counted.fetch {i : Nat} (at_ : s.rx.pc = .fetch i)
    (presented : Presented) : Counted queue seq (s.step cfg presented) := by
  obtain ⟨msgCount,readPtr,number,place⟩ := counted
  have number : s.rx.rxSeqNum = seq := by simpa [at_] using number
  simp only [Place,at_] at place
  obtain ⟨accepted,expected⟩ := place
  obtain ⟨samePtr,sameCount,found⟩ :=
    Msgq.msgqRxGetReadBuffer_keeps s.queue presented.writeIncoming _
  have total := samePtr.trans readPtr
  have readPtr := total
  rw [accepted,Option.toList_none,append_nil] at readPtr
  simp only [Receiving.step,at_]
  refine (gotBuffer_cases s.rx i _).elim (fun ⟨there,next⟩ => ?_) fun failed =>
    counted_failed failed number accepted (sameCount.trans msgCount) readPtr
  obtain ⟨linked,below⟩ := found there
  have index : (BitVec.ofNat 32 i).toNat = i := by
    rw [toNat_ofNat]
    rcases expected with first | inside <;> omega
  rw [lt_def,index] at below
  rw [next]
  exact ⟨sameCount.trans msgCount,total,number,accepted,expected,linked,below⟩

theorem Counted.copy {i : Nat} (at_ : s.rx.pc = .copy i)
    (presented : Presented) (few : FewElements i (s.rx.copied i presented.page)) :
    Counted queue seq (s.step cfg presented) := by
  obtain ⟨msgCount,readPtr,number,place⟩ := counted
  have number : s.rx.rxSeqNum = seq := by simpa [at_] using number
  simp only [Place,at_] at place
  obtain ⟨accepted,expected,linked,below⟩ := place
  have total := readPtr
  rw [accepted,Option.toList_none,append_nil] at readPtr
  have sixteenth : i ≠ 16 := Nat.ne_of_lt few
  simp only [Receiving.step,at_,if_neg sixteenth]
  rcases gotPage_cases cfg s.rx i presented.page with ⟨more,next⟩ | ⟨all,whole⟩
  · simp only [next]
    exact ⟨msgCount,total,number,accepted,.inr more⟩
  · refine counted_check whole number accepted msgCount readPtr linked ?_
    exact all.trans below

theorem Counted.discard (at_ : s.rx.pc = .discard)
    (presented : Presented) : Counted queue seq (s.step cfg presented) := by
  obtain ⟨msgCount,readPtr,number,place⟩ := counted
  have number : s.rx.rxSeqNum = seq := by simpa [at_] using number
  simp only [Place,at_] at place
  obtain ⟨accepted,linked,available⟩ := place
  simp only [Receiving.step,at_,
    Msgq.msgqRxMarkConsumed_available presented.writeIncoming linked available]
  refine counted_failed (failed_discarded s.rx) number accepted msgCount ?_
  simp [advance,readPtr,accepted,msgCount]

theorem Counted.consume (at_ : s.rx.pc = .consume)
    (presented : Presented) : Counted queue seq (s.step cfg presented) := by
  obtain ⟨msgCount,readPtr,number,place⟩ := counted
  have number : s.rx.rxSeqNum = seq + 1 := by simpa [at_] using number
  simp only [Place,at_] at place
  obtain ⟨accepted,linked,available⟩ := place
  simp only [Receiving.step,at_,Rx.consumed,
    Msgq.msgqRxConsumeCheck_available presented.writeIncoming linked available,
    Msgq.msgqRxMarkConsumed_available presented.writeIncoming linked available]
  refine ⟨msgCount,?_,number,?_⟩
  · simp [advance,readPtr,accepted,msgCount]
  · simp [Place]

theorem Counted.step (presented : Presented)
    (few : ∀ i ∈ s.rx.pc.copying, FewElements i (s.rx.copied i presented.page)) :
    Counted queue seq (s.step cfg presented) := by
  cases at_ : s.rx.pc with
  | fetch i => exact counted.fetch at_ presented
  | copy i => exact counted.copy at_ presented (few i (by rw [at_]; rfl))
  | discard => exact counted.discard at_ presented
  | consume => exact counted.consume at_ presented
  | done status =>
    simp only [Receiving.step,at_]
    exact counted

end

theorem Counted.run (presented : List Presented) : ∀ {s : Receiving}, Counted queue seq s →
    s.Respects cfg FewElements presented → Counted queue seq (s.run cfg presented) := by
  induction presented with
  | nil => exact fun counted _ => counted
  | cons first rest ih => exact fun counted few => ih (counted.step first few.1) few.2

theorem counted_start (queue : Msgq.Receiver) (staging : Staging) (seq : NvU32) :
    Counted queue seq (.start queue staging seq) :=
  ⟨rfl,rfl,rfl,rfl,.inl rfl⟩

end Counted

/-! Bounds. The elements of a record hold all of it, and fit the staging area. -/

/-- The record is between one and sixteen elements long, and these hold all of its length. -/
structure Whole (staging : Staging) (nElements : NvU32) : Prop where
  count : nElements = elemCount staging
  some : 1 ≤ nElements.toNat
  few : nElements.toNat ≤ 16
  length : elementHdrSize.toNat + (rpcLength staging).toNat ≤ elementSizeMin * nElements.toNat

/-- What is missing among the checks: no seventeenth element is copied, the length of a complete
record that is summed up fits the staging area, and that of one that passes the checks fits its
elements. -/
def Sized (cfg : Config) (i : Nat) (rx : Rx) : Prop :=
  i < 16 ∧ (rx.nElements.toNat ≤ i + 1 → (checkedLength cfg rx).toNat ≤ elementSizeMax ∧
    ((rx.check cfg).pc = .consume → 1 ≤ rx.nElements.toNat ∧
      elementHdrSize.toNat + (rpcLength (decrypted cfg rx)).toNat ≤
        elementSizeMin * rx.nElements.toNat))

instance (cfg : Config) (i : Nat) (rx : Rx) : Decidable (Sized cfg i rx) :=
  inferInstanceAs (Decidable (_ ∧ _))

def Complete (s : Receiving) : Prop :=
  match s.rx.pc with
  | .fetch i | .copy i => i ≠ 0 → s.rx.nElements = elemCount s.rx.staging
  | .discard => True
  | .consume => Whole s.rx.staging s.rx.nElements
  | .done status => status = .ok → ∀ taken ∈ s.accepted, Whole s.rx.staging taken.nElements

structure Fitting (s : Receiving) : Prop where
  extent : s.extent ≤ elementSizeMax
  complete : Complete s

section Fitting

variable {queue : Msgq.Receiver} {seq : NvU32}

theorem elemCount_decrypted (cfg : Config) (rx : Rx) :
    elemCount (decrypted cfg rx) = elemCount rx.staging := by
  simp only [decrypted]
  split
  · rw [elemCount,elemCount,cfg.keepsHeader _ _ 5 (by decide)]
  · rfl

theorem fitting_failed {s' : Receiving} (failed : Failed rx s'.rx)
    (extent : s'.extent ≤ elementSizeMax) : Fitting s' := by
  obtain ⟨rx',queue,extent',discards,accepted⟩ := s'
  refine ⟨extent,?_⟩
  cases failed with
  | retry => exact fun later => absurd rfl later
  | stop _ _ bad => exact fun good => absurd good bad

theorem fitting_check {s' : Receiving} (moved : s'.rx = rx.check cfg)
    (extent : s'.extent ≤ elementSizeMax) (count : rx.nElements = elemCount rx.staging)
    (few : rx.nElements.toNat ≤ 16) (sized : (rx.check cfg).pc = .consume →
      1 ≤ rx.nElements.toNat ∧ elementHdrSize.toNat + (rpcLength (decrypted cfg rx)).toNat ≤
        elementSizeMin * rx.nElements.toNat) : Fitting s' := by
  rcases check_cases cfg rx with failed | ⟨-,-,old⟩ | counts
  · exact fitting_failed (moved ▸ failed) extent
  · refine ⟨extent,?_⟩
    simp only [Complete,moved,old]
  · refine ⟨extent,?_⟩
    obtain ⟨some,length⟩ := sized (by rw [counts])
    simp only [Complete,moved,counts]
    exact ⟨count.trans (elemCount_decrypted cfg rx).symm,some,few,length⟩

theorem summed_le_iff (i : Nat) (page : Page) : summed cfg rx i page ≤ elementSizeMax ↔
    ((rx.copied i page).nElements.toNat ≤ i + 1 →
      (checkedLength cfg (rx.copied i page)).toNat ≤ elementSizeMax) := by
  have unfolded : summed cfg rx i page =
      if i + 1 < (rx.copied i page).nElements.toNat then 0
      else ((checkedLength cfg (rx.copied i page)).toNat + 7) / 8 * 8 := rfl
  rw [unfolded]
  simp only [elementSizeMax,elementSizeMin]
  split
  next more => exact iff_of_true (Nat.zero_le _) fun last => absurd more (by omega)
  next last => omega

/-- A record has the number of elements that its header says. -/
theorem Fitting.count (fitting : Fitting s) {i : Nat} (at_ : s.rx.pc = .copy i) (page : Page) :
    (s.rx.copied i page).nElements = elemCount (s.rx.copied i page).staging := by
  have complete := fitting.complete
  simp only [Complete,at_] at complete
  by_cases first : i = 0
  · simp [Rx.copied,first]
  · simp only [Rx.copied,if_neg first,complete first,elemCount]
    rw [load_before _ _ (by omega)]

theorem Fitting.copy (fitting : Fitting s) {i : Nat} (at_ : s.rx.pc = .copy i)
    (presented : Presented) (sized : Sized cfg i (s.rx.copied i presented.page)) :
    Fitting (s.step cfg presented) := by
  obtain ⟨few,complete⟩ := sized
  have count := fitting.count at_ presented.page
  have extent : max s.extent (max (4096 * (i + 1)) (summed cfg s.rx i presented.page)) ≤
      elementSizeMax := by
    refine max_le fitting.extent (max_le ?_ ((summed_le_iff i _).mpr fun all => (complete all).1))
    simp only [elementSizeMax,elementSizeMin]
    omega
  simp only [Receiving.step,at_]
  rcases gotPage_cases cfg s.rx i presented.page with ⟨-,next⟩ | ⟨all,whole⟩
  · refine ⟨extent,?_⟩
    simp only [next]
    exact fun _ => count
  · exact fitting_check whole extent count (by omega) (complete all).2

theorem Fitting.step (fitting : Fitting s) (presented : Presented)
    (sized : ∀ i ∈ s.rx.pc.copying, Sized cfg i (s.rx.copied i presented.page)) :
    Fitting (s.step cfg presented) := by
  cases at_ : s.rx.pc with
  | fetch i =>
    obtain ⟨extent,complete⟩ := fitting
    simp only [Complete,at_] at complete
    simp only [Receiving.step,at_]
    refine (gotBuffer_cases s.rx i _).elim (fun ⟨_,next⟩ => ?_) fun failed =>
      fitting_failed failed extent
    rw [next]
    exact ⟨extent,complete⟩
  | copy i => exact fitting.copy at_ presented (sized i (by rw [at_]; rfl))
  | discard =>
    simp only [Receiving.step,at_]
    exact fitting_failed (failed_discarded s.rx) fitting.extent
  | consume =>
    obtain ⟨extent,complete⟩ := fitting
    simp only [Complete,at_] at complete
    simp only [Receiving.step,at_]
    refine ⟨extent,fun _ taken member => ?_⟩
    split at member
    · cases member
      exact complete
    · cases member
  | done status =>
    simp only [Receiving.step,at_]
    exact fitting

theorem fitting_start (queue : Msgq.Receiver) (staging : Staging) (seq : NvU32) :
    Fitting (.start queue staging seq) :=
  ⟨Nat.zero_le _,fun later => absurd rfl later⟩

/-- The call has stayed within the staging area. What it has accepted is a whole record, and the
read pointer has passed the discarded records and the elements of the accepted one. -/
structure Bounded (queue : Msgq.Receiver) (s : Receiving) : Prop where
  extent : s.extent ≤ elementSizeMax
  whole : s.rx.pc = .done .ok → ∃ taken, s.accepted = some taken ∧
    Whole s.rx.staging taken.nElements ∧ s.queue.rxReadPtr = Msgq.wrap
      (advance queue.rx.msgCount queue.rxReadPtr s.discards + taken.nElements) queue.rx.msgCount

theorem Fitting.bounded {queue : Msgq.Receiver} {seq : NvU32} (fitting : Fitting s)
    (counted : Counted queue seq s) : Bounded queue s := by
  refine ⟨fitting.extent,fun at_ => ?_⟩
  have place := counted.place
  have complete := fitting.complete
  simp only [Place,at_,iff_true] at place
  simp only [Complete,at_] at complete
  obtain ⟨taken,accepted⟩ := Option.isSome_iff_exists.mp place
  refine ⟨taken,accepted,complete trivial taken accepted,?_⟩
  simp [counted.readPtr,accepted,advance]

theorem step_extent (s : Receiving) (presented : Presented) :
    s.extent ≤ (s.step cfg presented).extent := by
  unfold Receiving.step
  dsimp only
  split <;> first | exact le_rfl | exact le_max_left _ _

theorem run_extent (presented : List Presented) : ∀ s : Receiving,
    s.extent ≤ (s.run cfg presented).extent := by
  induction presented with
  | nil => exact fun s => le_rfl
  | cons first rest ih => exact fun s => (step_extent s first).trans (ih _)

/-- An accepted record is returned as it is. -/
theorem Counted.returned {queue : Msgq.Receiver} {seq : NvU32} (counted : Counted queue seq s)
    (at_ : s.rx.pc = .consume) {presented : List Presented}
    (done : (s.run cfg presented).rx.pc.isDone = true) :
    let s' := s.run cfg presented
    s'.rx.pc = .done .ok ∧ s'.rx.staging = s.rx.staging ∧
      ∀ taken ∈ s'.accepted,taken.nElements = s.rx.nElements := by
  cases presented with
  | nil => simp [Receiving.run,at_,Pc.isDone] at done
  | cons first rest =>
    have place := counted.place
    simp only [Place,at_] at place
    obtain ⟨-,linked,available⟩ := place
    have stepped : (s.step cfg first).rx = { s.rx with pc := .done .ok } ∧
        (s.step cfg first).accepted =
          some ⟨seqNum s.rx.staging,s.rx.nElements,s.queue.rxReadPtr⟩ := by
      simp [Receiving.step,at_,Rx.consumed,
        Msgq.msgqRxConsumeCheck_available first.writeIncoming linked available]
    have final : s.run cfg (first :: rest) = s.step cfg first :=
      run_of_done rest (by rw [stepped.1]; rfl)
    dsimp only
    rw [final,stepped.1,stepped.2]
    exact ⟨rfl,rfl,fun taken member => (Option.some.inj member) ▸ rfl⟩

/-- A record that is not `Sized` leads to a call that is not `Bounded`. -/
theorem Bounded.sized {queue : Msgq.Receiver} {seq : NvU32} {first : Presented}
    {rest : List Presented} (bounded : Bounded queue (s.run cfg (first :: rest)))
    (counted : Counted queue seq s) (done : (s.run cfg (first :: rest)).rx.pc.isDone = true)
    {i : Nat} (at_ : s.rx.pc = .copy i) :
    Sized cfg i (s.rx.copied i first.page) := by
  have extent : max (4096 * (i + 1)) (summed cfg s.rx i first.page) ≤ elementSizeMax := by
    refine le_trans ?_ ((run_extent rest _).trans bounded.extent)
    simp only [Receiving.step,at_]
    exact le_max_right _ _
  obtain ⟨copied,summed⟩ := max_le_iff.mp extent
  have few : i < 16 := by
    simp only [elementSizeMax,elementSizeMin] at copied
    omega
  refine ⟨few,fun all => ⟨(summed_le_iff i _).mp summed all,fun accepts => ?_⟩⟩
  -- The record is accepted, so the call returns it.
  have next : Counted queue seq (s.step cfg first) := counted.step first fun j here => by
    rw [at_] at here
    exact (Option.some.inj here) ▸ few
  have checked : (s.step cfg first).rx = (s.rx.copied i first.page).check cfg := by
    simp only [Receiving.step,at_]
    exact if_neg (Nat.not_lt.mpr all)
  obtain ⟨ok,staging,count⟩ := next.returned (by rw [checked]; exact accepts) done
  obtain ⟨taken,accepted,whole,-⟩ := bounded.whole ok
  have record : (s.rx.copied i first.page).check cfg = { s.rx.copied i first.page with
      staging := decrypted cfg (s.rx.copied i first.page)
      rxSeqNum := s.rx.rxSeqNum + 1
      pc := .consume } := by
    rcases check_cases cfg (s.rx.copied i first.page) with failed | ⟨-,-,old⟩ | same
    · generalize (s.rx.copied i first.page).check cfg = result at failed accepts
      cases failed <;> cases accepts
    · rw [old] at accepts
      cases accepts
    · exact same
  have nElements := count taken accepted
  rw [checked,record] at nElements staging
  rw [show (s.run cfg (first :: rest)).rx.staging = _ from staging,nElements] at whole
  exact ⟨whole.some,whole.length⟩

theorem run_bounded_iff {queue : Msgq.Receiver} {seq : NvU32} (presented : List Presented) :
    ∀ {s : Receiving},Fitting s → Counted queue seq s →
      (s.run cfg presented).rx.pc.isDone = true →
      (Bounded queue (s.run cfg presented) ↔ s.Respects cfg (Sized cfg) presented) := by
  induction presented with
  | nil => exact fun fitting counted _ => iff_of_true (fitting.bounded counted) trivial
  | cons first rest ih =>
    intro s fitting counted done
    have onward (sized : ∀ i ∈ s.rx.pc.copying,Sized cfg i (s.rx.copied i first.page)) :
        Bounded queue (s.run cfg (first :: rest)) ↔
          (s.step cfg first).Respects cfg (Sized cfg) rest :=
      ih (fitting.step first sized) (counted.step first fun i here => (sized i here).1) done
    refine ⟨fun bounded => ?_,fun sized => (onward sized.1).mpr sized.2⟩
    have here : ∀ i ∈ s.rx.pc.copying,Sized cfg i (s.rx.copied i first.page) := by
      intro i here
      refine bounded.sized counted done ?_
      cases at_ : s.rx.pc <;> rw [at_] at here <;> cases here
      rfl
    exact ⟨here,(onward here).mp bounded⟩

end Fitting

section

variable (elemCount rpcLength : NvU32) (more : Nat) (cfg : Config)

/-- When `GspMsgQueueReceiveStatus` returns, it has stayed within the staging area and accepted only
a whole record just if every record was `Sized`. -/
theorem receive_bounded (queue : Msgq.Receiver) (staging : Staging) (seq : NvU32)
    (presented : List Presented) {status : NvStatus}
    (returned : ((Receiving.start queue staging seq).run cfg presented).rx.pc = .done status) :
    Bounded queue ((Receiving.start queue staging seq).run cfg presented) ↔
      (Receiving.start queue staging seq).Respects cfg (Sized cfg) presented :=
  run_bounded_iff presented (fitting_start queue staging seq) (counted_start queue staging seq)
    (by rw [returned]; rfl)

/-- The recovery of `GspMsgQueueReceiveStatus`: the loop ends whatever the firmware presents, and
discards old records only, each time a closer one. If no record claims more than sixteen elements,
the sequence number counts the records that are returned. -/
theorem receive_recovers (queue : Msgq.Receiver) (staging : Staging) (seq : NvU32) :
    (∃ bound, ∀ presented : List Presented, bound ≤ presented.length →
      ∃ status, ((Receiving.start queue staging seq).run cfg presented).rx.pc = .done status) ∧
    ∀ presented : List Presented,let s := (Receiving.start queue staging seq).run cfg presented
      (∀ taken ∈ s.discards, taken.seqNum < seq) ∧
      (s.discards.Pairwise fun earlier later => seq - later.seqNum < seq - earlier.seqNum) ∧
      ((Receiving.start queue staging seq).Respects cfg FewElements presented →
        ∀ status, s.rx.pc = .done status →
          s.rx.rxSeqNum = if status = .ok then seq + 1 else seq) := by
  refine ⟨⟨(Receiving.start queue staging seq).rx.measure,fun presented enough => ?_⟩,
    fun presented => ?_⟩
  · have done : ((Receiving.start queue staging seq).run cfg presented).rx.pc.isDone = true :=
      run_done presented (fun _ => show 0 < 3 by decide) enough
    cases at_ : ((Receiving.start queue staging seq).run cfg presented).rx.pc with
    | done status => exact ⟨status,rfl⟩
    | _ => simp [at_,Pc.isDone] at done
  · have skipping : Skipping seq ((Receiving.start queue staging seq).run cfg presented) :=
      (skipping_start queue staging seq).run presented
    refine ⟨skipping.old,skipping.closer,fun few status at_ => ?_⟩
    have counted := (counted_start queue staging seq).run presented few
    simpa [at_] using counted.number

/-! Runs on a queue of 63 elements. -/

def statusQueue : Msgq.Receiver := ⟨⟨0,0x40000,4096,63,0,0,32,4096⟩,0,0,true⟩

/-- The first page of a record, with a checksum for words that are zero behind the header. -/
def firstPage : Page := fun j =>
  if j = 4 then (0#32 ++ (elemCount ^^^ rpcLength))
  else if j = 5 then (0#32 ++ elemCount)
  else if j = 7 then (0#32 ++ rpcLength)
  else 0

/-- A record of zeros behind its header, and `more` other elements. -/
def presentedRecord : List Presented :=
  let other : Presented := ⟨BitVec.ofNat 32 (more + 1),fun _ => 0⟩
  other :: ⟨0,firstPage elemCount rpcLength⟩ :: replicate (2 * more + 1) other

def received : Receiving :=
  (Receiving.start statusQueue (fun _ => 0) 0).run plain (presentedRecord elemCount rpcLength more)

end

theorem receive_recovers_single :
    (received 1 32 0).rx.pc = .done .ok ∧ (received 1 32 0).rx.rxSeqNum = 1 := by
  have done : (received 1 32 0).rx.pc = .done .ok := by decide +kernel
  exact ⟨done,((receive_recovers plain statusQueue (fun _ => 0) 0).2 _).2.2 (by decide +kernel)
    _ done⟩

/-- The seventeenth element is copied over the metadata of the queue. The record is counted, but
cannot be marked consumed. -/
theorem seventeen_elements_counted :
    (received 17 32 16).rx.pc = .done generic ∧ (received 17 32 16).rx.rxSeqNum = 1 := by
  decide +kernel

theorem receive_bounded_two :
    (received 2 4952 1).rx.pc = .done .ok ∧ (received 2 4952 1).extent ≤ elementSizeMax ∧
      ∃ taken, (received 2 4952 1).accepted = some taken ∧
        Whole (received 2 4952 1).rx.staging taken.nElements := by
  have done : (received 2 4952 1).rx.pc = .done .ok := by decide +kernel
  have sized : (Receiving.start statusQueue (fun _ => 0) 0).Respects plain (Sized plain)
      (presentedRecord 2 4952 1) := by
    decide +kernel
  unfold received at done ⊢
  obtain ⟨extent,whole⟩ := (receive_bounded plain statusQueue (fun _ => 0) 0 _ done).mpr sized
  obtain ⟨taken,accepted,whole,-⟩ := whole done
  exact ⟨done,extent,taken,accepted,whole⟩

/-- Seventeen elements are copied beyond the staging area, a record of no element is accepted, and
so is one that is longer than its only element. -/
theorem receive_unbounded : (received 17 32 16).extent = 17 * 4096 ∧
      (received 0 32 0).rx.pc = .done .ok ∧ elemCount (received 0 32 0).rx.staging = 0 ∧
      (received 1 4952 0).rx.pc = .done .ok ∧ elemCount (received 1 4952 0).rx.staging = 1 ∧
      48 + (rpcLength (received 1 4952 0).rx.staging).toNat > 4096 := by
  decide +kernel

/-! Corruption. A record whose checksum is wrong is refused in every turn of the call. -/

section Corrupt

variable {record : Staging} {s : Receiving}

/-- Element `i` is copied from the record. -/
def CopiedFrom (record : Staging) (i : Nat) (rx : Rx) : Prop :=
  pageOf rx.staging i = pageOf record i

/-- The number of elements covers the record, but the checksum does not match. -/
structure Corrupt (record : Staging) : Prop where
  some : 1 ≤ (elemCount record).toNat
  covered : ((msgLen record).toNat + 7) / 8 ≤ 512 * (elemCount record).toNat
  wrong : checkSum32 record (msgLen record).toNat ≠ 0

/-- The elements up to the next one are those of the record, and no turn has taken it. -/
structure Refusing (record : Staging) (s : Receiving) : Prop where
  accepted : s.accepted = none
  discards : s.discards = []
  place : match s.rx.pc with
    | .fetch i | .copy i => (∀ k < 512 * i,s.rx.staging k = record k) ∧
        (i ≠ 0 → s.rx.nElements = elemCount record ∧ i < (elemCount record).toNat)
    | .discard | .consume => False
    | .done status => status ≠ .ok

theorem Failed.refusing {rx : Rx} (failed : Failed rx s.rx) (accepted : s.accepted = none)
    (discards : s.discards = []) : Refusing record s := by
  refine ⟨accepted,discards,?_⟩
  generalize s.rx = rx' at failed
  cases failed with
  | retry => exact ⟨fun k below => absurd below (by omega),fun later => absurd rfl later⟩
  | stop _ _ bad => exact bad

theorem copied_words {rx : Rx} {i : Nat} {page : Page}
    (before : ∀ k < 512 * i,rx.staging k = record k) (copied : CopiedFrom record i (rx.copied i page)) :
    ∀ k < 512 * (i + 1),(rx.copied i page).staging k = record k := by
  intro k below
  by_cases earlier : k < 512 * i
  · exact (load_before _ _ earlier).trans (before k earlier)
  · have word := congrFun copied ⟨k - 512 * i,by omega⟩
    simp only [pageOf,show 512 * i + (k - 512 * i) = k by omega] at word
    exact word

theorem Refusing.copy (refusing : Refusing record s) (corrupt : Corrupt record) {i : Nat}
    (at_ : s.rx.pc = .copy i) (presented : Presented)
    (copied : CopiedFrom record i (s.rx.copied i presented.page)) :
    Refusing record (s.step plain presented) := by
  obtain ⟨accepted,discards,place⟩ := refusing
  simp only [at_] at place
  obtain ⟨before,later⟩ := place
  have words := copied_words before copied
  have count : (s.rx.copied i presented.page).nElements = elemCount record := by
    by_cases first : i = 0
    · simp only [Rx.copied,if_pos first]
      exact congrArg low (words 5 (by omega))
    · simpa only [Rx.copied,if_neg first] using (later first).1
  rcases gotPage_cases plain s.rx i presented.page with ⟨more,next⟩ | ⟨all,whole⟩
  · refine ⟨by simpa [Receiving.step,at_],by simpa [Receiving.step,at_],?_⟩
    simp only [Receiving.step,at_,next]
    exact ⟨words,fun _ => ⟨count,count ▸ more⟩⟩
  · -- All words that are summed up are those of the record.
    have length : msgLen (s.rx.copied i presented.page).staging = msgLen record :=
      congrArg (elementHdrSize + low ·) (words 7 (by omega))
    have wrong : checkSum32 (s.rx.copied i presented.page).staging
        (checkedLength plain (s.rx.copied i presented.page)).toNat ≠ 0 := by
      change checkSum32 _ (msgLen _).toNat ≠ 0
      rw [length,checkSum32_congr fun k below => words k ?_]
      · exact corrupt.wrong
      · have := corrupt.covered
        rw [count] at all
        omega
    have refused : (s.step plain presented).rx =
        (s.rx.copied i presented.page).again invalidData := by
      simp only [Receiving.step,at_,whole]
      exact if_pos wrong
    exact (refused ▸ failed_again _ (by decide) : Failed _ _).refusing
      (by simpa [Receiving.step,at_]) (by simpa [Receiving.step,at_])

theorem Refusing.step (refusing : Refusing record s) (corrupt : Corrupt record)
    (presented : Presented) (copied : ∀ i ∈ s.rx.pc.copying,
      CopiedFrom record i (s.rx.copied i presented.page)) :
    Refusing record (s.step plain presented) := by
  cases at_ : s.rx.pc with
  | copy i => exact refusing.copy corrupt at_ presented (copied i (by rw [at_]; rfl))
  | fetch i =>
    obtain ⟨accepted,discards,place⟩ := refusing
    simp only [at_] at place
    simp only [Receiving.step,at_]
    refine (gotBuffer_cases s.rx i _).elim (fun ⟨_,next⟩ => ?_) fun failed =>
      failed.refusing accepted discards
    rw [next]
    exact ⟨accepted,discards,place⟩
  | discard | consume =>
    have place := refusing.place
    simp only [at_] at place
  | done status =>
    simp only [Receiving.step,at_]
    exact refusing

theorem Refusing.run (corrupt : Corrupt record) (presented : List Presented) :
    ∀ {s : Receiving},Refusing record s → s.Respects plain (CopiedFrom record) presented →
      Refusing record (s.run plain presented) := by
  induction presented with
  | nil => exact fun refusing _ => refusing
  | cons first rest ih =>
    exact fun refusing copied => ih (refusing.step corrupt first copied.1) copied.2

/-- A prepared record with a word changed on its way. -/
def changed (record : Staging) (seq : NvU32) (k : Nat) (change : BitVec 64) : Staging :=
  Function.update (prepare record seq) k (prepare record seq k ^^^ change)

theorem changed_corrupt (seq : NvU32) {k : Nat} (accepted : lengthOk record = true)
    (inside : k < ((msgLen record).toNat + 7) / 8) (notCount : k ≠ 5) (notLength : k ≠ 7)
    {change : BitVec 64} (uneven : high change ≠ low change) :
    Corrupt (changed record seq k change) := by
  obtain ⟨long,bound⟩ : elementSize ≤ msgLen record ∧ (msgLen record).toNat ≤ elementSizeMax :=
    of_decide_eq_true accepted
  obtain ⟨some,few,covered⟩ := elements_of_length
    (show 0 < (msgLen record).toNat from Nat.lt_of_lt_of_le (by decide) long) bound
  have length : msgLen (changed record seq k change) = msgLen record := by
    rw [msgLen,rpcLength,changed,Function.update_of_ne (Ne.symm notLength)]
    exact congrArg (elementHdrSize + ·) (prepare_rpcLength record seq long)
  have count : (elemCount (changed record seq k change)).toNat =
      bytesToElements (msgLen record).toNat := by
    rw [elemCount,changed,Function.update_of_ne (Ne.symm notCount)]
    refine (congrArg BitVec.toNat (prepare_elemCount record seq)).trans ?_
    rw [BitVec.toNat_ofNat]
    omega
  refine ⟨by omega,?_,fun zero => ?_⟩
  · rw [length,count]
    omega
  · have same := BitVec.xor_eq_zero_iff.mp (prepare_checkSum32 record seq long)
    rw [length,changed,checkSum32,xorWords_update _ inside,BitVec.xor_assoc,
      ← BitVec.xor_assoc (prepare record seq k),BitVec.xor_self,BitVec.zero_xor] at zero
    have both := BitVec.xor_eq_zero_iff.mp zero
    rw [high_xor,low_xor,same] at both
    exact uneven (BitVec.xor_right_inj _ |>.mp both)

/-- A record with one word changed on its way is never taken from the ring, unless both halves of
the word changed alike or the word has the number of elements or the length. -/
theorem changed_word_refused (record : Staging) (sent : NvU32) (k : Nat) (change : BitVec 64)
    (accepted : lengthOk record = true) (inside : k < ((msgLen record).toNat + 7) / 8)
    (notCount : k ≠ 5) (notLength : k ≠ 7) (uneven : high change ≠ low change)
    (queue : Msgq.Receiver) (staging : Staging) (seq : NvU32) (presented : List Presented)
    (arrives : (Receiving.start queue staging seq).Respects plain
      (CopiedFrom (changed record sent k change)) presented) :
    let s := (Receiving.start queue staging seq).run plain presented
    s.accepted = none ∧ s.discards = [] ∧ s.rx.pc ≠ .done .ok := by
  have corrupt := changed_corrupt sent accepted inside notCount notLength uneven
  have start : Refusing (changed record sent k change) (.start queue staging seq) :=
    ⟨rfl,rfl,fun k below => absurd below (by omega),fun later => absurd rfl later⟩
  have refusing := start.run corrupt presented arrives
  refine ⟨refusing.accepted,refusing.discards,fun ok => ?_⟩
  have place := refusing.place
  simp only [ok] at place
  exact place rfl

/-- One bit of an empty RPC is changed: the call reads the record three times and gives up. -/
theorem changed_word_refused_bit :
    let arrived := changed (fun _ => 32) 0 6 1
    let s := (Receiving.start statusQueue (fun _ => 0) 0).run plain
      (List.replicate 6 ⟨1,pageOf arrived 0⟩)
    s.rx.pc = .done invalidData ∧ s.accepted = none := by
  refine ⟨by decide +kernel,?_⟩
  refine (changed_word_refused (fun _ => 32) 0 6 1 (by decide) (by decide) (by decide) (by decide)
    (by decide) statusQueue (fun _ => 0) 0 _ ?_).1
  unfold CopiedFrom
  decide +kernel

end Corrupt

end GpuExt.Gsp
