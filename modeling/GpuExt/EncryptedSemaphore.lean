import Mathlib.Data.Nat.Basic
import Mathlib.Order.Basic
import GpuExt.NvTypes

/-! Reading a semaphore that the GPU encrypts. The notifier is odd while the GPU writes payload and
tag, and it has to be the same before and after they are read. -/
namespace GpuExt.EncryptedSemaphore

/-- What the CPU finds in memory it does not trust: the notifier by the number of the read, payload
and authentication tag by the number of the try. -/
structure Shared (Tag : Type) where
  notifier : Nat → Nat
  payload : Nat → BitVec 32
  authTag : Nat → Tag

structure Semaphore where
  cachedPayload : BitVec 32
  lastObservedNotifier : Nat
  deriving DecidableEq, Repr

/-- `uvm_conf_computing_cpu_decrypt`, with the index of the IV. -/
abbrev Decrypt (Tag : Type) := BitVec 32 → Nat → Tag → Except NvStatus (BitVec 32)

/-- The semaphore afterwards, the fatal error that was set, how often the notifier was read, and the
try whose payload was given to the decryption. -/
structure Outcome where
  semaphore : Semaphore
  fatal : Option NvStatus
  reads : Nat
  used : Option Nat
  deriving DecidableEq

variable {Tag : Type} (numGpfifoEntries : Nat) (decrypt : Decrypt Tag) (shared : Shared Tag)
  (semaphore : Semaphore)

/-- The payload of a try becomes the cached one, or the decryption fails. -/
def decryptPayload (notifier try_ reads : Nat) : Outcome :=
  match decrypt (shared.payload try_) (notifier / 2 % numGpfifoEntries) (shared.authTag try_) with
  | .error status => ⟨semaphore,some status,reads,some try_⟩
  | .ok value => ⟨⟨value,notifier⟩,none,reads,some try_⟩

/-- Running out of tries is a fatal error. -/
def finish (triesLeft notifier try_ reads : Nat) : Outcome :=
  if triesLeft = 0 then ⟨semaphore,some .invalidState,reads,none⟩
  else decryptPayload numGpfifoEntries decrypt shared semaphore notifier try_ reads

/-- The loop, with the number of its turns as fuel. An odd notifier leads to the test of the loop
with `continue`, before a try is counted. -/
def tryLoop : Nat → Nat → Nat → Nat → Option Outcome
  | 0, _, _, _ => none
  | fuel + 1, triesLeft, try_, reads =>
    let gpuNotifier := shared.notifier reads
    if gpuNotifier % 2 = 1 then
      if 0 < triesLeft then tryLoop fuel triesLeft try_ (reads + 1)
      else some (finish numGpfifoEntries decrypt shared semaphore triesLeft gpuNotifier try_
        (reads + 1))
    else if gpuNotifier = semaphore.lastObservedNotifier then some ⟨semaphore,none,reads + 1,none⟩
    else
      let newGpuNotifier := shared.notifier (reads + 1)
      if 0 < triesLeft - 1 ∧ gpuNotifier ≠ newGpuNotifier then
        tryLoop fuel (triesLeft - 1) (try_ + 1) (reads + 2)
      else some (finish numGpfifoEntries decrypt shared semaphore (triesLeft - 1) gpuNotifier try_
        (reads + 2))

def encryptedPayloadUpdate (fuel : Nat) : Option Outcome :=
  tryLoop numGpfifoEntries decrypt shared semaphore fuel numGpfifoEntries 0 0

/-- A try whose first read is `k` ends the loop: nothing has changed since the last update, or the
read is stable. -/
def Stops (k : Nat) : Prop :=
  shared.notifier k = semaphore.lastObservedNotifier ∨ shared.notifier k = shared.notifier (k + 1)

instance (k : Nat) : Decidable (Stops shared semaphore k) := inferInstanceAs (Decidable (_ ∨ _))

/-- After `i` tries that did not stop it the loop goes on with the read `k`. Reads of an odd notifier
are not tries. -/
inductive Begins : Nat → Nat → Prop where
  | start : Begins 0 0
  | odd {i k : Nat} (begins : Begins i k) (odd : shared.notifier k % 2 = 1) : Begins i (k + 1)
  | again {i k : Nat} (begins : Begins i k) (even : shared.notifier k % 2 = 0)
    (changed : ¬Stops shared semaphore k) : Begins (i + 1) (k + 2)

/-- What the function does if the try `i`, from the read `k` on, is the last one. -/
def outcomeAt (i k : Nat) : Outcome :=
  if shared.notifier k = semaphore.lastObservedNotifier then ⟨semaphore,none,k + 1,none⟩
  else finish numGpfifoEntries decrypt shared semaphore (numGpfifoEntries - i - 1)
    (shared.notifier k) i (k + 2)

variable {numGpfifoEntries decrypt shared semaphore}

theorem not_odd {n : Nat} (even : n % 2 = 0) : ¬n % 2 = 1 := by omega

/-- The loop gets to every try, in no more turns than reads. -/
theorem Begins.reached (decrypt : Decrypt Tag) {i k : Nat} (begins : Begins shared semaphore i k)
    (less : i < numGpfifoEntries) : ∃ turns ≤ k,∀ fuel,
      encryptedPayloadUpdate numGpfifoEntries decrypt shared semaphore (fuel + turns) =
        tryLoop numGpfifoEntries decrypt shared semaphore fuel (numGpfifoEntries - i) i k := by
  induction begins with
  | start => exact ⟨0,le_rfl,fun _ => rfl⟩
  | @odd i k begins odd ih =>
    obtain ⟨turns,few,run⟩ := ih less
    refine ⟨turns + 1,by omega,fun fuel => ?_⟩
    have left : 0 < numGpfifoEntries - i := by omega
    rw [show fuel + (turns + 1) = fuel + 1 + turns by omega,run]
    simp only [tryLoop,odd,if_true,left]
  | @again i k begins even changed ih =>
    obtain ⟨turns,few,run⟩ := ih (by omega)
    refine ⟨turns + 1,by omega,fun fuel => ?_⟩
    obtain ⟨unobserved,differs⟩ := not_or.mp changed
    have left : 0 < numGpfifoEntries - i - 1 ∧ shared.notifier k ≠ shared.notifier (k + 1) :=
      ⟨by omega,differs⟩
    rw [show fuel + (turns + 1) = fuel + 1 + turns by omega,run]
    simp only [tryLoop,not_odd even,if_false,unobserved,if_pos left]
    rw [Nat.sub_sub]

/-- A try that stops the loop, or the last one, ends it. -/
theorem tryLoop_ends {i k : Nat} (even : shared.notifier k % 2 = 0) (fuel : Nat)
    (last : Stops shared semaphore k ∨ i + 1 = numGpfifoEntries) :
    tryLoop numGpfifoEntries decrypt shared semaphore (fuel + 1) (numGpfifoEntries - i) i k =
      some (outcomeAt numGpfifoEntries decrypt shared semaphore i k) := by
  simp only [tryLoop,not_odd even,if_false,outcomeAt]
  split
  next => rfl
  next unobserved =>
    have ended : ¬(0 < numGpfifoEntries - i - 1 ∧
        shared.notifier k ≠ shared.notifier (k + 1)) := by
      rintro ⟨left,differs⟩
      exact differs ((last.resolve_right (by omega)).resolve_left unobserved)
    rw [if_neg ended]

/-- If the loop ends, it ends with such a try. -/
theorem tryLoop_ended {outcome : Outcome} (fuel : Nat) : ∀ {i k : Nat},i < numGpfifoEntries →
    Begins shared semaphore i k →
    tryLoop numGpfifoEntries decrypt shared semaphore fuel (numGpfifoEntries - i) i k =
      some outcome →
    ∃ j l,Begins shared semaphore j l ∧ j < numGpfifoEntries ∧ shared.notifier l % 2 = 0 ∧
      (Stops shared semaphore l ∨ j + 1 = numGpfifoEntries) ∧
      outcome = outcomeAt numGpfifoEntries decrypt shared semaphore j l := by
  induction fuel with
  | zero => exact fun _ _ result => nomatch result
  | succ fuel ih =>
    intro i k less begins result
    by_cases odd : shared.notifier k % 2 = 1
    · have left : 0 < numGpfifoEntries - i := by omega
      simp only [tryLoop,odd,if_true,left] at result
      exact ih less (begins.odd odd) result
    · have even : shared.notifier k % 2 = 0 := by omega
      by_cases last : Stops shared semaphore k ∨ i + 1 = numGpfifoEntries
      · rw [tryLoop_ends even fuel last] at result
        exact ⟨i,k,begins,less,even,last,(Option.some.inj result).symm⟩
      · obtain ⟨changed,more⟩ := not_or.mp last
        obtain ⟨unobserved,differs⟩ := not_or.mp changed
        have left : 0 < numGpfifoEntries - i - 1 ∧
            shared.notifier k ≠ shared.notifier (k + 1) := ⟨by omega,differs⟩
        simp only [tryLoop,odd,if_false,unobserved,if_pos left] at result
        rw [Nat.sub_sub] at result
        exact ih (by omega) (begins.again even changed) result

/-- A payload that a stable read found and the decryption accepted. -/
def Accepted (numGpfifoEntries : Nat) (decrypt : Decrypt Tag) (shared : Shared Tag)
    (semaphore : Semaphore) : Prop :=
  ∃ try_ reads, shared.notifier reads = semaphore.lastObservedNotifier ∧
    shared.notifier (reads + 1) = semaphore.lastObservedNotifier ∧
    semaphore.lastObservedNotifier % 2 = 0 ∧
    decrypt (shared.payload try_) (semaphore.lastObservedNotifier / 2 % numGpfifoEntries)
      (shared.authTag try_) = .ok semaphore.cachedPayload

/-- Whatever the memory holds, the cached payload stays or becomes an accepted one. -/
theorem outcomeAt_semaphore {i k : Nat} (even : shared.notifier k % 2 = 0)
    (last : Stops shared semaphore k ∨ i + 1 = numGpfifoEntries) :
    let outcome := outcomeAt numGpfifoEntries decrypt shared semaphore i k
    outcome.semaphore = semaphore ∨
      Accepted numGpfifoEntries decrypt shared outcome.semaphore := by
  simp only [outcomeAt,finish,decryptPayload]
  split
  · exact .inl rfl
  next unobserved =>
    split
    · exact .inl rfl
    next left =>
      split
      · exact .inl rfl
      next value accepted =>
        have stable := (last.resolve_right (by omega)).resolve_left unobserved
        exact .inr ⟨i,k,rfl,stable.symm,even,accepted⟩

theorem decryptPayload_fields (notifier try_ reads : Nat) :
    let outcome := decryptPayload numGpfifoEntries decrypt shared semaphore notifier try_ reads
    outcome.reads = reads ∧ outcome.used = some try_ := by
  simp only [decryptPayload]
  split <;> exact ⟨rfl,rfl⟩

section OutcomeAt

variable {i k : Nat} (changed : shared.notifier k ≠ semaphore.lastObservedNotifier)
include changed

theorem outcomeAt_used (more : i + 1 < numGpfifoEntries) :
    outcomeAt numGpfifoEntries decrypt shared semaphore i k =
      decryptPayload numGpfifoEntries decrypt shared semaphore (shared.notifier k) i (k + 2) := by
  rw [outcomeAt,if_neg changed,finish,if_neg (by omega)]

theorem outcomeAt_failed (last : i + 1 = numGpfifoEntries) :
    outcomeAt numGpfifoEntries decrypt shared semaphore i k =
      ⟨semaphore,some .invalidState,k + 2,none⟩ := by
  rw [outcomeAt,if_neg changed,finish,if_pos (by omega)]

end OutcomeAt

/-- The function returns after at most `bound` reads of the notifier, with the payload of the first
stable read if there is one among the tries. The cached payload stays or becomes an accepted one. -/
def Updates (numGpfifoEntries : Nat) (decrypt : Decrypt Tag) (shared : Shared Tag)
    (semaphore : Semaphore) (bound : Nat) : Prop :=
  ∃ outcome,(∀ fuel,bound ≤ fuel →
      encryptedPayloadUpdate numGpfifoEntries decrypt shared semaphore fuel = some outcome) ∧
    outcome.reads ≤ bound ∧
    (∀ i k,i < numGpfifoEntries → Begins shared semaphore i k → shared.notifier k % 2 = 0 →
      shared.notifier k = shared.notifier (k + 1) →
      shared.notifier k ≠ semaphore.lastObservedNotifier →
      outcome = decryptPayload numGpfifoEntries decrypt shared semaphore (shared.notifier k) i
        (k + 2)) ∧
    (outcome.semaphore = semaphore ∨ Accepted numGpfifoEntries decrypt shared outcome.semaphore)

/-- Within the bound some try finds the notifier unchanged since the last update, or is stable and
not the last one, or is the last one and not stable. -/
def Settles (numGpfifoEntries : Nat) (shared : Shared Tag) (semaphore : Semaphore) (bound : Nat) :
    Prop :=
  ∃ i k,Begins shared semaphore i k ∧ i < numGpfifoEntries ∧ shared.notifier k % 2 = 0 ∧
    (shared.notifier k = semaphore.lastObservedNotifier ∧ k + 1 ≤ bound ∨
      shared.notifier k ≠ semaphore.lastObservedNotifier ∧ k + 2 ≤ bound ∧
        (i + 1 = numGpfifoEntries ↔ shared.notifier k ≠ shared.notifier (k + 1)))

theorem Updates.settles {bound : Nat} (entries : 0 < numGpfifoEntries)
    (updates : Updates numGpfifoEntries decrypt shared semaphore bound) :
    Settles numGpfifoEntries shared semaphore bound := by
  obtain ⟨outcome,run,reads,used,-⟩ := updates
  obtain ⟨i,k,begins,less,even,last,rfl⟩ := tryLoop_ended bound entries .start (run bound le_rfl)
  refine ⟨i,k,begins,less,even,?_⟩
  by_cases unchanged : shared.notifier k = semaphore.lastObservedNotifier
  · rw [outcomeAt,if_pos unchanged] at reads
    exact .inl ⟨unchanged,reads⟩
  refine .inr ⟨unchanged,?_,fun final stable => ?_,fun differs => ?_⟩
  · rcases Nat.lt_or_eq_of_le (Nat.succ_le_of_lt less) with more | final
    · rwa [outcomeAt_used unchanged more,(decryptPayload_fields ..).1] at reads
    · rwa [outcomeAt_failed unchanged final] at reads
  · -- A stable last try is not used.
    have given := used i k less begins even stable unchanged
    rw [outcomeAt_failed unchanged final] at given
    exact nomatch (congrArg Outcome.used given).trans (decryptPayload_fields ..).2
  · exact last.resolve_left (not_or.mpr ⟨unchanged,differs⟩)

theorem Settles.updates {bound : Nat} (settles : Settles numGpfifoEntries shared semaphore bound) :
    Updates numGpfifoEntries decrypt shared semaphore bound := by
  obtain ⟨i,k,begins,less,even,ended⟩ := settles
  have last : Stops shared semaphore k ∨ i + 1 = numGpfifoEntries := by
    rcases ended with ⟨unchanged,-⟩ | ⟨-,-,final⟩
    · exact .inl (.inl unchanged)
    · exact or_iff_not_imp_left.mpr fun differs => final.mpr (not_or.mp differs).2
  have within : k + 1 ≤ bound := by omega
  have run {i k : Nat} (begins : Begins shared semaphore i k) (less : i < numGpfifoEntries)
      (even : shared.notifier k % 2 = 0)
      (last : Stops shared semaphore k ∨ i + 1 = numGpfifoEntries) (fuel : Nat)
      (enough : k + 1 ≤ fuel) : encryptedPayloadUpdate numGpfifoEntries decrypt shared semaphore
        fuel = some (outcomeAt numGpfifoEntries decrypt shared semaphore i k) := by
    obtain ⟨turns,few,reached⟩ := begins.reached decrypt less
    rw [show fuel = fuel - turns - 1 + 1 + turns by omega,reached]
    exact tryLoop_ends even _ last
  refine ⟨_,fun fuel enough => run begins less even last fuel (within.trans enough),?_,?_,
    outcomeAt_semaphore even last⟩
  · rcases ended with ⟨unchanged,bounded⟩ | ⟨changed,bounded,-⟩
    · rw [outcomeAt,if_pos unchanged]
      exact bounded
    · rcases Nat.lt_or_eq_of_le (Nat.succ_le_of_lt less) with more | final
      · rwa [outcomeAt_used changed more,(decryptPayload_fields ..).1]
      · rwa [outcomeAt_failed changed final]
  · intro j l below begins' even' stable changed'
    -- Both tries end the loop, so they have the same outcome.
    have same := Option.some.inj ((run begins less even last (k + l + 1) (by omega)).symm.trans
      (run begins' below even' (.inl (.inr stable)) (k + l + 1) (by omega)))
    rcases Nat.lt_or_eq_of_le (Nat.succ_le_of_lt below) with more | final
    · exact same.trans (outcomeAt_used changed' more)
    rw [outcomeAt_failed changed' final] at same
    rcases ended with ⟨unchanged,-⟩ | ⟨changed,-,last⟩
    · rw [outcomeAt,if_pos unchanged] at same
      cases same
    rcases Nat.lt_or_eq_of_le (Nat.succ_le_of_lt less) with more | end_
    · rw [outcomeAt_used changed more] at same
      exact nomatch (decryptPayload_fields ..).2.symm.trans (congrArg Outcome.used same)
    · rw [outcomeAt_failed changed end_] at same
      obtain rfl : k = l := Nat.add_right_cancel (congrArg Outcome.reads same)
      exact absurd stable (last.mp end_)

/-- Whatever the memory holds, the semaphore is read as intended within a bound just when the tries
settle within it. -/
theorem stable_read_used {Tag : Type} {numGpfifoEntries : Nat} (decrypt : Decrypt Tag)
    (shared : Shared Tag) (semaphore : Semaphore) (bound : Nat) (entries : 0 < numGpfifoEntries) :
    Updates numGpfifoEntries decrypt shared semaphore bound ↔
      Settles numGpfifoEntries shared semaphore bound :=
  ⟨Updates.settles entries,Settles.updates⟩

section Sample

def sampleDecrypt : Decrypt Unit := fun payload _ _ => .ok payload

/-- The notifier is odd at first, changes during the first try and is stable in the second. -/
def sampleShared : Shared Unit :=
  ⟨fun read => if read = 0 then 1 else if read = 1 then 2 else 4,fun try_ => BitVec.ofNat 32 try_,
    fun _ => ()⟩

theorem stable_read_used_second : Updates 32 sampleDecrypt sampleShared ⟨7,0⟩ 5 :=
  (stable_read_used _ _ _ _ (by decide)).mpr ⟨1,3,
    .again (.odd .start (by decide)) (by decide) (by decide),by decide,by decide,
    .inr ⟨by decide,by decide,by decide⟩⟩

def oddShared : Shared Unit := ⟨fun _ => 1,fun _ => 0,fun _ => ()⟩

/-- The notifier changes during each of the first 31 tries; the last one is stable. -/
def lateShared : Shared Unit :=
  ⟨fun read => if read < 62 then 2 * read + 2 else 200,fun _ => 5,fun _ => ()⟩

theorem tryLoop_odd (fuel reads : Nat) :
    tryLoop 32 sampleDecrypt oddShared ⟨7,0⟩ fuel 32 0 reads = none := by
  induction fuel generalizing reads with
  | zero => rfl
  | succ fuel ih => exact ih _

/-- With an odd notifier the loop does not end, and a stable read in the last try is an error. -/
theorem encrypted_read_unbounded :
    (∀ fuel, encryptedPayloadUpdate 32 sampleDecrypt oddShared ⟨7,0⟩ fuel = none) ∧
      lateShared.notifier 62 = lateShared.notifier 63 ∧
      encryptedPayloadUpdate 32 sampleDecrypt lateShared ⟨7,0⟩ 32 =
        some ⟨⟨7,0⟩,some .invalidState,64,none⟩ :=
  ⟨fun fuel => tryLoop_odd fuel 0,rfl,by decide +kernel⟩

end Sample

end GpuExt.EncryptedSemaphore
