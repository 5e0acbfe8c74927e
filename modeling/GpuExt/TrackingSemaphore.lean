import GpuExt.Word
import Mathlib.Data.List.Basic
import Mathlib.Data.List.Pairwise

/-! The tracking semaphore. The GPU writes the low 32 bits of the values it completes, and
threads on the CPU extend them to 64 bits under a lock. A thread that waits for a value looks at
the cached one without the lock first. -/
namespace GpuExt.TrackingSemaphore

open Function List BitVec Option

abbrev Value := BitVec 64

/-- The part of `update_completed_value_locked` that computes the new value. -/
def newCompletedValue (old : Value) (newSem : BitVec 32) : Value :=
  let replaced := (old &&& 0xFFFFFFFF00000000#64) ||| newSem.setWidth 64
  if newSem < old.setWidth 32 then replaced + 0x100000000#64 else replaced

/-- Where a thread is. The value is the one asked for by
`uvm_gpu_tracking_semaphore_is_value_completed`, and none for an update. -/
inductive Phase where
  | idle
  | checking (value : Value)
  | entering (value : Option Value)
  | locked (value : Option Value)
  | loaded (value : Option Value) (old : Value)
  | computed (value : Option Value) (new : Value)
  | updated (value : Option Value) (result : Value)
  | answered (value : Value) (completed : Bool)
  deriving DecidableEq, Repr

def Phase.inside : Phase → Bool
  | .locked _ | .loaded _ _ | .computed _ _ | .updated _ _ => true
  | _ => false

/-- `published` is what the GPU has completed so far, the latest first. `observed` is the latest
value at the moment a thread last read the payload; the code does not have it. -/
structure State (T : Type) where
  published : List Value
  payload : BitVec 32
  completed : Value
  lock : Option T
  phase : T → Phase
  observed : T → Value

def State.latest (s : State T) : Value := s.published.headD 0

@[simp] def State.initial : State T := ⟨[0],0,0,none,fun _ => .idle,fun _ => 0⟩

inductive Action (T : Type) where
  | publish (value : Value)
  | update (thread : T)
  | isValueCompleted (thread : T) (value : Value)
  | advance (thread : T)

variable {T : Type} [DecidableEq T]

section

variable (s : State T) (action : Action T) (thread : T)

def State.move (phase : Phase) : State T :=
  { s with phase := update s.phase thread phase }

/-- The read of the payload. If it has not changed, nothing is stored. -/
def State.readPayload (value : Option Value) (old : Value) : State T :=
  let s := { s with observed := update s.observed thread s.latest }
  if old.setWidth 32 = s.payload then s.move thread (.updated value old)
  else s.move thread (.computed value (newCompletedValue old s.payload))

/-- The answer of a call that updated the completed value. -/
def answer : Option Value → Value → Phase
  | some value, result => .answered value (value ≤ result)
  | none, _ => .idle

/-- The next access to shared memory by a thread. -/
def State.advance : Option (State T) :=
  match s.phase thread with
  | .checking value =>
    some (s.move thread
      (if value ≤ s.completed then .answered value true else .entering (some value)))
  | .entering value =>
    if s.lock = none then some ({ s with lock := some thread }.move thread (.locked value))
    else none
  | .locked value => some (s.move thread (.loaded value s.completed))
  | .loaded value old => some (s.readPayload thread value old)
  | .computed value new => some ({ s with completed := new }.move thread (.updated value new))
  | .updated value result => some ({ s with lock := none }.move thread (answer value result))
  | .idle | .answered _ _ => none

/-- A call starts once the thread's last one has ended. -/
def Phase.isDone : Phase → Bool
  | .idle | .answered _ _ => true
  | _ => false

def step : Action T → Option (State T)
  | .publish value =>
    if s.latest < value then
      some { s with published := value :: s.published, payload := value.setWidth 32 }
    else none
  | .update thread =>
    if (s.phase thread).isDone then some (s.move thread (.entering none)) else none
  | .isValueCompleted thread value =>
    if (s.phase thread).isDone then some (s.move thread (.checking value)) else none
  | .advance thread => s.advance thread

/-- States that runs lead to, where every step is allowed. -/
inductive Reachable (allowed : State T → Action T → Prop) : State T → Prop
  | initial : Reachable allowed .initial
  | step {s next : State T} {action : Action T} : Reachable allowed s → allowed s action →
      step s action = some next → Reachable allowed next

/-- A thread reads the payload in this step. -/
def Reads : Prop :=
  ∃ thread value old, action = .advance thread ∧ s.phase thread = .loaded value old

/-- The latest value is less than a wrap ahead of the completed one whenever the payload is
read. -/
def Timely : Prop :=
  Reads s action → s.latest.toNat < s.completed.toNat + 2 ^ 32

end

theorem toNat_replaced (old : Value) (newSem : BitVec 32) :
    ((old &&& 0xFFFFFFFF00000000#64) ||| newSem.setWidth 64).toNat =
      old.toNat / 2 ^ 32 * 2 ^ 32 + newSem.toNat := by
  have high : (old &&& 0xFFFFFFFF00000000#64).toNat = 2 ^ 32 * (old.toNat / 2 ^ 32) := by
    have aligned := Word.alignDown_toNat old 0x100000000#64 ⟨32,rfl⟩
    have mask : Word.alignDown old 0x100000000#64 = old &&& 0xFFFFFFFF00000000#64 := rfl
    rw [← mask,aligned]
    have size : (0x100000000#64).toNat = 2 ^ 32 := rfl
    rw [size]
    omega
  have low : (newSem.setWidth 64).toNat = newSem.toNat := by
    simp only [toNat_setWidth]
    omega
  rw [toNat_or,high,low,← Nat.two_pow_add_eq_or_of_lt newSem.isLt,Nat.mul_comm]

variable {old : Value} {phases : T → Phase} {value : Option Value} {action : Action T}

/-- Less than one wrap ahead, the low bits determine the value. -/
theorem newCompletedValue_eq {latest : Value} (order : old ≤ latest)
    (near : latest.toNat < old.toNat + 2 ^ 32) :
    newCompletedValue old (latest.setWidth 32) = latest := by
  have oldLow : (old.setWidth 32).toNat = old.toNat % 2 ^ 32 := toNat_setWidth ..
  have latestLow : (latest.setWidth 32).toNat = latest.toNat % 2 ^ 32 := toNat_setWidth ..
  have replaced := toNat_replaced old (latest.setWidth 32)
  have order : old.toNat ≤ latest.toNat := order
  apply eq_of_toNat_eq
  simp only [newCompletedValue]
  split
  next wrapped =>
    have wrapped : (latest.setWidth 32).toNat < (old.setWidth 32).toNat := wrapped
    rw [toNat_add]
    have size : (0x100000000#64).toNat = 2 ^ 32 := rfl
    omega
  next straight =>
    have straight : ¬(latest.setWidth 32).toNat < (old.setWidth 32).toNat := straight
    omega

/-- What is known of a thread in each phase. -/
def PhaseOk (s : State T) (thread : T) : Phase → Prop
  | .loaded _ old => old = s.completed
  | .computed _ new => new = s.observed thread ∧ new ∈ s.published ∧ s.completed ≤ new
  | .updated _ result => result = s.completed ∧ result = s.observed thread
  | .answered value true => ∃ done ∈ s.published, value ≤ done
  | _ => True

/-- The lock is held by the thread that is inside. -/
def Owned (lock : Option T) (phase : T → Phase) : Prop :=
  ∀ thread, (phase thread).inside = true ↔ lock = some thread

structure Inv (s : State T) : Prop where
  nonempty : s.published ≠ []
  sorted : s.published.Pairwise (· > ·)
  payload : s.payload = s.latest.setWidth 32
  completed : s.completed ∈ s.published
  owned : Owned s.lock s.phase
  phase : ∀ thread, PhaseOk s thread (s.phase thread)

omit [DecidableEq T] in
theorem Inv.initial : Inv (State.initial : State T) where
  nonempty := by simp
  sorted := by simp
  payload := rfl
  completed := by simp
  owned := by simp [Owned,Phase.inside]
  phase := fun _ => trivial

variable {s next : State T} {thread : T} {phase : Phase}

section Published

omit [DecidableEq T]

theorem Inv.latest_mem (inv : Inv s) : s.latest ∈ s.published := by
  unfold State.latest
  cases published : s.published with
  | nil => exact absurd published inv.nonempty
  | cons first rest => simp

theorem Inv.le_latest (inv : Inv s) {value : Value} (member : value ∈ s.published) :
    value ≤ s.latest := by
  unfold State.latest
  have sorted := inv.sorted
  cases published : s.published with
  | nil => exact absurd published inv.nonempty
  | cons first rest =>
    rw [published] at member sorted
    rcases mem_cons.mp member with rfl | later
    · exact BitVec.le_refl _
    · exact BitVec.le_of_lt ((pairwise_cons.mp sorted).1 value later)

/-- Outside of the lock, a phase rests on the published values only. -/
theorem PhaseOk.of_outside (ok : PhaseOk s thread phase) (outside : phase.inside = false)
    (kept : s.published ⊆ next.published) : PhaseOk next thread phase := by
  cases phase with
  | answered value completed =>
    cases completed with
    | false => trivial
    | true =>
      obtain ⟨done,member,above⟩ := ok
      exact ⟨done,kept member,above⟩
  | loaded | computed | updated => cases outside
  | _ => trivial

/-- New values do not change what is known of a thread. -/
theorem PhaseOk.mono (ok : PhaseOk s thread phase) (kept : s.published ⊆ next.published)
    (completed : next.completed = s.completed)
    (observed : next.observed thread = s.observed thread) :
    PhaseOk next thread phase := by
  cases phase with
  | loaded value old => exact ok.trans completed.symm
  | computed value new =>
    obtain ⟨seen,member,above⟩ := ok
    exact ⟨seen.trans observed.symm,kept member,completed ▸ above⟩
  | updated value result => exact ⟨ok.1.trans completed.symm,ok.2.trans observed.symm⟩
  | locked => trivial
  | _ => exact ok.of_outside rfl kept

end Published

theorem Owned.keep {lock : Option T} (owned : Owned lock phases)
    (same : phase.inside = (phases thread).inside) : Owned lock (update phases thread phase) := by
  intro other
  by_cases mine : other = thread
  · subst mine
    rw [update_self,same]
    exact owned other
  · rw [update_of_ne mine]
    exact owned other

theorem Owned.take (owned : Owned none phases) (inside : phase.inside = true) :
    Owned (some thread) (update phases thread phase) := by
  intro other
  by_cases mine : other = thread
  · subst mine
    simp [inside]
  · rw [update_of_ne mine,owned other]
    simp [Ne.symm mine]

theorem Owned.free (owned : Owned (some thread) phases) (outside : phase.inside = false) :
    Owned none (update phases thread phase) := by
  intro other
  by_cases mine : other = thread
  · subst mine
    simp [outside]
  · rw [update_of_ne mine,owned other]
    simp [Ne.symm mine]

/-- A step of one thread that publishes nothing. -/
theorem Inv.frame (inv : Inv s) (published : next.published = s.published)
    (payload : next.payload = s.payload) (completed : next.completed ∈ s.published)
    (moved : next.phase = update s.phase thread phase)
    (owned : Owned next.lock (update s.phase thread phase)) (mine : PhaseOk next thread phase)
    (others : ∀ other, other ≠ thread → PhaseOk next other (s.phase other)) : Inv next := by
  have latest : next.latest = s.latest := by simp [State.latest,published]
  refine ⟨published ▸ inv.nonempty,published ▸ inv.sorted,?_,published ▸ completed,moved ▸ owned,?_⟩
  · rw [payload,latest]
    exact inv.payload
  · intro other
    rw [moved]
    by_cases same : other = thread
    · subst same
      rw [update_self]
      exact mine
    · rw [update_of_ne same]
      exact others other same

omit [DecidableEq T] in
/-- While a thread is inside, the others are outside. -/
theorem Inv.outside (inv : Inv s) (inside : (s.phase thread).inside = true) {other : T}
    (different : other ≠ thread) : (s.phase other).inside = false := by
  have mine := (inv.owned thread).mp inside
  have theirs := inv.owned other
  rw [mine] at theirs
  cases held : (s.phase other).inside with
  | false => rfl
  | true => exact absurd (some.inj (theirs.mp held)).symm different

/-- A move that changes the phase of one thread only. -/
theorem Inv.move (inv : Inv s) (same : phase.inside = (s.phase thread).inside)
    (ok : PhaseOk s thread phase) : Inv (s.move thread phase) :=
  inv.frame rfl rfl inv.completed rfl (inv.owned.keep same) (ok.mono (List.Subset.refl _) rfl rfl)
    fun other _ => (inv.phase other).mono (List.Subset.refl _) rfl rfl

/-- Less than a wrap apart, values with the same low bits are the same. -/
theorem eq_of_setWidth_eq {latest : Value} (order : old ≤ latest)
    (near : latest.toNat < old.toNat + 2 ^ 32) (same : old.setWidth 32 = latest.setWidth 32) :
    old = latest := by
  have order : old.toNat ≤ latest.toNat := order
  have low := congrArg BitVec.toNat same
  simp only [BitVec.toNat_setWidth] at low
  apply eq_of_toNat_eq
  omega

section

variable (inv : Inv s) (loaded : s.phase thread = .loaded value old)
  (near : s.latest.toNat < s.completed.toNat + 2 ^ 32)
include inv loaded near

/-- The read of the payload gives the latest value. -/
theorem readPayload_cases : ∃ phase, s.readPayload thread value old =
        { s with observed := update s.observed thread s.latest }.move thread phase ∧
      (phase = .updated value s.latest ∧ s.completed = s.latest ∨
        phase = .computed value s.latest) := by
  have known := inv.phase thread
  rw [loaded] at known
  have order := inv.le_latest inv.completed
  simp only [State.readPayload]
  rw [inv.payload,known]
  split
  next same =>
    have unchanged := eq_of_setWidth_eq order near same
    exact ⟨_,rfl,.inl ⟨by rw [unchanged],unchanged⟩⟩
  next => exact ⟨_,rfl,.inr (by rw [newCompletedValue_eq order near])⟩

theorem Inv.readPayload : Inv (s.readPayload thread value old) := by
  have inside : (s.phase thread).inside = true := by rw [loaded]; rfl
  obtain ⟨phase,result,cases⟩ := readPayload_cases inv loaded near
  have phaseInside : phase.inside = true := by rcases cases with ⟨rfl,-⟩ | rfl <;> rfl
  rw [result]
  refine inv.frame rfl rfl inv.completed rfl (inv.owned.keep (phaseInside.trans inside.symm)) ?_
    fun other different => (inv.phase other).of_outside (inv.outside inside different)
      (List.Subset.refl _)
  rcases cases with ⟨rfl,unchanged⟩ | rfl
  · exact ⟨unchanged.symm,by simp [State.move]⟩
  · exact ⟨by simp [State.move],inv.latest_mem,inv.le_latest inv.completed⟩

end

theorem Inv.store (inv : Inv s) {new : Value} (computed : s.phase thread = .computed value new) :
    Inv ({ s with completed := new }.move thread (.updated value new)) := by
  have inside : (s.phase thread).inside = true := by rw [computed]; rfl
  have known := inv.phase thread
  rw [computed] at known
  obtain ⟨seen,member,-⟩ := known
  exact inv.frame rfl rfl member rfl (inv.owned.keep inside.symm) ⟨rfl,seen⟩
    fun other different => (inv.phase other).of_outside (inv.outside inside different)
      (List.Subset.refl _)

theorem Inv.unlock (inv : Inv s) {result : Value}
    (updated : s.phase thread = .updated value result) :
    Inv ({ s with lock := none }.move thread (answer value result)) := by
  have inside : (s.phase thread).inside = true := by rw [updated]; rfl
  have known := inv.phase thread
  rw [updated] at known
  have owned := inv.owned
  rw [(inv.owned thread).mp inside] at owned
  refine inv.frame rfl rfl inv.completed rfl (owned.free (by cases value <;> rfl)) ?_
    fun other different => (inv.phase other).mono (List.Subset.refl _) rfl rfl
  cases value with
  | none => trivial
  | some value =>
    by_cases enough : value ≤ result
    · simp only [answer,enough]
      exact ⟨s.completed,inv.completed,known.1 ▸ enough⟩
    · simp only [answer,enough]
      trivial

theorem Inv.advance (inv : Inv s) (timely : Timely s (.advance thread))
    (stepped : s.advance thread = some next) : Inv next := by
  simp only [State.advance] at stepped
  split at stepped
  next value checking =>
    obtain rfl := some.inj stepped
    split
    next enough => exact inv.move (by rw [checking]; rfl) ⟨s.completed,inv.completed,enough⟩
    next => exact inv.move (by rw [checking]; rfl) trivial
  next value entering =>
    split at stepped
    next free =>
      obtain rfl := some.inj stepped
      exact inv.frame rfl rfl inv.completed rfl (Owned.take (free ▸ inv.owned) rfl) trivial
        fun other _ => (inv.phase other).mono (List.Subset.refl _) rfl rfl
    next => cases stepped
  next value locked =>
    obtain rfl := some.inj stepped
    exact inv.move (by rw [locked]; rfl) rfl
  next value old loaded =>
    obtain rfl := some.inj stepped
    exact inv.readPayload loaded (timely ⟨thread,value,old,rfl,loaded⟩)
  next value new computed =>
    obtain rfl := some.inj stepped
    exact inv.store computed
  next value result updated =>
    obtain rfl := some.inj stepped
    exact inv.unlock updated
  next => cases stepped
  next => cases stepped

omit [DecidableEq T] in
theorem Inv.publish (inv : Inv s) {value : Value} (above : s.latest < value) :
    Inv { s with published := value :: s.published, payload := value.setWidth 32 } where
  nonempty := cons_ne_nil _ _
  sorted := pairwise_cons.mpr
    ⟨fun _ member => Nat.lt_of_le_of_lt (inv.le_latest member) above,inv.sorted⟩
  payload := rfl
  completed := mem_cons_of_mem _ inv.completed
  owned := inv.owned
  phase := fun other => (inv.phase other).mono (subset_cons_self _ _) rfl rfl

theorem Phase.not_inside (done : phase.isDone = true) : phase.inside = false := by
  cases phase <;> first | rfl | cases done

theorem Inv.step (inv : Inv s) (timely : Timely s action) (stepped : step s action = some next) :
    Inv next := by
  cases action with
  | publish value =>
    simp only [TrackingSemaphore.step] at stepped
    split at stepped
    next above =>
      obtain rfl := some.inj stepped
      exact inv.publish above
    next => cases stepped
  | update | isValueCompleted =>
    simp only [TrackingSemaphore.step] at stepped
    split at stepped
    next done =>
      obtain rfl := some.inj stepped
      exact inv.move (Phase.not_inside done).symm trivial
    next => cases stepped
  | advance thread => exact inv.advance timely stepped

theorem Reachable.inv {allowed : State T → Action T → Prop}
    (timely : ∀ s action, allowed s action → Timely s action) (reachable : Reachable allowed s) :
    Inv s := by
  induction reachable with
  | initial => exact Inv.initial
  | step _ permitted stepped ih => exact ih.step (timely _ _ permitted) stepped

/-- A thread publishes nothing, and only the store changes the completed value. -/
theorem advance_frame (stepped : s.advance thread = some next) :
    next.published = s.published ∧ (next.completed = s.completed ∨
      ∃ value new, s.phase thread = .computed value new ∧ next.completed = new) := by
  simp only [State.advance] at stepped
  split at stepped
  case h_5 value new computed =>
    obtain rfl := some.inj stepped
    exact ⟨rfl,.inr ⟨value,new,computed,rfl⟩⟩
  case h_2 =>
    split at stepped
    · obtain rfl := some.inj stepped
      exact ⟨rfl,.inl rfl⟩
    · cases stepped
  case h_4 =>
    obtain rfl := some.inj stepped
    simp only [State.readPayload]
    split <;> exact ⟨rfl,.inl rfl⟩
  all_goals cases stepped
  all_goals exact ⟨rfl,.inl rfl⟩

theorem Inv.completed_le (inv : Inv s) (stepped : TrackingSemaphore.step s action = some next) :
    s.completed ≤ next.completed := by
  cases action with
  | advance thread =>
    rcases (advance_frame stepped).2 with kept | ⟨value,new,computed,stored⟩
    · rw [kept]
      exact BitVec.le_refl _
    · have known := inv.phase thread
      rw [computed] at known
      rw [stored]
      exact known.2.2
  | _ =>
    simp only [TrackingSemaphore.step] at stepped
    split at stepped
    · obtain rfl := some.inj stepped
      exact BitVec.le_refl _
    · cases stepped

theorem advance_observed (loaded : s.phase thread = .loaded value old)
    (stepped : s.advance thread = some next) : next.observed thread = s.latest := by
  simp only [State.advance,loaded] at stepped
  obtain rfl := some.inj stepped
  simp only [State.readPayload]
  split <;> simp [State.move]

/-- If the GPU is less than a wrap ahead whenever the payload is read, the completed value is a
published one and never decreases, an update leaves it at the value that was the latest when the
payload was read, and a value found completed has been reached by the GPU. -/
theorem completed_value_tracks_published {T : Type} [DecidableEq T] {s : State T}
    (reachable : Reachable Timely s) :
    s.completed ∈ s.published ∧
      (∀ action next, step s action = some next → s.completed ≤ next.completed) ∧
      (∀ thread value old next, s.phase thread = .loaded value old →
        step s (.advance thread) = some next → next.observed thread = s.latest) ∧
      (∀ thread value result, s.phase thread = .updated value result →
        s.completed = s.observed thread ∧ result = s.completed) ∧
      ∀ thread value, s.phase thread = .answered value true →
        ∃ done ∈ s.published, value ≤ done := by
  have inv := reachable.inv fun _ _ timely => timely
  refine ⟨inv.completed,fun _ _ => inv.completed_le,fun _ _ _ _ => advance_observed,?_,?_⟩
  · intro thread value result updated
    have known := inv.phase thread
    rw [updated] at known
    exact ⟨known.1.symm.trans known.2,known.1⟩
  · intro thread value answered
    have known := inv.phase thread
    rw [answered] at known
    exact known

section Runs

def run (s : State T) : List (Action T) → Option (State T)
  | [] => some s
  | action :: actions => (step s action).bind (run · actions)

/-- A run of which every step is allowed, given that the check can be made step by step. -/
def allowedRun (allowed : State T → Action T → Bool) (s : State T) : List (Action T) → Bool
  | [] => true
  | action :: actions =>
    allowed s action && ((step s action).all (allowedRun allowed · actions))

theorem Reachable.run {allowed : State T → Action T → Prop} (check : State T → Action T → Bool)
    (sound : ∀ s action, check s action = true → allowed s action) (actions : List (Action T)) :
    ∀ {s next : State T}, Reachable allowed s → allowedRun check s actions = true →
      TrackingSemaphore.run s actions = some next → Reachable allowed next := by
  induction actions with
  | nil =>
    intro s next reachable _ ran
    exact some.inj ran ▸ reachable
  | cons action actions ih =>
    intro s next reachable checked ran
    simp only [allowedRun,Bool.and_eq_true] at checked
    simp only [TrackingSemaphore.run,bind_eq_some_iff] at ran
    obtain ⟨middle,stepped,ran⟩ := ran
    simp only [stepped] at checked
    exact ih (reachable.step (sound s action checked.1) stepped) checked.2 ran

end Runs

section Consecutive

/-- The GPU completes the values one after the other. -/
def Consecutive (s : State T) (action : Action T) : Prop :=
  ∀ value, action = .publish value → value.toNat = s.latest.toNat + 1

/-- Whenever the payload is read, fewer than `2 ^ 31` values have been published since the last
update, which left the completed value. -/
def Frequent (s : State T) (action : Action T) : Prop :=
  Reads s action → s.published.idxOf s.completed < 2 ^ 31

omit [DecidableEq T] in
/-- The values published after the completed one, counted. -/
theorem latest_eq_add_idxOf (inv : Inv s) (gapless : s.published.IsChain (·.toNat = ·.toNat + 1)) :
    s.latest.toNat = s.completed.toNat + s.published.idxOf s.completed := by
  have member := inv.completed
  unfold State.latest
  generalize s.published = published at gapless member
  induction published with
  | nil => cases member
  | cons first rest ih =>
    by_cases same : first = s.completed
    · simp [same]
    · rw [idxOf_cons_ne _ same]
      have later := (mem_cons.mp member).resolve_left (Ne.symm same)
      cases rest with
      | nil => cases later
      | cons second rest =>
        have chained := isChain_cons_cons.mp gapless
        have counted := ih chained.2 later
        simp only [headD_cons] at counted ⊢
        omega

theorem step_published {action : Action T} (stepped : step s action = some next) :
    next.published = s.published ∨
      ∃ value, action = .publish value ∧ next.published = value :: s.published := by
  cases action with
  | advance thread => exact .inl (advance_frame stepped).1
  | _ =>
    simp only [step] at stepped
    split at stepped
    · obtain rfl := some.inj stepped
      simp [State.move]
    · cases stepped

/-- Consecutive values and frequent updates keep the GPU less than a wrap ahead. -/
theorem Reachable.timely
    (reachable : Reachable (fun s action => Consecutive s action ∧ Frequent s action) s) :
    Reachable Timely s ∧ s.published.IsChain (·.toNat = ·.toNat + 1) := by
  induction reachable with
  | initial => exact ⟨.initial,by simp⟩
  | @step s next action _ allowed stepped ih =>
    obtain ⟨reachable,gapless⟩ := ih
    have inv := reachable.inv fun _ _ timely => timely
    refine ⟨reachable.step (fun reads => ?_) stepped,?_⟩
    · have frequent := allowed.2 reads
      rw [latest_eq_add_idxOf inv gapless]
      omega
    · rcases step_published stepped with same | ⟨value,rfl,published⟩
      · exact same ▸ gapless
      · have following := allowed.1 value rfl
        rw [published]
        unfold State.latest at following
        cases before : s.published with
        | nil => exact absurd before inv.nonempty
        | cons first rest =>
          rw [before] at following gapless
          exact isChain_cons_cons.mpr ⟨following,gapless⟩

end Consecutive

section Sample

def sampleUpdate : List (Action Unit) :=
  .update () :: replicate 4 (.advance ())

/-- The payload wraps between two updates, then a thread asks for a value. -/
def sampleActions : List (Action Unit) :=
  [.publish 0xFFFFFFFF] ++ sampleUpdate ++ [.advance (),.publish 0x100000005] ++ sampleUpdate ++
    [.advance (),.isValueCompleted () 0x100000001,.advance ()]

def checkTimely (s : State Unit) : Action Unit → Bool
  | .advance thread =>
    match s.phase thread with
    | .loaded _ _ => s.latest.toNat < s.completed.toNat + 2 ^ 32
    | _ => true
  | _ => true

theorem checkTimely_sound (s : State Unit) (action : Action Unit)
    (checked : checkTimely s action = true) : Timely s action := by
  rintro ⟨thread,value,old,rfl,loaded⟩
  simpa [checkTimely,loaded] using checked

def sampleState : State Unit := (run .initial sampleActions).getD .initial

theorem sampleState_reachable : Reachable Timely sampleState :=
  Reachable.run checkTimely checkTimely_sound sampleActions .initial (by decide +kernel) rfl

theorem completed_value_tracks_published_wrap :
    sampleState.phase () = .answered 0x100000001 true ∧ sampleState.completed = 0x100000005 ∧
      sampleState.completed ∈ sampleState.published ∧
      ∃ done ∈ sampleState.published, 0x100000001 ≤ done := by
  have answered : sampleState.phase () = .answered 0x100000001 true := by decide +kernel
  have tracked := completed_value_tracks_published sampleState_reachable
  exact ⟨answered,by decide +kernel,tracked.1,tracked.2.2.2.2 () _ answered⟩

/-- The GPU publishes a single value, a whole wrap ahead, and the update does not see it. -/
def skippedState : State Unit :=
  (run .initial (.publish 0x100000000 :: sampleUpdate.take 4)).getD .initial

theorem wrap_missed : Reachable (fun s _ => s.published.length < 2 ^ 31) skippedState ∧
      skippedState.phase () = .updated none 0 ∧ skippedState.observed () = 0x100000000 ∧
      skippedState.latest = 0x100000000 ∧ skippedState.completed = 0 := by
  refine ⟨?_,by decide +kernel,by decide +kernel,by decide +kernel,by decide +kernel⟩
  exact Reachable.run (fun s _ => s.published.length < 2 ^ 31) (by simp)
    (.publish 0x100000000 :: sampleUpdate.take 4) .initial (by decide +kernel) rfl

end Sample

end GpuExt.TrackingSemaphore
