import Mathlib.Data.List.Basic

/-! A thread that waits for something which other threads give back. It tries to claim it; between
two tries anything may happen, and an error may be found. A wait that ends with an error should
leave the state that the others alone have produced. -/
namespace GpuExt.WaitingClaim

open Option

variable {σ ε code : Type}

/-- What all threads do between two tries, and the error that the waiting one finds. -/
structure Round (ε code : Type) where
  events : List ε
  error : Option code

/-- What a call lives through. `waiting` and `last` are the events before it enters a semaphore,
and those before it leaves it again. -/
structure History (ε code : Type) where
  waiting : List ε
  first : List ε
  rounds : List (Round ε code)
  last : List ε

def History.events (h : History ε code) : List ε :=
  h.waiting ++ h.first ++ h.rounds.flatMap (·.events) ++ h.last

/-- How a call ends: the error, what has happened up to its last test and after it, and the state
that it leaves. -/
structure Ended (σ ε code : Type) where
  error : Option code
  made : List ε
  last : List ε
  state : σ

def Ended.after (before : List ε) (ended : Ended σ ε code) : Ended σ ε code :=
  { ended with made := before ++ ended.made }

section Loops

variable (step : σ → ε → Option σ) (tryClaim : σ → Option σ)

def run (s : σ) (events : List ε) : Option σ := events.foldlM step s

/-- The test of a loop that goes on while nothing is claimed and no error is found. -/
def leaves (error : Option code) (s : σ) : Option (Ended σ ε code) :=
  match tryClaim s with
  | some claimed => some ⟨error,[],[],claimed⟩
  | none => error.map fun code => ⟨some code,[],[],s⟩

/-- A loop whose error and whose claim end it in one test. Nothing if the history is over before
the loop. -/
def testedLoop : List (Round ε code) → Option code → σ → Option (Ended σ ε code)
  | [], error, s => leaves tryClaim error s
  | round :: rounds, error, s =>
    (leaves tryClaim error s).or ((run step s round.events).bind fun s =>
      (testedLoop rounds round.error s).map (·.after round.events))

/-- A loop that looks for errors only after a failed claim, and then ends. -/
def checkedLoop : List (Round ε code) → σ → Option (Ended σ ε code)
  | [], _ => none
  | round :: rounds, s =>
    (run step s round.events).bind fun s => ((leaves tryClaim none s).or
      (match round.error with
        | some code => some ⟨some code,[],[],s⟩
        | none => checkedLoop rounds s)).map (·.after round.events)

/-- A try before the loop. -/
def tryFirst (first : List ε) (loop : σ → Option (Ended σ ε code)) (s : σ) :
    Option (Ended σ ε code) :=
  (leaves tryClaim none s).or ((run step s first).bind fun s => (loop s).map (·.after first))

/-- The state is what has happened produces without the call. -/
def Alone (s : σ) (ended : Ended σ ε code) : Prop :=
  run step s (ended.made ++ ended.last) = some ended.state

/-- There is nothing to claim in the last test. -/
def Blocked (s : σ) (ended : Ended σ ε code) : Prop :=
  ∀ s',run step s ended.made = some s' → tryClaim s' = none

/-- The call ends in a test that claims something or finds nothing. -/
def Tested (s : σ) (ended : Ended σ ε code) : Prop :=
  ∃ s',run step s ended.made = some s' ∧
    (tryClaim s' = none ∧ ended.state = s' ∨ tryClaim s' = some ended.state)

end Loops

variable {step : σ → ε → Option σ} {tryClaim : σ → Option σ}

theorem run_append (s : σ) (before after : List ε) :
    run step s (before ++ after) = (run step s before).bind (run step · after) :=
  List.foldlM_append ..

variable {s between s' : σ} {before first : List ε} {error : Option code}
  {round : Round ε code} {rounds : List (Round ε code)} {ended : Ended σ ε code}

theorem run_trans {after : List ε} (first : run step s before = some between)
    (second : run step between after = some s') : run step s (before ++ after) = some s' := by
  rw [run_append,first]
  exact second

theorem leaves_tested (step : σ → ε → Option σ) (left : leaves tryClaim error s = some ended) :
    Tested step tryClaim s ended ∧ ended.made = [] ∧ ended.last = [] := by
  unfold leaves at left
  split at left
  next claimed =>
    cases left
    exact ⟨⟨s,rfl,.inr claimed⟩,rfl,rfl⟩
  next none =>
    obtain ⟨_,-,rfl⟩ := map_eq_some_iff.mp left
    exact ⟨⟨s,rfl,.inl ⟨none,rfl⟩⟩,rfl,rfl⟩

theorem leaves_ok (left : leaves tryClaim none s = some ended) : ended.error = none := by
  unfold leaves at left
  split at left <;> cases left
  rfl

theorem Tested.after (tested : Tested step tryClaim between ended)
    (ran : run step s before = some between) : Tested step tryClaim s (ended.after before) := by
  obtain ⟨s',rest,outcome⟩ := tested
  exact ⟨s',run_trans ran rest,outcome⟩

theorem testedLoop_tested (left : testedLoop step tryClaim rounds error s = some ended) :
    Tested step tryClaim s ended ∧ ended.last = [] := by
  induction rounds generalizing error s ended with
  | nil => exact (leaves_tested step left).imp_right And.right
  | cons round rounds ih =>
    rcases or_eq_some_iff.mp left with here | ⟨-,onward⟩
    · exact (leaves_tested step here).imp_right And.right
    · obtain ⟨between,ran,rest⟩ := bind_eq_some_iff.mp onward
      obtain ⟨later,ends,rfl⟩ := map_eq_some_iff.mp rest
      exact ⟨(ih ends).1.after ran,(ih ends).2⟩

/-- The loop that looks for errors last claims nothing when it ends with one. -/
theorem checkedLoop_error (left : checkedLoop step tryClaim rounds s = some ended)
    (failed : ended.error.isSome) : run step s ended.made = some ended.state := by
  induction rounds generalizing s ended with
  | nil => exact nomatch left
  | cons round rounds ih =>
    obtain ⟨between,ran,rest⟩ := bind_eq_some_iff.mp left
    obtain ⟨later,ends,rfl⟩ := map_eq_some_iff.mp rest
    refine run_trans ran ?_
    rcases or_eq_some_iff.mp ends with here | ⟨-,onward⟩
    · simp [Ended.after,leaves_ok here] at failed
    · split at onward
      · cases onward
        rfl
      · exact ih onward failed

theorem tryFirst_error {loop : σ → Option (Ended σ ε code)}
    (left : tryFirst step tryClaim first loop s = some ended) (failed : ended.error.isSome) :
    ∃ between later,run step s first = some between ∧ loop between = some later ∧
      ended = later.after first := by
  rcases or_eq_some_iff.mp left with here | ⟨-,onward⟩
  · rw [leaves_ok here] at failed
    exact nomatch failed
  · obtain ⟨between,ran,rest⟩ := bind_eq_some_iff.mp onward
    obtain ⟨later,ends,same⟩ := map_eq_some_iff.mp rest
    exact ⟨between,later,ran,ends,same.symm⟩

/-- A call with one test has nothing of what it claims just if there was nothing to claim. -/
theorem Tested.alone_iff (tested : Tested step tryClaim s ended) (last : ended.last = [])
    (changes : ∀ {t t'},tryClaim t = some t' → t' ≠ t) :
    Alone step s ended ↔ Blocked step tryClaim s ended := by
  obtain ⟨s',ran,outcome⟩ := tested
  unfold Alone Blocked
  rw [last,List.append_nil,ran]
  simp only [some.injEq,forall_eq']
  rcases outcome with ⟨none,same⟩ | claimed
  · exact iff_of_true same.symm none
  · exact iff_of_false (changes claimed ·.symm) (by rw [claimed]; nofun)

/-! A semaphore around the claim. -/

structure Guarded (σ : Type) where
  inner : σ
  count : Nat

inductive Act (ε : Type) where
  | inner (event : ε)
  | down
  | up
  deriving DecidableEq, Repr

def Guarded.up (g : Guarded σ) : Guarded σ := { g with count := g.count + 1 }

def Guarded.act (step : σ → ε → Option σ) (g : Guarded σ) : Act ε → Option (Guarded σ)
  | .inner event => (step g.inner event).map ({ g with inner := · })
  | .down => match g.count with
    | 0 => none
    | count + 1 => some { g with count }
  | .up => some g.up

def Guarded.attempt (tryClaim : σ → Option σ) (g : Guarded σ) : Option (Guarded σ) :=
  (tryClaim g.inner).map ({ g with inner := · })

/-- A claim inside the semaphore: an error leaves it again. -/
def guarded (step : σ → ε → Option σ) (h : History (Act ε) code)
    (claim : Guarded σ → Option (Ended (Guarded σ) (Act ε) code)) (g : Guarded σ) :
    Option (Ended (Guarded σ) (Act ε) code) :=
  (run (Guarded.act step) g h.waiting).bind fun g =>
    (Guarded.act step g .down).bind fun g => (claim g).bind fun ended =>
      match ended.error with
      | none => some (ended.after h.waiting)
      | some _ => (run (Guarded.act step) ended.state h.last).map fun g =>
        { ended.after h.waiting with last := h.last, state := g.up }

theorem Guarded.act_up {g g' : Guarded σ} {act : Act ε} (ran : Guarded.act step g act = some g') :
    Guarded.act step g.up act = some g'.up := by
  cases act with
  | inner event =>
    obtain ⟨inner,moved,rfl⟩ := map_eq_some_iff.mp ran
    exact map_eq_some_iff.mpr ⟨inner,moved,rfl⟩
  | up => exact congrArg (some ∘ Guarded.up) (some.inj ran)
  | down =>
    obtain ⟨inner,count⟩ := g
    cases count with
    | zero => exact nomatch ran
    | succ count => rw [← some.inj ran]; rfl

/-- Whatever others do inside the semaphore, they can do with one more place in it. -/
theorem Guarded.run_up {g g' : Guarded σ} {acts : List (Act ε)}
    (ran : run (Guarded.act step) g acts = some g') :
    run (Guarded.act step) g.up acts = some g'.up := by
  induction acts generalizing g with
  | nil => exact congrArg (some ∘ Guarded.up) (some.inj ran)
  | cons act acts ih =>
    obtain ⟨between,first,rest⟩ := bind_eq_some_iff.mp ran
    exact bind_eq_some_iff.mpr ⟨between.up,Guarded.act_up first,ih rest⟩

theorem Guarded.up_of_down {g g' : Guarded σ} (ran : Guarded.act step g .down = some g') :
    g'.up = g := by
  obtain ⟨inner,count⟩ := g
  cases count with
  | zero => exact nomatch ran
  | succ count => rw [← some.inj ran]; rfl

/-- What a call inside the semaphore has done when it ends with an error. -/
theorem guarded_error {h : History (Act ε) code}
    {claim : Guarded σ → Option (Ended (Guarded σ) (Act ε) code)} {g : Guarded σ}
    {ended : Ended (Guarded σ) (Act ε) code} (left : guarded step h claim g = some ended)
    (failed : ended.error.isSome) :
    ∃ inner within final,run (Guarded.act step) g h.waiting = some inner.up ∧
      claim inner = some within ∧ within.error.isSome ∧
      run (Guarded.act step) within.state h.last = some final ∧
      ended = { within.after h.waiting with last := h.last, state := final.up } := by
  obtain ⟨before,waited,rest⟩ := bind_eq_some_iff.mp left
  obtain ⟨inner,entered,rest⟩ := bind_eq_some_iff.mp rest
  obtain ⟨within,claimed,rest⟩ := bind_eq_some_iff.mp rest
  cases outcome : within.error with
  | none =>
    rw [outcome] at rest
    cases rest
    exact absurd failed (by simp [Ended.after,outcome])
  | some _ =>
    rw [outcome] at rest
    obtain ⟨final,ends,same⟩ := map_eq_some_iff.mp rest
    exact ⟨inner,within,final,Guarded.up_of_down entered ▸ waited,claimed,by simp [outcome],ends,
      same.symm⟩

/-- What was made inside the semaphore is made outside with one more place in it. -/
theorem run_within {g inner t : Guarded σ} {waiting made : List (Act ε)}
    (waited : run (Guarded.act step) g waiting = some inner.up)
    (ran : run (Guarded.act step) inner made = some t) :
    run (Guarded.act step) g (waiting ++ made) = some t.up :=
  run_trans waited (Guarded.run_up ran)

end GpuExt.WaitingClaim
