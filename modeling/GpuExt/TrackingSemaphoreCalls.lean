import GpuExt.TrackingSemaphore

/-! Calls of `uvm_gpu_tracking_semaphore_is_value_completed` for values already published. -/
namespace GpuExt.TrackingSemaphore

variable {T : Type} [DecidableEq T] {s next : State T} {thread : T} {value : Value}

/-- The thread whose next call starts. -/
def Action.starts : Action T → Option T
  | .update thread | .isValueCompleted thread _ => some thread
  | _ => none

/-- States during a call for a value that the GPU had published before. -/
inductive Call (thread : T) (value : Value) : State T → Prop
  | asked {s next : State T} : Reachable Timely s → value ≤ s.latest →
      step s (.isValueCompleted thread value) = some next → Call thread value next
  | step {s next : State T} {action : Action T} : Call thread value s → Timely s action →
      action.starts ≠ some thread → step s action = some next → Call thread value next

/-- How far the call has come; what it has read is not below the value. -/
def Due (value : Value) : Phase → Prop
  | .checking asked => asked = value
  | .entering asked | .locked asked | .loaded asked _ => asked = some value
  | .computed asked new | .updated asked new => asked = some value ∧ value ≤ new
  | .answered asked completed => asked = value ∧ completed = true
  | .idle => False

theorem Due.advance (inv : Inv s) (timely : Timely s (.advance thread)) (below : value ≤ s.latest)
    (due : Due value (s.phase thread)) (stepped : s.advance thread = some next) :
    Due value (next.phase thread) := by
  unfold State.advance at stepped
  split at stepped
  all_goals
    rename_i phase
    rw [phase] at due
  case h_1 =>
    cases stepped
    simp only [State.move,Function.update_self]
    split
    · exact ⟨due,rfl⟩
    · exact congrArg some due
  case h_2 =>
    split at stepped <;> cases stepped
    simpa [State.move,Due] using due
  case h_4 =>
    obtain ⟨_,result,seen⟩ := readPayload_cases inv phase (timely ⟨_,_,_,rfl,phase⟩)
    cases stepped
    rw [result]
    rcases seen with ⟨rfl,_⟩ | rfl <;> simpa [State.move] using ⟨due,below⟩
  case h_6 =>
    obtain ⟨rfl,enough⟩ := due
    cases stepped
    simpa [State.move,answer,Due] using enough
  all_goals cases stepped <;> simpa [State.move,Due] using due

theorem advance_phase {other : T} (different : other ≠ thread)
    (stepped : s.advance thread = some next) : next.phase other = s.phase other := by
  unfold State.advance State.readPayload at stepped
  split at stepped <;> (try split at stepped) <;> cases stepped <;>
    simp [State.move,different]
  split <;> simp [different]

theorem Call.due (call : Call thread value s) :
    Inv s ∧ value ≤ s.latest ∧ Due value (s.phase thread) := by
  induction call with
  | asked reachable below stepped =>
    have inv := reachable.inv fun _ _ timely => timely
    refine ⟨inv.step (by rintro ⟨_,_,_,⟨⟩,_⟩) stepped,?_⟩
    simp only [TrackingSemaphore.step] at stepped
    split at stepped <;> cases stepped
    exact ⟨below,by simp [State.move,Due]⟩
  | @step s next action _ timely others stepped hypothesis =>
    obtain ⟨inv,below,due⟩ := hypothesis
    refine ⟨inv.step timely stepped,?_⟩
    cases action with
    | publish new =>
      simp only [TrackingSemaphore.step] at stepped
      split at stepped <;> cases stepped
      exact ⟨Nat.le_of_lt (Nat.lt_of_le_of_lt below ‹_›),due⟩
    | update other | isValueCompleted other =>
      simp only [TrackingSemaphore.step] at stepped
      split at stepped <;> cases stepped
      have different : thread ≠ other := fun same => others (congrArg some same.symm)
      exact ⟨below,by simpa [State.move,different] using due⟩
    | advance other =>
      have latest : next.latest = s.latest := congrArg (·.headD 0) (advance_frame stepped).1
      refine ⟨latest ▸ below,?_⟩
      by_cases same : thread = other
      · subst same
        exact due.advance inv timely below stepped
      · exact advance_phase same stepped ▸ due

/-- Whatever others do meanwhile, a value published before the call is found completed. -/
theorem published_found (call : Call thread value s) {asked : Value} {completed : Bool}
    (answered : s.phase thread = .answered asked completed) :
    asked = value ∧ completed = true := by
  have due := call.due.2.2
  rwa [answered] at due

theorem published_found_wrap : Call () 0x100000001 sampleState ∧
    ∃ completed, sampleState.phase () = .answered 0x100000001 completed ∧ completed = true := by
  have before := Reachable.run checkTimely checkTimely_sound (sampleActions.take 14) .initial
    (by decide +kernel) rfl
  have call : Call () 0x100000001 sampleState :=
    .step (.asked before (by decide +kernel) rfl) (checkTimely_sound _ (.advance ()) rfl)
      nofun rfl
  have answered : sampleState.phase () = .answered 0x100000001 true := by decide +kernel
  exact ⟨call,_,answered,(published_found call answered).2⟩

end GpuExt.TrackingSemaphore
