import GpuExt.ChannelRing

/-! What a whole update of a channel does: it reads the semaphore and then frees entries. -/
namespace GpuExt.ChannelRing

open List

variable {s : System} {history : List GpfifoEntry} {get : Nat}

section

variable (tracks : Tracks s history get)
include tracks

/-- Unless it has reached its limit, the loop stops before an entry that is not completed, and
then no later entry is. -/
theorem Tracks.completeEntries_stop (completedValue maxToComplete : Nat) {first : Nat}
    (notFreed : get ≤ first) (within : first ≤ history.length)
    (enough : history.length ≤ first + maxToComplete) :
    ∃ stop, first ≤ stop ∧ stop ≤ history.length ∧
      (ChannelRing.completeEntries s.channel completedValue maxToComplete
        (first % s.channel.numGpfifoEntries)).2 = stop % s.channel.numGpfifoEntries ∧
      ∀ entry ∈ history.drop stop, completedValue < entry.trackingSemaphoreValue := by
  have room := tracks.room
  induction maxToComplete generalizing first with
  | zero => exact ⟨first,le_rfl,within,rfl,by simp [drop_eq_nil_of_le (show _ ≤ first from enough)]⟩
  | succ maxToComplete hypothesis =>
    unfold ChannelRing.completeEntries
    dsimp only
    rcases within.eq_or_lt with rfl | inside
    · apply Exists.intro history.length
      simp [tracks.put]
    have entry := tracks.entries first notFreed inside
    split
    next stopped =>
      apply Exists.intro first
      refine ⟨le_rfl,within,rfl,?_⟩
      have later := stopped.resolve_left fun full =>
        Ring.slot_ne inside (by omega) (full.trans tracks.put)
      have sorted := tracks.values.sublist (drop_sublist first history)
      obtain ⟨_,same⟩ := List.getElem?_eq_some_iff.mp entry
      rw [drop_eq_getElem_cons inside,same] at sorted ⊢
      intro other member
      rcases mem_cons.mp member with rfl | rest
      · exact later
      · exact Nat.lt_of_lt_of_le later (rel_of_pairwise_cons sorted rest)
    · obtain ⟨stop,after,bound,result,values⟩ :=
        hypothesis (Nat.le_succ_of_le notFreed) (Nat.succ_le_of_lt inside) (by omega)
      rw [Nat.mod_add_mod]
      exact ⟨stop,Nat.le_of_succ_le after,bound,result,values⟩

/-- Freed pushes have values up to the completed one; the rest of the history is after it. -/
theorem Tracks.marked_values
    (rest : ∀ entry ∈ history.drop get,
      s.channel.trackingSem.completedValue < entry.trackingSemaphoreValue) :
    s.marked.map (·.entry.trackingSemaphoreValue) =
      range' 1 s.channel.trackingSem.completedValue := by
  have pushes := tracks.pushes
  have within := Nat.le_trans tracks.semaphore.1 tracks.semaphore.2
  have freed : ∀ mark ∈ s.marked,
      mark.entry.trackingSemaphoreValue ≤ s.channel.trackingSem.completedValue := by
    intro mark member
    have entry := mem_map_of_mem (f := Mark.entry) member
    rw [tracks.marked] at entry
    exact tracks.freed mark.entry (mem_of_mem_filter entry)
  rw [← take_append_drop get history,filter_append,map_append,← tracks.marked,map_map] at pushes
  generalize s.channel.trackingSem.completedValue = completed at *
  have parts : range' 1 s.channel.trackingSem.queuedValue = range' 1 completed ++
      range' (1 + completed) (s.channel.trackingSem.queuedValue - completed) := by
    rw [range'_append_1,Nat.add_sub_cancel' within]
  -- both sides consist of values up to the completed one and of later ones
  have upTo := congrArg (filter (· ≤ completed)) (pushes.trans parts)
  rw [filter_append,filter_append,filter_eq_self.mpr,filter_eq_nil_iff.mpr,append_nil,
    filter_eq_self.mpr,filter_eq_nil_iff.mpr,append_nil] at upTo
  · exact upTo
  iterate 2
    · intro value member
      simp at member ⊢
      omega
  · simp only [mem_map]
    rintro _ ⟨entry,pending,rfl⟩
    simpa using rest entry (mem_of_mem_filter pending)
  · simpa using freed

end

/-- In every run an update with no limit below the pending entries marks the pushes that the GPU
has released, all of them, in the order of their values, and nothing else. -/
theorem update_exact {parameter : Nat} {pool : PoolType} {events : List Event}
    {maxToComplete : Nat}
    (run : execute events (.start (poolNumGpfifoEntries parameter pool)) = some s)
    (held : .suspendFailed ∉ events) (enough : pendingCount s.channel ≤ maxToComplete) :
    ∃ s', execute [.updateCompletedValue,.updateProgress s.observed.length maxToComplete] s =
        some s' ∧
      s'.marked.map (·.entry.trackingSemaphoreValue) = range' 1 s.released ∧
      ∀ entry ∈ pendingEntries s'.channel, s.released < entry.trackingSemaphoreValue := by
  obtain ⟨nonempty,small⟩ := poolNumGpfifoEntries_bounds parameter pool
  obtain ⟨history,get,tracks⟩ := (tracks_start nonempty small).execute run held
  rw [tracks.pendingCount_eq] at enough
  have read := tracks.observe
  obtain ⟨stop,after,bound,stopped,later⟩ :=
    read.completeEntries_stop s.released maxToComplete le_rfl read.order (by omega)
  obtain ⟨get',next⟩ := read.updateProgress
    (mem_append_right _ (mem_singleton_self s.released)) maxToComplete
  have room := read.room
  have room' := next.room
  have order' := next.order
  rw [← read.slot] at stopped
  have same : get' = stop := by
    have slots := next.slot.symm.trans stopped
    rcases Nat.le_total get' stop with before | before
    · exact Ring.slot_inj before (by dsimp only at room' ⊢; omega) slots
    · exact (Ring.slot_inj before (by dsimp only at room ⊢; omega) slots.symm).symm
  subst same
  refine ⟨_,?_,next.marked_values later,?_⟩
  · simp only [execute,step,tracks.updateCompletedValue]
    simp
  · rw [next.pendingEntries_eq]
    exact later

/-- Two of three pushes are released before the update. -/
def releasedRun : List Event :=
  [.claim 3 .noP2p,.endPush 0 0 4,.endPush 0 4 4,.endPush 0 8 4,.gpuRelease,.gpuRelease]

theorem update_exact_released : ∃ s s' : System,
    execute releasedRun (.start (poolNumGpfifoEntries 32 .other)) = some s ∧
      pendingCount s.channel = 3 ∧
      execute [.updateCompletedValue,.updateProgress s.observed.length 3] s = some s' ∧
      s'.marked.map (·.entry.trackingSemaphoreValue) = [1,2] := by
  have completes : (execute releasedRun (.start (poolNumGpfifoEntries 32 .other))).map
      (fun s => (pendingCount s.channel,s.released)) = some (3,2) := by
    decide +kernel
  obtain ⟨s,run,facts⟩ := Option.map_eq_some_iff.mp completes
  obtain ⟨pending,released⟩ := Prod.mk.inj facts
  obtain ⟨s',updated,marked,_⟩ := update_exact run (by decide) pending.le
  rw [released] at marked
  exact ⟨s,s',run,pending,updated,marked⟩

end GpuExt.ChannelRing
