import GpuExt.AtsSubBatch

/-! Which entries of a batch the ATS servicing takes. The number of faults reported to the caller is
the number of entries tiled, just if no entry of another GPU is taken and no sub-batch is serviced
again. -/
namespace GpuExt.AtsFaults

open FaultBatch List

variable {kernel : Kernel} {faults : List Fault} {vma : Vma}

section Loop

variable {policy : ReplayPolicy} {first : Fault} {start bound stop : Nat} {initial : State}

/-- What a successful call counts and takes, and when that is as it should be. The entry that it
starts with tells whether a sub-batch was serviced twice. -/
structure Taken (faults : List Fault) (page : PageSize) (policy : ReplayPolicy) (vma : Vma)
    (first : Fault) (start bound : Nat) (initial final : State) (count : Nat)
    (calls : List Call) : Prop where
  positive : 0 < count
  counted : final.blockFaults = initial.blockFaults + count
  called : final.calls = initial.calls ++ calls
  low : ∀ call ∈ calls, start ≤ call.faultIndexStart
  consumed : Clean faults first start bound policy vma →
    Consumed faults page first start count bound calls
  clean : OneGpu faults first start (start + count) → ServicedOnce page calls start first →
    Clean faults first start bound policy vma

theorem Tiles.consumed {page : PageSize} {calls : List Call} (tiles : Tiles faults start calls stop)
    (run : Run faults first start bound stop) (one : OneGpu faults first start stop)
    (inBatch : stop ≤ faults.length) (user : bound ≤ 2 ^ 63) :
    Consumed faults page first start (stop - start) bound calls := by
  have whole : start + (stop - start) = stop := Nat.add_sub_of_le tiles.le
  refine ⟨whole.symm ▸ inBatch,whole.symm ▸ tiles.within,fun i f low high atI => ?_,
    fun i f low high atI => ?_⟩
  all_goals
    obtain ⟨g,atG,space,below⟩ := run i low (by omega)
    cases atG.symm.trans atI
  · exact ⟨space,one i f low (by omega) atI,below⟩
  · exact tiles.once low (by omega) atI (by omega)

/-- The loop has run to its end. -/
theorem Gathered.taken {sub : Sub} {final : State}
    (gathered : Gathered kernel faults policy first start bound initial sub)
    (nonempty : sub.subBatchFaultIndex < sub.index)
    (stops : ¬Run faults first start bound (sub.index + 1)) (user : bound ≤ 2 ^ 63)
    (calls : final.calls = sub.state.calls ++
      [⟨sub.subBatchBase,sub.subBatchFaultIndex,sub.index⟩])
    (count : final.blockFaults = sub.state.blockFaults + (sub.index - sub.subBatchFaultIndex)) :
    ∃ count calls, Taken faults kernel.page policy vma first start bound initial final count
      calls := by
  have low := gathered.low
  have most {stop : Nat} (run : Run faults first start bound stop) : stop ≤ sub.index :=
    Nat.le_of_not_lt fun more => stops (run.mono more)
  obtain ⟨earlier,callsEq,lows,tiles⟩ := gathered.tiled
  refine ⟨sub.index - start,_,by omega,?_,by rw [calls,callsEq,append_assoc],
    by simpa [or_imp,forall_and] using ⟨lows,low⟩,fun clean => ?_,fun one _ => ?_⟩
  · rw [count,gathered.count]
    omega
  · have one := clean.oneGpu sub.index gathered.run fun perBlock => (gathered.perBlock perBlock).2.2
    exact ((tiles one).snoc nonempty (gathered.sameBlock one)).consumed gathered.run one
      gathered.inBatch user
  · refine ⟨fun stop run _ => one.mono ?_,fun perBlock stop run notOne => ?_⟩
    · have := most run
      omega
    · exact absurd ((gathered.perBlock perBlock).2.2.mono (most run)) notOne

/-- The loop was left, and the masks are empty or the sub-batch is serviced again. -/
theorem Left.taken {sub : Sub} {final : State} {k : Nat}
    (left : Left faults vma first start bound initial sub k) (sorted : Sorted faults)
    (atStart : faults[start]? = some first) (user : bound ≤ 2 ^ 63)
    (again : if sub.state.masks.isEmpty = true then final = sub.state
      else final.calls = sub.state.calls ++ [⟨sub.subBatchBase,start,k + 1⟩] ∧
        final.blockFaults = sub.state.blockFaults + (k + 1 - start)) :
    ∃ count calls, Taken faults kernel.page .block vma first start bound initial final count
      calls := by
  have nonempty := left.nonempty
  have most {stop : Nat} (one : OneBlock faults first start stop) : stop ≤ k :=
    Nat.le_of_not_lt fun more => left.next (one.mono more)
  have runK := left.run.mono (Nat.le_succ k)
  split at again
  next empty =>
    subst again
    obtain ⟨readable,readOnly,writes⟩ := left.drained.mp empty
    refine ⟨k - start,_,by omega,left.count,left.calls,by simp,fun clean => ?_,fun one _ => ?_⟩
    · have one := clean.oneGpu k runK fun _ => left.inside
      have tiles : Tiles faults start [⟨sub.subBatchBase,start,k⟩] k := by
        refine .snoc .nil nonempty fun i f low high atI => ?_
        rw [left.base]
        have above := runK.address_le one sorted le_rfl low high atStart atI
        exact blockAlignDown_eq ((blockAlignDown_le _).trans above) (left.inside i f low high atI)
      obtain ⟨f,atF,-⟩ := left.run k nonempty.le (Nat.lt_succ_self k)
      exact tiles.consumed runK one (List.getElem?_eq_some_iff.mp atF).1.le user
    · refine ⟨fun stop _ inside => one.mono ?_,
        fun _ _ _ _ => ⟨readable,readOnly,fun last _ inside i f inSub => ?_⟩⟩
      · have := most (inside rfl)
        omega
      · exact writes i f ⟨inSub.1,inSub.2.1.trans_le (most inside),inSub.2.2⟩
  next more =>
    refine ⟨k - start + (k + 1 - start),_,by omega,?_,
      by rw [again.1,left.calls,append_assoc],by simp,fun clean => absurd ?_ more,fun _ once => ?_⟩
    · rw [again.2,left.count]
      omega
    · obtain ⟨readable,readOnly,writes⟩ := clean.drained rfl (k + 1) left.run left.next
      exact left.drained.mpr ⟨readable,readOnly,writes k runK left.inside⟩
    · -- The first entry is passed to both calls.
      obtain ⟨call,only,-⟩ := once
      simp [Call.Covers,nonempty,Nat.lt_succ_of_lt nonempty] at only

theorem sub_taken (sorted : Sorted faults) (atStart : faults[start]? = some first)
    (contained : first.faultAddress < vma.vmEnd) {outer : Nat} (below : first.faultAddress < outer)
    (ok : (serviceFaultBatchAtsSub kernel faults policy vma start first outer initial).1 = .ok) :
    ∃ count calls, Taken faults kernel.page policy vma first start (min outer vma.vmEnd) initial
      (serviceFaultBatchAtsSub kernel faults policy vma start first outer initial).2 count calls := by
  have inBatch := (List.getElem?_eq_some_iff.mp atStart).1
  have user := vma.user
  have opened : Gathered kernel faults policy first start (min outer vma.vmEnd) initial
      (startNewSubBatch ⟨initial,.ok,start,0,0⟩ first.faultAddress start) := by
    refine ⟨rfl,le_rfl,le_rfl,inBatch.le,?_,?_,?_,by simp,?_,
      ⟨[],(append_nil _).symm,by simp,fun _ => .nil⟩,?_⟩
    · exact fun i low high => absurd high (not_lt.mpr low)
    · intro f atF
      cases atStart.symm.trans atF
      rfl
    · simp [gathered]
    · exact fun _ => ⟨rfl,rfl,fun i f low high => absurd high (not_lt.mpr low)⟩
    · exact fun _ i f low high => absurd high (not_lt.mpr low)
  simp only [serviceFaultBatchAtsSub] at ok ⊢
  generalize looped : subLoop kernel faults vma _ _ _ _ _ _ = sub at ok ⊢
  have subOk : sub.status = .ok := by
    by_contra failed
    rw [if_neg (fun both => failed both.1)] at ok
    exact failed ok
  rcases subLoop_spec sorted atStart (by omega) opened atStart rfl (by omega) faults.length
    (Nat.le_add_left _ _) none looped subOk with ⟨nonempty,stops,gathered⟩ | ⟨rfl,k,left⟩
  · rw [if_pos ⟨subOk,by rw [gathered.isEmpty nonempty]; rfl⟩]
    obtain ⟨-,-,-,calls,count⟩ := @subVma_frame kernel faults vma sub.subBatchBase sub.state
      sub.subBatchFaultIndex sub.index gathered.ordered gathered.inBatch
    exact gathered.taken nonempty stops (by omega) calls count
  · refine left.taken sorted atStart (by omega) ?_
    split
    next empty => rw [if_neg (by simp [empty])]
    next more =>
      obtain ⟨f,atF,-⟩ := left.run k left.nonempty.le (Nat.lt_succ_self k)
      have bound := (List.getElem?_eq_some_iff.mp atF).1
      have low := left.nonempty
      rw [if_pos ⟨subOk,by simp [more]⟩,left.index.1,left.index.2]
      exact (@subVma_frame kernel faults vma sub.subBatchBase sub.state start (k + 1) (by omega)
        bound).2.2.2

/-- What a call should report: as many faults as the entries it took. -/
def Reports (faults : List Fault) (page : PageSize) (first : Fault) (start bound : Nat)
    (initial final : State) : Prop :=
  ∃ count calls, 0 < count ∧ final.blockFaults = initial.blockFaults + count ∧
    final.calls = initial.calls ++ calls ∧ Consumed faults page first start count bound calls

theorem Taken.reports_iff {page : PageSize} {final : State} {count : Nat} {calls : List Call}
    (taken : Taken faults page policy vma first start bound initial final count calls)
    (atStart : faults[start]? = some first) :
    Reports faults page first start bound initial final ↔
      Clean faults first start bound policy vma := by
  constructor
  · rintro ⟨count',calls',positive,counted,called,consumed⟩
    obtain rfl : count = count' := by
      have := taken.counted
      omega
    obtain rfl := append_cancel_left (taken.called.symm.trans called)
    exact taken.clean (fun i f low high atI => (consumed.taken i f low high atI).2.1)
      (consumed.once start first le_rfl (by omega) atStart)
  · exact fun clean =>
      ⟨count,calls,taken.positive,taken.counted,taken.called,taken.consumed clean⟩

end Loop

section Ats

variable {policy : ReplayPolicy} {mm : AddressSpace} {first : Fault} {start outer : Nat}

/-- The entry has no VMA and was marked, as an invalid prefetch or as fatal. -/
def Cancelled (mm : AddressSpace) (final : State) (i : Nat) (f : Fault) : Prop :=
  mm.findVma f.faultAddress = none ∧
    ((final.ctx.marks i).isFatal = true ∨ (final.ctx.marks i).isInvalidPrefetch = true)

/-- Every entry the caller will skip was serviced once or cancelled. -/
structure Handled (faults : List Fault) (page : PageSize) (mm : AddressSpace) (first : Fault)
    (start count outer : Nat) (final : State) (calls : List Call) : Prop where
  inBatch : start + count ≤ faults.length
  within : ∀ call ∈ calls, start ≤ call.faultIndexStart ∧ call.faultIndexEnd ≤ start + count
  taken : ∀ i f, start ≤ i → i < start + count → faults[i]? = some f →
    f.vaSpace = first.vaSpace ∧ f.gpu = first.gpu ∧ f.faultAddress < outer ∧
      (ServicedOnce page calls i f ∨ Cancelled mm final i f)

theorem fatalNotify_cancelled (state : State) (index : Nat) (fault : Fault)
    (unmapped : mm.findVma fault.faultAddress = none) :
    Cancelled mm
      (serviceFaultBatchFatalNotify faults state index fault .invalidAddress .all) index fault := by
  refine ⟨unmapped,?_⟩
  simp only [serviceFaultBatchFatalNotify,serviceFaultBatchFatal]
  by_cases prefetch : fault.accessType = .prefetch
  · simp [prefetch]
  · simp [prefetch]

variable {i index : Nat}

theorem Handled.nothing (state : State) (inBatch : index ≤ faults.length) :
    Handled faults kernel.page mm first index 0 outer state [] :=
  ⟨inBatch,by simp,fun i f low high => by omega⟩

/-- After what one call consumed, it is up to the rest of the loop. -/
theorem Handled.consume_iff {count rest bound : Nat} {final : State} {calls later : List Call}
    (consumed : Consumed faults kernel.page first index count bound calls) (lower : bound ≤ outer)
    (lows : ∀ call ∈ later, index + count ≤ call.faultIndexStart) :
    Handled faults kernel.page mm first index (count + rest) outer final (calls ++ later) ↔
      Handled faults kernel.page mm first (index + count) rest outer final later := by
  have here {i : Nat} {f : Fault} (before : i < index + count) :=
    @servicedOnce_append i kernel.page f calls later fun call member =>
      before.trans_le (lows call member)
  have there {i : Nat} {f : Fault} (behind : ¬i < index + count) :=
    @servicedOnce_prepend i kernel.page f calls later fun call member =>
      (consumed.within call member).2.trans (not_lt.mp behind)
  constructor
  · intro handled
    refine ⟨by have := handled.inBatch; omega,fun call member => ⟨lows call member,?_⟩,
      fun i f low high atI => ?_⟩
    · have := handled.within call (mem_append_right _ member)
      omega
    · obtain ⟨space,gpu,below,done⟩ := handled.taken i f (by omega) (by omega) atI
      exact ⟨space,gpu,below,done.imp_left (there (not_lt.mpr low)).mp⟩
  · intro handled
    refine ⟨by have := handled.inBatch; omega,fun call member => ?_,fun i f low high atI => ?_⟩
    · rcases mem_append.mp member with earlier | new
      · have := consumed.within call earlier
        omega
      · have := handled.within call new
        omega
    · by_cases before : i < index + count
      · obtain ⟨space,gpu,below⟩ := consumed.taken i f low before atI
        exact ⟨space,gpu,by omega,.inl ((here before).mpr (consumed.once i f low before atI))⟩
      · obtain ⟨space,gpu,below,done⟩ := handled.taken i f (by omega) (by omega) atI
        exact ⟨space,gpu,below,done.imp_left (there before).mpr⟩

/-- A turn of the loop that calls `service_fault_batch_ats_sub`. -/
structure Turn (faults : List Fault) (mm : AddressSpace) (start outer index : Nat) (current : Fault)
    (vma : Vma) : Prop where
  entry : faults[index]? = some current
  sameRun : otherRun faults start index current = false
  below : current.faultAddress < outer
  found : mm.findVma current.faultAddress = some vma

theorem Turn.unique {current other : Fault} {vma' : Vma}
    (turn : Turn faults mm start outer index current vma)
    (again : Turn faults mm start outer index other vma') : other = current ∧ vma' = vma := by
  cases turn.entry.symm.trans again.entry
  cases turn.found.symm.trans again.found
  exact ⟨rfl,rfl⟩

/-- The calls that the loop makes from an index and a state on. -/
inductive Calls (kernel : Kernel) (faults : List Fault) (mm : AddressSpace) (policy : ReplayPolicy)
    (start outer : Nat) : Nat → State → Nat → Fault → Vma → Prop
  | now {index : Nat} {state : State} {current : Fault} {vma : Vma} :
    Turn faults mm start outer index current vma →
    Calls kernel faults mm policy start outer index state index current vma
  | later {index j : Nat} {state done : State} {current next : Fault} {vma vma' : Vma} :
    Turn faults mm start outer index current vma →
    serviceFaultBatchAtsSub kernel faults policy vma index current outer state = (.ok,done) →
    Calls kernel faults mm policy start outer (index + (done.blockFaults - state.blockFaults)) done j
      next vma' →
    Calls kernel faults mm policy start outer index state j next vma'

/-- Every call of the loop is clean. -/
def CleanCalls (kernel : Kernel) (faults : List Fault) (mm : AddressSpace) (policy : ReplayPolicy)
    (start outer index : Nat) (state : State) : Prop :=
  ∀ j current vma, Calls kernel faults mm policy start outer index state j current vma →
    Clean faults current j (min outer vma.vmEnd) policy vma

theorem CleanCalls.none {state : State}
    (stops : ∀ current vma, ¬Turn faults mm start outer index current vma) :
    CleanCalls kernel faults mm policy start outer index state := by
  rintro j current vma (turn | ⟨turn,-,-⟩)
  · exact absurd turn (stops _ _)
  · exact absurd turn (stops _ _)

theorem cleanCalls_iff {state done : State} {current : Fault}
    (turn : Turn faults mm start outer index current vma)
    (ok : serviceFaultBatchAtsSub kernel faults policy vma index current outer state = (.ok,done)) :
    CleanCalls kernel faults mm policy start outer index state ↔
      Clean faults current index (min outer vma.vmEnd) policy vma ∧
        CleanCalls kernel faults mm policy start outer
          (index + (done.blockFaults - state.blockFaults)) done := by
  constructor
  · exact fun clean => ⟨clean _ _ _ (.now turn),fun j next vma' call =>
      clean j next vma' (.later turn ok call)⟩
  · rintro ⟨here,rest⟩ j next vma' (again | ⟨again,ok',call⟩)
    · obtain ⟨rfl,rfl⟩ := turn.unique again
      exact here
    · obtain ⟨rfl,rfl⟩ := turn.unique again
      cases ok.symm.trans ok'
      exact rest j next vma' call

/-- An entry that does not start another run is one of the VA space and GPU of the first. -/
theorem Run.same {current : Fault} (run : Run faults first start outer index)
    (one : OneGpu faults first start index) (atStart : faults[start]? = some first)
    (low : start ≤ index) (atIndex : faults[index]? = some current)
    (sameRun : otherRun faults start index current = false) :
    current.vaSpace = first.vaSpace ∧ current.gpu = first.gpu := by
  rcases low.eq_or_lt with rfl | after
  · cases atStart.symm.trans atIndex
    exact ⟨rfl,rfl⟩
  · obtain ⟨previous,atPrevious,space,-⟩ := run (index - 1) (by omega) (by omega)
    have gpu := one _ previous (by omega) (by omega) atPrevious
    simp only [otherRun,after,↓reduceIte,atPrevious,Option.any_some,decide_eq_false_iff_not,not_or,
      not_not] at sameRun
    exact ⟨sameRun.1.symm.trans space,sameRun.2.symm.trans gpu⟩

/-- What a successful run of the loop has added, and when that is handled. -/
def Added (kernel : Kernel) (faults : List Fault) (mm : AddressSpace) (policy : ReplayPolicy)
    (first : Fault) (start outer index : Nat) (state final : State) : Prop :=
  ∃ count calls, final.blockFaults = state.blockFaults + count ∧
    final.calls = state.calls ++ calls ∧ (∀ call ∈ calls, index ≤ call.faultIndexStart) ∧
    (start ≤ index → index ≤ faults.length → Run faults first start outer index →
      OneGpu faults first start index →
      (Handled faults kernel.page mm first index count outer final calls ↔
        CleanCalls kernel faults mm policy start outer index state))

section

variable {current : Fault} {state done final : State} (atStart : faults[start]? = some first)

theorem Added.nothing (stops : ∀ current vma, ¬Turn faults mm start outer index current vma) :
    Added kernel faults mm policy first start outer index state state :=
  ⟨0,[],rfl,(append_nil _).symm,by simp,fun _ inBatch _ _ =>
    iff_of_true (.nothing state inBatch) (.none stops)⟩

include atStart

theorem Added.cancelled (atIndex : faults[index]? = some current)
    (sameRun : otherRun faults start index current = false) (below : current.faultAddress < outer)
    (unmapped : mm.findVma current.faultAddress = none) :
    Added kernel faults mm policy first start outer index state
      (serviceFaultBatchFatalNotify faults state index current .invalidAddress .all) := by
  refine ⟨1,[],rfl,(append_nil _).symm,by simp,fun low _ run one => iff_of_true ?_ (.none ?_)⟩
  · have same := run.same one atStart low atIndex sameRun
    refine ⟨(List.getElem?_eq_some_iff.mp atIndex).1,by simp,fun i f lowI high atI => ?_⟩
    obtain rfl : i = index := by omega
    cases atIndex.symm.trans atI
    exact ⟨same.1,same.2,below,.inr (fatalNotify_cancelled state i current unmapped)⟩
  · intro other vma turn
    cases turn.entry.symm.trans atIndex
    exact nomatch turn.found.symm.trans unmapped

/-- One call and the rest of the loop. -/
theorem Added.call (turn : Turn faults mm start outer index current vma)
    (ok : serviceFaultBatchAtsSub kernel faults policy vma index current outer state = (.ok,done))
    {count : Nat} {calls : List Call}
    (taken : Taken faults kernel.page policy vma current index (min outer vma.vmEnd) state done count
      calls)
    (rest : Added kernel faults mm policy first start outer (index + count) done final) :
    Added kernel faults mm policy first start outer index state final := by
  have positive := taken.positive
  have cleans := cleanCalls_iff turn ok
  rw [taken.counted,Nat.add_sub_cancel_left] at cleans
  obtain ⟨more,later,counted,called,lows,handles⟩ := rest
  refine ⟨count + more,calls ++ later,by have := taken.counted; omega,
    by rw [called,taken.called,append_assoc],fun call member => ?_,fun low _ run one => ?_⟩
  · rcases mem_append.mp member with earlier | new
    · exact taken.low call earlier
    · have := lows call new
      omega
  have same := run.same one atStart low turn.entry turn.sameRun
  have goesOn (clean : Clean faults current index (min outer vma.vmEnd) policy vma) :
      Handled faults kernel.page mm first index (count + more) outer final (calls ++ later) ↔
        CleanCalls kernel faults mm policy start outer (index + count) done := by
    have consumed := taken.consumed clean
    have taken' (i : Nat) (f : Fault) (lowI : index ≤ i) (high : i < index + count)
        (atI : faults[i]? = some f) : f.vaSpace = first.vaSpace ∧ f.gpu = first.gpu ∧
          f.faultAddress < min outer vma.vmEnd := by
      obtain ⟨space,gpu,bound⟩ := consumed.taken i f lowI high atI
      exact ⟨space.trans same.1,gpu.trans same.2,bound⟩
    have total := consumed.inBatch
    refine (Handled.consume_iff { consumed with taken := taken' } (Nat.min_le_left _ _) lows).trans
      (handles (by omega) total (fun i lowI high => ?_) fun i f lowI high atI => ?_)
    · by_cases before : i < index
      · exact run i lowI before
      · have atI := getElem?_eq_getElem (show i < faults.length by omega)
        have := taken' i _ (by omega) high atI
        exact ⟨_,atI,this.1,by omega⟩
    · by_cases before : i < index
      · exact one i f lowI before atI
      · exact (taken' i f (by omega) high atI).2.1
  rw [cleans]
  constructor
  · intro handled
    have clean := taken.clean (fun i f lowI high atI => (handled.taken i f lowI (by omega)
        atI).2.1.trans same.2.symm) (by
      obtain ⟨-,-,-,once | cancelled⟩ := handled.taken index current le_rfl (by omega) turn.entry
      · refine (servicedOnce_append fun call member => ?_).mp once
        have := lows call member
        omega
      · exact nomatch cancelled.1.symm.trans turn.found)
    exact ⟨clean,(goesOn clean).mp handled⟩
  · exact fun ⟨clean,cleanRest⟩ => (goesOn clean).mpr cleanRest

/-- The loop of `service_fault_batch_ats` ends. -/
theorem atsLoop_spec (sorted : Sorted faults) (fuel index : Nat)
    (enough : faults.length < index + fuel) (running : 0 < fuel) (state : State) :
    ∃ status final, atsLoop kernel faults mm policy start outer fuel index state =
        some (status,final) ∧
      (status = .ok →
        Added kernel faults mm policy first start outer index state final) := by
  induction fuel generalizing index state with
  | zero => omega
  | succ fuel ih =>
    simp only [atsLoop]
    split
    next atEnd =>
      exact ⟨_,_,rfl,fun _ => .nothing fun _ _ turn => nomatch turn.entry.symm.trans atEnd⟩
    next current atIndex =>
      have entry {other : Fault} {vma : Vma} (turn : Turn faults mm start outer index other vma) :
          other = current := Option.some_inj.mp (turn.entry.symm.trans atIndex)
      split
      next otherRun =>
        refine ⟨_,_,rfl,fun _ => .nothing fun other vma turn => ?_⟩
        exact nomatch (entry turn ▸ turn.sameRun).symm.trans otherRun
      next sameRun =>
        split
        next above =>
          refine ⟨_,_,rfl,fun _ => .nothing fun other vma turn => ?_⟩
          exact absurd (entry turn ▸ turn.below) (not_lt.mpr above)
        next below =>
          split
          next unmapped =>
            exact ⟨_,_,rfl,fun _ => .cancelled atStart atIndex (Bool.eq_false_iff.mpr sameRun)
              (not_le.mp below) unmapped⟩
          next vma found =>
            split
            next ok =>
              obtain ⟨count,calls,taken⟩ := sub_taken sorted atIndex (mm.contains _ _ found).2
                (not_le.mp below) ok
              have inBatch := (List.getElem?_eq_some_iff.mp atIndex).1
              have positive := taken.positive
              rw [taken.counted,Nat.add_sub_cancel_left]
              obtain ⟨status,final,result,rest⟩ := ih (index + count) (by omega) (by omega)
                (serviceFaultBatchAtsSub kernel faults policy vma index current outer state).2
              exact ⟨status,final,result,fun statusOk => .call atStart
                ⟨atIndex,Bool.eq_false_iff.mpr sameRun,not_le.mp below,found⟩ (Prod.ext ok rfl)
                taken (rest statusOk)⟩
            next failed => exact ⟨_,_,rfl,fun ok => absurd ok failed⟩

end

end Ats

/-- A successful `service_fault_batch_ats_sub` reports exactly the entries it took, just if the
entries it gets to are clean. So `service_fault_batch_ats`, which always ends, reports only entries
it serviced or cancelled, just if each of its calls is clean. -/
theorem ats_faults_consumed (kernel : Kernel) (faults : List Fault) (policy : ReplayPolicy)
    (sorted : Sorted faults) (start outer : Nat) (first : Fault)
    (atStart : faults[start]? = some first) (below : first.faultAddress < outer) (state : State) :
    (∀ vma : Vma, vma.vmStart ≤ first.faultAddress → first.faultAddress < vma.vmEnd →
      (serviceFaultBatchAtsSub kernel faults policy vma start first outer state).1 = .ok →
      (Reports faults kernel.page first start (min outer vma.vmEnd) state
          (serviceFaultBatchAtsSub kernel faults policy vma start first outer state).2 ↔
        Clean faults first start (min outer vma.vmEnd) policy vma)) ∧
    (∀ mm : AddressSpace, ∃ status final,
      serviceFaultBatchAts kernel faults mm policy start outer state = some (status,final) ∧
      (status = .ok → ∃ count calls, final.blockFaults = state.blockFaults + count ∧
        final.calls = state.calls ++ calls ∧
        (Handled faults kernel.page mm first start count outer final calls ↔
          CleanCalls kernel faults mm policy start outer start state))) := by
  constructor
  · intro vma _ contained ok
    obtain ⟨count,calls,taken⟩ := sub_taken sorted atStart contained below ok
    exact taken.reports_iff atStart
  · intro mm
    have inBatch := (List.getElem?_eq_some_iff.mp atStart).1
    obtain ⟨status,final,result,adds⟩ := @atsLoop_spec kernel faults policy mm first start outer
      atStart sorted (faults.length + 1) start (by omega) (Nat.succ_pos _) state
    refine ⟨status,final,result,fun ok => ?_⟩
    obtain ⟨count,calls,counted,called,-,handles⟩ := adds ok
    exact ⟨count,calls,counted,called,handles le_rfl inBatch.le
      (fun i low high => absurd high (not_lt.mpr low))
      (fun i f low high => absurd high (not_lt.mpr low))⟩

def sampleKernel : Kernel where
  page := ⟨2 ^ 16,by decide,by decide⟩
  request _ _ _ _ := .ok
  prefetch _ _ _ := ∅

theorem sample_user : 2 ^ 30 ≤ 2 ^ 63 := by decide

def sampleVma : Vma := ⟨0,2 ^ 30,true,true,sample_user⟩

theorem read_highest : maskHighest {.read} = some .read := rfl

def sampleRead (gpu address : Nat) : Fault := ⟨1,gpu,address,.read,{.read},1,0,read_highest⟩

def sampleState : State := ⟨.start,.zero,0,[],[]⟩

def twoBlocks : List Fault := [sampleRead 1 0,sampleRead 1 (2 ^ 21)]

theorem ats_faults_consumed_two_blocks :
    Reports twoBlocks sampleKernel.page (sampleRead 1 0) 0 (min (2 ^ 40) (2 ^ 30)) sampleState
      (serviceFaultBatchAtsSub sampleKernel twoBlocks .batch sampleVma 0 (sampleRead 1 0) (2 ^ 40)
        sampleState).2 :=
  ((ats_faults_consumed sampleKernel twoBlocks .batch (by decide) 0 (2 ^ 40) (sampleRead 1 0) rfl
    (by decide) sampleState).1 sampleVma (by decide) (by decide) (by decide +kernel)).mpr
    { oneGpu := fun _ _ _ i f _ _ atI => by
        have member := mem_of_getElem? atI
        simp only [twoBlocks,mem_cons,not_mem_nil,or_false] at member
        rcases member with rfl | rfl <;> rfl
      drained := by simp }

/-- With replays per block the sub-batch that ends the loop is serviced and counted twice,
the second time with the first entry of the next block. Entries of the next GPU in the same
VA space are taken too, with page indices outside the block. -/
theorem ats_sub_overruns :
    (let done := serviceFaultBatchAtsSub sampleKernel twoBlocks .block sampleVma 0 (sampleRead 1 0)
      (2 ^ 40) sampleState
     Sorted twoBlocks ∧ done.1 = .ok ∧ done.2.calls = [⟨0,0,1⟩,⟨0,0,2⟩] ∧
      done.2.blockFaults = 3) ∧
    (let done := serviceFaultBatchAtsSub sampleKernel [sampleRead 1 (2 ^ 21),sampleRead 2 0] .batch
      sampleVma 0 (sampleRead 1 (2 ^ 21)) (2 ^ 40) sampleState
     Sorted [sampleRead 1 (2 ^ 21),sampleRead 2 0] ∧ done.1 = .ok ∧
      done.2.calls = [⟨2 ^ 21,0,2⟩] ∧
      sampleKernel.page.pagesPerBlock ≤ sampleKernel.page.index (2 ^ 21) 0) := by
  decide +kernel

end GpuExt.AtsFaults
