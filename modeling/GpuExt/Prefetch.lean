import GpuExt.Transition
import GpuExt.Word

/-! The prefetch region of a fault under an untrusted policy. The policy answers with raw
actions and 64-bit region requests; whatever it answers, the region that the driver goes on
with lies inside the largest one allowed. -/
namespace GpuExt.Prefetch

open Transition

structure Region where
  first : NvU16
  outer : NvU16
  deriving DecidableEq, Repr

structure WideRegion where
  first : NvU64
  outer : NvU64
  deriving DecidableEq, Repr

/-! The validator. -/

structure Decision where
  attempted : Bool
  conflict : Bool
  first : NvU64
  outer : NvU64
  deriving DecidableEq, Repr

def Decision.zero : Decision := ⟨false,false,0,0⟩

section

variable (decision : Decision) (rawAction : Int) (regionResult : Result)

def recordPrefetch (first outer : NvU64) : Result × Decision :=
  if !decision.attempted then (.apply,{ decision with attempted := true, first, outer })
  else if decision.conflict then (.noopConflict,decision)
  else if decision.first = first ∧ decision.outer = outer then (.noopRepeat,decision)
  else (.noopConflict,{ decision with conflict := true })

def actionEnterLoop : Int := 2

inductive InitialEffect where
  | native
  | bypass
  | iterate
  deriving DecidableEq, Repr

inductive IteratorEffect where
  | ignore
  | commit
  deriving DecidableEq, Repr

def validateInitialAction : Result × Int :=
  if rawAction < actionDefault ∨ rawAction > actionEnterLoop then (.rejectAction,actionDefault)
  else (.apply,rawAction)

def validateIteratorAction : Result × Int :=
  if rawAction ≠ actionDefault ∧ rawAction ≠ actionBypass then (.rejectAction,actionDefault)
  else (.apply,rawAction)

def prefetchInitialEffect : InitialEffect :=
  let (result,action) := validateInitialAction rawAction
  if result ≠ .apply then .native
  else if action = actionEnterLoop then .iterate
  else if action = actionBypass ∧ regionResult = .apply then .bypass
  else .native

def prefetchIteratorEffect : IteratorEffect :=
  let (result,action) := validateIteratorAction rawAction
  if result ≠ .apply then .ignore
  else if action = actionBypass ∧ regionResult = .apply then .commit
  else .ignore

def validateRegion (maxFirst maxOuter blockOuter typeOuter : NvU64) : Result × WideRegion :=
  if decision.conflict then (.noopConflict,⟨0,0⟩)
  else if !decision.attempted then (.noopDefault,⟨0,0⟩)
  else if decision.first = 0 ∧ decision.outer = 0 then (.apply,⟨0,0⟩)
  else if maxFirst > maxOuter ∨ maxOuter > blockOuter ∨ maxOuter > typeOuter then
    (.rejectRange,⟨0,0⟩)
  else if decision.first ≥ decision.outer ∨ decision.first < maxFirst ∨ decision.outer > maxOuter ∨
      decision.first > blockOuter ∨ decision.outer > blockOuter ∨ decision.first > typeOuter ∨
      decision.outer > typeOuter then (.rejectRange,⟨0,0⟩)
  else (.apply,⟨decision.first,decision.outer⟩)

end

def translateEndpoint (maxFirst relative treeOffset maxOuter blockOuter typeOuter : NvU64) :
    Result × NvU64 :=
  -- `~0 - max_first`
  if relative > ~~~maxFirst then (.rejectRange,0)
  else
    let widened := maxFirst + relative
    if widened < treeOffset then (.rejectRange,0)
    else
      let widened := widened - treeOffset
      if widened < maxFirst ∨ widened > maxOuter ∨ widened > blockOuter ∨ widened > typeOuter then
        (.rejectRange,0)
      else (.apply,widened)

/-- The outcome of `nv_gpu_transition_translate_region` from those of its two endpoints. -/
def joinEndpoints : Result × NvU64 → Result × NvU64 → Result × WideRegion
  | (.apply,first),(.apply,outer) =>
    if first ≥ outer then (.rejectRange,⟨0,0⟩) else (.apply,⟨first,outer⟩)
  | (.apply,_),(result,outer) => (result,⟨0,outer⟩)
  | (result,first),_ => (result,⟨first,0⟩)

def translateRegion (maxFirst relativeFirst relativeOuter treeOffset maxOuter blockOuter
    typeOuter : NvU64) : Result × WideRegion :=
  joinEndpoints
    (translateEndpoint maxFirst relativeFirst treeOffset maxOuter blockOuter typeOuter)
    (translateEndpoint maxFirst relativeOuter treeOffset maxOuter blockOuter typeOuter)

/-! The bitmap tree. -/

/-- `pages` is the bitmap; its first `leafCount` bits are the leaves. -/
structure BitmapTree where
  pages : Nat → Bool
  offset : NvU16
  leafCount : NvU16
  levelCount : Nat

variable (tree : BitmapTree) (levelIdx : Nat) (nodeIdx : NvU16)

def iterMaxLeaves : NvU16 := 1 <<< (tree.levelCount - 1 - levelIdx)

def iterLeafRangeStart : NvU16 := Word.alignDown nodeIdx (iterMaxLeaves tree levelIdx)

def iterLeafRange : NvU16 :=
  let start := iterLeafRangeStart tree levelIdx nodeIdx
  let endMax := start + iterMaxLeaves tree levelIdx
  (if endMax < tree.leafCount then endMax else tree.leafCount) - start

def iterGetRange : Region :=
  let start := iterLeafRangeStart tree levelIdx nodeIdx
  ⟨start,start + iterLeafRange tree levelIdx nodeIdx⟩

def regionWeight (pages : Nat → Bool) (region : Region) : BitVec 32 :=
  let weight (n : NvU16) := BitVec.ofNat 32 ((List.range n.toNat).countP pages)
  weight region.outer - weight region.first

def iterGetCount : NvU16 := (regionWeight tree.pages (iterGetRange tree levelIdx nodeIdx)).setWidth 16

/-! The policy and the driver. -/

/-- What one call of the policy returns and the requests that it records on the way. -/
structure Callback where
  action : Int
  requests : List (NvU64 × NvU64)
  deriving DecidableEq, Repr

/-- No policy is loaded, or it lacks the callback. -/
def Callback.absent : Callback := ⟨actionDefault,[]⟩

def Callback.decision (callback : Callback) : Decision :=
  callback.requests.foldl (fun decision request => (recordPrefetch decision request.1 request.2).2)
    .zero

def pagesPerVaBlock : NvU64 := 512
def typeOuter : NvU64 := 65535

/-- The region of the driver and, for reasoning only, the validated one that it was taken
from. -/
structure Outcome where
  region : Region
  validated : WideRegion
  deriving DecidableEq, Repr

def Outcome.empty : Outcome := ⟨⟨0,0⟩,⟨0,0⟩⟩

def commit (validated : WideRegion) : Outcome :=
  ⟨⟨validated.first.setWidth 16,validated.outer.setWidth 16⟩,validated⟩

variable (maxRegion : Region)

def validate (callback : Callback) : Result × WideRegion :=
  validateRegion callback.decision (maxRegion.first.setWidth 64) (maxRegion.outer.setWidth 64)
    pagesPerVaBlock typeOuter

def translate (relative : Region) : Result × WideRegion :=
  translateRegion (maxRegion.first.setWidth 64) (relative.first.setWidth 64)
    (relative.outer.setWidth 64) (tree.offset.setWidth 64) (maxRegion.outer.setWidth 64)
    pagesPerVaBlock typeOuter

/-- The remaining levels of the loop that asks the policy, from `levels - 1` up to the root.
The policy may answer differently at each level. -/
def iterateLevels (iterator : Nat → Callback) (leaf : NvU16) : Nat → Outcome → Outcome
  | 0,outcome => outcome
  | levels + 1,outcome =>
    let relative := iterGetRange tree levels leaf
    let next :=
      if (translate tree maxRegion relative).1 ≠ .apply then outcome
      else
        let callback := iterator levels
        let (result,validated) := validate maxRegion callback
        match prefetchIteratorEffect callback.action result with
        | .commit => commit validated
        | .ignore => outcome
    iterateLevels iterator leaf levels next

/-- The remaining levels of the native loop. -/
def nativeLevels (threshold : Nat) (leaf : NvU16) : Nat → Region → Region
  | 0,relative => relative
  | levels + 1,relative =>
    let subregion := iterGetRange tree levels leaf
    let subregionPages := subregion.outer - subregion.first
    let counter := iterGetCount tree levels leaf
    nativeLevels threshold leaf levels
      (if counter.toNat * 100 > subregionPages.toNat * threshold then subregion else relative)

def computePrefetchRegion (threshold : Nat) (initial : Callback) (iterator : Nat → Callback)
    (pageIndex : NvU16) : Outcome :=
  let leaf := pageIndex - maxRegion.first + tree.offset
  let (result,validated) := validate maxRegion initial
  match prefetchInitialEffect initial.action result with
  | .bypass => commit validated
  | .iterate => iterateLevels tree maxRegion iterator leaf tree.levelCount .empty
  | .native =>
    let relative := nativeLevels tree threshold leaf tree.levelCount ⟨0,0⟩
    if relative.outer ≠ 0 then
      let (result,validated) := translate tree maxRegion relative
      if result = .apply then commit validated else .empty
    else .empty

/-! Containment. -/

/-- A validated region: empty, or inside the largest one allowed. -/
def Bounded (maxRegion : Region) (wide : WideRegion) : Prop :=
  wide = ⟨0,0⟩ ∨ wide.first < wide.outer ∧ maxRegion.first.toNat ≤ wide.first.toNat ∧
    wide.outer.toNat ≤ maxRegion.outer.toNat

/-- The driver's region is a bounded one that was validated as it stands. -/
structure Contained (maxRegion : Region) (outcome : Outcome) : Prop where
  bounded : Bounded maxRegion outcome.validated
  first : outcome.region.first.toNat = outcome.validated.first.toNat
  outer : outcome.region.outer.toNat = outcome.validated.outer.toNat

variable {tree maxRegion} {outcome : Outcome} {wide : WideRegion}

theorem setWidth_toNat (index : NvU16) : (index.setWidth 64).toNat = index.toNat := by
  simp only [BitVec.toNat_setWidth]
  omega

theorem contained_empty : Contained maxRegion .empty := ⟨.inl rfl,rfl,rfl⟩

/-- Endpoints inside the largest region fit into 16 bits. -/
theorem contained_commit (bounded : Bounded maxRegion wide) : Contained maxRegion (commit wide) := by
  refine ⟨bounded,?_,?_⟩ <;> simp only [commit,BitVec.toNat_setWidth]
  · rcases bounded with rfl | ⟨order,_,high⟩
    · rfl
    · rw [BitVec.lt_def] at order
      omega
  · rcases bounded with rfl | ⟨_,_,high⟩
    · rfl
    · omega

variable {callback : Callback} {action : Int} {result : Result}

theorem validate_bounded (apply : (validate maxRegion callback).1 = .apply) :
    Bounded maxRegion (validate maxRegion callback).2 := by
  revert apply
  unfold validate validateRegion
  split
  · exact nofun
  split
  · exact nofun
  split
  · exact fun _ => .inl rfl
  split
  · exact nofun
  split
  · exact nofun
  next inside =>
    simp only [not_or,BitVec.not_le,BitVec.not_lt] at inside
    obtain ⟨order,low,high,_⟩ := inside
    exact fun _ => .inr ⟨order,low,high⟩

theorem translateEndpoint_bounded {relative treeOffset endpoint : NvU64}
    (run : translateEndpoint (maxRegion.first.setWidth 64) relative treeOffset
      (maxRegion.outer.setWidth 64) pagesPerVaBlock typeOuter = (.apply,endpoint)) :
    maxRegion.first.toNat ≤ endpoint.toNat ∧ endpoint.toNat ≤ maxRegion.outer.toNat := by
  unfold translateEndpoint at run
  dsimp only at run
  split at run
  · cases run
  split at run
  · cases run
  split at run
  · cases run
  next inside =>
    cases run
    simp only [not_or,BitVec.not_lt] at inside
    obtain ⟨low,high,_⟩ := inside
    exact ⟨low,high⟩

theorem joinEndpoints_apply {lower upper : Result × NvU64}
    (run : joinEndpoints lower upper = (.apply,wide)) :
    lower = (.apply,wide.first) ∧ upper = (.apply,wide.outer) ∧ wide.first < wide.outer := by
  unfold joinEndpoints at run
  split at run
  next first outer =>
    split at run
    next => cases run
    next order =>
      cases run
      exact ⟨rfl,rfl,BitVec.not_le.mp order⟩
  next failed =>
    cases run
    exact absurd rfl failed
  next failed =>
    cases run
    exact absurd rfl (failed _ _ rfl)

theorem translate_bounded {relative : Region}
    (run : translate tree maxRegion relative = (.apply,wide)) : Bounded maxRegion wide := by
  obtain ⟨lower,upper,order⟩ := joinEndpoints_apply run
  exact .inr ⟨order,(translateEndpoint_bounded lower).1,(translateEndpoint_bounded upper).2⟩

theorem prefetchIteratorEffect_commit (effect : prefetchIteratorEffect action result = .commit) :
    result = .apply := by
  unfold prefetchIteratorEffect at effect
  dsimp only at effect
  split_ifs at effect with _ both
  exact both.2

theorem prefetchInitialEffect_bypass (effect : prefetchInitialEffect action result = .bypass) :
    result = .apply := by
  unfold prefetchInitialEffect at effect
  dsimp only at effect
  split_ifs at effect with _ _ both
  exact both.2

theorem iterateLevels_contained (iterator : Nat → Callback) (leaf : NvU16) (levels : Nat)
    (contained : Contained maxRegion outcome) :
    Contained maxRegion (iterateLevels tree maxRegion iterator leaf levels outcome) := by
  -- Each level keeps the region of the levels below or commits a validated one.
  induction levels generalizing outcome with
  | zero => exact contained
  | succ levels ih =>
    refine ih ?_
    split
    · exact contained
    dsimp only
    split
    next effect =>
      exact contained_commit (validate_bounded (prefetchIteratorEffect_commit effect))
    next => exact contained

theorem computePrefetchRegion_contained (threshold : Nat) (initial : Callback)
    (iterator : Nat → Callback) (pageIndex : NvU16) :
    Contained maxRegion (computePrefetchRegion tree maxRegion threshold initial iterator pageIndex) := by
  unfold computePrefetchRegion
  dsimp only
  split
  next effect => exact contained_commit (validate_bounded (prefetchInitialEffect_bypass effect))
  next => exact iterateLevels_contained iterator _ _ contained_empty
  next =>
    split
    · split
      next apply => exact contained_commit (translate_bounded (Prod.ext apply rfl))
      next => exact contained_empty
    · exact contained_empty

/-! Policies that the driver refuses. -/

/-- The first request counts; any other one is a conflict. -/
theorem record_rest (first outer : NvU64) (conflict : Bool) (requests : List (NvU64 × NvU64)) :
    requests.foldl (fun decision request => (recordPrefetch decision request.1 request.2).2)
        ⟨true,conflict,first,outer⟩ =
      ⟨true,conflict || requests.any fun request => request ≠ (first,outer),first,outer⟩ := by
  induction requests generalizing conflict with
  | nil => simp
  | cons request requests ih =>
    have step : (recordPrefetch ⟨true,conflict,first,outer⟩ request.1 request.2).2 =
        ⟨true,conflict || (request ≠ (first,outer) : Bool),first,outer⟩ := by
      obtain ⟨nextFirst,nextOuter⟩ := request
      cases conflict with
      | true => simp [recordPrefetch]
      | false =>
        by_cases same : first = nextFirst ∧ outer = nextOuter
        · simp [recordPrefetch,same]
        · have different : ¬(nextFirst = first ∧ nextOuter = outer) := fun equal =>
            same ⟨equal.1.symm,equal.2.symm⟩
          simp [recordPrefetch,same,different]
    rw [List.foldl_cons,step,ih,List.any_cons,Bool.or_assoc]

theorem decision_cons (action : Int) (request : NvU64 × NvU64) (requests : List (NvU64 × NvU64)) :
    (Callback.mk action (request :: requests)).decision =
      ⟨true,requests.any fun other => other ≠ request,request.1,request.2⟩ := by
  have rest := record_rest request.1 request.2 false requests
  exact rest

/-- A request for a region that is not empty and not inside the largest one. -/
def Leaves (maxRegion : Region) (request : NvU64 × NvU64) : Prop :=
  request ≠ (0,0) ∧ ¬(request.1 < request.2 ∧ maxRegion.first.toNat ≤ request.1.toNat ∧
    request.2.toNat ≤ maxRegion.outer.toNat)

/-- The action is out of range, or the loop is not entered and the requests conflict or
leave the region. -/
def Refused (maxRegion : Region) (callback : Callback) : Prop :=
  callback.action < actionDefault ∨ actionEnterLoop < callback.action ∨
    callback.action ≠ actionEnterLoop ∧
      ((∃ a ∈ callback.requests, ∃ b ∈ callback.requests, a ≠ b) ∨
        ∃ request ∈ callback.requests, Leaves maxRegion request)

theorem validate_refused (bad : (∃ a ∈ callback.requests, ∃ b ∈ callback.requests, a ≠ b) ∨
      ∃ request ∈ callback.requests, Leaves maxRegion request) :
    (validate maxRegion callback).1 ≠ .apply := by
  obtain ⟨action,requests⟩ := callback
  cases requests with
  | nil => simp at bad
  | cons request requests =>
    unfold validate
    rw [decision_cons]
    by_cases conflict : requests.any fun other => other ≠ request
    · rw [conflict]
      exact nofun
    -- All requests are the same, so the one that leaves the region is the recorded one.
    rw [Bool.not_eq_true] at conflict
    have same (other : NvU64 × NvU64) (member : other ∈ request :: requests) : other = request := by
      rcases List.mem_cons.mp member with here | there
      · exact here
      · simpa using List.any_eq_false.mp conflict other there
    have leaves : Leaves maxRegion request := by
      rcases bad with ⟨a,inA,b,inB,different⟩ | ⟨other,member,leaves⟩
      · exact absurd ((same a inA).trans (same b inB).symm) different
      · exact same other member ▸ leaves
    rw [conflict]
    intro apply
    obtain ⟨nonzero,outside⟩ := leaves
    unfold validateRegion at apply
    simp only [Bool.false_eq_true,if_false,Bool.not_true] at apply
    split at apply
    next zero => exact nonzero (Prod.ext zero.1 zero.2)
    split at apply
    · cases apply
    split at apply
    · cases apply
    next inside =>
      simp only [not_or,BitVec.not_le,BitVec.not_lt] at inside
      obtain ⟨order,low,high,_⟩ := inside
      exact outside ⟨order,low,high⟩

theorem refused_native (refused : Refused maxRegion callback) :
    prefetchInitialEffect callback.action (validate maxRegion callback).1 = .native := by
  unfold prefetchInitialEffect validateInitialAction
  rcases refused with low | high | ⟨notLoop,bad⟩
  · simp [low]
  · simp [high]
  · have rejected := validate_refused bad
    by_cases range : callback.action < actionDefault ∨ callback.action > actionEnterLoop
    · simp [range]
    · simp [range,notLoop,rejected]

theorem absent_native :
    prefetchInitialEffect Callback.absent.action (validate maxRegion .absent).1 = .native := rfl

/-- In range, and as validated. -/
structure Safe (maxRegion : Region) (outcome : Outcome) : Prop where
  inside : outcome.region = ⟨0,0⟩ ∨ outcome.region.first < outcome.region.outer ∧
    maxRegion.first ≤ outcome.region.first ∧ outcome.region.outer ≤ maxRegion.outer
  first : outcome.region.first.toNat = outcome.validated.first.toNat
  outer : outcome.region.outer.toNat = outcome.validated.outer.toNat

theorem Contained.safe (contained : Contained maxRegion outcome) : Safe maxRegion outcome := by
  obtain ⟨bounded,first,outer⟩ := contained
  refine ⟨?_,first,outer⟩
  rcases bounded with empty | ⟨order,low,high⟩
  · rw [empty] at first outer
    have zeroFirst : outcome.region.first = 0 := BitVec.eq_of_toNat_eq first
    have zeroOuter : outcome.region.outer = 0 := BitVec.eq_of_toNat_eq outer
    exact .inl (calc
      outcome.region = ⟨outcome.region.first,outcome.region.outer⟩ := rfl
      _ = ⟨0,0⟩ := by rw [zeroFirst,zeroOuter])
  · rw [BitVec.lt_def] at order
    rw [BitVec.lt_def,BitVec.le_def,BitVec.le_def]
    omega

theorem prefetch_safe (tree : BitmapTree) (maxRegion : Region) (threshold : Nat) (initial : Callback)
    (iterator : Nat → Callback) (pageIndex : NvU16) :
    Safe maxRegion (computePrefetchRegion tree maxRegion threshold initial iterator pageIndex) ∧
      (Refused maxRegion initial →
        computePrefetchRegion tree maxRegion threshold initial iterator pageIndex =
          computePrefetchRegion tree maxRegion threshold .absent (fun _ => .absent) pageIndex) := by
  refine ⟨(computePrefetchRegion_contained threshold initial iterator pageIndex).safe,fun refused => ?_⟩
  simp only [computePrefetchRegion,refused_native refused,absent_native]

/-- A block of four pages, two of them set. -/
def sampleTree : BitmapTree := ⟨fun page => page < 2,0,4,3⟩

/-- The policy bypasses with one request and records a second, different one. -/
theorem prefetch_safe_conflict :
    computePrefetchRegion sampleTree ⟨8,12⟩ 51 ⟨1,[(8,12),(8,9)]⟩ (fun _ => .absent) 9 =
      ⟨⟨8,10⟩,⟨8,10⟩⟩ := by
  have native := (prefetch_safe sampleTree ⟨8,12⟩ 51 ⟨1,[(8,12),(8,9)]⟩ (fun _ => .absent) 9).2
    (.inr (.inr ⟨by decide,.inl ⟨(8,12),by simp,(8,9),by simp,by decide⟩⟩))
  rw [native]
  decide

end GpuExt.Prefetch
