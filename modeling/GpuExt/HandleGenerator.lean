import Mathlib.Data.Nat.ModEq
import Mathlib.Tactic.Ring

/-! Handles for new resources of a client: a counter of 32 bits is reduced to the handle range until
it gives a handle that is free. -/
namespace GpuExt.HandleGenerator

open BitVec

abbrev NvHandle := BitVec 32

inductive Status where
  | ok
  | invalidObjectHandle
  | insertDuplicateName
  | insufficientResources
  deriving DecidableEq, Repr

structure Range where
  lo : NvHandle
  hi : NvHandle
  deriving DecidableEq, Repr

structure Client where
  hClient : NvHandle
  handleRangeStart : NvHandle
  handleRangeSize : NvHandle
  handleGenIdx : NvHandle
  handleRestrictRange : Range
  resourceMap : NvHandle → Bool

section

variable (client : Client) (handle : NvHandle)

def validateNewResourceHandle (hResource : NvHandle) (bRestrict : Bool) : Status :=
  let restrict := client.handleRestrictRange
  if client.hClient = hResource ∨ hResource = 0 then .invalidObjectHandle
  else if bRestrict ∧ ¬ restrict.lo > restrict.hi ∧ restrict.lo ≤ hResource ∧
      hResource ≤ restrict.hi then .invalidObjectHandle
  else if client.resourceMap hResource then .insertDuplicateName
  else .ok

/-- The handle for a value of the counter. -/
def probe (idx : NvHandle) : NvHandle :=
  client.handleRangeStart + idx % client.handleRangeSize

/-- What a call gives back, with the number of handles that it tried. -/
structure Generated where
  status : Status
  handle : Option NvHandle
  handleGenIdx : NvHandle
  probes : Nat
  deriving DecidableEq, Repr

/-- The loop from the second handle on, with a bound on the number of turns. -/
def genLoop (client : Client) (hFirst : NvHandle) : Nat → NvHandle → Nat → Option Generated
  | 0, _, _ => none
  | fuel + 1, idx, probes =>
    let hResource := probe client idx
    let status := validateNewResourceHandle client hResource false
    if hResource ≠ hFirst ∧ status ≠ .ok then genLoop client hFirst fuel (idx + 1) (probes + 1)
    else if status ≠ .ok then some ⟨.insufficientResources,none,idx + 1,probes + 1⟩
    else some ⟨.ok,some hResource,idx + 1,probes + 1⟩

def genResourceHandle (fuel : Nat) (client : Client) : Option Generated :=
  let hResource := probe client client.handleGenIdx
  if validateNewResourceHandle client hResource false = .ok then
    some ⟨.ok,some hResource,client.handleGenIdx + 1,1⟩
  else genLoop client hResource fuel (client.handleGenIdx + 1) 1

/-! The handles that are tried. -/

/-- A handle that a new resource can have. -/
structure Usable (client : Client) (handle : NvHandle) : Prop where
  nonzero : handle ≠ 0
  other : handle ≠ client.hClient
  unused : client.resourceMap handle = false

theorem usable_iff :
    validateNewResourceHandle client handle false = .ok ↔ Usable client handle := by
  unfold validateNewResourceHandle
  by_cases reserved : client.hClient = handle ∨ handle = 0
  · rw [if_pos reserved]
    refine ⟨nofun,fun usable => ?_⟩
    rcases reserved with same | zero
    · exact absurd same.symm usable.other
    · exact absurd zero usable.nonzero
  · rw [if_neg reserved]
    cases used : client.resourceMap handle with
    | true => exact ⟨nofun,fun usable => absurd (used.symm.trans usable.unused) nofun⟩
    | false => exact ⟨fun _ => ⟨fun zero => reserved (.inr zero),
        fun same => reserved (.inl same.symm),used⟩,fun _ => rfl⟩

/-- The handle range, which may go over the largest handle. -/
def InRange : Prop :=
  ∃ offset < client.handleRangeSize.toNat,handle = client.handleRangeStart + BitVec.ofNat 32 offset

/-- The counter gives every offset in turn: it does not wrap during the call, or the offsets go on
where it wraps. -/
def Steady : Prop :=
  client.handleRangeSize.toNat ∣ 2 ^ 32 ∨
    client.handleGenIdx.toNat + client.handleRangeSize.toNat < 2 ^ 32

instance : Decidable (Steady client) := inferInstanceAs (Decidable (_ ∨ _))

/-- The offset of the handle that is tried after `k` others. -/
def offset (k : Nat) : Nat :=
  (client.handleGenIdx.toNat + k) % 2 ^ 32 % client.handleRangeSize.toNat

/-- The handle that is tried after `k` others. -/
def tried (k : Nat) : NvHandle := probe client (client.handleGenIdx + BitVec.ofNat 32 k)

/-- The number of handles that are tried before the first one comes again. -/
def round : Nat :=
  if Steady client then client.handleRangeSize.toNat
  else 2 ^ 32 - client.handleGenIdx.toNat +
    client.handleGenIdx.toNat % client.handleRangeSize.toNat

end

variable {client : Client}

theorem offset_lt (positive : 0 < client.handleRangeSize.toNat) (k : Nat) :
    offset client k < client.handleRangeSize.toNat := Nat.mod_lt _ positive

theorem tried_eq (positive : 0 < client.handleRangeSize.toNat) (k : Nat) :
    tried client k = client.handleRangeStart + BitVec.ofNat 32 (offset client k) := by
  have inside := offset_lt positive k
  unfold tried probe
  congr 1
  apply eq_of_toNat_eq
  rw [toNat_ofNat,Nat.mod_eq_of_lt (by omega),toNat_umod,toNat_add,toNat_ofNat,Nat.add_mod_mod,
    offset]

theorem tried_inRange (positive : 0 < client.handleRangeSize.toNat) (k : Nat) :
    InRange client (tried client k) := ⟨_,offset_lt positive k,tried_eq positive k⟩

theorem handles_distinct {a b : Nat} (first : a < client.handleRangeSize.toNat)
    (second : b < client.handleRangeSize.toNat)
    (same : client.handleRangeStart + BitVec.ofNat 32 a =
      client.handleRangeStart + BitVec.ofNat 32 b) : a = b := by
  have equal := congrArg BitVec.toNat (BitVec.add_left_inj _ |>.mp
    ((BitVec.add_comm _ _).trans (same.trans (BitVec.add_comm _ _))))
  rw [toNat_ofNat,toNat_ofNat,Nat.mod_eq_of_lt (by omega),Nat.mod_eq_of_lt (by omega)] at equal
  exact equal

theorem tried_again (positive : 0 < client.handleRangeSize.toNat) {k : Nat} :
    tried client k = tried client 0 ↔ offset client k = offset client 0 := by
  rw [tried_eq positive,tried_eq positive]
  exact ⟨handles_distinct (offset_lt positive k) (offset_lt positive 0),fun same => by rw [same]⟩

/-- Fewer steps than there are handles do not lead back. -/
theorem mod_moved {a k n : Nat} (later : 0 < k) (bound : k < n) : (a + k) % n ≠ a % n := by
  intro same
  have congruent : k ≡ 0 [MOD n] := Nat.ModEq.add_left_cancel' a same
  exact absurd (Nat.le_of_dvd later (Nat.modEq_zero_iff_dvd.mp congruent)) (by omega)

/-- Every offset is reached in the first round. -/
theorem mod_reached (start : Nat) {a n : Nat} (inside : a < n) : ∃ k < n,(start + k) % n = a := by
  have below := Nat.mod_lt start (Nat.zero_lt_of_lt inside)
  by_cases after : start % n ≤ a
  · refine ⟨a - start % n,by omega,?_⟩
    rw [Nat.add_mod,Nat.mod_eq_of_lt (show a - _ < _ by omega),Nat.mod_eq_of_lt (by omega)]
    omega
  · refine ⟨a + n - start % n,by omega,?_⟩
    rw [Nat.add_mod,Nat.mod_eq_of_lt (show a + _ - _ < _ by omega),
      show start % n + (a + n - start % n) = a + n by omega,Nat.add_mod_right,
      Nat.mod_eq_of_lt inside]

theorem Steady.offset_eq (steady : Steady client) {k : Nat}
    (bound : k ≤ client.handleRangeSize.toNat) :
    offset client k = (client.handleGenIdx.toNat + k) % client.handleRangeSize.toNat := by
  unfold offset
  rcases steady with divides | straight
  · exact Nat.mod_mod_of_dvd _ divides
  · rw [Nat.mod_eq_of_lt (show client.handleGenIdx.toNat + k < 2 ^ 32 by omega)]

/-- The first handle comes again after `round` handles, and not before. -/
structure Returns (client : Client) (round : Nat) : Prop where
  positive : 0 < round
  again : tried client round = tried client 0
  before : ∀ i,0 < i → i < round → tried client i ≠ tried client 0

theorem round_returns (positive : 0 < client.handleRangeSize.toNat) :
    Returns client (round client) := by
  have start := client.handleGenIdx.isLt
  have size := client.handleRangeSize.isLt
  have first : offset client 0 = client.handleGenIdx.toNat % client.handleRangeSize.toNat := by
    rw [offset,Nat.add_zero,Nat.mod_eq_of_lt start]
  unfold round
  by_cases steady : Steady client
  · rw [if_pos steady]
    refine ⟨positive,(tried_again positive).mpr ?_,fun i later below => ?_⟩
    · rw [first,steady.offset_eq (Nat.le_refl _),Nat.add_mod_right]
    · rw [Ne,tried_again positive,first,steady.offset_eq (Nat.le_of_lt below)]
      exact mod_moved later below
  · -- Behind the wrap the offsets begin at zero.
    rw [if_neg steady]
    have wraps := mt Or.inr steady
    have rest := Nat.mod_lt client.handleGenIdx.toNat positive
    refine ⟨by omega,(tried_again positive).mpr ?_,fun i later below => ?_⟩
    · rw [first,offset,show client.handleGenIdx.toNat + (2 ^ 32 - client.handleGenIdx.toNat +
        client.handleGenIdx.toNat % client.handleRangeSize.toNat) =
        client.handleGenIdx.toNat % client.handleRangeSize.toNat + 2 ^ 32 by omega,
        Nat.add_mod_right,Nat.mod_eq_of_lt (rest.trans size),Nat.mod_mod]
    · rw [Ne,tried_again positive,first,offset]
      by_cases ahead : client.handleGenIdx.toNat + i < 2 ^ 32
      · rw [Nat.mod_eq_of_lt ahead]
        exact mod_moved later (by omega)
      · have behind : (client.handleGenIdx.toNat + i) % 2 ^ 32 =
            client.handleGenIdx.toNat + i - 2 ^ 32 := by omega
        rw [behind,Nat.mod_eq_of_lt (a := _ - _) (by omega)]
        omega

/-! The loop. -/

/-- What a call gives whose first handle comes again after `round` others. -/
inductive Found (client : Client) (round : Nat) (generated : Generated) : Prop where
  | handle (j : Nat) (below : j < round) (usable : Usable client (tried client j))
    (before : ∀ i < j,¬ Usable client (tried client i)) (status : generated.status = .ok)
    (handle : generated.handle = some (tried client j)) (probes : generated.probes = j + 1)
  | exhausted (all : ∀ i < round,¬ Usable client (tried client i))
    (status : generated.status = .insufficientResources) (probes : generated.probes = round + 1)

/-- One turn of the loop. -/
theorem genLoop_turn (k : Nat) (hFirst : NvHandle) (fuel : Nat) :
    genLoop client hFirst (fuel + 1) (client.handleGenIdx + BitVec.ofNat 32 k) k =
      if validateNewResourceHandle client (tried client k) false = .ok then
        some ⟨.ok,some (tried client k),client.handleGenIdx + BitVec.ofNat 32 (k + 1),k + 1⟩
      else if tried client k = hFirst then
        some ⟨.insufficientResources,none,client.handleGenIdx + BitVec.ofNat 32 (k + 1),k + 1⟩
      else genLoop client hFirst fuel (client.handleGenIdx + BitVec.ofNat 32 (k + 1)) (k + 1) := by
  have next : client.handleGenIdx + BitVec.ofNat 32 k + 1 =
      client.handleGenIdx + BitVec.ofNat 32 (k + 1) := by
    rw [BitVec.add_assoc]
    congr 1
    exact ofNat_add_ofNat k 1
  rw [genLoop,next,← tried]
  by_cases valid : validateNewResourceHandle client (tried client k) false = .ok
  · simp [valid]
  · by_cases again : tried client k = hFirst
    · simp [again]
    · simp [valid]

section

variable {round : Nat} (returns : Returns client round)
include returns

theorem genLoop_found {turns : Nat} : ∀ {k : Nat},k + turns = round → 0 < k →
      (∀ i < k,¬ Usable client (tried client i)) →
      ∃ generated,(∀ fuel,turns < fuel → genLoop client (tried client 0) fuel
          (client.handleGenIdx + BitVec.ofNat 32 k) k = some generated) ∧
        Found client round generated := by
  induction turns with
  | zero =>
    -- The first handle has come again.
    rintro k rfl later before
    have unusable := mt (usable_iff client _).mp (before 0 later)
    refine ⟨⟨.insufficientResources,none,client.handleGenIdx + BitVec.ofNat 32 (k + 1),k + 1⟩,
      fun fuel enough => ?_,.exhausted before rfl rfl⟩
    obtain ⟨fuel,rfl⟩ := Nat.exists_eq_succ_of_ne_zero (Nat.ne_of_gt enough)
    rw [genLoop_turn,show tried client k = _ from returns.again,if_neg unusable,if_pos rfl]
  | succ turns ih =>
    intro k total later before
    by_cases usable : Usable client (tried client k)
    · refine ⟨⟨.ok,some _,client.handleGenIdx + BitVec.ofNat 32 (k + 1),k + 1⟩,
        fun fuel enough => ?_,.handle k (by omega) usable before rfl rfl rfl⟩
      obtain ⟨fuel,rfl⟩ := Nat.exists_eq_succ_of_ne_zero (Nat.ne_of_gt (Nat.zero_lt_of_lt enough))
      rw [genLoop_turn,if_pos ((usable_iff client _).mpr usable)]
    · obtain ⟨generated,run,found⟩ := ih (k := k + 1) (by omega) (by omega) fun i below => by
        rcases Nat.lt_succ_iff_lt_or_eq.mp below with earlier | rfl
        · exact before i earlier
        · exact usable
      refine ⟨generated,fun fuel enough => ?_,found⟩
      obtain ⟨fuel,rfl⟩ := Nat.exists_eq_succ_of_ne_zero (Nat.ne_of_gt (Nat.zero_lt_of_lt enough))
      rw [genLoop_turn,if_neg (mt (usable_iff client _).mp usable),
        if_neg (returns.before k later (by omega))]
      exact run fuel (by omega)

theorem gen_found : ∃ generated,(∀ fuel,round ≤ fuel →
        genResourceHandle fuel client = some generated) ∧ Found client round generated := by
  have positive := returns.positive
  have first : probe client client.handleGenIdx = tried client 0 := by
    rw [tried,BitVec.add_zero]
  simp only [genResourceHandle,first]
  by_cases usable : Usable client (tried client 0)
  · simp only [if_pos ((usable_iff client _).mpr usable)]
    exact ⟨_,fun _ _ => rfl,.handle 0 positive usable (fun _ below => nomatch below) rfl rfl rfl⟩
  · simp only [if_neg (mt (usable_iff client _).mp usable)]
    have turns : 1 + (round - 1) = round := by omega
    obtain ⟨generated,run,found⟩ := genLoop_found returns turns Nat.one_pos fun i below => by
      rw [Nat.lt_one_iff.mp below]
      exact usable
    exact ⟨generated,fun fuel enough => run fuel (by omega),found⟩

end

structure Generates (client : Client) (generated : Generated) : Prop where
  probes : generated.probes ≤ client.handleRangeSize.toNat + 1
  found : (∃ handle,InRange client handle ∧ Usable client handle) →
    generated.status = .ok ∧
      ∃ handle,generated.handle = some handle ∧ InRange client handle ∧ Usable client handle
  exhausted : (¬ ∃ handle,InRange client handle ∧ Usable client handle) →
    generated.status = .insufficientResources

/-- The handles that are tried are enough: one of them can be used, or there is none and the first
one comes again in time. -/
def Settles (client : Client) : Prop :=
  (∃ k ≤ client.handleRangeSize.toNat,k < round client ∧ Usable client (tried client k)) ∨
    round client ≤ client.handleRangeSize.toNat ∧
      ¬ ∃ handle,InRange client handle ∧ Usable client handle

theorem Found.generates_iff {generated : Generated} (positive : 0 < client.handleRangeSize.toNat)
    (found : Found client (round client) generated) :
    Generates client generated ↔ Settles client := by
  rcases found with ⟨j,below,usable,before,status,handle,probes⟩ | ⟨all,status,probes⟩
  · have exist : ∃ handle,InRange client handle ∧ Usable client handle :=
      ⟨_,tried_inRange positive j,usable⟩
    constructor
    · intro generates
      exact .inl ⟨j,by have := generates.probes; omega,below,usable⟩
    · rintro (⟨k,bound,-,other⟩ | ⟨-,none⟩)
      · have least : j ≤ k := Nat.le_of_not_lt fun less => before k less other
        exact ⟨by omega,fun _ => ⟨status,_,handle,tried_inRange positive j,usable⟩,
          fun none => absurd exist none⟩
      · exact absurd exist none
  · constructor
    · intro generates
      refine .inr ⟨by have := generates.probes; omega,fun exist => ?_⟩
      exact absurd (status.symm.trans (generates.found exist).1) (by decide)
    · rintro (⟨k,-,less,usable⟩ | ⟨bound,none⟩)
      · exact absurd usable (all k less)
      · exact ⟨by omega,fun exist => absurd exist none,fun _ => status⟩

/-- A counter that gives every offset in turn tries every handle of the range. -/
theorem Steady.settles (steady : Steady client) : Settles client := by
  have whole : round client = client.handleRangeSize.toNat := if_pos steady
  by_cases exist : ∃ handle,InRange client handle ∧ Usable client handle
  · obtain ⟨handle,⟨a,inside,rfl⟩,usable⟩ := exist
    obtain ⟨k,below,reached⟩ := mod_reached client.handleGenIdx.toNat inside
    refine .inl ⟨k,Nat.le_of_lt below,whole ▸ below,?_⟩
    rwa [tried_eq (Nat.zero_lt_of_lt inside),steady.offset_eq (Nat.le_of_lt below),reached]
  · exact .inr ⟨Nat.le_of_eq whole,exist⟩

theorem round_le (positive : 0 < client.handleRangeSize.toNat) :
    round client ≤ 2 * client.handleRangeSize.toNat := by
  unfold round
  split
  next => omega
  next wraps =>
    have := mt Or.inr wraps
    have := Nat.mod_lt client.handleGenIdx.toNat positive
    omega

/-- The loop ends, and it does what it is for just when the handles that it tries are enough, as
they are with a counter that gives every offset in turn. -/
theorem handle_generated (positive : 0 < client.handleRangeSize.toNat) :
    ∃ generated,(∀ fuel,2 * client.handleRangeSize.toNat ≤ fuel →
        genResourceHandle fuel client = some generated) ∧
      (Generates client generated ↔ Settles client) ∧
      (Steady client → Generates client generated) := by
  obtain ⟨generated,run,found⟩ := gen_found (round_returns positive)
  have exact := found.generates_iff positive
  exact ⟨generated,fun fuel enough => run fuel ((round_le positive).trans enough),exact,
    fun steady => exact.mpr steady.settles⟩

/-- A client whose first handle is taken. -/
def sampleClient (size idx : NvHandle) : Client :=
  ⟨0x100,1,size,idx,⟨1,0⟩,fun handle => handle = 1⟩

theorem handle_generated_sample :
    ∃ generated,(∀ fuel,6 ≤ fuel → genResourceHandle fuel (sampleClient 3 0) = some generated) ∧
      Generates (sampleClient 3 0) generated := by
  obtain ⟨generated,run,-,steady⟩ := @handle_generated (sampleClient 3 0) (by decide)
  exact ⟨generated,run,steady (.inr (by decide))⟩

/-- The counter wraps after the first handle, and the range does not divide it: the same handle is
tried again, and the others never. -/
theorem handle_missed : (∀ fuel,genResourceHandle (fuel + 1) (sampleClient 3 0xffffffff) =
      some ⟨.insufficientResources,none,1,2⟩) ∧
    InRange (sampleClient 3 0xffffffff) 2 ∧ Usable (sampleClient 3 0xffffffff) 2 :=
  ⟨fun _ => rfl,⟨1,by decide,by decide⟩,by decide,by decide,by decide⟩

end GpuExt.HandleGenerator
