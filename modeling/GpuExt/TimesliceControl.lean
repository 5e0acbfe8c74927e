import GpuExt.Transition

/-! The control that sets the timeslice of a channel group (`kchangrpapiCtrlCmdSetTimeslice`). A
policy may propose another value, which is then sent in place of the requested one. -/
namespace GpuExt.TimesliceControl

open Transition

structure ControlCtx where
  tsgId : NvU64
  requestedTimesliceUs : NvU64
  engineType : NvU32
  runlistId : NvU32
  hclient : NvU32
  htsg : NvU32
  gpuInstance : NvU32
  phase : NvU32
  deriving DecidableEq, Repr

def controlPhase : NvU32 := 1

def eligible (value minimum : NvU64) : Bool :=
  1 ≤ value && minimum ≤ value && value ≤ 1000000

def validate (expected observed : ControlCtx) (minimum : NvU64) (request : Request NvU64) :
    Result × NvU64 :=
  let native := expected.requestedTimesliceUs
  if expected.tsgId ≠ observed.tsgId ∨ expected.runlistId ≠ observed.runlistId ∨
      expected.engineType ≠ observed.engineType ∨ expected.hclient ≠ observed.hclient ∨
      expected.htsg ≠ observed.htsg ∨ expected.gpuInstance ≠ observed.gpuInstance ∨
      native ≠ observed.requestedTimesliceUs ∨ expected.hclient = 0 ∨ expected.htsg = 0 then
    (.rejectIdentity,native)
  else if expected.phase ≠ controlPhase ∨ expected.phase ≠ observed.phase then (.noopStale,native)
  else if !request.attempted then (.noopDefault,native)
  else if request.conflict then (.noopConflict,native)
  else if !eligible native minimum || !eligible request.value minimum then (.rejectRange,native)
  else (.apply,request.value)

structure KernelChannelGroup where
  grpID : NvU32
  engineType : NvU32
  runlistId : NvU32
  timesliceUs : NvU64
  deriving DecidableEq, Repr

/-- No resource has a null handle. -/
structure KernelChannelGroupApi where
  pKernelChannelGroup : Option KernelChannelGroup
  classSupported : Bool
  hClient : NvU32
  hObject : NvU32
  client : hClient ≠ 0
  object : hObject ≠ 0

/-- What a call meets: the values that the policy records, in order, and the two ways to send. Both
return a status and leave a value in the parameters. -/
structure Gpu where
  isVirtual : Bool
  isGspClient : Bool
  gpuInstance : NvU32
  minTimeSlice : NvU64
  policy : ControlCtx → List NvU64
  hasRpc : Bool
  rpcControl : NvU64 → NvStatus × NvU64
  control : NvU64 → NvStatus × NvU64

inductive Call where
  | rpcControl (timesliceUs : NvU64)
  | internalSetTimeslice (timesliceUs : NvU64)
  deriving DecidableEq, Repr

structure Outcome where
  status : NvStatus
  params : NvU64
  group : Option KernelChannelGroup
  sent : List Call
  deriving DecidableEq, Repr

section

variable (gpu : Gpu) (api : KernelChannelGroupApi) (group : KernelChannelGroup) (timesliceUs : NvU64)

def expectedCtx : ControlCtx where
  tsgId := group.grpID.setWidth 64
  requestedTimesliceUs := timesliceUs
  engineType := group.engineType
  runlistId := group.runlistId
  hclient := api.hClient
  htsg := api.hObject
  gpuInstance := gpu.gpuInstance
  phase := controlPhase

def rpcSetTimeslice : Outcome :=
  if gpu.hasRpc then
    -- The reply is copied back before the timeslice is noted.
    let (status,reply) := gpu.rpcControl timesliceUs
    let group := if status = .ok then { group with timesliceUs := reply } else group
    ⟨status,reply,some group,[.rpcControl timesliceUs]⟩
  else ⟨.insufficientResources,timesliceUs,some group,[]⟩

/-- The value to send, unless the request of the policy is refused. -/
def consultPolicy : Option NvU64 :=
  if gpu.isGspClient && eligible timesliceUs gpu.minTimeSlice then
    let expected := expectedCtx gpu api group timesliceUs
    let request := recordAll ⟨false,false,0⟩ (gpu.policy expected)
    if request.attempted then
      match validate expected expected gpu.minTimeSlice request with
      | (.apply,effective) => some effective
      | _ => none
    else some timesliceUs
  else some timesliceUs

def setTimeslice : Outcome :=
  match api.pKernelChannelGroup with
  | none => ⟨.invalidObject,timesliceUs,none,[]⟩
  | some group =>
    if !api.classSupported then ⟨.notSupported,timesliceUs,some group,[]⟩
    else if gpu.isVirtual || gpu.isGspClient then
      match consultPolicy gpu api group timesliceUs with
      | none => ⟨.invalidArgument,timesliceUs,some group,[]⟩
      | some effective => rpcSetTimeslice gpu group effective
    else
      let (status,reply) := gpu.control timesliceUs
      ⟨status,reply,some group,[.internalSetTimeslice timesliceUs]⟩

end

/-! What is sent. -/

variable {gpu : Gpu} {api : KernelChannelGroupApi} {group : KernelChannelGroup}
  {timesliceUs value : NvU64}

/-- The value is sent, and on the way over the RPC the reply to it becomes the timeslice. -/
structure Sends (gpu : Gpu) (group : KernelChannelGroup) (value : NvU64) (outcome : Outcome) :
    Prop where
  sent : outcome.sent = [if gpu.isVirtual || gpu.isGspClient then .rpcControl value
    else .internalSetTimeslice value]
  status : outcome.status = (if gpu.isVirtual || gpu.isGspClient then gpu.rpcControl value
    else gpu.control value).1
  noted : outcome.group = some { group with timesliceUs :=
    if (gpu.isVirtual || gpu.isGspClient) ∧ (gpu.rpcControl value).1 = .ok
    then (gpu.rpcControl value).2 else group.timesliceUs }

/-- The policy is asked about the value. -/
def InDomain (gpu : Gpu) (timesliceUs : NvU64) : Prop :=
  gpu.isGspClient = true ∧ eligible timesliceUs gpu.minTimeSlice = true

/-- Without a policy for it, or without a proposal, the value is sent as it is. -/
theorem consultPolicy_native (native : ¬InDomain gpu timesliceUs ∨
      gpu.policy (expectedCtx gpu api group timesliceUs) = []) :
    consultPolicy gpu api group timesliceUs = some timesliceUs := by
  rw [InDomain,← Bool.and_eq_true] at native
  unfold consultPolicy
  split
  next inside =>
    dsimp only
    rw [native.resolve_left (not_not_intro inside)]
    rfl
  next => rfl

theorem consultPolicy_proposed {values : List NvU64} (client : gpu.isGspClient = true)
    (inside : eligible timesliceUs gpu.minTimeSlice = true)
    (proposed : gpu.policy (expectedCtx gpu api group timesliceUs) = value :: values) :
    consultPolicy gpu api group timesliceUs =
      if values.all (· = value) && eligible value gpu.minTimeSlice then some value else none := by
  have requested : (expectedCtx gpu api group timesliceUs).requestedTimesliceUs = timesliceUs := rfl
  have agree : values.any (· ≠ value) = !values.all (· = value) := by simp [List.not_all_eq_any_not]
  simp only [consultPolicy,client,inside,Bool.and_self,if_true,proposed,recordAll_cons]
  -- The driver's own context is in order: only the request decides.
  rw [validate,if_neg (by simpa using ⟨api.client,api.object⟩)]
  simp only [agree,requested,inside]
  cases values.all _ <;> cases eligible value gpu.minTimeSlice <;> rfl

section

variable (present : api.pKernelChannelGroup = some group) (supported : api.classSupported = true)
include present supported

theorem setTimeslice_sends
    (hasRpc : (gpu.isVirtual || gpu.isGspClient) = true → gpu.hasRpc = true)
    (chosen : consultPolicy gpu api group timesliceUs = some value) :
    Sends gpu group value (setTimeslice gpu api timesliceUs) := by
  rw [setTimeslice,present]
  by_cases remote : (gpu.isVirtual || gpu.isGspClient) = true
  · simp only [supported,remote,chosen,rpcSetTimeslice,hasRpc remote,Bool.not_true,
      Bool.false_eq_true,if_true,if_false]
    refine ⟨by rw [if_pos remote],by rw [if_pos remote],?_⟩
    by_cases success : (gpu.rpcControl value).1 = .ok <;> simp [remote,success]
  · have local_ : gpu.isGspClient = false := by simp_all
    rw [consultPolicy_native (.inl (by simp [InDomain,local_]))] at chosen
    cases chosen
    simp only [supported]
    exact ⟨by simp [remote],by simp [remote],by simp [remote]⟩

theorem set_timeslice_sends
    (hasRpc : (gpu.isVirtual || gpu.isGspClient) = true → gpu.hasRpc = true) :
    (¬InDomain gpu timesliceUs ∨ gpu.policy (expectedCtx gpu api group timesliceUs) = [] →
      Sends gpu group timesliceUs (setTimeslice gpu api timesliceUs)) ∧
    (InDomain gpu timesliceUs → ∀ value values,
      gpu.policy (expectedCtx gpu api group timesliceUs) = value :: values →
      if values.all (· = value) && eligible value gpu.minTimeSlice then
        Sends gpu group value (setTimeslice gpu api timesliceUs)
      else setTimeslice gpu api timesliceUs =
        ⟨.invalidArgument,timesliceUs,some group,[]⟩) := by
  refine ⟨fun native => ?_,fun here value values proposed => ?_⟩
  · exact setTimeslice_sends present supported hasRpc (consultPolicy_native native)
  · have chosen := consultPolicy_proposed here.1 here.2 proposed
    split
    next accepted =>
      rw [if_pos accepted] at chosen
      exact setTimeslice_sends present supported hasRpc chosen
    next refused =>
      rw [if_neg refused] at chosen
      rw [setTimeslice,present]
      simp [supported,here.1,chosen]

end

/-- A GPU whose firmware answers with `reply`, and a policy that asks for 40 and 40. -/
def gspGpu (reply : NvU64 → NvU64) : Gpu where
  isVirtual := false
  isGspClient := true
  gpuInstance := 0
  minTimeSlice := 10
  policy := fun _ => [40,40]
  hasRpc := true
  rpcControl := fun value => (.ok,reply value)
  control := fun value => (.ok,value)

def someGroup : KernelChannelGroupApi where
  pKernelChannelGroup := some ⟨1,1,0,100⟩
  classSupported := true
  hClient := 5
  hObject := 6
  client := by decide
  object := by decide

theorem set_timeslice_sends_proposal :
    Sends (gspGpu id) ⟨1,1,0,100⟩ 40 (setTimeslice (gspGpu id) someGroup 20) := by
  have fits : eligible 20 10 = true := by decide +kernel
  have proposed := (@set_timeslice_sends (gspGpu id) someGroup _ 20 rfl rfl fun _ => rfl).2 ⟨rfl,fits⟩ 40
    [40] rfl
  rwa [if_pos (by decide +kernel)] at proposed

/-- The firmware answers with another value: the timeslice that is noted was never sent. -/
theorem set_timeslice_notes_reply : setTimeslice (gspGpu fun _ => 30) someGroup 20 =
      ⟨.ok,30,some ⟨1,1,0,30⟩,[.rpcControl 40]⟩ := by
  decide +kernel

end GpuExt.TimesliceControl
