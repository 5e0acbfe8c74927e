import GpuExt.ChannelRing
import GpuExt.NvTypes
import GpuExt.Pushbuffer
import GpuExt.WaitingClaim

/-! Reservations that wait: entries of a channel (`uvm_channel_reserve`), and a chunk of the
pushbuffer (`uvm_pushbuffer_begin_push`). Their loops test the claim before the error of the last
round, so a claim that succeeds right after an error was found is kept although the call fails. -/
namespace GpuExt.FailedReservation

open WaitingClaim List

/-! Channels. With Confidential Computing a channel is locked for the push that reserves it, and
the semaphore of its pool counts the channels that are not. -/

structure Channel where
  ring : ChannelRing.System
  lockedForPush : Bool

inductive ChannelEvent where
  | ring (event : ChannelRing.Event)
  | setLocked (locked : Bool)
  deriving DecidableEq, Repr

section

variable (push : Pushbuffer.PushId) (numGpfifoEntries : Nat) (s : Channel)

def Channel.step : ChannelEvent → Option Channel
  | .ring event => (ChannelRing.step s.ring event).map ({ s with ring := · })
  | .setLocked lockedForPush => some { s with lockedForPush }

def tryClaimChannel : Option Channel :=
  (ChannelRing.tryClaimChannelLocked s.ring.channel numGpfifoEntries .noP2p).map fun channel =>
    { s with ring := { s.ring with
      channel, reservations := s.ring.reservations ++ [numGpfifoEntries] } }

def testClaimAndLockChannel : Option Channel :=
  if s.lockedForPush then none
  else (tryClaimChannel numGpfifoEntries s).map ({ · with lockedForPush := true })

abbrev ChannelHistory := History (Act ChannelEvent) NvStatus

/-- `rotateKey` is the error of a key rotation, if one was due and failed. -/
def channelReserveAndLock (rotateKey : Option NvStatus)
    (h : ChannelHistory) (s : Guarded Channel) : Option (Ended (Guarded Channel) (Act ChannelEvent) NvStatus) :=
  match rotateKey with
  | some status => (run (Guarded.act Channel.step) s h.waiting).map (⟨some status,h.waiting,[],·⟩)
  | none =>
    let claim := Guarded.attempt (testClaimAndLockChannel numGpfifoEntries)
    guarded Channel.step h (tryFirst (Guarded.act Channel.step) claim h.first
      (checkedLoop (Guarded.act Channel.step) claim h.rounds)) s

def uvmChannelReserve (confComputing : Bool) (numGpfifoEntries : Nat) (rotateKey : Option NvStatus)
    (h : ChannelHistory) (s : Guarded Channel) : Option (Ended (Guarded Channel) (Act ChannelEvent) NvStatus) :=
  if confComputing then channelReserveAndLock numGpfifoEntries rotateKey h s
  else
    let claim := Guarded.attempt (tryClaimChannel numGpfifoEntries)
    tryFirst (Guarded.act Channel.step) claim h.first
      (testedLoop (Guarded.act Channel.step) claim h.rounds none) s

/-! The pushbuffer, with the semaphore of the concurrent pushes. -/

def tryClaimChunk (s : Pushbuffer.System) : Option Pushbuffer.System :=
  (Pushbuffer.tryClaimChunk s.pb push).map fun (pb,c) =>
    ⟨pb,Function.update s.push push (.claimed c)⟩

abbrev PushHistory := History (Act Pushbuffer.Event) NvStatus

def claimChunk (h : PushHistory) (s : Guarded Pushbuffer.System) :
    Option (Ended (Guarded Pushbuffer.System) (Act Pushbuffer.Event) NvStatus) :=
  let claim := Guarded.attempt (tryClaimChunk push)
  tryFirst (Guarded.act Pushbuffer.step) claim h.first
    (testedLoop (Guarded.act Pushbuffer.step) claim h.rounds none) s

end

/-- Pushes of a WLC channel have a static pushbuffer. -/
def uvmPushbufferBeginPush (isWlc : Bool) (push : Pushbuffer.PushId) (h : PushHistory)
    (s : Guarded Pushbuffer.System) : Option (Ended (Guarded Pushbuffer.System) (Act Pushbuffer.Event) NvStatus) :=
  if isWlc then some ⟨none,[],[],s⟩ else guarded Pushbuffer.step h (claimChunk push h) s

/-! A call that fails leaves what the other threads have done. -/

theorem tryClaimChannel_changes {numGpfifoEntries : Nat} {s s' : Guarded Channel}
    (claimed : Guarded.attempt (tryClaimChannel numGpfifoEntries) s = some s') : s' ≠ s := by
  obtain ⟨inner,reserved,rfl⟩ := Option.map_eq_some_iff.mp claimed
  obtain ⟨channel,-,rfl⟩ := Option.map_eq_some_iff.mp reserved
  intro same
  have listed := congrArg (·.inner.ring.reservations.length) same
  simp at listed

theorem tested_alone {numGpfifoEntries : Nat} {h : ChannelHistory} {s : Guarded Channel}
    {ended : Ended (Guarded Channel) (Act ChannelEvent) NvStatus}
    (left : uvmChannelReserve false numGpfifoEntries none h s = some ended)
    (failed : ended.error.isSome) :
    Alone (Guarded.act Channel.step) s ended ↔ Blocked (Guarded.act Channel.step)
      (Guarded.attempt (tryClaimChannel numGpfifoEntries)) s ended := by
  obtain ⟨between,later,ran,ends,rfl⟩ := tryFirst_error left failed
  obtain ⟨tested,last⟩ := testedLoop_tested ends
  exact (tested.after ran).alone_iff last tryClaimChannel_changes

/-- A channel that is locked for the push is claimed by the try that ends the loop, or not at all. -/
theorem channelReserveAndLock_error {numGpfifoEntries : Nat} {rotateKey : Option NvStatus}
    {h : ChannelHistory} {s : Guarded Channel}
    {ended : Ended (Guarded Channel) (Act ChannelEvent) NvStatus}
    (left : channelReserveAndLock numGpfifoEntries rotateKey h s = some ended)
    (failed : ended.error.isSome) : Alone (Guarded.act Channel.step) s ended := by
  unfold channelReserveAndLock at left
  split at left
  · obtain ⟨after,ran,rfl⟩ := Option.map_eq_some_iff.mp left
    exact run_trans ran rfl
  · obtain ⟨inner,within,final,waited,claimed,error,ends,rfl⟩ := guarded_error left failed
    obtain ⟨between,later,ran,rest,rfl⟩ := tryFirst_error claimed error
    have made := run_trans ran (checkedLoop_error rest error)
    exact run_trans (run_within waited made) (Guarded.run_up ends)

/-! The push of a call is its own: nobody else's events are about it. -/

section

variable {push : Pushbuffer.PushId}

def Foreign (push : Pushbuffer.PushId) (acts : List (Act Pushbuffer.Event)) : Prop :=
  ∀ event,.inner event ∈ acts → event.id ≠ push

theorem run_foreign {s s' : Guarded Pushbuffer.System} {acts : List (Act Pushbuffer.Event)}
    (ran : run (Guarded.act Pushbuffer.step) s acts = some s') (foreign : Foreign push acts) :
    s'.inner.push push = s.inner.push push := by
  induction acts generalizing s with
  | nil => cases ran; rfl
  | cons act acts ih =>
    obtain ⟨between,first,rest⟩ := Option.bind_eq_some_iff.mp ran
    rw [ih rest fun event later => foreign event (mem_cons_of_mem _ later)]
    cases act with
    | inner event =>
      obtain ⟨inner,moved,rfl⟩ := Option.map_eq_some_iff.mp first
      obtain ⟨state,updated,-⟩ := Pushbuffer.step_push moved
      dsimp only
      rw [updated]
      exact Function.update_of_ne (foreign event mem_cons_self).symm _ _
    | up => cases first; rfl
    | down =>
      obtain ⟨inner,count⟩ := s
      cases count <;> cases first
      rfl

theorem Foreign.append {before after : List (Act Pushbuffer.Event)} :
    Foreign push (before ++ after) ↔ Foreign push before ∧ Foreign push after := by
  simp only [Foreign,mem_append,or_imp,forall_and]

/-- What is made comes from the history. -/
theorem testedLoop_made {σ : Type} {step : σ → Act Pushbuffer.Event → Option σ}
    {tryClaim : σ → Option σ} {rounds : List (Round (Act Pushbuffer.Event) NvStatus)}
    {error : Option NvStatus} {s : σ} {ended : Ended σ (Act Pushbuffer.Event) NvStatus}
    (left : testedLoop step tryClaim rounds error s = some ended)
    (foreign : Foreign push (rounds.flatMap (·.events))) : Foreign push ended.made := by
  induction rounds generalizing error s ended with
  | nil =>
    rw [(leaves_tested step left).2.1]
    nofun
  | cons round rounds ih =>
    rw [flatMap_cons,Foreign.append] at foreign
    rcases Option.or_eq_some_iff.mp left with here | ⟨-,onward⟩
    · rw [(leaves_tested step here).2.1]
      nofun
    · obtain ⟨between,ran,rest⟩ := Option.bind_eq_some_iff.mp onward
      obtain ⟨later,ends,rfl⟩ := Option.map_eq_some_iff.mp rest
      exact Foreign.append.mpr ⟨foreign.1,ih ends foreign.2⟩

end

/-- A claimed chunk belongs to the push, whatever the others go on to do. -/
theorem beginPush_alone {push : Pushbuffer.PushId} {h : PushHistory}
    {s : Guarded Pushbuffer.System}
    {ended : Ended (Guarded Pushbuffer.System) (Act Pushbuffer.Event) NvStatus}
    (fresh : s.inner.push push = .fresh) (foreign : Foreign push h.events)
    (left : guarded Pushbuffer.step h (claimChunk push h) s = some ended)
    (failed : ended.error.isSome) :
    Alone (Guarded.act Pushbuffer.step) s ended ↔
      Blocked (Guarded.act Pushbuffer.step) (Guarded.attempt (tryClaimChunk push)) s ended := by
  simp only [History.events,Foreign.append] at foreign
  obtain ⟨⟨⟨waiting,first⟩,rounds⟩,last⟩ := foreign
  obtain ⟨inner,within,final,waited,claimed,error,ends,rfl⟩ := guarded_error left failed
  obtain ⟨between,later,ran,rest,rfl⟩ := tryFirst_error claimed error
  obtain ⟨⟨t,reached,outcome⟩,-⟩ := testedLoop_tested rest
  have made := run_within waited (run_trans ran reached)
  have unclaimed := (run_foreign made (Foreign.append.mpr ⟨waiting,Foreign.append.mpr
    ⟨first,testedLoop_made rest rounds⟩⟩)).trans fresh
  have kept := run_foreign ends last
  unfold Alone Blocked
  simp only [Ended.after] at kept ⊢
  rw [run_append,made]
  simp only [Option.bind_some,Option.some.injEq,forall_eq']
  rcases outcome with ⟨none,same⟩ | claimed
  · exact iff_of_true (Guarded.run_up (same ▸ ends)) (Option.map_eq_none_iff.mpr
      (Option.map_eq_none_iff.mp none))
  · refine iff_of_false (fun alone => ?_) (fun blocked => ?_)
    · obtain ⟨system,took,same⟩ := Option.map_eq_some_iff.mp claimed
      obtain ⟨⟨pb,c⟩,-,rfl⟩ := Option.map_eq_some_iff.mp took
      rw [← same] at kept
      simp only [Function.update_self] at kept
      have free := (run_foreign alone last).trans unclaimed
      cases kept.symm.trans free
    · have none := Option.map_eq_none_iff.mp blocked
      rw [Guarded.attempt,show tryClaimChunk push t.inner = _ from none] at claimed
      cases claimed

/-- A failed call holds nothing just if nothing could be claimed in its last test. With Confidential
Computing a channel needs no such condition. -/
theorem failed_reservation_holds_nothing (confComputing : Bool) (numGpfifoEntries : Nat)
    (rotateKey : Option NvStatus) (h : ChannelHistory) (s : Guarded Channel) (isWlc : Bool)
    (push : Pushbuffer.PushId) (h' : PushHistory) (s' : Guarded Pushbuffer.System) :
    (∀ ended,uvmChannelReserve confComputing numGpfifoEntries rotateKey h s = some ended →
      ended.error.isSome → (Alone (Guarded.act Channel.step) s ended ↔
        (confComputing = false → Blocked (Guarded.act Channel.step)
          (Guarded.attempt (tryClaimChannel numGpfifoEntries)) s ended))) ∧
    (s'.inner.push push = .fresh → Foreign push h'.events →
      ∀ ended,uvmPushbufferBeginPush isWlc push h' s' = some ended → ended.error.isSome →
        (Alone (Guarded.act Pushbuffer.step) s' ended ↔ Blocked (Guarded.act Pushbuffer.step)
          (Guarded.attempt (tryClaimChunk push)) s' ended)) := by
  constructor
  · intro ended left failed
    cases confComputing with
    | true => exact iff_of_true (channelReserveAndLock_error left failed) nofun
    | false => exact (tested_alone left failed).trans ⟨fun blocked _ => blocked,fun all => all rfl⟩
  · intro fresh foreign ended left failed
    cases isWlc with
    | true => cases left; cases failed
    | false => exact beginPush_alone fresh foreign left failed

/-- All entries of the channel are reserved. -/
def fullChannel : Guarded Channel :=
  ⟨⟨(ChannelRing.execute [.claim 31 .noP2p] (.start 32)).getD (.start 32),false⟩,1⟩

def fullPushbuffer : Guarded Pushbuffer.System :=
  ⟨(Pushbuffer.execute Pushbuffer.fullRun .start).getD .start,1⟩

/-- One round, in which an error is found. -/
def errorAfter {ε : Type} (events : List ε) : History (Act ε) NvStatus :=
  ⟨[],[],[⟨events.map .inner,some (.other 1)⟩],[]⟩

/-- Nothing is given back. -/
theorem failed_reservation_full :
    (∃ ended,uvmChannelReserve false 1 none (errorAfter [.ring .gpuError]) fullChannel =
      some ended ∧ Alone (Guarded.act Channel.step) fullChannel ended) ∧
    ∃ ended,uvmPushbufferBeginPush false 23 (errorAfter []) fullPushbuffer = some ended ∧
      Alone (Guarded.act Pushbuffer.step) fullPushbuffer ended := by
  have channel : (uvmChannelReserve false 1 none (errorAfter [.ring .gpuError]) fullChannel).map
      (fun ended => (ended.error.isSome,((run (Guarded.act Channel.step) fullChannel
        ended.made).bind (Guarded.attempt (tryClaimChannel 1))).isNone)) =
        some (true,true) := by decide +kernel
  have push : (uvmPushbufferBeginPush false 23 (errorAfter []) fullPushbuffer).map
      (fun ended => (ended.error.isSome,((run (Guarded.act Pushbuffer.step) fullPushbuffer
        ended.made).bind (Guarded.attempt (tryClaimChunk 23))).isNone)) =
        some (true,true) := by decide +kernel
  obtain ⟨ended,reserved,outcome⟩ := Option.map_eq_some_iff.mp channel
  obtain ⟨ended',begun,outcome'⟩ := Option.map_eq_some_iff.mp push
  obtain ⟨ofChannel,ofPush⟩ := failed_reservation_holds_nothing false 1 none
    (errorAfter [.ring .gpuError]) fullChannel false 23 (errorAfter []) fullPushbuffer
  refine ⟨⟨ended,reserved,(ofChannel ended reserved (Prod.mk.inj outcome).1).mpr
      fun _ s' ran => ?_⟩,⟨ended',begun,(ofPush (by decide +kernel)
      (by simp [Foreign,errorAfter,History.events]) ended' begun (Prod.mk.inj outcome').1).mpr
      fun s' ran => ?_⟩⟩
  · have none := (Prod.mk.inj outcome).2
    rw [ran] at none
    exact Option.isNone_iff_eq_none.mp none
  · have none := (Prod.mk.inj outcome').2
    rw [ran] at none
    exact Option.isNone_iff_eq_none.mp none

/-- Another thread gives back its entries, or a submitted push completes, in the round that finds
the error: the call fails and keeps an entry of the channel, or a chunk outside of the
semaphore. -/
theorem claimed_after_error :
    (uvmChannelReserve false 1 none (errorAfter [.ring .gpuError,.ring (.release 0 31)])
      fullChannel).map (fun ended => (ended.error,
        ended.state.inner.ring.channel.currentGpfifoCount)) = some (some (.other 1),1) ∧
    (run (Guarded.act Channel.step) fullChannel (errorAfter (ε := ChannelEvent)
      [.ring .gpuError,.ring (.release 0 31)]).events).map
        (·.inner.ring.channel.currentGpfifoCount) = some 0 ∧
    (uvmPushbufferBeginPush false 23 (errorAfter [.complete 15]) fullPushbuffer).map
      (fun ended => (ended.error,(ended.state.inner.pb.chunks ⟨15,by decide⟩).currentPush,
        ended.state.inner.pb.availableChunks ⟨15,by decide⟩,ended.state.count)) =
        some (some (.other 1),some 23,false,1) ∧
    (run (Guarded.act Pushbuffer.step) fullPushbuffer (errorAfter (ε := Pushbuffer.Event)
      [.complete 15]).events).map (fun s => ((s.inner.pb.chunks ⟨15,by decide⟩).currentPush,
        s.inner.pb.availableChunks ⟨15,by decide⟩,s.count)) = some (none,true,1) := by
  decide +kernel

end GpuExt.FailedReservation
