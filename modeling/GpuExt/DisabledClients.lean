import GpuExt.LinkedList
import Mathlib.Data.List.Nodup
import Mathlib.Algebra.Group.Nat.Defs

/-! Draining the list of disabled clients with a cursor that stays between the calls. Freeing a
client takes it out of the list, whoever frees it, and leaves the cursor as it is. -/
namespace GpuExt.DisabledClients

open Function List Option

/-- A call of `serverFreeDisabledClients`: what is left of its 32-bit limit, and the client that
it works on. -/
structure Drain where
  limit : Nat
  pClient : Option Nat
  deriving DecidableEq, Repr

/-- Clients are named by the object, which is never used again. -/
structure State where
  disabledClientList : List Nat
  pNextDisabledClient : Option Nat
  bHighPriorityFreeDone : Nat → Bool
  freed : List Nat
  /-- The call that has set `inProgress`. -/
  drain : Option Drain
  /-- Clients for which the tree was freed, and whether only for high priority. -/
  passes : List (Nat × Bool)

def State.start : State := ⟨[],none,fun _ => false,[],none,[]⟩

section

variable (s : State) (client : Nat)

def State.free : State :=
  { s with disabledClientList := s.disabledClientList.erase client, freed := client :: s.freed }

inductive Event where
  | disable (client : Nat)
  /-- Another thread frees a disabled client. -/
  | directFree (client : Nat)
  | begin (limit : Nat)
  | next
  /-- The rest of a turn of the loop, in which the free may fail. -/
  | pass (frees : Bool)
  deriving DecidableEq, Repr

def nextClient : State × Option Nat :=
  let pClient := s.pNextDisabledClient.or s.disabledClientList.head?
  let cursor := match pClient with
    | some client => LinkedList.next client s.disabledClientList
    | none => s.disabledClientList.head?
  ({ s with pNextDisabledClient := cursor },pClient)

def passOver (frees : Bool) : State :=
  if s.bHighPriorityFreeDone client then
    let s := { s with passes := s.passes ++ [(client,false)] }
    if frees then s.free client else s
  else
    { s with
      bHighPriorityFreeDone := update s.bHighPriorityFreeDone client true
      passes := s.passes ++ [(client,true)] }

/-- `--limit == 0` ends the call. A limit of 0 wraps around. -/
def countDown (limit : Nat) : Option Drain :=
  match (limit + (2 ^ 32 - 1)) % 2 ^ 32 with
  | 0 => none
  | limit => some ⟨limit,none⟩

/-- Nothing for what cannot happen; a call during another one returns at once. -/
def step : Event → Option State
  | .disable client =>
    if client ∈ s.disabledClientList ∨ client ∈ s.freed then none
    else some { s with disabledClientList := s.disabledClientList ++ [client] }
  | .directFree client => if client ∈ s.disabledClientList then some (s.free client) else none
  | .begin limit =>
    match s.drain with
    | none => some { s with drain := some ⟨limit,none⟩ }
    | some _ => some s
  | .next =>
    match s.drain with
    | some ⟨limit,none⟩ =>
      let (s,pClient) := nextClient s
      some { s with drain := pClient.map fun client => ⟨limit,some client⟩ }
    | _ => none
  | .pass frees =>
    match s.drain with
    | some ⟨limit,some client⟩ =>
      some { passOver s client frees with drain := countDown limit }
    | _ => none

/-- Another thread does not free what the cursor or the draining call has. -/
def Apart : Event → Prop
  | .directFree client => s.pNextDisabledClient ≠ some client ∧
      ∀ drain,s.drain = some drain → drain.pClient ≠ some client
  | _ => True

end

inductive Run : State → List Event → State → Prop where
  | nil (s : State) : Run s [] s
  | cons {s between s' : State} {event : Event} {events : List Event} : Apart s event →
    step s event = some between → Run between events s' → Run s (event :: events) s'

/-! The cursor. -/

theorem next_split {p q : Nat} {list : List Nat} (next : LinkedList.next p list = some q) :
    ∃ front back,list = front ++ p :: q :: back := by
  induction list with
  | nil => cases next
  | cons x rest ih =>
    rw [LinkedList.next] at next
    split at next
    next same =>
      cases rest with
      | nil => cases next
      | cons y rest => exact ⟨[],rest,by rw [same,← some.inj next]; rfl⟩
    · obtain ⟨front,back,split⟩ := ih next
      exact ⟨x :: front,back,by rw [split]; rfl⟩

structure Inv (s : State) : Prop where
  nodup : s.disabledClientList.Nodup
  alive : ∀ client ∈ s.disabledClientList,client ∉ s.freed
  cursor : ∀ client,s.pNextDisabledClient = some client → client ∈ s.disabledClientList
  working : ∀ limit client,s.drain = some ⟨limit,some client⟩ →
    client ∈ s.disabledClientList ∧ s.pNextDisabledClient ≠ some client
  marked : ∀ pass ∈ s.passes,s.bHighPriorityFreeDone pass.1 = true
  /-- Before a high-priority pass over a client there was no other pass. -/
  ordered : s.passes.Pairwise fun earlier later => later.2 = true → earlier.1 ≠ later.1

theorem inv_start : Inv .start :=
  ⟨nodup_nil,nofun,nofun,nofun,nofun,.nil⟩

variable {s s' : State}

variable {client : Nat} {event : Event} {events : List Event}

/-- A free of a client that neither the cursor nor the drain has. -/
theorem Inv.free (inv : Inv s) (cursor : s.pNextDisabledClient ≠ some client)
    (working : ∀ limit,s.drain ≠ some ⟨limit,some client⟩) : Inv (s.free client) where
  nodup := inv.nodup.erase client
  alive other member := by
    obtain ⟨different,inside⟩ := (inv.nodup.mem_erase_iff).mp member
    exact fun gone => (mem_cons.mp gone).elim different (inv.alive other inside)
  cursor other found := (inv.nodup.mem_erase_iff).mpr
    ⟨fun same => cursor (same ▸ found),inv.cursor other found⟩
  working limit other busy := ⟨(inv.nodup.mem_erase_iff).mpr
    ⟨fun same => working limit (same ▸ busy),(inv.working limit other busy).1⟩,
    (inv.working limit other busy).2⟩
  marked := inv.marked
  ordered := inv.ordered

theorem Inv.nextClient (inv : Inv s) :
    (∀ client,(nextClient s).2 = some client → client ∈ s.disabledClientList ∧
      (nextClient s).1.pNextDisabledClient ≠ some client) ∧
    ∀ client,(nextClient s).1.pNextDisabledClient = some client →
      client ∈ s.disabledClientList := by
  have found : ∀ client,(DisabledClients.nextClient s).2 = some client →
      client ∈ s.disabledClientList ∧ (DisabledClients.nextClient s).1.pNextDisabledClient =
        LinkedList.next client s.disabledClientList := by
    intro client got
    change s.pNextDisabledClient.or s.disabledClientList.head? = some client at got
    refine ⟨?_,by simp only [DisabledClients.nextClient,got]⟩
    rcases or_eq_some_iff.mp got with saved | ⟨-,first⟩
    · exact inv.cursor client saved
    · exact mem_of_head? first
  refine ⟨fun client got => ?_,fun client moved => ?_⟩
  · obtain ⟨member,cursor⟩ := found client got
    refine ⟨member,fun same => ?_⟩
    obtain ⟨front,back,split⟩ := next_split (cursor.symm.trans same)
    have nodup := inv.nodup
    rw [split,nodup_middle,nodup_cons] at nodup
    exact nodup.1 (mem_append_right _ mem_cons_self)
  · rcases got : (DisabledClients.nextClient s).2 with _ | held
    · have empty : s.disabledClientList.head? = none := (or_eq_none_iff.mp got).2
      have cursor : (DisabledClients.nextClient s).1.pNextDisabledClient =
          s.disabledClientList.head? := by
        change s.pNextDisabledClient.or s.disabledClientList.head? = none at got
        simp only [DisabledClients.nextClient,got]
      rw [cursor,empty] at moved
      exact nomatch moved
    · obtain ⟨front,back,split⟩ := next_split ((found held got).2.symm.trans moved)
      rw [split]
      exact mem_append_right _ (mem_cons_of_mem _ mem_cons_self)

theorem Inv.passOver (inv : Inv s) {limit : Nat} (frees : Bool)
    (busy : s.drain = some ⟨limit,some client⟩) (drain : Option Drain)
    (idle : ∀ limit other,drain ≠ some ⟨limit,some other⟩) :
    Inv { passOver s client frees with drain } := by
  obtain ⟨member,cursor⟩ := inv.working limit client busy
  have quiet : Inv { s with drain } := { inv with working := fun l c h => absurd h (idle l c) }
  unfold DisabledClients.passOver
  split
  next done =>
    have logged : Inv { s with passes := s.passes ++ [(client,false)], drain } := by
      refine { quiet with marked := fun pass inside => ?_, ordered := ?_ }
      · rcases mem_append.mp inside with old | new
        · exact inv.marked pass old
        · rw [mem_singleton.mp new]
          exact done
      · refine pairwise_append.mpr ⟨inv.ordered,pairwise_singleton _ _,?_⟩
        intro earlier _ later last
        rw [mem_singleton.mp last]
        nofun
    cases frees with
    | false => exact logged
    | true => exact logged.free cursor (fun limit => idle limit client)
  next fresh =>
    refine { quiet with marked := fun pass inside => ?_, ordered := ?_ }
    · change update s.bHighPriorityFreeDone client true pass.1 = true
      rw [update_apply]
      split
      · rfl
      next other =>
        rcases mem_append.mp inside with old | new
        · exact inv.marked pass old
        · exact absurd (congrArg Prod.fst (mem_singleton.mp new)) other
    · refine pairwise_append.mpr ⟨inv.ordered,pairwise_singleton _ _,?_⟩
      intro earlier old later last _ same
      rw [mem_singleton.mp last] at same
      have mine : earlier.1 = client := same
      exact fresh (mine ▸ inv.marked earlier old)

theorem countDown_idle (limit l other : Nat) : countDown limit ≠ some ⟨l,some other⟩ := by
  unfold countDown
  split <;> simp

theorem Inv.step (inv : Inv s) (apart : Apart s event) (run : step s event = some s') : Inv s' := by
  cases event with
  | disable client =>
    simp only [DisabledClients.step] at run
    split at run
    · exact nomatch run
    next fresh =>
      obtain ⟨outside,unfreed⟩ := not_or.mp fresh
      obtain rfl := some.inj run
      refine { inv with nodup := ?_, alive := ?_, cursor := ?_, working := ?_ }
      · exact nodup_append.mpr ⟨inv.nodup,nodup_singleton _,fun a old b new same =>
          outside (mem_singleton.mp new ▸ same ▸ old)⟩
      · intro other member
        rcases mem_append.mp member with old | new
        · exact inv.alive other old
        · rw [mem_singleton.mp new]
          exact unfreed
      · exact fun other found => mem_append_left _ (inv.cursor other found)
      · exact fun limit other busy => ⟨mem_append_left _ (inv.working limit other busy).1,
          (inv.working limit other busy).2⟩
  | directFree client =>
    simp only [DisabledClients.step] at run
    split at run
    · rw [← some.inj run]
      exact inv.free apart.1 fun limit busy => apart.2 _ busy rfl
    · exact nomatch run
  | begin limit =>
    simp only [DisabledClients.step] at run
    split at run
    · rw [← some.inj run]
      exact { inv with working := nofun }
    · rwa [← some.inj run]
  | next =>
    simp only [DisabledClients.step] at run
    split at run
    next limit _ =>
      rw [← some.inj run]
      obtain ⟨held,moved⟩ := inv.nextClient
      refine { inv with cursor := moved, working := fun limit client busy => ?_ }
      obtain ⟨client',got,same⟩ := map_eq_some_iff.mp busy
      obtain rfl := some.inj (Drain.mk.inj same).2
      exact held client' got
    · exact nomatch run
  | pass frees =>
    simp only [DisabledClients.step] at run
    split at run
    next limit client busy =>
      rw [← some.inj run]
      exact inv.passOver frees busy _ (countDown_idle limit)
    · exact nomatch run

theorem Inv.run (inv : Inv s) (run : Run s events s') : Inv s' := by
  induction run with
  | nil => exact inv
  | cons apart first _ ih => exact ih (inv.step apart first)

/-! A call without a limit. -/

/-- The passes that are left for the clients in the list. -/
def work (s : State) : Nat :=
  s.disabledClientList.length + s.disabledClientList.countP fun client =>
    !s.bHighPriorityFreeDone client

def isDrain : Event → Bool
  | .next => true
  | .pass _ => true
  | _ => false

/-- No client is disabled and frees succeed. Other calls begin only while this one goes on, which
they leave as it is. -/
def Quiet (s : State) : Event → Prop
  | .disable _ => False
  | .begin _ => s.drain ≠ none
  | .pass frees => frees = true
  | _ => True

def QuietRun : State → List Event → Prop
  | _, [] => True
  | s, event :: events => Quiet s event ∧ (step s event).elim True (QuietRun · events)

theorem work_free (member : client ∈ s.disabledClientList) : work (s.free client) + 1 ≤ work s := by
  have length := length_erase_of_mem member
  have positive := length_pos_of_mem member
  have count := List.Sublist.countP_le (p := fun client => !s.bHighPriorityFreeDone client)
    (erase_sublist (a := client) (l := s.disabledClientList))
  unfold work State.free
  dsimp only
  omega

theorem work_mark (nodup : s.disabledClientList.Nodup) (member : client ∈ s.disabledClientList)
    (fresh : s.bHighPriorityFreeDone client = false) :
    work { s with
      bHighPriorityFreeDone := update s.bHighPriorityFreeDone client true } + 1 =
      work s := by
  obtain ⟨front,back,split⟩ := append_of_mem member
  rw [split,nodup_middle,nodup_cons,mem_append,not_or] at nodup
  have same : ∀ {part : List Nat},client ∉ part →
      part.countP (fun other => !update s.bHighPriorityFreeDone client true other) =
        part.countP fun other => !s.bHighPriorityFreeDone other := by
    intro part absent
    refine countP_congr fun other inside => ?_
    have differs : other ≠ client := fun equal => absent (equal ▸ inside)
    rw [update_of_ne differs]
  simp only [work,split,countP_append,countP_cons,fresh,same nodup.1.1,same nodup.1.2]
  simp
  omega

/-- `n` passes and `k` steps of a call that began without a limit and with `bound` passes to
make. -/
structure Progress (bound n k : Nat) (s : State) : Prop where
  inv : Inv s
  bounded : work s + n ≤ bound
  place : (∃ limit pClient,s.drain = some ⟨limit,pClient⟩ ∧ (limit + n) % 2 ^ 32 = 0 ∧
      k = 2 * n + if pClient.isSome then 1 else 0) ∨
    s.drain = none ∧ s.disabledClientList = [] ∧ k = 2 * n + 1

theorem passOver_work {limit : Nat} (inv : Inv s) (busy : s.drain = some ⟨limit,some client⟩)
    (drain : Option Drain) : work { passOver s client true with drain } + 1 ≤ work s := by
  have member := (inv.working limit client busy).1
  unfold passOver
  split
  · exact work_free member
  next fresh => exact Nat.le_of_eq (work_mark inv.nodup member (Bool.eq_false_iff.mpr fresh))

theorem countDown_unlimited {bound n limit : Nat} (small : bound < 2 ^ 32) (some_left : n + 1 ≤ bound)
    (sum : (limit + n) % 2 ^ 32 = 0) :
    ∃ left,countDown limit = some ⟨left,none⟩ ∧ (left + (n + 1)) % 2 ^ 32 = 0 := by
  unfold countDown
  split
  · omega
  · exact ⟨_,rfl,by omega⟩

theorem Progress.step {bound n k : Nat} (progress : Progress bound n k s) (small : bound < 2 ^ 32)
    (quiet : Quiet s event) (apart : Apart s event) (run : step s event = some s') :
    ∃ n',Progress bound n' (k + if isDrain event then 1 else 0) s' := by
  have inv := progress.inv.step apart run
  cases event with
  | disable client => exact quiet.elim
  | begin limit =>
    simp only [DisabledClients.step] at run
    split at run
    next idle => exact absurd idle quiet
    · rw [← some.inj run]
      exact ⟨n,progress⟩
  | directFree client =>
    simp only [DisabledClients.step] at run
    split at run
    next member =>
      rw [← some.inj run] at inv ⊢
      have less := work_free member
      refine ⟨n,inv,by have := progress.bounded; omega,.inl ?_⟩
      rcases progress.place with going | ⟨_,empty,_⟩
      · exact going
      · rw [empty] at member
        exact nomatch member
    · exact nomatch run
  | next =>
    simp only [DisabledClients.step] at run
    split at run
    next limit idle =>
      rw [← some.inj run] at inv ⊢
      refine ⟨n,inv,progress.bounded,?_⟩
      rcases progress.place with ⟨_,_,same,sum,count⟩ | ⟨ended,_⟩
      · obtain ⟨rfl,rfl⟩ := Drain.mk.inj (some.inj (same.symm.trans idle))
        rcases got : (nextClient s).2 with _ | client
        · have empty : s.disabledClientList.head? = none := (or_eq_none_iff.mp got).2
          exact .inr ⟨rfl,head?_eq_none_iff.mp empty,by rw [count]; rfl⟩
        · exact .inl ⟨_,some client,rfl,sum,by rw [count]; rfl⟩
      · rw [ended] at idle
        exact nomatch idle
    · exact nomatch run
  | pass frees =>
    obtain rfl : frees = true := quiet
    simp only [DisabledClients.step] at run
    split at run
    next limit client busy =>
      have less : work s' + 1 ≤ work s := by
        rw [← some.inj run]
        exact passOver_work progress.inv busy _
      have done := progress.bounded
      rcases progress.place with ⟨_,_,same,sum,count⟩ | ⟨ended,_⟩
      · obtain ⟨rfl,rfl⟩ := Drain.mk.inj (some.inj (same.symm.trans busy))
        obtain ⟨left,counted,sum'⟩ := countDown_unlimited small (by omega) sum
        rw [counted] at run
        refine ⟨n + 1,inv,by omega,.inl ⟨left,none,?_,sum',by rw [count]; rfl⟩⟩
        rw [← some.inj run]
      · rw [ended] at busy
        exact nomatch busy
    · exact nomatch run

theorem Progress.run {bound n k : Nat} (progress : Progress bound n k s) (small : bound < 2 ^ 32)
    (quiet : QuietRun s events) (run : Run s events s') :
    ∃ n',Progress bound n' (k + events.countP isDrain) s' := by
  induction run generalizing n k with
  | nil => exact ⟨n,progress⟩
  | @cons _ _ _ event events apart first _ ih =>
    obtain ⟨m,next⟩ := progress.step small quiet.1 apart first
    have later := quiet.2
    rw [first] at later
    obtain ⟨m',final⟩ := ih next later
    refine ⟨m',?_⟩
    rw [countP_cons,Nat.add_comm (events.countP _),← Nat.add_assoc]
    exact final

/-- A disabled client stays in the list until it is freed. -/
theorem step_kept (run : step s event = some s')
    (before : client ∈ s.disabledClientList ∨ client ∈ s.freed) :
    client ∈ s'.disabledClientList ∨ client ∈ s'.freed := by
  have freeing : ∀ {t : State} {other : Nat},client ∈ t.disabledClientList ∨ client ∈ t.freed →
      client ∈ (t.free other).disabledClientList ∨ client ∈ (t.free other).freed := by
    intro t other old
    by_cases same : client = other
    · exact .inr (same ▸ mem_cons_self)
    · exact old.imp (mem_erase_of_ne same).mpr (mem_cons_of_mem _)
  cases event with
  | disable other =>
    simp only [step] at run
    split at run
    · exact nomatch run
    · rw [← some.inj run]
      exact before.imp_left (mem_append_left _)
  | directFree other =>
    simp only [step] at run
    split at run
    · rw [← some.inj run]
      exact freeing before
    · exact nomatch run
  | begin limit =>
    simp only [step] at run
    split at run <;> (rw [← some.inj run]; exact before)
  | next =>
    simp only [step] at run
    split at run
    · rw [← some.inj run]
      exact before
    · exact nomatch run
  | pass frees =>
    simp only [step,passOver] at run
    split at run
    next limit _ _ =>
      generalize countDown limit = left at run
      rw [← some.inj run]
      split
      · cases frees with
        | false => exact before
        | true => exact freeing before
      · exact before
    · exact nomatch run

theorem Run.kept (run : Run s events s')
    (before : client ∈ s.disabledClientList ∨ client ∈ s.freed) :
    client ∈ s'.disabledClientList ∨ client ∈ s'.freed := by
  induction run with
  | nil => exact before
  | cons _ first _ ih => exact ih (step_kept first before)

/-- As long as no other thread frees what the cursor or the draining call has. A call without a
limit drains the list if no other call is in progress when it begins. -/
theorem disabled_clients_drained {history : List Event} (reached : Run .start history s) :
    (∀ client,s.pNextDisabledClient = some client →
      client ∈ s.disabledClientList ∧ client ∉ s.freed) ∧
    (s.passes.Pairwise fun earlier later => later.2 = true → earlier.1 ≠ later.1) ∧
    (s.drain = none → 2 * s.disabledClientList.length < 2 ^ 32 → ∀ begun events s',
      step s (.begin 0) = some begun → QuietRun begun events → Run begun events s' →
      events.countP isDrain ≤ 4 * s.disabledClientList.length + 1 ∧
      (s'.drain ≠ none → ∃ event,isDrain event = true ∧ (step s' event).isSome) ∧
      (s'.drain = none → ∀ client ∈ s.disabledClientList,client ∈ s'.freed)) := by
  have inv := inv_start.run reached
  refine ⟨fun client cursor => ⟨inv.cursor client cursor,inv.alive client (inv.cursor client cursor)⟩,
    inv.ordered,fun idle small begun events s' first quiet run => ?_⟩
  have total : work s ≤ 2 * s.disabledClientList.length := by
    have count := countP_le_length (p := fun client => !s.bHighPriorityFreeDone client)
      (l := s.disabledClientList)
    unfold work
    omega
  have kept : ∀ client ∈ s.disabledClientList,
      client ∈ s'.disabledClientList ∨ client ∈ s'.freed := fun _ member =>
    run.kept (step_kept first (.inl member))
  have apart : Apart s (.begin 0) := trivial
  have started := inv.step apart first
  simp only [step,idle,some.injEq] at first
  subst first
  have progress : Progress (work s) 0 0 { s with drain := some ⟨0,none⟩ } :=
    ⟨started,Nat.le_refl _,.inl ⟨0,none,rfl,by simp,by simp⟩⟩
  obtain ⟨n,final⟩ := progress.run (Nat.lt_of_le_of_lt total small) quiet run
  have bounded := final.bounded
  refine ⟨?_,fun going => ?_,fun ended client member => ?_⟩
  · rcases final.place with ⟨limit,pClient,busy,_,count⟩ | ⟨_,_,count⟩
    · rcases pClient with _ | client
      · simp only [isSome_none,Bool.false_eq_true,if_false] at count
        omega
      · simp only [isSome_some,if_true] at count
        omega
    · omega
  · rcases drain : s'.drain with _ | ⟨limit,_ | client⟩
    · exact absurd drain going
    · exact ⟨.next,rfl,by simp [step,drain]⟩
    · exact ⟨.pass true,rfl,by simp [step,drain]⟩
  · rcases final.place with ⟨limit,pClient,busy,_⟩ | ⟨_,empty,_⟩
    · rw [ended] at busy
      exact nomatch busy
    · have left := kept client member
      rw [empty] at left
      exact left.elim nofun id

/-- Two clients, one of which has had its first pass, and a second call meanwhile. -/
theorem disabled_clients_drained_two :
    ∃ s begun s',Run .start [.disable 1,.disable 2,.begin 1,.next,.pass true] s ∧
      step s (.begin 0) = some begun ∧
      Run begun [.next,.begin 1,.pass true,.next,.pass true,.next,.pass true,.next] s' ∧
      s.disabledClientList = [1,2] ∧ ∀ client ∈ s.disabledClientList,client ∈ s'.freed := by
  have reached : ∃ s,Run .start [.disable 1,.disable 2,.begin 1,.next,.pass true] s ∧
      s.disabledClientList = [1,2] ∧ s.drain = none ∧ ∃ begun,step s (.begin 0) = some begun ∧
      QuietRun begun [.next,.begin 1,.pass true,.next,.pass true,.next,.pass true,.next] ∧
      ∃ s',Run begun [.next,.begin 1,.pass true,.next,.pass true,.next,.pass true,.next] s' ∧
        s'.drain = none :=
    ⟨_,.cons trivial rfl (.cons trivial rfl (.cons trivial rfl (.cons trivial rfl
      (.cons trivial rfl (.nil _))))),by decide,by decide,_,rfl,
      ⟨trivial,some_ne_none _,rfl,trivial,rfl,trivial,rfl,trivial,trivial⟩,
      _,.cons trivial rfl (.cons trivial rfl (.cons trivial rfl (.cons trivial rfl
      (.cons trivial rfl (.cons trivial rfl (.cons trivial rfl
      (.cons trivial rfl (.nil _)))))))),by decide⟩
  obtain ⟨s,history,list,idle,begun,first,quiet,s',call,ended⟩ := reached
  have final := (disabled_clients_drained history).2.2 idle (by rw [list]; decide) begun _ s'
    first quiet call
  exact ⟨s,begun,s',history,first,call,list,final.2.2 ended⟩

/-- The second client is freed by another thread while the cursor points to it. -/
def freedAtCursor : List Event :=
  [.disable 1,.disable 2,.begin 1,.next,.pass true,.directFree 2,.begin 0]

theorem cursor_freed :
    ∃ s,freedAtCursor.foldlM step State.start = some s ∧ s.pNextDisabledClient = some 2 ∧
      2 ∈ s.freed ∧ 2 ∉ s.disabledClientList ∧
      (step s .next).map State.drain = some (some ⟨0,some 2⟩) :=
  ⟨_,rfl,by decide,by decide,by decide,by decide⟩

end GpuExt.DisabledClients
