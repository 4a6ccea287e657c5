/-
# Giving up a ping

A blocking ping whose wait times out looks its request up in `m_pendingRequests`,
erases it, and only then reads the address for its error through the reference that
the lookup gave.

Whatever the scanner's thread and other pings do in between, the steps of the ping
leave the requests of other hosts alone, and no request that its lookup inserted is
left behind. But whenever it reads the address, the request that holds it is gone.
-/

import NetDiscovery.Net.Scanner.ScannerSystem

namespace NetDiscovery.Net.IcmpScanner

open NetDiscovery.Semantics

namespace System

variable {parser : Parser} {s t u v w : System} {a : Label} {now : TimePoint} {c c' : ℕ}
  {host read : IPv4Address} {key : String} {entry : Entry Request} {ping : Ping}
  {trace l r : List (System × Label)}

/-! ## Phases of a blocking ping -/

/-- How a step moves call `c` along. -/
inductive PhaseStep (c : ℕ) : Label → WaitPhase → WaitPhase → Prop
  | keep {a : Label} (phase : WaitPhase) (hreference : a ≠ .reference c) (herase : a ≠ .erase c)
      (hgiveUp : ∀ read, a ≠ .giveUp c read) : PhaseStep c a phase phase
  | expire : PhaseStep c (.expire c) .waiting .timedOut
  | reference : PhaseStep c (.reference c) .timedOut .referenced
  | erase : PhaseStep c (.erase c) .referenced .erased
  | giveUp (read : IPv4Address) : PhaseStep c (.giveUp c read) .erased
      (.returned (some (.error { dstIp := read, error := .timedOut })))
  | get (outcome : Option Outcome) : PhaseStep c (.get c) .waiting (.returned outcome)

/-- Only the steps of a call itself move it along. -/
private theorem phases_wait_of_ne {phase : WaitPhase} {table : PendingRequests} (hne : c ≠ c') :
    (s.wait c' phase table).phases c = s.phases c :=
  Function.update_of_ne hne _ _

private theorem phases_wait_self {phase : WaitPhase} {table : PendingRequests} :
    (s.wait c phase table).phases c = phase :=
  Function.update_self _ _ _

/-- The steps that move a call along. -/
def movesCall : Label → Bool
  | .expire _ | .reference _ | .erase _ | .giveUp _ _ | .get _ => true
  | _ => false

theorem phases_of_not_movesCall (hmoves : movesCall a = false) (hstep : step parser s a = some t) :
    t.phases = s.phases := by
  cases a with
  | expire | reference | erase | giveUp | get => cases hmoves
  | setClock | start | stop =>
    obtain rfl := Option.some.inj hstep
    rfl
  | send =>
    obtain ⟨-, rfl⟩ := send_eq_some hstep
    rfl
  | register =>
    obtain ⟨_, -, -, rfl⟩ := register_eq_some hstep
    rfl
  | receive =>
    obtain ⟨-, _, rfl⟩ := receive_eq_some hstep
    rfl
  | push =>
    obtain ⟨_, -, rfl⟩ := push_eq_some hstep
    rfl
  | poll =>
    obtain ⟨-, _, _, -, rfl⟩ := poll_eq_some hstep
    rfl
  | pop =>
    obtain ⟨-, ⟨_, _, -, rfl⟩ | rfl⟩ := pop_eq_some hstep
    · rfl
    · rfl
  | handle =>
    obtain ⟨_, -, rfl⟩ := handle_eq_some hstep
    rfl
  | sweep =>
    obtain ⟨-, rfl⟩ := sweep_eq_some hstep
    rfl

/-- A step of the call itself, taken in the phase that it is for. -/
private theorem phaseStep_self {phase phase' : WaitPhase} {table : PendingRequests}
    (hphase : s.phases c = phase) (ht : t = s.wait c phase' table)
    (hself : PhaseStep c a phase phase') : PhaseStep c a (s.phases c) (t.phases c) := by
  rw [ht, phases_wait_self, hphase]
  exact hself

theorem phaseStep_of_step (hstep : step parser s a = some t) :
    PhaseStep c a (s.phases c) (t.phases c) := by
  cases a with
  | setClock | start | stop | send | register | receive | push | poll | pop | handle | sweep =>
    rw [phases_of_not_movesCall rfl hstep]
    exact .keep _ (by simp) (by simp) (by simp)
  -- the call's own statements; those of another call leave its phase as it is
  | expire c' =>
    by_cases heq : c = c'
    · subst heq
      simp only [step, expire] at hstep
      split at hstep
      · split at hstep
        · exact phaseStep_self ‹_› (Option.some.inj hstep).symm .expire
        · cases hstep
      · cases hstep
    · obtain rfl := expire_eq_some hstep
      rw [phases_wait_of_ne heq]
      exact .keep _ (by simp) (by simp) (by simp)
  | reference c' =>
    by_cases heq : c = c'
    · subst heq
      simp only [step, reference] at hstep
      split at hstep
      · exact phaseStep_self ‹_› (Option.some.inj hstep).symm .reference
      · cases hstep
    · obtain ⟨_, -, rfl⟩ := reference_eq_some hstep
      rw [phases_wait_of_ne heq]
      exact .keep _ (by simpa using Ne.symm heq) (by simp) (by simp)
  | erase c' =>
    by_cases heq : c = c'
    · subst heq
      simp only [step, erase] at hstep
      split at hstep
      · exact phaseStep_self ‹_› (Option.some.inj hstep).symm .erase
      · cases hstep
    · obtain ⟨_, -, rfl⟩ := erase_eq_some hstep
      rw [phases_wait_of_ne heq]
      exact .keep _ (by simp) (by simpa using Ne.symm heq) (by simp)
  | giveUp c' read =>
    by_cases heq : c = c'
    · subst heq
      simp only [step, giveUp] at hstep
      split at hstep
      · exact phaseStep_self ‹_› (Option.some.inj hstep).symm (.giveUp read)
      · cases hstep
    · obtain ⟨_, rfl⟩ := giveUp_eq_some hstep
      rw [phases_wait_of_ne heq]
      exact .keep _ (by simp) (by simp) (fun _ => by simpa using fun h => absurd h.symm heq)
  | get c' =>
    by_cases heq : c = c'
    · subst heq
      simp only [step, get] at hstep
      split at hstep
      · split at hstep
        · exact phaseStep_self ‹_› (Option.some.inj hstep).symm (.get _)
        · exact phaseStep_self ‹_› (Option.some.inj hstep).symm (.get _)
        · cases hstep
      · cases hstep
    · obtain ⟨_, rfl⟩ := get_eq_some hstep
      rw [phases_wait_of_ne heq]
      exact .keep _ (by simp) (by simp) (by simp)

/-! ## The request that is read -/

/-- The lookup of call `c` in state `u` gave a reference to `entry`. -/
def LookedUp (parser : Parser) (trace : List (System × Label)) (c : ℕ) (u : System) (key : String)
    (entry : Entry Request) : Prop :=
  (u, .reference c) ∈ trace ∧ ∃ ping w, u.pings c = some ping ∧ key = ping.host.toString ∧
    step parser u (.reference c) = some w ∧ w.table.lookup key = some entry

/-- What holds of a request from its lookup by call `c` on. -/
structure Tracked (c : ℕ) (key : String) (entry : Entry Request) (v : System) : Prop where
  not_waiting : v.phases c ≠ .waiting
  not_timedOut : v.phases c ≠ .timedOut
  pinged : ∃ ping, v.pings c = some ping ∧ key = ping.host.toString
  promise_lt : entry.promise < v.table.next
  gone : v.phases c = .referenced ∨ v.table.lookup key ≠ some entry

theorem tracked_of_reference (hping : s.pings c = some ping)
    (hstep : step parser s (.reference c) = some t)
    (hentry : t.table.lookup ping.host.toString = some entry) :
    Tracked c ping.host.toString entry t := by
  have hphase : t.phases c = .referenced := by
    obtain ⟨_, -, rfl⟩ := reference_eq_some hstep
    exact phases_wait_self
  exact {
    not_waiting := by simp [hphase]
    not_timedOut := by simp [hphase]
    pinged := ⟨ping, (call_of_step hstep).1 c ping hping, rfl⟩
    promise_lt := PendingTable.promise_lt_next hentry
    gone := .inl hphase }

/-- A request that is gone does not come back. -/
theorem lookup_ne_of_step (hlt : entry.promise < s.table.next)
    (hgone : s.table.lookup key ≠ some entry) (hstep : step parser s a = some t) :
    t.table.lookup key ≠ some entry := by
  intro hentry
  rcases entry_of_step hstep hentry with hprior | ⟨_, _, -, -, -, rfl⟩ | ⟨_, -, rfl⟩
  · exact hgone hprior
  -- an entry that a step puts in has a promise of its own
  · exact lt_irrefl _ hlt
  · exact lt_irrefl _ hlt

/-- The step lemma: the request is gone once the call has erased its host. -/
theorem Tracked.step (tracked : Tracked c key entry s) (hstep : System.step parser s a = some t) :
    Tracked c key entry t := by
  obtain ⟨ping, hping, hkey⟩ := tracked.pinged
  have hpinged : ∃ ping, t.pings c = some ping ∧ key = ping.host.toString :=
    ⟨ping, (call_of_step hstep).1 c ping hping, hkey⟩
  have hlt := tracked.promise_lt.trans_le (extends_of_step hstep).next_le
  have hgone : s.table.lookup key ≠ some entry → t.table.lookup key ≠ some entry :=
    fun hnot => lookup_ne_of_step tracked.promise_lt hnot hstep
  have hphase := phaseStep_of_step (c := c) hstep
  generalize hfrom : s.phases c = phase, hto : t.phases c = phase' at hphase
  -- the call never gets back to a phase before its lookup
  cases hphase with
  | keep =>
    refine ⟨?_, ?_, hpinged, hlt, ?_⟩
    · exact hto ▸ hfrom ▸ tracked.not_waiting
    · exact hto ▸ hfrom ▸ tracked.not_timedOut
    · exact tracked.gone.imp (fun hreferenced => hto.trans (hfrom.symm.trans hreferenced)) hgone
  | expire => exact absurd hfrom tracked.not_waiting
  | get => exact absurd hfrom tracked.not_waiting
  | reference => exact absurd hfrom tracked.not_timedOut
  | erase =>
    -- here the request goes, whatever entry the host has by now
    refine ⟨by simp [hto], by simp [hto], hpinged, hlt, .inr ?_⟩
    obtain ⟨ping', hping', rfl⟩ := erase_eq_some hstep
    obtain rfl := Option.some.inj (hping.symm.trans hping')
    have hnone : (s.table.discard ping.host.toString).lookup ping.host.toString = none :=
      PendingTable.lookup_remove_self
    rw [hkey]
    intro hentry
    cases hnone.symm.trans hentry
  | giveUp =>
    refine ⟨by simp [hto], by simp [hto], hpinged, hlt, .inr ?_⟩
    refine hgone (tracked.gone.resolve_left ?_)
    simp [hfrom]

theorem LookedUp.tracked (lookedUp : LookedUp parser trace c u key entry)
    (run : Run (System.step parser) s trace t) : Tracked c key entry t := by
  obtain ⟨hmem, ping, w, hping, rfl, hlookup, hentry⟩ := lookedUp
  induction run with
  | nil => cases hmem
  | snoc _ hstep ih =>
    rcases List.mem_append.mp hmem with hprior | hself
    · exact (ih hprior).step hstep
    · obtain ⟨rfl, rfl⟩ := Prod.mk.inj (List.mem_singleton.mp hself)
      obtain rfl := Option.some.inj (hlookup.symm.trans hstep)
      exact tracked_of_reference hping hstep hentry

/-- When a ping gives up, the request that its lookup gave is gone. -/
theorem LookedUp.gone (lookedUp : LookedUp parser trace c u key entry)
    (run : Run (System.step parser) s trace v)
    (hstep : System.step parser v (.giveUp c read) = some w) : v.table.lookup key ≠ some entry := by
  refine (lookedUp.tracked run).gone.resolve_left fun hreferenced => ?_
  have hphase := phaseStep_of_step (c := c) hstep
  rw [hreferenced] at hphase
  generalize w.phases c = phase at hphase
  cases hphase with
  | keep _ _ _ hgiveUp => exact hgiveUp read rfl

/-! ## What a ping that gives up has done -/

/-- The steps of call `c` from the end of its wait on. -/
def OfTimeout (c : ℕ) : Label → Prop
  | .expire c' | .reference c' | .erase c' | .giveUp c' _ => c' = c
  | _ => False

/-- The steps of call `c` from the end of its wait on leave the requests of other hosts
as they were. -/
def KeepsOthers (parser : Parser) (trace : List (System × Label)) (c : ℕ) : Prop :=
  ∀ u a w ping, (u, a) ∈ trace → OfTimeout c a → step parser u a = some w →
    u.pings c = some ping → ∀ key, key ≠ ping.host.toString →
      w.table.lookup key = u.table.lookup key

/-- No request that the lookup of call `c` inserted is left. -/
def LeavesNone (parser : Parser) (prior : List (System × Label)) (v : System) (c : ℕ) : Prop :=
  ∀ u key entry, LookedUp parser prior c u key entry → u.table.lookup key = none →
    v.table.lookup key ≠ some entry

/-- Call `c`, about to return after the steps of `prior`, returns that its host timed out,
and reads the address in a request that is pending. -/
structure GivesUpCleanly (parser : Parser) (prior : List (System × Label)) (v : System) (c : ℕ)
    (read : IPv4Address) : Prop where
  returns : ∃ ping w, v.pings c = some ping ∧ step parser v (.giveUp c read) = some w ∧
    w.phases c = .returned (some (.error { dstIp := ping.host, error := .timedOut }))
  reads_pending : ∃ u key entry, LookedUp parser prior c u key entry ∧
    v.table.lookup key = some entry
  keeps_others : KeepsOthers parser (prior ++ [(v, .giveUp c read)]) c
  leaves_none : LeavesNone parser prior v c

/-- Every ping of the run that gives up does so cleanly. -/
def PingsGiveUpCleanly (parser : Parser) (trace : List (System × Label)) : Prop :=
  ∀ prior v c read rest, trace = prior ++ (v, .giveUp c read) :: rest →
    GivesUpCleanly parser prior v c read

/-- What a ping that gives up does to the table is right in every run. -/
theorem keepsOthers (parser : Parser) (trace : List (System × Label)) (c : ℕ) :
    KeepsOthers parser trace c := by
  intro s a t ping _ htimeout hstep hping key hne
  cases a with
  | expire =>
    obtain rfl := expire_eq_some hstep
    rfl
  | giveUp =>
    obtain ⟨_, rfl⟩ := giveUp_eq_some hstep
    rfl
  | reference c' =>
    obtain rfl : c' = c := htimeout
    obtain ⟨ping', hping', rfl⟩ := reference_eq_some hstep
    obtain rfl := Option.some.inj (hping.symm.trans hping')
    exact PendingTable.lookup_touch_of_ne hne.symm
  | erase c' =>
    obtain rfl : c' = c := htimeout
    obtain ⟨ping', hping', rfl⟩ := erase_eq_some hstep
    obtain rfl := Option.some.inj (hping.symm.trans hping')
    exact PendingTable.lookup_discard_of_ne hne.symm
  | setClock | start | stop | send | register | get | receive | push | poll | pop | handle
  | sweep => exact htimeout.elim

theorem leavesNone_of_run (run : Run (step parser) s trace v)
    (hstep : step parser v (.giveUp c read) = some w) : LeavesNone parser trace v c :=
  fun _ _ _ lookedUp _ => lookedUp.gone run hstep

/-- A ping reads the request only after it is gone. -/
theorem not_givesUpCleanly (run : Run (step parser) s trace t)
    (hsplit : trace = l ++ (v, .giveUp c read) :: r) : ¬ GivesUpCleanly parser l v c read := by
  intro clean
  obtain ⟨w, hprior, hstep, -⟩ := run.split_at hsplit
  obtain ⟨u, key, entry, lookedUp, hpending⟩ := clean.reads_pending
  exact lookedUp.gone hprior hstep hpending

/-- What is right about call `c` when it gives up after the steps of `prior`. -/
structure GivesUp (parser : Parser) (prior : List (System × Label)) (v : System) (c : ℕ)
    (read : IPv4Address) : Prop where
  returns : ∃ w, step parser v (.giveUp c read) = some w ∧
    w.phases c = .returned (some (.error { dstIp := read, error := .timedOut }))
  keeps_others : KeepsOthers parser (prior ++ [(v, .giveUp c read)]) c
  leaves_none : LeavesNone parser prior v c

theorem givesUp_of_run (run : Run (step parser) s trace v)
    (hstep : step parser v (.giveUp c read) = some w) : GivesUp parser trace v c read where
  returns := by
    refine ⟨w, hstep, ?_⟩
    have hphase := phaseStep_of_step (c := c) hstep
    generalize v.phases c = phase, w.phases c = phase' at hphase
    cases hphase with
    | keep _ _ _ hgiveUp => exact absurd rfl (hgiveUp read)
    | giveUp => rfl
  keeps_others := keepsOthers parser _ c
  leaves_none := leavesNone_of_run run hstep

/-- **The pings of a run give up cleanly exactly if none of them gives up. One that does
returns that its host timed out, and is right about the table, but not about the address.** -/
theorem pingsGiveUpCleanly_iff (run : Run (step parser) (initial now) trace t) :
    (PingsGiveUpCleanly parser trace ↔ ∀ v c read, (v, Label.giveUp c read) ∉ trace) ∧
      ∀ prior v c read rest, trace = prior ++ (v, .giveUp c read) :: rest →
        GivesUp parser prior v c read := by
  refine ⟨⟨fun clean v c read hmem => ?_, ?_⟩, fun prior v c read rest hsplit => ?_⟩
  · obtain ⟨prior, rest, hsplit⟩ := List.append_of_mem hmem
    exact not_givesUpCleanly run hsplit (clean prior v c read rest hsplit)
  · rintro hnone prior v c read rest rfl
    exact absurd (by simp) (hnone v c read)
  · obtain ⟨w, hprior, hstep, -⟩ := run.split_at hsplit
    exact givesUp_of_run hprior hstep

/-- A ping that waits until its host's reply has been handled. -/
def pingAnsweringHost : List Label :=
  [.start, .send 0 (.ofOctets 10 0 0 7) true, .register 0, .receive (Packet.sampleReply 7), .push,
    .poll, .pop, .handle, .get 0]

theorem pingsGiveUpCleanly_pingAnsweringHost :
    ∃ final, exec (step Packet.parse) (initial 0) pingAnsweringHost = some final ∧
      (∃ response, final.phases 0 = .returned (some (.ok response))) ∧
      PingsGiveUpCleanly Packet.parse
        (record (step Packet.parse) (initial 0) pingAnsweringHost) := by
  have hexec :=
    Option.some_get (x := exec (step Packet.parse) (initial 0) pingAnsweringHost) (by decide)
  refine ⟨_, hexec.symm, ⟨_, rfl⟩, ?_⟩
  refine (pingsGiveUpCleanly_iff (Run.of_exec hexec.symm)).1.mpr fun v c read hmem => ?_
  have hlabel := List.mem_map_of_mem (f := Prod.snd) hmem
  rw [map_snd_record hexec.symm] at hlabel
  simp [pingAnsweringHost] at hlabel

/-- A ping of a silent host gives up. -/
def pingSilentHost : List Label :=
  [.send 0 (.ofOctets 10 0 0 7) true, .register 0, .expire 0, .reference 0, .erase 0,
    .giveUp 0 (.ofOctets 10 0 0 7)]

theorem not_pingsGiveUpCleanly_pingSilentHost :
    ∃ final, Run (step Packet.parse) (initial 0)
        (record (step Packet.parse) (initial 0) pingSilentHost) final ∧
      ¬ PingsGiveUpCleanly Packet.parse
        (record (step Packet.parse) (initial 0) pingSilentHost) := by
  have hexec :=
    Option.some_get (x := exec (step Packet.parse) (initial 0) pingSilentHost) (by decide)
  have run := Run.of_exec hexec.symm
  refine ⟨_, run, fun clean => ?_⟩
  have hlabel : Label.giveUp 0 (.ofOctets 10 0 0 7) ∈
      (record (step Packet.parse) (initial 0) pingSilentHost).map Prod.snd := by
    rw [map_snd_record hexec.symm]
    simp [pingSilentHost]
  obtain ⟨⟨v, a⟩, hmem, rfl⟩ := List.mem_map.mp hlabel
  obtain ⟨prior, rest, hsplit⟩ := List.append_of_mem hmem
  exact not_givesUpCleanly run hsplit (clean prior v 0 _ rest hsplit)

end System

end NetDiscovery.Net.IcmpScanner
