/-
# Futures of overlapping pings

A future handed out by `pingAsync` should be answered in the end. It can be
answered as long as its promise has been set or is still in the table. Received
packets and timeouts set the promise of every entry they take out, but
registering a ping overwrites the entry of an earlier ping to the same host, and
the blocking `ping` erases the entry of its host without answering it. Both
destroy the promise that is in the entry.

`futuresAnswerable_iff` says that these are the only ways to lose a promise.
-/

import NetDiscovery.Net.Scanner.ScannerSystem

namespace NetDiscovery.Net.IcmpScanner

open NetDiscovery.Semantics

namespace System

variable {parser : Parser} {s t : System} {a : Label} {now : TimePoint}
  {trace : List (System × Label)}

/-- Every future that `pingAsync` returned has a value, or its promise is still
in `m_pendingRequests`. -/
def FuturesAnswerable (s : System) : Prop :=
  ∀ c p, s.futures c = some p → s.table.Answerable p

/-- The entry under the host of call `c` holds no promise of a registered call. -/
def HostUnregistered (s : System) (c : ℕ) : Prop :=
  ∀ ping entry, s.pings c = some ping → s.table.lookup ping.host.toString = some entry →
    ∀ c', s.futures c' ≠ some entry.promise

/-- Registering a call, and erasing in a blocking ping, do not find a request
that `pingAsync` registered for the same host. -/
def SparesRequests (s : System) : Label → Prop
  | .register c | .erase c => s.HostUnregistered c
  | _ => True

theorem futuresAnswerable_iff_not_broken (consistent : s.Consistent) :
    s.FuturesAnswerable ↔ ∀ c p, s.futures c = some p → s.table.future p ≠ .broken := by
  refine forall₃_congr fun c p hfuture => ?_
  exact PendingTable.answerable_iff (consistent.future_lt c p hfuture)

/-- Where no future is broken, destroying the entry of a host breaks none
exactly if no registered call is waiting on it. -/
private theorem forall_not_broken_iff {c : ℕ} {ping : Ping} {table : PendingRequests}
    (hping : s.pings c = some ping)
    (hbroken : ∀ p, table.future p = .broken ↔ s.table.future p = .broken ∨
      ∃ entry, s.table.lookup ping.host.toString = some entry ∧ entry.promise = p)
    (hintact : ∀ c p, s.futures c = some p → s.table.future p ≠ .broken) :
    (∀ c p, s.futures c = some p → table.future p ≠ .broken) ↔ s.HostUnregistered c := by
  constructor
  · rintro hnext ping' entry hping' hentry c' hfuture
    obtain rfl := Option.some.inj (hping.symm.trans hping')
    exact hnext c' _ hfuture ((hbroken _).mpr (.inr ⟨entry, hentry, rfl⟩))
  · intro hspared c' p hfuture hnext
    rcases (hbroken p).mp hnext with hprior | ⟨entry, hentry, rfl⟩
    · exact hintact c' p hfuture hprior
    · exact hspared ping entry hping hentry c' hfuture

/-- The step lemma: from a state with answerable futures, a step keeps them
answerable exactly if it spares the registered requests. -/
theorem futuresAnswerable_of_step_iff (consistent : s.Consistent)
    (hanswerable : s.FuturesAnswerable) (hstep : step parser s a = some t) :
    t.FuturesAnswerable ↔ s.SparesRequests a := by
  -- answerable means not broken, on both sides of the step
  rw [futuresAnswerable_iff_not_broken (consistent.step hstep)]
  rw [futuresAnswerable_iff_not_broken consistent] at hanswerable
  cases a with
  | register c =>
    obtain ⟨ping, hping, hnone, rfl⟩ := register_eq_some hstep
    have hothers : (∀ c p, s.futures c = some p →
        (registerRequest s.table ping.host ping.sentTime).future p ≠ .broken) ↔
          s.HostUnregistered c :=
      forall_not_broken_iff hping (fun _ => future_registerRequest_eq_broken_iff) hanswerable
    -- the future of `c` itself is new, so only the other calls are concerned
    refine Iff.trans ⟨fun hnext c' p hfuture => ?_, fun hnext c' p hfuture => ?_⟩ hothers
    · have hne : c' ≠ c := by
        rintro rfl
        cases hnone.symm.trans hfuture
      exact hnext c' p ((Function.update_of_ne hne _ _).trans hfuture)
    · by_cases heq : c' = c
      · subst heq
        obtain rfl : s.table.next = p := by simpa using hfuture
        have hunset : (registerRequest s.table ping.host ping.sentTime).future s.table.next =
            .unset := PendingTable.future_assign_next
        simp [hunset]
      · exact hnext c' p ((Function.update_of_ne heq _ _).symm.trans hfuture)
  | erase c =>
    obtain ⟨ping, hping, rfl⟩ := erase_eq_some hstep
    exact forall_not_broken_iff hping (fun _ => PendingTable.future_discard_eq_broken_iff)
      hanswerable
  | send c host blocking =>
    obtain ⟨-, rfl⟩ := send_eq_some hstep
    simpa [SparesRequests] using hanswerable
  | reference c =>
    obtain ⟨ping, -, rfl⟩ := reference_eq_some hstep
    simpa [SparesRequests, wait] using hanswerable
  | handle =>
    obtain ⟨packet, -, rfl⟩ := handle_eq_some hstep
    simpa [SparesRequests, future_onPacketReceived_eq_broken_iff] using hanswerable
  | sweep =>
    obtain ⟨-, rfl⟩ := sweep_eq_some hstep
    simpa [SparesRequests, future_handleTimeouts_eq_broken_iff] using hanswerable
  | setClock | start | stop | expire | giveUp | get | receive | push | poll | pop =>
    obtain ⟨htable, -, hfutures⟩ := frame_of_quiet rfl hstep
    simpa [SparesRequests, htable, hfutures] using hanswerable

/-- **Along every run, all futures stay answerable exactly as long as no step
destroys a registered request of its host.** -/
theorem futuresAnswerable_iff (parser : Parser) (now : TimePoint) (trace : List (System × Label))
    (final : System) (run : Run (step parser) (initial now) trace final) :
    (∀ v ∈ visited trace final, v.FuturesAnswerable) ↔ ∀ x ∈ trace, x.1.SparesRequests x.2 :=
  run.forall_visited_iff (I := Consistent) (.initial now)
    (fun _ _ _ consistent hstep => consistent.step hstep) (fun _ _ hfuture => by cases hfuture)
    fun _ _ _ => futuresAnswerable_of_step_iff

/-- Two hosts are pinged. The reply of one is handled, and the other times out. -/
def pingTwoHosts : List Label :=
  [.start, .send 0 (.ofOctets 10 0 0 7) false, .register 0, .send 1 (.ofOctets 10 0 0 8) false,
    .register 1, .receive (Packet.sampleReply 7), .push, .poll, .pop, .handle,
    .setClock 5000000000, .poll, .pop, .sweep]

theorem futuresAnswerable_pingTwoHosts :
    ∃ final, exec (step Packet.parse) (initial 0) pingTwoHosts = some final ∧
      (∃ response, final.futureState 0 = .value (.ok response)) ∧
      (∃ error, final.futureState 1 = .value (.error error)) ∧
      ∀ v ∈ visited (record (step Packet.parse) (initial 0) pingTwoHosts) final,
        v.FuturesAnswerable := by
  have hexec := Option.some_get (x := exec (step Packet.parse) (initial 0) pingTwoHosts) (by decide)
  refine ⟨_, hexec.symm, ⟨_, rfl⟩, ⟨_, rfl⟩, ?_⟩
  rw [futuresAnswerable_iff _ _ _ _ (Run.of_exec hexec.symm)]
  -- neither registration finds an entry of its host
  iterate 2 refine List.forall_mem_cons.mpr ⟨trivial, ?_⟩
  refine List.forall_mem_cons.mpr ⟨fun ping entry hping hentry => ?_, ?_⟩
  · cases hentry
  refine List.forall_mem_cons.mpr ⟨trivial, ?_⟩
  refine List.forall_mem_cons.mpr ⟨fun ping entry hping hentry => ?_, ?_⟩
  · cases hping
    cases hentry
  iterate 9 refine List.forall_mem_cons.mpr ⟨trivial, ?_⟩
  nofun

/-- Two pings of one host, the second sent before the first is answered. -/
def pingTwice : List Label :=
  [.send 0 (.ofOctets 10 0 0 7) false, .register 0,
    .send 1 (.ofOctets 10 0 0 7) false, .register 1]

/-- The second ping destroys the promise of the first. -/
theorem not_futuresAnswerable_pingTwice :
    ∃ final, Run (step Packet.parse) (initial 0)
      (record (step Packet.parse) (initial 0) pingTwice) final ∧ ¬ final.FuturesAnswerable := by
  have hexec := Option.some_get (x := exec (step Packet.parse) (initial 0) pingTwice) (by decide)
  refine ⟨_, Run.of_exec hexec.symm, fun hanswerable => ?_⟩
  have hbroken := (PendingTable.answerable_iff (by decide)).mp (hanswerable 0 0 (by decide))
  exact hbroken (by decide)

end System

end NetDiscovery.Net.IcmpScanner
