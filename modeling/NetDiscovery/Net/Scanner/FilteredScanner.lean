/-
# The scanner behind its filter

The socket is created, bound and told to receive before a scanner attaches its filter to
it. From then on the kernel runs the filter on each frame and queues what it keeps; a
receive takes the next frame off that queue, as far as the buffer has room for it. What
was queued before stays queued, in front of what follows.

`attach` compares the result of `setsockopt` the wrong way round, so it reports a failure
even if the filter is attached. The scanner does not look at what it reports.
-/

import NetDiscovery.Net.Scanner.ScannerSystem
import NetDiscovery.Net.Socket.IcmpFilter

namespace NetDiscovery.Net

open NetDiscovery.Semantics NetDiscovery.Util IcmpScanner IcmpFilter

/-- A scanner with the socket that it receives from. -/
structure FilteredScanner where
  scanner : System
  /-- the filter is attached to the socket -/
  filtering : Bool
  /-- the frames that the kernel has queued for the socket -/
  queued : List (List UInt8)

namespace FilteredScanner

/-- A socket that has been created, and a scanner that has not been constructed. -/
def initial (now : TimePoint) : FilteredScanner where
  scanner := .initial now
  filtering := false
  queued := []

/-- The steps of the scanner and of the kernel. -/
inductive Label
  /-- a step of the scanner that takes nothing off the socket -/
  | scan (a : IcmpScanner.Label)
  /-- a frame reaches the interface; the socket's queue has room for it, or not -/
  | arrive (frame : List UInt8) (room : Bool)
  /-- `attachFilter` in the constructor of the scanner, with the result of `setsockopt` -/
  | attachFilter (ret : ℤ)
  /-- the receive that is outstanding completes -/
  | receive

/-- A step of the scanner that takes a packet off the socket. -/
def receives : IcmpScanner.Label → Bool
  | .receive _ => true
  | _ => false

/-- What `PacketFilter::attach` returns. -/
def attachReports (ret : ℤ) : Bool :=
  ret > 0

/-- What a receive makes of a frame: its buffer has room for so many bytes. -/
def clip (frame : List UInt8) : List UInt8 :=
  frame.take maxBufferSize

/-- What the kernel keeps of a frame. -/
def keep (filtering : Bool) (frame : List UInt8) : Option (List UInt8) :=
  if filtering then
    match ClassicBpf.exec code frame code.length .start with
    | some kept => if kept = 0 then none else some (frame.take kept.toNat)
    | none => none
  else some frame

/-- One step. -/
def step (parser : Parser) (s : FilteredScanner) : Label → Option FilteredScanner
  | .scan a =>
    if receives a then none
    else (s.scanner.step parser a).map fun scanner => { s with scanner := scanner }
  | .arrive frame room =>
    match keep s.filtering frame with
    | some kept => some { s with queued := if room then s.queued ++ [kept] else s.queued }
    | none => some s
  | .attachFilter ret => some { s with filtering := s.filtering || ret = 0 }
  | .receive =>
    match s.queued with
    | frame :: rest =>
      (s.scanner.step parser (.receive (clip frame))).map fun scanner => { s with
        scanner := scanner
        queued := rest }
    | [] => none

variable {parser : Parser} {s t : FilteredScanner} {a : Label} {now : TimePoint}
  {frame : List UInt8} {trace : List (FilteredScanner × Label)} {v w : System}
  {b : IcmpScanner.Label} {p c : ℕ}
  {response : IcmpResponse}

/-! ## The filter -/

/-- A call of `attach` that attaches the filter reports that it has failed. -/
theorem attachReports_eq_false {ret : ℤ} (hstep : s.step parser (.attachFilter ret) = some t)
    (hbefore : s.filtering = false) (hafter : t.filtering = true) : attachReports ret = false := by
  obtain rfl := Option.some.inj hstep
  obtain rfl : ret = 0 := by simpa [hbefore] using hafter
  rfl

/-- The fields that the filter looks at are within the part that is received. -/
theorem holdsIcmp_clip : HoldsIcmp (clip frame) ↔ HoldsIcmp frame := by
  have hoctet : ∀ i < 24, Packet.octet (clip frame) i = Packet.octet frame i := fun i hi => by
    have hlt : i < maxBufferSize := hi.trans (by decide)
    rw [Packet.octet, Packet.octet, clip, List.getD_eq_getElem?_getD, List.getD_eq_getElem?_getD,
      List.getElem?_take_of_lt hlt]
  have hlength : 24 ≤ (clip frame).length ↔ 24 ≤ frame.length := by
    rw [clip, List.length_take, maxBufferSize]
    omega
  rw [HoldsIcmp, HoldsIcmp, hlength, Packet.halfWord, Packet.halfWord, hoctet 12 (by decide),
    hoctet 13 (by decide), hoctet 23 (by decide)]

/-- With the filter attached, the frames of ICMP packets are kept; what is received of
them is not changed by it. -/
theorem keep_true (frame : List UInt8) :
    (keep true frame).map clip = if HoldsIcmp frame then some (clip frame) else none := by
  rw [keep, if_pos rfl, exec_code]
  split_ifs with holds
  · have hkept : (0x00040000 : UInt32) ≠ 0 := by decide
    have hroom : maxBufferSize ≤ (0x00040000 : UInt32).toNat := by decide
    simp only [if_neg hkept, Option.map_some, clip, List.take_take, Nat.min_eq_left hroom]
  · rfl

theorem keep_false (frame : List UInt8) : (keep false frame).map clip = some (clip frame) :=
  rfl

/-! ## What is on its way and what has been handled -/

/-- The packet that the scanner's task has taken off the queue. -/
def inHand : TaskPhase → List (List UInt8)
  | .handling packet => [packet.bytes]
  | _ => []

/-- What a step of the scanner hands to `onPacketReceived`. -/
def hands (scanner : System) : IcmpScanner.Label → List (List UInt8)
  | .handle => inHand scanner.task
  | _ => []

/-- What has been handed to `onPacketReceived` in a run. -/
def handled (trace : List (FilteredScanner × Label)) : List (List UInt8) :=
  trace.flatMap fun x =>
    match x.2 with
    | .scan a => hands x.1.scanner a
    | _ => []

/-- The frame that arrives while the filter is attached, or not. -/
def arrives (filtering : Bool) : FilteredScanner × Label → Option (List UInt8)
  | (s, .arrive frame _) => if s.filtering = filtering then some frame else none
  | _ => none

/-- The frames that have arrived with the filter attached, or without it. -/
def arrivals (filtering : Bool) (trace : List (FilteredScanner × Label)) : List (List UInt8) :=
  trace.filterMap (arrives filtering)

/-- What may be received: the frames that came before the filter, and after it those of
ICMP packets. -/
def receivable (trace : List (FilteredScanner × Label)) : List (List UInt8) :=
  (arrivals false trace).map clip ++ ((arrivals true trace).filter HoldsIcmp).map clip

/-- The packets that the scanner has received and not handled, the oldest first. -/
def inScanner (scanner : System) : List (List UInt8) :=
  inHand scanner.task ++ scanner.buffer.packets.map ReceivedPacket.bytes ++
    scanner.receiving.toList.map ReceivedPacket.bytes

/-- All that is on its way to the scanner. -/
def onTheWay (s : FilteredScanner) : List (List UInt8) :=
  inScanner s.scanner ++ s.queued.map clip

/-! ## Steps of the scanner -/

/-- A packet that is received comes last. -/
theorem inScanner_receive {bytes : List UInt8} (hstep : v.step parser (.receive bytes) = some w) :
    inScanner w = inScanner v ++ [bytes] := by
  obtain ⟨hnone, bounded, rfl⟩ := System.receive_eq_some hstep
  simp [inScanner, hnone]

/-- A step that receives nothing hands over the first packet, or drops one, or none. -/
theorem inScanner_of_step (hreceives : receives b = false) (hstep : v.step parser b = some w) :
    (hands v b ++ inScanner w).Sublist (inScanner v) := by
  cases b with
  | setClock =>
    obtain rfl := Option.some.inj hstep
    exact List.Sublist.refl _
  | start | stop | send | register | expire | reference | erase | giveUp | get =>
    obtain ⟨-, hreceiving, hbuffer, htask⟩ := System.frame_of_caller rfl hstep
    change (inScanner w).Sublist (inScanner v)
    rw [inScanner, hreceiving, hbuffer, htask]
    exact List.Sublist.refl _
  | receive => cases hreceives
  | push =>
    obtain ⟨packet, hreceiving, rfl⟩ := System.push_eq_some hstep
    change (inScanner _).Sublist (inScanner v)
    rw [inScanner, inScanner, hreceiving, PacketBuffer.packets_push]
    -- a packet that finds no room is dropped
    split_ifs <;> simp
  | poll =>
    obtain ⟨hidle, tasks, task, htask, rfl⟩ := System.poll_eq_some hstep
    rcases htask with rfl | rfl <;> simp [hands, inScanner, inHand, hidle]
  | pop =>
    obtain ⟨hreading, ⟨packet, rest, hpop, rfl⟩ | rfl⟩ := System.pop_eq_some hstep
    · simp [hands, inScanner, inHand, hreading, PacketBuffer.packets_of_pop hpop]
    · simp [hands, inScanner, inHand, hreading]
  | handle =>
    obtain ⟨packet, htask, rfl⟩ := System.handle_eq_some hstep
    simp [hands, inScanner, inHand, htask]
  | sweep =>
    obtain ⟨htask, rfl⟩ := System.sweep_eq_some hstep
    simp [hands, inScanner, inHand, htask]

/-! ## Steps -/

theorem step_scan (hstep : s.step parser (.scan b) = some t) :
    receives b = false ∧ ∃ w, s.scanner.step parser b = some w ∧ t = { s with scanner := w } := by
  simp only [step] at hstep
  split_ifs at hstep with hreceives
  obtain ⟨w, hscan, rfl⟩ := Option.map_eq_some_iff.mp hstep
  exact ⟨Bool.eq_false_iff.mpr hreceives, w, hscan, rfl⟩

theorem step_arrive {room : Bool} (hstep : s.step parser (.arrive frame room) = some t) :
    t.scanner = s.scanner ∧ t.filtering = s.filtering ∧
      (t.queued.map clip).Sublist
        (s.queued.map clip ++ ((keep s.filtering frame).map clip).toList) := by
  simp only [step] at hstep
  split at hstep
  · next kept hkeeps =>
    obtain rfl := Option.some.inj hstep
    refine ⟨rfl, rfl, ?_⟩
    cases room <;> simp [hkeeps]
  · next hkeeps =>
    obtain rfl := Option.some.inj hstep
    refine ⟨rfl, rfl, ?_⟩
    simp [hkeeps]

theorem step_receive (hstep : s.step parser .receive = some t) :
    ∃ frame rest w, s.queued = frame :: rest ∧
      s.scanner.step parser (.receive (clip frame)) = some w ∧
      t = { s with scanner := w, queued := rest } := by
  simp only [step] at hstep
  split at hstep
  · next frame rest hqueued =>
    obtain ⟨w, hscan, rfl⟩ := Option.map_eq_some_iff.mp hstep
    exact ⟨frame, rest, w, hqueued, hscan, rfl⟩
  · cases hstep

/-! ## Runs -/

/-- What has been handled and what is on its way has arrived in this order. -/
structure Ordered (trace : List (FilteredScanner × Label)) (s : FilteredScanner) : Prop where
  order : (handled trace ++ onTheWay s).Sublist (receivable trace)
  unfiltered : s.filtering = false → arrivals true trace = []

/-- A response has been read off a packet that was handled, for the ping that it answers. -/
structure Answered (parser : Parser) (trace : List (FilteredScanner × Label)) (ping : Ping)
    (response : IcmpResponse) : Prop where
  srcIp_eq : response.srcIp = ping.host
  read : ∃ packet : ReceivedPacket, packet.bytes ∈ handled trace ∧
    responseAt parser packet ping.sentTime = some response

theorem handled_snoc : handled (trace ++ [(s, a)]) = handled trace ++
    match a with
    | .scan b => hands s.scanner b
    | _ => [] := by
  simp [handled]

theorem receivable_snoc (hquiet : ∀ filtering, arrives filtering (s, a) = none) :
    receivable (trace ++ [(s, a)]) = receivable trace := by
  simp [receivable, arrivals, hquiet]

theorem arrivals_snoc {filtering : Bool} :
    arrivals filtering (trace ++ [(s, a)]) = arrivals filtering trace ++
      (arrives filtering (s, a)).toList := by
  rw [arrivals, arrivals, List.filterMap_append]
  cases h : arrives filtering (s, a) <;> simp [h]

/-- A frame that arrives comes last among those that may be received. -/
theorem receivable_arrive {room : Bool}
    (hunfiltered : s.filtering = false → arrivals true trace = []) :
    receivable (trace ++ [(s, .arrive frame room)]) =
      receivable trace ++ ((keep s.filtering frame).map clip).toList := by
  rw [receivable, receivable, arrivals_snoc, arrivals_snoc]
  cases hfiltering : s.filtering with
  | true =>
    rw [keep_true]
    by_cases holds : HoldsIcmp frame <;> simp [arrives, hfiltering, holds]
  | false =>
    simp [arrives, hfiltering, hunfiltered hfiltering, keep_false]

/-- The step lemma for the order. -/
theorem Ordered.step (ordered : Ordered trace s) (hstep : s.step parser a = some t) :
    Ordered (trace ++ [(s, a)]) t := by
  cases a with
  | scan b =>
    obtain ⟨hreceives, w, hscan, rfl⟩ := step_scan hstep
    refine ⟨?_, ?_⟩
    · rw [receivable_snoc fun _ => rfl, handled_snoc, onTheWay, List.append_assoc,
        ← List.append_assoc (hands _ _)]
      refine List.Sublist.trans ?_ ordered.order
      exact (List.Sublist.refl _).append ((inScanner_of_step hreceives hscan).append (.refl _))
    · intro hfiltering
      rw [arrivals_snoc, ordered.unfiltered hfiltering]
      rfl
  | arrive frame room =>
    obtain ⟨hscanner, hfiltering, hqueued⟩ := step_arrive hstep
    refine ⟨?_, ?_⟩
    -- what arrives comes last of all that is on the way, if there is room for it
    · rw [receivable_arrive ordered.unfiltered, handled_snoc, onTheWay, hscanner, List.append_nil]
      refine List.Sublist.trans ?_ (ordered.order.append (.refl _))
      rw [onTheWay, List.append_assoc, List.append_assoc]
      exact (List.Sublist.refl _).append ((List.Sublist.refl _).append hqueued)
    · intro hfalse
      rw [hfiltering] at hfalse
      rw [arrivals_snoc, ordered.unfiltered hfalse]
      simp [arrives, hfalse]
  | attachFilter ret =>
    obtain rfl := Option.some.inj hstep
    refine ⟨?_, ?_⟩
    · rw [receivable_snoc fun _ => rfl, handled_snoc, List.append_nil]
      exact ordered.order
    · intro hfalse
      rw [arrivals_snoc, ordered.unfiltered (Bool.or_eq_false_iff.mp hfalse).1]
      rfl
  | receive =>
    obtain ⟨frame, rest, w, hqueued, hscan, rfl⟩ := step_receive hstep
    refine ⟨?_, ?_⟩
    · rw [receivable_snoc fun _ => rfl, handled_snoc, List.append_nil]
      refine List.Sublist.trans ?_ ordered.order
      -- the first of the queue comes last in the scanner
      simp [onTheWay, inScanner_receive hscan, hqueued]
    · intro hfalse
      rw [arrivals_snoc, ordered.unfiltered hfalse]
      rfl

theorem Ordered.initial : Ordered [] (initial now) where
  order := List.Sublist.refl _
  unfiltered _ := rfl

theorem Answered.snoc {ping : Ping} (answered : Answered parser trace ping response) :
    Answered parser (trace ++ [(s, a)]) ping response where
  srcIp_eq := answered.srcIp_eq
  read := by
    obtain ⟨packet, hmem, hresponse⟩ := answered.read
    rw [handled_snoc]
    exact ⟨packet, List.mem_append_left _ hmem, hresponse⟩

/-- What holds of the calls in every reachable state. -/
structure Sound (parser : Parser) (trace : List (FilteredScanner × Label)) (s : FilteredScanner) :
    Prop where
  ordered : Ordered trace s
  consistent : s.scanner.Consistent
  answered : ∀ c p ping response, s.scanner.futures c = some p → s.scanner.pings c = some ping →
    s.scanner.table.future p = .value (.ok response) → Answered parser trace ping response

theorem sound_initial (parser : Parser) (now : TimePoint) : Sound parser [] (initial now) where
  ordered := .initial
  consistent := .initial now
  answered _ _ _ _ hfuture := by cases hfuture

/-- A call whose future had a response before a step had the same ping. -/
theorem call_of_response {ping : Ping} (consistent : v.Consistent)
    (hstep : v.step parser b = some w)
    (hfuture : w.futures c = some p) (hping : w.pings c = some ping)
    (hvalue : v.table.future p = .value (.ok response)) :
    v.futures c = some p ∧ v.pings c = some ping := by
  rcases System.future_of_step hstep hfuture with hprior | ⟨-, rfl, -⟩
  · obtain ⟨ping', hping'⟩ := consistent.pinged c p hprior
    obtain rfl := Option.some.inj (((System.call_of_step hstep).1 c ping' hping').symm.trans hping)
    exact ⟨hprior, hping'⟩
  · cases PendingTable.future_next.symm.trans hvalue

/-- A step of the scanner gives a call a response of the packet that it handles. -/
theorem Sound.answered_scan (sound : Sound parser trace s)
    (hscan : s.scanner.step parser b = some w) (ping : Ping) (hfuture : w.futures c = some p)
    (hping : w.pings c = some ping) (hvalue : w.table.future p = .value (.ok response)) :
    Answered parser (trace ++ [(s, .scan b)]) ping response := by
  rcases System.response_of_step hscan hvalue with
    hprior | ⟨rfl, packet, key, entry, htask, hentry, rfl, rfl, hresponse⟩
  · obtain ⟨hfuture, hping⟩ := call_of_response sound.consistent hscan hfuture hping hprior
    exact (sound.answered c p ping response hfuture hping hprior).snoc
  · obtain ⟨packet', htask', rfl⟩ := System.handle_eq_some hscan
    obtain rfl := TaskPhase.handling.inj (htask.symm.trans htask')
    obtain ⟨hkey, hrequest⟩ := sound.consistent.routed c _ ping _ entry hfuture hping hentry rfl
    rw [hrequest] at hresponse
    refine ⟨IPv4Address.toString_injective hkey, packet, ?_, hresponse⟩
    rw [handled_snoc]
    refine List.mem_append_right _ ?_
    simp [hands, htask, inHand]

/-- The step lemma. -/
theorem Sound.step (sound : Sound parser trace s) (hstep : s.step parser a = some t) :
    Sound parser (trace ++ [(s, a)]) t := by
  have ordered := sound.ordered.step hstep
  cases a with
  | scan b =>
    obtain ⟨-, w, hscan, rfl⟩ := step_scan hstep
    exact ⟨ordered, sound.consistent.step hscan,
      fun c p ping response hfuture hping => sound.answered_scan hscan ping hfuture hping⟩
  | arrive frame room =>
    obtain ⟨hscanner, -, -⟩ := step_arrive hstep
    refine ⟨ordered, hscanner ▸ sound.consistent, fun c p ping response hfuture hping hvalue => ?_⟩
    rw [hscanner] at hfuture hping hvalue
    exact (sound.answered c p ping response hfuture hping hvalue).snoc
  | attachFilter ret =>
    obtain rfl := Option.some.inj hstep
    exact ⟨ordered, sound.consistent, fun c p ping response hfuture hping hvalue =>
      (sound.answered c p ping response hfuture hping hvalue).snoc⟩
  | receive =>
    obtain ⟨frame, rest, w, -, hscan, rfl⟩ := step_receive hstep
    refine ⟨ordered, sound.consistent.step hscan, fun c p ping response hfuture hping hvalue => ?_⟩
    -- to receive a packet settles no future
    have hframe := System.frame_of_quiet rfl hscan
    rw [hframe.2.2] at hfuture
    rw [hframe.2.1] at hping
    rw [hframe.1] at hvalue
    exact (sound.answered c p ping response hfuture hping hvalue).snoc

/-- What the scanner gets to see of the frames on the wire. -/
structure SeesIcmp (parser : Parser) (trace : List (FilteredScanner × Label))
    (s : FilteredScanner) : Prop where
  /-- First come frames from before the filter, and then only ICMP packets, both in the
  order of their arrival. -/
  handled : ∃ stale fresh, handled trace = stale ++ fresh ∧
    stale.Sublist ((arrivals false trace).map clip) ∧
    fresh.Sublist ((arrivals true trace).map clip) ∧ ∀ bytes ∈ fresh, HoldsIcmp bytes
  /-- Each response has been read off one of these. -/
  answered : ∀ c ping response, s.scanner.pings c = some ping →
    s.scanner.futureState c = .value (.ok response) → Answered parser trace ping response
  /-- The call that attaches the filter reports a failure. -/
  unreported : ∀ v ret w, (v, .attachFilter ret) ∈ trace →
    v.step parser (.attachFilter ret) = some w → v.filtering = false → w.filtering = true →
    attachReports ret = false

/-- **In every run the scanner handles frames that arrived before its filter, and after
them nothing but ICMP packets, in the order of their arrival; each successful answer has
been read off one of these, which comes from the pinged host.** -/
theorem seesIcmp_of_run (parser : Parser) (now : TimePoint)
    (trace : List (FilteredScanner × Label)) (s : FilteredScanner)
    (run : Run (step parser) (initial now) trace s) : SeesIcmp parser trace s := by
  have sound : Sound parser trace s :=
    run.induction_of_guard (C := fun _ _ => True) (sound_initial parser now)
      (fun _ _ _ _ sound _ hstep => sound.step hstep) fun _ _ => trivial
  refine ⟨?_, ?_, fun v ret w _ => attachReports_eq_false⟩
  · have hhandled := (List.sublist_append_left _ _).trans sound.ordered.order
    -- what is handled is from before the filter first, and then from behind it
    obtain ⟨stale, fresh, hsplit, hstale, hfresh⟩ := List.sublist_append_iff.mp hhandled
    refine ⟨stale, fresh, hsplit, hstale, hfresh.trans (List.filter_sublist.map _), ?_⟩
    intro bytes hbytes
    obtain ⟨frame, hframe, rfl⟩ := List.mem_map.mp (hfresh.subset hbytes)
    exact holdsIcmp_clip.mpr (of_decide_eq_true (List.mem_filter.mp hframe).2)
  · intro c ping response hping hstate
    cases hfuture : s.scanner.futures c with
    | none => simp [System.futureState, hfuture] at hstate
    | some p =>
      rw [System.futureState, hfuture] at hstate
      exact sound.answered c p ping response hfuture hping hstate

/-- A datagram that arrives before the filter answers a ping; one that arrives after it is
not seen. -/
def datagramBeforeFilter : List Label :=
  [.arrive datagram.bytes true, .attachFilter 0, .arrive datagram.bytes true,
    .arrive (Packet.sampleReply 8) true, .scan (.send 0 (.ofOctets 10 0 0 7) false),
    .scan (.register 0), .scan .start, .receive, .scan .push, .receive, .scan .push, .scan .poll,
    .scan .pop, .scan .handle]

theorem seesIcmp_datagramBeforeFilter :
    ∃ final, exec (step Packet.parse) (initial 0) datagramBeforeFilter = some final ∧
      final.scanner.futureState 0 ≠ .unset ∧
      SeesIcmp Packet.parse (record (step Packet.parse) (initial 0) datagramBeforeFilter)
        final := by
  have hexec := Option.some_get (x := exec (step Packet.parse) (initial 0) datagramBeforeFilter)
    (by decide)
  exact ⟨_, hexec.symm, by decide, seesIcmp_of_run _ _ _ _ (Run.of_exec hexec.symm)⟩

end FilteredScanner

end NetDiscovery.Net
