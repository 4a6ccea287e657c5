/-
# The command loop

`main` reads characters: it stops at a `q` or a zero byte, skips newlines, lets the
discovery tasks forget their results at a `c`, and calls `requestSystem` at any other
character. The session and the default runner go on beside it until it stops.

`getchar` returns an `int`, and -1 at the end of the input. That is none of the characters
the loop knows: an input that ends without a `q` or a zero byte is followed by requests
without end.
-/

import NetDiscovery.Net.IPv4AddressForms
import NetDiscovery.Services.DeviceDiscoveryService
import NetDiscovery.Services.SnmpServiceProgress

namespace NetDiscovery.Net

namespace IPv4Address

/-- `IPv4Address::loopback`. -/
def loopback : IPv4Address :=
  .ofOctets 127 0 0 1

example : parseList [127, 0, 0, 1] .hostOrder = .ok loopback :=
  (parseList_eq_parseArray _).trans parseArray_hostOrder

/-- `IPv4Address::localhost`. -/
def localhost : IPv4Address :=
  loopback

end IPv4Address

end NetDiscovery.Net

namespace NetDiscovery.App

open NetDiscovery.Net NetDiscovery.Net.SnmpClient NetDiscovery.Semantics NetDiscovery.Services
open NetDiscovery.Util

/-- `std::getchar()`: the next byte, or `EOF`. -/
def getchar : List UInt8 → ℤ
  | [] => -1
  | c :: _ => c.toNat

/-- What the loop does with a character. -/
inductive Command
  | leave
  | skip
  | clearResults
  | requestSystem
  deriving DecidableEq

/-- The tests of the loop, in the order in which it makes them. -/
def command (c : ℤ) : Command :=
  -- the condition of the loop; -1 is true
  if c = 0 then .leave
  else if c = '\n'.toNat then .skip
  else if c = 'q'.toNat then .leave
  else if c = 'c'.toNat then .clearResults
  else .requestSystem

/-- The characters that end the loop. -/
def endsLoop (c : UInt8) : Bool :=
  c = 0 ∨ c = 'q'.toUInt8

/-- The requests that are made for a text. -/
def requestCount (input : List UInt8) : ℕ :=
  (input.takeWhile fun c => !endsLoop c).countP fun c => c ≠ '\n'.toUInt8 ∧ c ≠ 'c'.toUInt8

theorem command_of_endsLoop {c : UInt8} (hends : endsLoop c = true) :
    command c.toNat = .leave := by
  rcases of_decide_eq_true hends with rfl | rfl <;> rfl

theorem toNat_eq_iff {c d : UInt8} {z : ℤ} (hd : (d.toNat : ℤ) = z) :
    (c.toNat : ℤ) = z ↔ c = d := by
  rw [← hd, Int.natCast_inj, UInt8.toNat_inj]

theorem command_of_goes {c : UInt8} (hgoes : endsLoop c = false) :
    command c.toNat = if c = '\n'.toUInt8 then .skip
      else if c = 'c'.toUInt8 then .clearResults else .requestSystem := by
  have hzero : (c.toNat : ℤ) = 0 ↔ c = 0 := toNat_eq_iff rfl
  have hnewline : (c.toNat : ℤ) = '\n'.toNat ↔ c = '\n'.toUInt8 := toNat_eq_iff rfl
  have hq : (c.toNat : ℤ) = 'q'.toNat ↔ c = 'q'.toUInt8 := toNat_eq_iff rfl
  have hc : (c.toNat : ℤ) = 'c'.toNat ↔ c = 'c'.toUInt8 := toNat_eq_iff rfl
  obtain ⟨hnonzero, hother⟩ : c ≠ 0 ∧ c ≠ 'q'.toUInt8 := by simpa [endsLoop] using hgoes
  simp only [command, hzero, hnewline, hq, hc, hnonzero, hother, if_false]

theorem requestCount_cons {c : UInt8} (hgoes : endsLoop c = false) (rest : List UInt8) :
    requestCount (c :: rest) = requestCount rest +
      if c ≠ '\n'.toUInt8 ∧ c ≠ 'c'.toUInt8 then 1 else 0 := by
  rw [requestCount, List.takeWhile_cons_of_pos (by simp [hgoes]), List.countP_cons, requestCount]
  simp

/-- Of the other characters a newline and a `c` are not followed by a request. -/
theorem command_cases {c : UInt8} (hgoes : endsLoop c = false) (rest : List UInt8) :
    (command c.toNat = .skip ∨ command c.toNat = .clearResults) ∧
        requestCount (c :: rest) = requestCount rest ∨
      command c.toNat = .requestSystem ∧
        requestCount (c :: rest) = requestCount rest + 1 := by
  rw [command_of_goes hgoes, requestCount_cons hgoes]
  by_cases hnewline : c = '\n'.toUInt8
  · rw [if_pos hnewline, if_neg fun h => h.1 hnewline]
    exact .inl ⟨.inl rfl, rfl⟩
  · by_cases hclear : c = 'c'.toUInt8
    · rw [if_neg hnewline, if_pos hclear, if_neg fun h => h.2 hclear]
      exact .inl ⟨.inr rfl, rfl⟩
    · rw [if_neg hnewline, if_neg hclear, if_pos ⟨hnewline, hclear⟩]
      exact .inr ⟨rfl, rfl⟩

/-- An input with such a character has a first one. -/
theorem exists_first {input : List UInt8} (hends : ∃ c ∈ input, endsLoop c = true) :
    ∃ text c rest, input = text ++ c :: rest ∧ (∀ d ∈ text, endsLoop d = false) ∧
      endsLoop c = true ∧ requestCount input = requestCount text := by
  induction input with
  | nil => simp at hends
  | cons d input ih =>
    cases hd : endsLoop d with
    | true =>
      refine ⟨[], d, input, rfl, by simp, hd, ?_⟩
      rw [requestCount, List.takeWhile_cons_of_neg (by simp [hd])]
      rfl
    | false =>
      have hlater : ∃ c ∈ input, endsLoop c = true := by simpa [hd] using hends
      obtain ⟨text, c, rest, rfl, hgoes, hc, hcount⟩ := ih hlater
      refine ⟨d :: text, c, rest, rfl, by simpa [hd] using hgoes, hc, ?_⟩
      rw [requestCount_cons hd, requestCount_cons hd, hcount]

/-- Where `main` is. -/
inductive Stage
  | reading
  /-- in `requestSystem` -/
  | requesting
  /-- it has left the loop -/
  | stopped
  deriving DecidableEq

/-- `main` with its services. -/
structure Program (E : Type*) where
  /-- what has not been read -/
  input : List UInt8
  stage : Stage
  /-- the calls of `requestSystem` that have returned -/
  requests : ℕ
  discovery : DeviceDiscoveryService DeviceDiscoveryTask
  service : SnmpService E

namespace Program

variable {E : Type*}

/-- At the head of the loop, with one discovery task. -/
def initial (input : List UInt8) : Program E where
  input := input
  stage := .reading
  requests := 0
  discovery := ⟨[.empty]⟩
  service := .initial

/-- The steps of `main` and of the other threads. -/
inductive Label (E : Type*)
  /-- `getchar`, and what follows up to the first statement of `requestSystem` -/
  | read
  /-- a further statement of `requestSystem` -/
  | call (l : SnmpService.Label E)
  /-- a step of the session or of the runner -/
  | thread (l : SnmpService.Label E)

/-- The further statements of `requestSystem`. -/
def ofCall (uuid : Uuid) : SnmpService.Label E → Bool
  | .session (.handOver other _) | .session (.takeFuture other) | .postResolver other =>
    other = uuid
  | _ => false

/-- The steps of the session's thread and of the runner's. -/
def ofThread : SnmpService.Label E → Bool
  | .session (.callback _ _ _ _) | .runner _ | .poll | .callbackReturns | .callbackThrows _ => true
  | _ => false

variable (p : Program E)

/-- The post is the last statement of a call. -/
def afterCall (service : SnmpService E) : SnmpService.Label E → Program E
  | .postResolver _ =>
    { p with stage := .reading, requests := p.requests + 1, service := service }
  | _ => { p with service := service }

/-- One step; the threads end with `main`. -/
def step (p : Program E) : Label E → Option (Program E)
  | .read =>
    match p.stage, command (getchar p.input) with
    | .reading, .leave => some { p with input := p.input.tail, stage := .stopped }
    | .reading, .skip => some { p with input := p.input.tail }
    | .reading, .clearResults => some
      { p with input := p.input.tail, discovery := p.discovery.clearResults }
    | .reading, .requestSystem =>
      (p.service.step (SnmpService.requestSystem p.requests .localhost)).map fun service =>
        { p with input := p.input.tail, stage := .requesting, service := service }
    | _, _ => none
  | .call l =>
    if p.stage = .requesting ∧ ofCall p.requests l then
      (p.service.step l).map fun service => p.afterCall service l
    else none
  | .thread l =>
    if p.stage ≠ .stopped ∧ ofThread l then
      (p.service.step l).map fun service => { p with service := service }
    else none

/-- A step as the SNMP service sees it. -/
def serviceLabel : Program E × Label E → Option (SnmpService.Label E)
  | (p, .read) =>
    if command (getchar p.input) = .requestSystem then
      some (SnmpService.requestSystem p.requests .localhost)
    else none
  | (_, .call l) | (_, .thread l) => some l

/-- Where `main` is, how often it has requested and what it has not read. -/
def At (stage : Stage) (k : ℕ) (rest : List UInt8) : Prop :=
  p.stage = stage ∧ p.requests = k ∧ p.input = rest

/-! ## Steps -/

variable {p} {q : Program E} {l : Label E} {stage : Stage} {k : ℕ} {rest : List UInt8}

/-- A step of the program is one of the service, or nothing to it. -/
theorem service_of_step (hstep : p.step l = some q) :
    StepOrStay SnmpService.step p.service (serviceLabel (p, l)) q.service := by
  cases l with
  | read =>
    simp only [step] at hstep
    split at hstep
    case h_4 hcommand =>
      obtain ⟨service, hservice, rfl⟩ := Option.map_eq_some_iff.mp hstep
      rw [serviceLabel, if_pos hcommand]
      exact hservice
    case h_5 => cases hstep
    all_goals
      obtain rfl := Option.some.inj hstep
      rename_i hcommand
      simp [StepOrStay, serviceLabel, hcommand]
  | call l =>
    simp only [step] at hstep
    split_ifs at hstep
    obtain ⟨service, hservice, rfl⟩ := Option.map_eq_some_iff.mp hstep
    cases l <;> exact hservice
  | thread l =>
    simp only [step] at hstep
    split_ifs at hstep
    obtain ⟨service, hservice, rfl⟩ := Option.map_eq_some_iff.mp hstep
    exact hservice

/-- What a read comes to. -/
def Follows (k : ℕ) (rest : List UInt8) (q : Program E) : Prop :=
  match command (getchar rest) with
  | .leave => q.At .stopped k rest.tail
  | .skip | .clearResults => q.At .reading k rest.tail
  | .requestSystem => q.At .requesting k rest.tail

theorem follows_of_read (hstep : p.step .read = some q) (hat : p.At .reading k rest) :
    Follows k rest q := by
  obtain ⟨hstage, rfl, rfl⟩ := hat
  simp only [step, hstage] at hstep
  unfold Follows
  split at hstep
  case h_4 _ hcommand =>
    obtain ⟨service, -, rfl⟩ := Option.map_eq_some_iff.mp hstep
    rw [hcommand]
    exact ⟨rfl, rfl, rfl⟩
  case h_5 => cases hstep
  all_goals
    obtain rfl := Option.some.inj hstep
    rename_i hcommand
    rw [hcommand]
    exact ⟨rfl, rfl, rfl⟩

theorem reading_of_read (hstep : p.step .read = some q) : p.stage = .reading := by
  simp only [step] at hstep
  split at hstep
  case h_5 => cases hstep
  all_goals assumption

theorem Follows.requests (follows : Follows k rest q) : q.requests = k := by
  unfold Follows at follows
  split at follows
  all_goals exact follows.2.1

theorem Follows.input (follows : Follows k rest q) : q.input = rest.tail := by
  unfold Follows at follows
  split at follows
  all_goals exact follows.2.2

theorem Follows.command_of_requesting (follows : Follows k rest q)
    (hcalls : q.stage = .requesting) : command (getchar rest) = .requestSystem := by
  unfold Follows at follows
  split at follows
  case h_4 hcommand => exact hcommand
  all_goals cases follows.1.symm.trans hcalls

theorem Follows.command_of_stopped (follows : Follows k rest q) (hstopped : q.stage = .stopped) :
    command (getchar rest) = .leave := by
  unfold Follows at follows
  split at follows
  case h_1 hcommand => exact hcommand
  all_goals cases follows.1.symm.trans hstopped

/-- Between two characters `main` stays where it is until its call returns. -/
theorem at_of_step (hstep : p.step l = some q) (hat : p.At stage k rest) (hread : l ≠ .read) :
    q.At stage k rest ∧ l ≠ .call (.postResolver k) ∨
      stage = .requesting ∧ l = .call (.postResolver k) ∧ p.service.session.Returned k ∧
        q.At .reading (k + 1) rest := by
  obtain ⟨rfl, rfl, rfl⟩ := hat
  cases l with
  | read => exact absurd rfl hread
  | call l =>
    simp only [step] at hstep
    split_ifs at hstep with hcall
    obtain ⟨service, hservice, rfl⟩ := Option.map_eq_some_iff.mp hstep
    cases l with
    | postResolver uuid =>
      obtain rfl : uuid = p.requests := of_decide_eq_true hcall.2
      exact .inr ⟨hcall.1, rfl, SnmpService.returned_of_post hservice, rfl, rfl, rfl⟩
    | session | runner | poll | callbackReturns | callbackThrows =>
      exact .inl ⟨⟨rfl, rfl, rfl⟩, by simp⟩
  | thread l =>
    simp only [step] at hstep
    split_ifs at hstep
    obtain ⟨service, -, rfl⟩ := Option.map_eq_some_iff.mp hstep
    exact .inl ⟨⟨rfl, rfl, rfl⟩, by simp⟩

/-- A step reads a character, leaves `main` where it is, or ends its call. -/
theorem cases_of_step (hstep : p.step l = some q) :
    (l = .read ∧ p.stage = .reading ∧ Follows p.requests p.input q) ∨
      (l ≠ .read ∧ q.At p.stage p.requests p.input ∧ l ≠ .call (.postResolver p.requests)) ∨
      l = .call (.postResolver p.requests) ∧ p.stage = .requesting ∧
        q.At .reading (p.requests + 1) p.input := by
  have hat : p.At p.stage p.requests p.input := ⟨rfl, rfl, rfl⟩
  by_cases hread : l = .read
  · subst hread
    have hreading := reading_of_read hstep
    exact .inl ⟨rfl, hreading, follows_of_read hstep (hreading ▸ hat)⟩
  · rcases at_of_step hstep hat hread with ⟨hstays, hquiet⟩ | ⟨hcalls, hposts, -, hreads⟩
    · exact .inr (.inl ⟨hread, hstays, hquiet⟩)
    · exact .inr (.inr ⟨hposts, hcalls, hreads⟩)

/-- A request is created when a character is read. -/
theorem read_of_creates (hstep : p.step l = some q) {uuid : Uuid}
    {call : SnmpSession.Call} {host : IPv4Address}
    (hlabel : serviceLabel (p, l) = some (.session (.createRequest uuid call host))) :
    l = .read ∧ uuid = p.requests ∧ command (getchar p.input) = .requestSystem := by
  cases l with
  | read =>
    rw [serviceLabel] at hlabel
    split_ifs at hlabel with hcommand
    cases hlabel
    exact ⟨rfl, rfl, hcommand⟩
  | call l =>
    obtain rfl := Option.some.inj hlabel
    simp [step, ofCall] at hstep
  | thread l =>
    obtain rfl := Option.some.inj hlabel
    simp [step, ofThread] at hstep

/-- And its resolver is posted by its call. -/
theorem call_of_posts (hstep : p.step l = some q) {uuid : Uuid}
    (hlabel : serviceLabel (p, l) = some (.postResolver uuid)) :
    l = .call (.postResolver p.requests) ∧ uuid = p.requests := by
  cases l with
  | read =>
    rw [serviceLabel] at hlabel
    split_ifs at hlabel
    cases hlabel
  | call l =>
    obtain rfl := Option.some.inj hlabel
    simp only [step] at hstep
    split_ifs at hstep with hcall
    obtain rfl : uuid = p.requests := of_decide_eq_true hcall.2
    exact ⟨rfl, rfl⟩
  | thread l =>
    obtain rfl := Option.some.inj hlabel
    simp [step, ofThread] at hstep

theorem new_of_step (coherent : p.service.session.Coherent) (hstep : p.step l = some q)
    {uuid : Uuid} (hnew : (p.service.session.tracks uuid).stage = .createRequest)
    (hother : l = .read → uuid = p.requests → command (getchar p.input) ≠ .requestSystem) :
    (q.service.session.tracks uuid).stage = .createRequest := by
  have hservice := service_of_step hstep
  cases hlabel : serviceLabel (p, l) with
  | none =>
    rw [hlabel] at hservice
    exact hservice ▸ hnew
  | some c =>
    rw [hlabel] at hservice
    have hsession := SnmpService.session_of_step hservice
    cases c with
    | session a =>
      refine coherent.new_of_step hnew hsession ?_
      rintro call host rfl
      obtain ⟨hread, huuid, hcommand⟩ := read_of_creates hstep hlabel
      exact hother hread huuid hcommand
    | postResolver | runner | poll | callbackReturns | callbackThrows => exact hsession ▸ hnew

theorem unposted_of_step (hstep : p.step l = some q) {uuid : Uuid}
    (hnew : p.service.posted uuid = false)
    (hother : l = .call (.postResolver p.requests) → uuid ≠ p.requests) :
    q.service.posted uuid = false := by
  have hservice := service_of_step hstep
  cases hlabel : serviceLabel (p, l) with
  | none =>
    rw [hlabel] at hservice
    exact hservice ▸ hnew
  | some c =>
    rw [hlabel] at hservice
    have hposts : c ≠ .postResolver uuid := by
      rintro rfl
      obtain ⟨hposts, huuid⟩ := call_of_posts hstep hlabel
      exact hother hposts huuid
    have hiff : q.service.posted uuid = true ↔
        p.service.posted uuid = true ∨ c = .postResolver uuid :=
      (SnmpService.posted_of_step hservice).2
    simpa [hnew, hposts] using hiff

/-- The session and the runner know nothing of the requests to come. -/
structure Fresh (p : Program E) : Prop where
  later : ∀ uuid, p.requests < uuid → (p.service.session.tracks uuid).stage = .createRequest
  next : p.stage = .reading → (p.service.session.tracks p.requests).stage = .createRequest
  unposted : ∀ uuid, p.requests ≤ uuid → p.service.posted uuid = false

theorem Fresh.step (fresh : p.Fresh) (coherent : p.service.session.Coherent)
    (hstep : p.step l = some q) : q.Fresh := by
  have hkept : l ≠ .read → ∀ uuid, (p.service.session.tracks uuid).stage = .createRequest →
      (q.service.session.tracks uuid).stage = .createRequest := fun hread uuid hnew =>
    new_of_step coherent hstep hnew fun hl => absurd hl hread
  rcases cases_of_step hstep with ⟨rfl, hreading, follows⟩ | ⟨hread, ⟨hstage, hsame, -⟩, hquiet⟩ |
    ⟨rfl, -, -, hmore, -⟩
  · have hsame : q.requests = p.requests := follows.requests
    refine ⟨fun uuid hlt => ?_, fun hagain => ?_, fun uuid hle => ?_⟩
    · rw [hsame] at hlt
      exact new_of_step coherent hstep (fresh.later uuid hlt) fun _ heq => absurd heq hlt.ne'
    · -- if the next request had been created `main` would be in its call
      rw [hsame]
      refine new_of_step coherent hstep (fresh.next hreading) fun _ _ hcommand => ?_
      rw [Follows, hcommand] at follows
      cases hagain.symm.trans follows.1
    · exact unposted_of_step hstep (fresh.unposted uuid (hsame ▸ hle)) fun hposts => by cases hposts
  · refine ⟨fun uuid hlt => ?_, fun hreading => ?_, fun uuid hle => ?_⟩
    · exact hkept hread uuid (fresh.later uuid (hsame ▸ hlt))
    · rw [hsame]
      exact hkept hread _ (fresh.next (hstage.symm.trans hreading))
    · exact unposted_of_step hstep (fresh.unposted uuid (hsame ▸ hle)) fun hposts =>
        absurd hposts hquiet
  · -- the next request is one of the later ones
    refine ⟨fun uuid hlt => ?_, fun _ => ?_, fun uuid hle => ?_⟩
    · exact hkept (by simp) uuid (fresh.later uuid (by omega))
    · exact hkept (by simp) _ (fresh.later _ (by omega))
    · have hlt : p.requests < uuid := by omega
      exact unposted_of_step hstep (fresh.unposted uuid hlt.le) fun _ => hlt.ne'

/-- Nothing follows on the end of the loop. -/
theorem not_step_of_stopped (hstopped : p.stage = .stopped) : p.step l = none := by
  cases l with
  | read => simp [step, hstopped]
  | call l | thread l => simp [step, hstopped]

/-! ## Behaviours -/

section Behaviours

variable {input : List UInt8} {b : Behaviour step (initial input : Program E)} {mib : Mib}
  {m n : ℕ}

/-- What the SNMP service does. -/
def serviceBehaviour (b : Behaviour step (initial input : Program E)) :
    Behaviour SnmpService.step (SnmpService.initial : SnmpService E) :=
  b.component Program.service serviceLabel fun _ _ hlabel =>
    service_of_step (b.step_of_label hlabel)

/-- And its session. -/
def sessionBehaviour (b : Behaviour step (initial input : Program E)) :
    Behaviour SnmpSession.step SnmpSession.initial :=
  SnmpService.sessionBehaviour (serviceBehaviour b)

theorem label_sessionBehaviour {a : SnmpSession.Label}
    (hlabel : b.label n = some (.call (.session a))) :
    (sessionBehaviour b).label n = some a := by
  have hservice : (serviceBehaviour b).label n = some (.session a) :=
    Behaviour.label_component hlabel
  exact SnmpService.label_sessionBehaviour hservice

theorem exists_label_of_sessionBehaviour {a : SnmpSession.Label}
    (hlabel : (sessionBehaviour b).label n = some a) :
    ∃ l, b.label n = some l ∧ (serviceLabel (b.state n, l)).bind
      (fun c => SnmpService.sessionLabel ((b.state n).service, c)) = some a := by
  obtain ⟨c, hservice, hsession⟩ := SnmpService.exists_label_of_sessionBehaviour hlabel
  obtain ⟨l, hl, hc⟩ : ∃ l, b.label n = some l ∧ serviceLabel (b.state n, l) = some c :=
    Behaviour.exists_label_of_component hservice
  exact ⟨l, hl, Option.bind_eq_some_iff.mpr ⟨c, hc, hsession⟩⟩

/-- `main` goes on. -/
structure Fair (b : Behaviour step (initial input : Program E)) : Prop where
  reads : b.Answers (fun p => p.stage = .reading) fun _ l => l = .read
  handsOver : b.Answers
    (fun p => p.stage = .requesting ∧
      ∃ operation, (p.service.session.tracks p.requests).stage = .handOver operation)
    fun p l => ∃ accepted, l = .call (.session (.handOver p.requests accepted))
  takesFuture : b.Answers
    (fun p => p.stage = .requesting ∧
      (p.service.session.tracks p.requests).stage = .takeFuture)
    fun p l => l = .call (.session (.takeFuture p.requests))
  posts : b.Answers
    (fun p => p.stage = .requesting ∧ p.service.session.Returned p.requests)
    fun p l => l = .call (.postResolver p.requests)

/-- The agent serves every request that is made. -/
def Served (b : Behaviour step (initial input : Program E)) (mib : Mib) : Prop :=
  ∀ uuid, SnmpSession.Served (sessionBehaviour b) mib uuid

/-- A call whose walk is underway. -/
def Calling (mib : Mib) (p : Program E) (k : ℕ) (rest : List UInt8) : Prop :=
  p.At .requesting k rest ∧ p.service.session.Underway mib k .ifTable

theorem at_next (hat : (b.state n).At stage k rest) (hread : b.label n ≠ some .read) :
    (b.state (n + 1)).At stage k rest ∧ b.label n ≠ some (.call (.postResolver k)) ∨
      stage = .requesting ∧ b.label n = some (.call (.postResolver k)) ∧
        (b.state n).service.session.Returned k ∧ (b.state (n + 1)).At .reading (k + 1) rest := by
  rcases b.next_cases n with ⟨hlabel, hstays⟩ | ⟨l, hlabel, hstep⟩
  · exact .inl ⟨hstays ▸ hat, by simp [hlabel]⟩
  · rw [hlabel] at hread ⊢
    simpa using at_of_step hstep hat (fun hl => hread (congrArg some hl))

theorem not_read_of_requesting (hat : (b.state n).At .requesting k rest) :
    b.label n ≠ some .read := by
  intro hlabel
  have hstep := b.step_of_label hlabel
  simp [step, hat.1] at hstep

theorem stopped_stable (hle : m ≤ n) (hat : (b.state m).At .stopped k rest) :
    (b.state n).At .stopped k rest := by
  refine b.stable (P := fun p => p.At .stopped k rest) ?_ hle hat
  intro v a w hstopped hstep
  cases (not_step_of_stopped hstopped.1).symm.trans hstep

/-- A call that is underway goes on, or has taken its future and returns. -/
theorem calling_next (served : Served b mib) (calling : Calling mib (b.state n) k rest) :
    Calling mib (b.state (n + 1)) k rest ∧ b.label n ≠ some (.call (.postResolver k)) ∨
      (b.state n).service.session.Returned k ∧ (b.state (n + 1)).At .reading (k + 1) rest := by
  have hunderway : (b.state (n + 1)).service.session.Underway mib k .ifTable :=
    SnmpSession.underway_next (b := sessionBehaviour b) (served k) calling.2
  rcases at_next calling.1 (not_read_of_requesting calling.1) with
    ⟨hstays, hquiet⟩ | ⟨-, -, hreturns⟩
  · exact .inl ⟨⟨hstays, hunderway⟩, hquiet⟩
  · exact .inr hreturns

/-- It is at one of its statements. -/
theorem statement_next (served : Served b mib) (calling : Calling mib (b.state n) k rest) :
    (Calling mib (b.state (n + 1)) k rest ∧
        ((b.state (n + 1)).service.session.tracks k).stage =
          ((b.state n).service.session.tracks k).stage ∧
        (∀ accepted, b.label n ≠ some (.call (.session (.handOver k accepted)))) ∧
        b.label n ≠ some (.call (.session (.takeFuture k)))) ∨
      (Calling mib (b.state (n + 1)) k rest ∧
        (∃ operation, ((b.state n).service.session.tracks k).stage = .handOver operation) ∧
        ((b.state (n + 1)).service.session.tracks k).stage = .takeFuture) ∨
      (Calling mib (b.state (n + 1)) k rest ∧
        ((b.state n).service.session.tracks k).stage = .takeFuture ∧
        (b.state (n + 1)).service.session.Returned k) ∨
      (b.state n).service.session.Returned k ∧ (b.state (n + 1)).At .reading (k + 1) rest := by
  rcases calling_next served calling with ⟨hgoes, -⟩ | hreturns
  · rcases SnmpSession.stage_next (b := sessionBehaviour b) calling.2 with
      ⟨hsame, hhands, htakes⟩ | hhands | htakes
    · refine .inl ⟨hgoes, hsame, fun accepted hlabel => ?_, fun hlabel => ?_⟩
      · exact hhands ⟨_, label_sessionBehaviour hlabel, accepted, rfl⟩
      · exact htakes ⟨_, label_sessionBehaviour hlabel, rfl⟩
    · exact .inr (.inl ⟨hgoes, hhands⟩)
    · exact .inr (.inr (.inl ⟨hgoes, htakes⟩))
  · exact .inr (.inr (.inr hreturns))

/-! ## One character -/

/-- What a character comes to, its call included. -/
def Deals (k : ℕ) (rest : List UInt8) (q : Program E) : Prop :=
  match command (getchar rest) with
  | .leave => q.At .stopped k rest.tail
  | .skip | .clearResults => q.At .reading k rest.tail
  | .requestSystem => q.At .reading (k + 1) rest.tail

/-- A read starts what follows on it. -/
theorem follows_next (mib : Mib) (hat : (b.state n).At .reading k rest)
    (hlabel : b.label n = some .read) :
    Follows k rest (b.state (n + 1)) ∧ (command (getchar rest) = .requestSystem →
      Calling mib (b.state (n + 1)) k rest.tail ∧ ∃ operation,
        ((b.state (n + 1)).service.session.tracks k).stage = .handOver operation) := by
  have follows := follows_of_read (b.step_of_label hlabel) hat
  refine ⟨follows, fun hcommand => ?_⟩
  have hservice : (serviceBehaviour b).label n =
      some (SnmpService.requestSystem k .localhost) := by
    refine (Behaviour.label_component hlabel).trans ?_
    rw [serviceLabel, hat.2.1, hat.2.2, if_pos hcommand]
  have hcall : (sessionBehaviour b).label n =
      some (.createRequest k (.walk .ifTable) .localhost) :=
    SnmpService.label_sessionBehaviour hservice
  have hunsent := SnmpSession.unsent_of_call hcall
  rw [Follows, hcommand] at follows
  refine ⟨⟨follows, .inl hunsent⟩, ?_⟩
  obtain ⟨p, request, -, -, -, unsent⟩ := hunsent
  exact ⟨_, unsent.stage⟩

theorem leadsTo_follows (fair : Fair b) (mib : Mib) (k : ℕ) (rest : List UInt8) :
    LeadsTo (fun n => (b.state n).At .reading k rest) fun n =>
      Follows k rest (b.state n) ∧ (command (getchar rest) = .requestSystem →
        Calling mib (b.state n) k rest.tail ∧ ∃ operation,
          ((b.state n).service.session.tracks k).stage = .handOver operation) := by
  refine Behaviour.leadsTo_of_answers fair.reads (fun n hat => hat.1) ?_ ?_
  · intro n hat
    by_cases hread : b.label n = some .read
    · exact .inr (follows_next mib hat hread)
    · rcases at_next hat hread with ⟨hstays, -⟩ | ⟨hcalls, -⟩
      · exact .inl hstays
      · cases hcalls
  · rintro n l hat hlabel rfl
    exact follows_next mib hat hlabel

section Call

variable (fair : Fair b) (served : Served b mib)

include fair served

theorem leadsTo_takeFuture (k : ℕ) (rest : List UInt8) :
    LeadsTo (fun n => Calling mib (b.state n) k rest ∧
        ∃ operation, ((b.state n).service.session.tracks k).stage = .handOver operation)
      fun n => Calling mib (b.state n) k rest ∧
        ((b.state n).service.session.tracks k).stage = .takeFuture := by
  refine Behaviour.leadsTo_of_answers fair.handsOver ?_ ?_ ?_
  · rintro n ⟨⟨⟨hstage, rfl, -⟩, -⟩, hhands⟩
    exact ⟨hstage, hhands⟩
  · rintro n ⟨calling, operation, hstage⟩
    rcases statement_next served calling with ⟨hgoes, hsame, -⟩ | ⟨hgoes, -, htakes⟩ |
      ⟨-, htakes, -⟩ | ⟨⟨p, hreturned⟩, -⟩
    · exact .inl ⟨hgoes, operation, hsame.trans hstage⟩
    · exact .inr ⟨hgoes, htakes⟩
    · cases hstage.symm.trans htakes
    · cases hstage.symm.trans hreturned
  · rintro n l ⟨calling, operation, hstage⟩ hlabel ⟨accepted, rfl⟩
    rw [calling.1.2.1] at hlabel
    rcases statement_next served calling with ⟨-, -, hquiet, -⟩ | ⟨hgoes, -, htakes⟩ |
      ⟨-, htakes, -⟩ | ⟨⟨p, hreturned⟩, -⟩
    · exact absurd hlabel (hquiet accepted)
    · exact ⟨hgoes, htakes⟩
    · cases hstage.symm.trans htakes
    · cases hstage.symm.trans hreturned

theorem leadsTo_returned (k : ℕ) (rest : List UInt8) :
    LeadsTo (fun n => Calling mib (b.state n) k rest ∧
        ((b.state n).service.session.tracks k).stage = .takeFuture)
      fun n => Calling mib (b.state n) k rest ∧ (b.state n).service.session.Returned k := by
  refine Behaviour.leadsTo_of_answers fair.takesFuture ?_ ?_ ?_
  · rintro n ⟨⟨⟨hstage, rfl, -⟩, -⟩, htakes⟩
    exact ⟨hstage, htakes⟩
  · rintro n ⟨calling, hstage⟩
    rcases statement_next served calling with ⟨hgoes, hsame, -⟩ | ⟨-, ⟨operation, hhands⟩, -⟩ |
      ⟨hgoes, -, hreturned⟩ | ⟨⟨p, hreturned⟩, -⟩
    · exact .inl ⟨hgoes, hsame.trans hstage⟩
    · cases hstage.symm.trans hhands
    · exact .inr ⟨hgoes, hreturned⟩
    · cases hstage.symm.trans hreturned
  · rintro n l ⟨calling, hstage⟩ hlabel rfl
    rw [calling.1.2.1] at hlabel
    rcases statement_next served calling with ⟨-, -, -, hquiet⟩ | ⟨-, ⟨operation, hhands⟩, -⟩ |
      ⟨hgoes, -, hreturned⟩ | ⟨⟨p, hreturned⟩, -⟩
    · exact absurd hlabel hquiet
    · cases hstage.symm.trans hhands
    · exact ⟨hgoes, hreturned⟩
    · cases hstage.symm.trans hreturned

theorem leadsTo_reading (k : ℕ) (rest : List UInt8) :
    LeadsTo (fun n => Calling mib (b.state n) k rest ∧ (b.state n).service.session.Returned k)
      fun n => (b.state n).At .reading (k + 1) rest := by
  refine Behaviour.leadsTo_of_answers fair.posts ?_ ?_ ?_
  · rintro n ⟨⟨⟨hstage, rfl, -⟩, -⟩, hreturned⟩
    exact ⟨hstage, hreturned⟩
  · rintro n ⟨calling, hreturned⟩
    have hstays : (b.state (n + 1)).service.session.Returned k :=
      SnmpSession.returned_next (b := sessionBehaviour b) calling.2 hreturned
    rcases calling_next served calling with ⟨hgoes, -⟩ | ⟨-, hreads⟩
    · exact .inl ⟨hgoes, hstays⟩
    · exact .inr hreads
  · rintro n l ⟨calling, hreturned⟩ hlabel rfl
    rw [calling.1.2.1] at hlabel
    rcases calling_next served calling with ⟨-, hquiet⟩ | ⟨-, hreads⟩
    · exact absurd hlabel hquiet
    · exact hreads

/-- Every character is dealt with, and `main` reads the next one unless it leaves. -/
theorem leadsTo_next (k : ℕ) (rest : List UInt8) :
    LeadsTo (fun n => (b.state n).At .reading k rest) fun n => Deals k rest (b.state n) := by
  intro n hat
  obtain ⟨m, hle, follows, hcalls⟩ := leadsTo_follows fair mib k rest n hat
  unfold Follows at follows
  unfold Deals
  cases hcommand : command (getchar rest) with
  | leave | skip | clearResults =>
    rw [hcommand] at follows
    exact ⟨m, hle, follows⟩
  | requestSystem =>
    obtain ⟨i, hmi, hreads⟩ := ((leadsTo_takeFuture fair served k rest.tail).trans
      (leadsTo_returned fair served k rest.tail)).trans (leadsTo_reading fair served k rest.tail)
      m (hcalls hcommand)
    exact ⟨i, hle.trans hmi, hreads⟩

end Call

/-! ## The whole input -/

theorem at_zero (b : Behaviour step (initial input : Program E)) :
    (b.state 0).At .reading 0 input := by
  rw [b.start]
  exact ⟨rfl, rfl, rfl⟩

section Input

variable (fair : Fair b) (served : Served b mib)

include fair served

/-- A text without such a character is read to its end. -/
theorem leadsTo_end {text : List UInt8} (hgoes : ∀ c ∈ text, endsLoop c = false) (k : ℕ)
    (rest : List UInt8) : LeadsTo (fun n => (b.state n).At .reading k (text ++ rest))
      fun n => (b.state n).At .reading (k + requestCount text) rest := by
  induction text generalizing k with
  | nil => exact .refl _
  | cons c text ih =>
    have hnext := leadsTo_next fair served k (c :: (text ++ rest))
    have hlater : ∀ k, LeadsTo (fun n => (b.state n).At .reading k (text ++ rest))
        fun n => (b.state n).At .reading (k + requestCount text) rest := fun k =>
      ih (fun d hd => hgoes d (List.mem_cons_of_mem c hd)) k
    simp only [Deals, getchar, List.tail_cons] at hnext
    rcases command_cases (hgoes c List.mem_cons_self) text with
      ⟨hcommand | hcommand, hcount⟩ | ⟨hcommand, hcount⟩
    all_goals
      rw [hcommand] at hnext
      rw [hcount]
    · exact hnext.trans (hlater k)
    · exact hnext.trans (hlater k)
    · have hsum : k + (requestCount text + 1) = k + 1 + requestCount text := by omega
      rw [hsum]
      exact hnext.trans (hlater (k + 1))

/-- After its end the requests go on. -/
theorem leadsTo_requests (k N : ℕ) : LeadsTo (fun n => (b.state n).At .reading k [])
    fun n => (b.state n).At .reading (k + N) [] := by
  induction N with
  | zero => exact .refl _
  | succ N ih => exact ih.trans (leadsTo_next fair served (k + N) [])

theorem leadsTo_stopped {text : List UInt8} {c : UInt8} (hgoes : ∀ d ∈ text, endsLoop d = false)
    (hends : endsLoop c = true) (rest : List UInt8) :
    LeadsTo (fun n => (b.state n).At .reading 0 (text ++ c :: rest))
      fun n => (b.state n).At .stopped (requestCount text) rest := by
  have hread := leadsTo_end fair served hgoes 0 (c :: rest)
  have hnext := leadsTo_next fair served (requestCount text) (c :: rest)
  simp only [Deals, getchar, command_of_endsLoop hends, List.tail_cons] at hnext
  rw [Nat.zero_add] at hread
  exact hread.trans hnext

end Input

/-- At each time a character is read, `main` stays where it is, or its call ends. -/
theorem next_cases (b : Behaviour step (initial input : Program E)) (n : ℕ) :
    (b.label n = some .read ∧ (b.state n).stage = .reading ∧
        Follows (b.state n).requests (b.state n).input (b.state (n + 1))) ∨
      (b.label n ≠ some .read ∧
        (b.state (n + 1)).At (b.state n).stage (b.state n).requests (b.state n).input) ∨
      b.label n = some (.call (.postResolver (b.state n).requests)) ∧
        (b.state n).stage = .requesting ∧
        (b.state (n + 1)).At .reading ((b.state n).requests + 1) (b.state n).input := by
  rcases b.next_cases n with ⟨hlabel, hstays⟩ | ⟨l, hlabel, hstep⟩
  · exact .inr (.inl ⟨by simp [hlabel], hstays ▸ ⟨rfl, rfl, rfl⟩⟩)
  · rcases cases_of_step hstep with ⟨rfl, hread⟩ | ⟨hread, hstays, -⟩ | ⟨rfl, hends⟩
    · exact .inl ⟨hlabel, hread⟩
    · exact .inr (.inl ⟨by simpa [hlabel] using hread, hstays⟩)
    · exact .inr (.inr ⟨hlabel, hends⟩)

theorem requests_next (n : ℕ) : (b.state (n + 1)).requests = (b.state n).requests ∨
    b.label n = some (.call (.postResolver (b.state n).requests)) ∧
      (b.state n).stage = .requesting ∧
      (b.state (n + 1)).requests = (b.state n).requests + 1 := by
  rcases next_cases b n with ⟨-, -, follows⟩ | ⟨-, hstays⟩ | ⟨hposts, hcalls, hreads⟩
  · exact .inl follows.requests
  · exact .inl hstays.2.1
  · exact .inr ⟨hposts, hcalls, hreads.2.1⟩

theorem requests_stable (hle : m ≤ n) : (b.state m).requests ≤ (b.state n).requests := by
  induction n, hle using Nat.le_induction with
  | base => exact le_rfl
  | succ n _ ih =>
    rcases requests_next (b := b) n with hsame | ⟨-, -, hmore⟩
    all_goals omega

/-- A request that has been made was posted. -/
theorem exists_post (hlt : k < (b.state m).requests) :
    ∃ n, b.label n = some (.call (.postResolver k)) ∧ (b.state n).stage = .requesting ∧
      (b.state n).requests = k := by
  induction m with
  | zero =>
    rw [b.start] at hlt
    cases hlt
  | succ m ih =>
    rcases requests_next (b := b) m with hsame | ⟨hposts, hcalls, hmore⟩
    · exact ih (hsame ▸ hlt)
    · by_cases hnew : (b.state m).requests = k
      · exact ⟨m, hnew ▸ hposts, hcalls, hnew⟩
      · exact ih (by omega)

/-- A call in progress has begun. -/
theorem exists_call (hcalls : (b.state m).stage = .requesting) :
    ∃ n, (serviceBehaviour b).label n =
      some (SnmpService.requestSystem (b.state m).requests .localhost) := by
  induction m with
  | zero =>
    rw [b.start] at hcalls
    cases hcalls
  | succ m ih =>
    rcases next_cases b m with ⟨hread, -, follows⟩ | ⟨-, hstage, hsame, -⟩ | ⟨-, -, hreads⟩
    · have hcommand := follows.command_of_requesting hcalls
      refine ⟨m, (Behaviour.label_component hread).trans ?_⟩
      rw [serviceLabel, if_pos hcommand, follows.requests]
    · rw [hsame]
      exact ih (hstage.symm.trans hcalls)
    · cases hreads.1.symm.trans hcalls

/-- Without a character that ends it the loop goes on. -/
theorem not_stopped (hgoes : ∀ c ∈ input, endsLoop c = false) (n : ℕ) :
    (∀ c ∈ (b.state n).input, endsLoop c = false) ∧ (b.state n).stage ≠ .stopped := by
  refine b.invariant (I := fun p : Program E =>
    (∀ c ∈ p.input, endsLoop c = false) ∧ p.stage ≠ .stopped) ⟨hgoes, by simp [initial]⟩ ?_ n
  rintro p l q ⟨hinput, hstage⟩ hstep
  rcases cases_of_step hstep with ⟨-, -, follows⟩ | ⟨-, hstays, -⟩ | ⟨-, -, hreads⟩
  · have htail : ∀ c ∈ p.input.tail, endsLoop c = false := fun c hc =>
      hinput c (List.mem_of_mem_tail hc)
    refine ⟨follows.input ▸ htail, fun hstopped => ?_⟩
    have hleaves := follows.command_of_stopped hstopped
    cases hrest : p.input with
    | nil =>
      -- the end of the input is not a character that ends the loop
      rw [hrest] at hleaves
      cases hleaves
    | cons c rest =>
      rw [hrest] at hleaves hinput
      rcases command_cases (hinput c List.mem_cons_self) rest with ⟨hskip | hclear, -⟩ | ⟨hcalls, -⟩
      · cases hleaves.symm.trans hskip
      · cases hleaves.symm.trans hclear
      · cases hleaves.symm.trans hcalls
  · exact ⟨hstays.2.2 ▸ hinput, hstays.1 ▸ hstage⟩
  · exact ⟨hreads.2.2 ▸ hinput, by simp [hreads.1]⟩

/-- A request whose session and resolver go on is logged. -/
theorem eventually_logged (served : Served b mib) (hlt : k < (b.state m).requests)
    (fair : SnmpService.Fair (serviceBehaviour b) k) :
    ∃ M, ∀ n, M ≤ n → FutureResolver.Delivered
      (.ok (SnmpSession.servedOutcome mib .ifTable)) ((b.state n).service.logged k) := by
  obtain ⟨N, hpost, hcalls, rfl⟩ := exists_post hlt
  obtain ⟨n, hcall⟩ := exists_call hcalls
  have hposts : ∀ i, (serviceBehaviour b).label i =
      some (.postResolver (b.state N).requests) ↔ i = N := by
    have hlabel : (serviceBehaviour b).label N = some (.postResolver (b.state N).requests) :=
      Behaviour.label_component hpost
    exact fun i => ⟨fun hi => SnmpService.eq_of_posts hi hlabel, fun hi => hi ▸ hlabel⟩
  obtain ⟨i, -, hwalked⟩ := SnmpSession.eventually_walked (served _) fair.session
    (SnmpService.label_sessionBehaviour hcall)
  obtain ⟨p, request, hfuture, -, walked⟩ := hwalked i le_rfl
  exact SnmpService.eventually_logged fair hposts
    ((SnmpSession.futureState_eq hfuture).trans walked.cell_eq)

/-! ## What can be done next -/

theorem fresh_state (b : Behaviour step (initial input : Program E)) (n : ℕ) :
    (b.state n).Fresh := by
  induction n with
  | zero =>
    rw [b.start]
    exact ⟨fun _ _ => rfl, fun _ => rfl, fun _ _ => rfl⟩
  | succ n ih =>
    rcases b.next_cases n with ⟨-, hstays⟩ | ⟨l, -, hstep⟩
    · rwa [hstays]
    · exact ih.step (SnmpSession.coherent_state (sessionBehaviour b) n) hstep

/-- A call in progress is at one of its statements. -/
theorem calling_state (served : Served b mib) (n : ℕ)
    (hcalls : (b.state n).stage = .requesting) :
    Calling mib (b.state n) (b.state n).requests (b.state n).input ∧
      ((∃ operation, ((b.state n).service.session.tracks (b.state n).requests).stage =
          .handOver operation) ∨
        ((b.state n).service.session.tracks (b.state n).requests).stage = .takeFuture ∨
        (b.state n).service.session.Returned (b.state n).requests) := by
  induction n with
  | zero =>
    rw [b.start] at hcalls
    cases hcalls
  | succ n ih =>
    rcases next_cases b n with ⟨hread, hreading, follows⟩ | ⟨-, hstage, hsame, hinput⟩ |
      ⟨-, -, hreads⟩
    -- a call that begins has its operation to hand over
    · obtain ⟨-, hbegins⟩ := follows_next mib ⟨hreading, rfl, rfl⟩ hread
      obtain ⟨calling, hhands⟩ := hbegins (follows.command_of_requesting hcalls)
      rw [follows.requests, follows.input]
      exact ⟨calling, .inl hhands⟩
    · obtain ⟨calling, hat⟩ := ih (hstage.symm.trans hcalls)
      rw [hsame, hinput]
      rcases statement_next served calling with ⟨hgoes, htracks, -⟩ | ⟨hgoes, -, htakes⟩ |
        ⟨hgoes, -, hreturned⟩ | ⟨-, hreads⟩
      · refine ⟨hgoes, ?_⟩
        rw [SnmpSession.Returned, htracks]
        exact hat
      · exact ⟨hgoes, .inr (.inl htakes)⟩
      · exact ⟨hgoes, .inr (.inr hreturned)⟩
      · cases hreads.1.symm.trans hcalls
    · cases hreads.1.symm.trans hcalls

/-- A statement of `main`. -/
def Label.ofMain : Label E → Bool
  | .read | .call _ => true
  | .thread _ => false

/-- Until it leaves, `main` is never blocked. -/
theorem exists_step (served : Served b mib) (n : ℕ) (hgoes : (b.state n).stage ≠ .stopped) :
    ∃ l q, l.ofMain = true ∧ (b.state n).step l = some q := by
  have fresh := fresh_state b n
  cases hstage : (b.state n).stage with
  | reading =>
    refine ⟨.read, ?_⟩
    cases hcommand : command (getchar (b.state n).input) with
    | leave | skip | clearResults => simp [step, Label.ofMain, hstage, hcommand]
    | requestSystem =>
      simp [step, Label.ofMain, hstage, hcommand, SnmpService.step, SnmpService.requestSystem,
        SnmpSession.step, fresh.next hstage]
  | requesting =>
    obtain ⟨-, ⟨operation, hhands⟩ | htakes | ⟨p, hreturned⟩⟩ := calling_state served n hstage
    · exact ⟨.call (.session (.handOver (b.state n).requests true)), by
        simp [step, Label.ofMain, hstage, ofCall, SnmpService.step, SnmpSession.step, hhands]⟩
    · exact ⟨.call (.session (.takeFuture (b.state n).requests)), by
        simp [step, Label.ofMain, hstage, ofCall, SnmpService.step, SnmpSession.step, htakes]⟩
    · exact ⟨.call (.postResolver (b.state n).requests), by
        simp [step, Label.ofMain, hstage, ofCall, SnmpService.step, hreturned,
          fresh.unposted _ le_rfl]⟩
  | stopped => exact absurd hstage hgoes

/-- What `main` makes of its input. -/
structure ServesInput (b : Behaviour step (initial input : Program E)) (mib : Mib) : Prop where
  /-- Until it leaves it is never blocked. -/
  unblocked : ∀ m, (b.state m).stage ≠ .stopped →
    ∃ l q, l.ofMain = true ∧ (b.state m).step l = some q
  leaves : (∃ c ∈ input, endsLoop c = true) → ∃ M, ∀ m, M ≤ m →
    (b.state m).stage = .stopped ∧ (b.state m).requests = requestCount input
  /-- At the end of such an input it requests without end. -/
  goesOn : (∀ c ∈ input, endsLoop c = false) →
    (∀ m, (b.state m).stage ≠ .stopped) ∧ ∀ N, ∃ M, ∀ m, M ≤ m → N ≤ (b.state m).requests
  logged : ∀ k m, k < (b.state m).requests → SnmpService.Fair (serviceBehaviour b) k →
    ∃ M, ∀ n, M ≤ n → FutureResolver.Delivered
      (.ok (SnmpSession.servedOutcome mib .ifTable)) ((b.state n).service.logged k)

/-- **If `main` goes on and its requests are served, it leaves at the first `q` or zero byte
after one request for each other character than a newline and `c`, and without such a
character it requests without end.** -/
theorem servesInput_of_fair (input : List UInt8)
    (b : Behaviour step (initial input : Program E)) (mib : Mib) (fair : Fair b)
    (served : Served b mib) : ServesInput b mib := by
  constructor
  · exact exists_step served
  · intro hends
    obtain ⟨text, c, rest, rfl, hgoes, hc, hcount⟩ := exists_first hends
    obtain ⟨M, -, hstopped⟩ := leadsTo_stopped fair served hgoes hc rest 0 (at_zero b)
    refine ⟨M, fun m hle => ?_⟩
    have hstays := stopped_stable hle hstopped
    exact ⟨hstays.1, hstays.2.1.trans hcount.symm⟩
  · intro hgoes
    refine ⟨fun m => (not_stopped hgoes m).2, fun N => ?_⟩
    -- the text is read to its end, and from then on the end again and again
    have hread := leadsTo_end fair served hgoes 0 []
    rw [List.append_nil] at hread
    obtain ⟨M, -, hat⟩ := hread.trans (leadsTo_requests fair served _ N) 0 (at_zero b)
    refine ⟨M, fun m hle => ?_⟩
    have hmore := requests_stable (b := b) hle
    have hrequests := hat.2.1
    omega
  · exact fun k m => eventually_logged served

end Behaviours

/-- A newline, a request and a `q`. -/
def requestOnce : List UInt8 :=
  ['\n'.toUInt8, 'x'.toUInt8, 'q'.toUInt8]

/-- The request is logged before `main` reads on. -/
def requestThenLeave : List (Label ℕ) :=
  [.read, .read, .call (.session (.handOver 0 true)), .call (.session (.takeFuture 0)),
    .call (.postResolver 0), .thread (.runner (.run 0)), .thread .poll,
    .thread (.runner (.finish (.runAgainDelayed 1000))),
    .thread (.session (.callback 0 .asyncResponse SnmpService.oneInterface.bindings true)),
    .thread (.runner (.expire 0)), .thread (.runner (.run 0)), .thread .poll,
    .thread .callbackReturns, .thread (.runner (.finish .ended)), .read]

theorem servesInput_requestOnce :
    ∃ b : Behaviour step (initial requestOnce : Program ℕ), Fair b ∧
      Served b SnmpService.oneInterface ∧ ServesInput b SnmpService.oneInterface := by
  have hexec := Option.some_get
    (x := exec step (initial requestOnce : Program ℕ) requestThenLeave) (by decide)
  have fair : Fair (Behaviour.ofExec hexec.symm) := by
    constructor
    -- the last character is read
    · refine Behaviour.answers_ofExec (by decide) ?_
      intro n hn _
      exact ⟨14, by decide, Nat.le_of_lt_succ hn, rfl⟩
    -- the operation is handed over
    · refine Behaviour.answers_ofExec (fun hends => by cases hends.1) ?_
      rintro n hn ⟨-, operation, hstage⟩
      change n < 15 at hn
      interval_cases n
      · cases hstage
      · cases hstage
      · exact ⟨2, by decide, by decide, true, rfl⟩
      all_goals cases hstage
    -- the future is taken
    · refine Behaviour.answers_ofExec (fun hends => by cases hends.1) ?_
      rintro n hn ⟨-, hstage⟩
      change n < 15 at hn
      interval_cases n
      · cases hstage
      · cases hstage
      · cases hstage
      · exact ⟨3, by decide, by decide, rfl⟩
      all_goals cases hstage
    -- the resolver is posted
    · refine Behaviour.answers_ofExec (fun hends => by cases hends.1) ?_
      rintro n hn ⟨hcalls, p, hstage⟩
      change n < 15 at hn
      interval_cases n
      · cases hcalls
      · cases hcalls
      · cases hstage
      · cases hstage
      · exact ⟨4, by decide, by decide, rfl⟩
      all_goals cases hcalls
  have served : Served (Behaviour.ofExec hexec.symm) SnmpService.oneInterface := by
    have hall : ∀ n l, (Behaviour.ofExec hexec.symm).label n = some l → ∀ uuid a,
        ((serviceLabel ((Behaviour.ofExec hexec.symm).state n, l)).bind fun c =>
          SnmpService.sessionLabel (((Behaviour.ofExec hexec.symm).state n).service, c)) = some a →
        ((Behaviour.ofExec hexec.symm).state n).service.session.ServesWalk
          SnmpService.oneInterface uuid a := by
      refine Behaviour.forall_ofExec (P := fun (p : Program ℕ) (l : Label ℕ) => ∀ uuid a,
        ((serviceLabel (p, l)).bind fun c => SnmpService.sessionLabel (p.service, c)) = some a →
          p.service.session.ServesWalk SnmpService.oneInterface uuid a) ?_
      intro n hn uuid a hlabel
      change n < 15 at hn
      interval_cases n
      all_goals cases hlabel
      · trivial
      · exact fun _ => rfl
      · trivial
      · rintro rfl
        exact ⟨rfl, by decide, by decide, .successor rfl (.successor rfl (.nil _))⟩
    intro uuid n a hlabel
    obtain ⟨l, hl, hsession⟩ := exists_label_of_sessionBehaviour hlabel
    exact hall n l hl uuid a hsession
  exact ⟨_, fair, served, servesInput_of_fair _ _ _ fair served⟩

end Program

end NetDiscovery.App
