/-
# Sections under a lock

Clients share a store behind a lock. A client acts freely outside its sections; it enters
a section by taking the lock, works on the store statement by statement, and gives the
lock back at the end of the section. A section may also block: then it never ends.

While a client is in a section the store is its own, so what the section comes to is
settled when it begins. Every interleaving of the statements is a run of the system in
which each section is one step, taken at the time at which the lock is.
-/

import Mathlib.Logic.Function.Basic
import NetDiscovery.Semantics.Run

namespace NetDiscovery.Semantics

/-- What clients of a store do. -/
structure Monitor (Store Client Free : Type*) where
  /-- a step outside of all sections -/
  free : Client → Free → Option Client
  /-- into the next section, with the lock -/
  enter : Client → Option Client
  /-- a statement of a section -/
  work : Store → Client → Option (Store × Client)
  /-- out of a section that has no statement left, if it does not block -/
  leave : Client → Option Client
  /-- where the client was when it entered -/
  before : Client → Client
  /-- how many statements are left at most -/
  rank : Store → Client → ℕ
  before_enter : ∀ {c d}, enter c = some d → before d = c
  before_work : ∀ {store c store' d}, work store c = some (store', d) → before d = before c
  rank_work : ∀ {store c store' d}, work store c = some (store', d) → rank store' d < rank store c

namespace Monitor

variable {Store Client Free Id : Type*} (m : Monitor Store Client Free)

/-- At most `n` statements, and then out of the section. -/
def finish : ℕ → Store → Client → Option (Store × Client)
  | 0, store, c => (m.leave c).map fun d => (store, d)
  | n + 1, store, c =>
    match m.work store c with
    | some (store', d) => finish n store' d
    | none => (m.leave c).map fun d => (store, d)

/-- What a section comes to from where the client is; `none` if it blocks. -/
def complete (store : Store) (c : Client) : Option (Store × Client) :=
  m.finish (m.rank store c) store c

variable {m} {store store' : Store} {c d : Client} {n : ℕ}

theorem finish_of_end (hwork : m.work store c = none) :
    m.finish n store c = (m.leave c).map fun d => (store, d) := by
  cases n with
  | zero => rfl
  | succ n => rw [finish, hwork]

theorem finish_of_work (hwork : m.work store c = some (store', d)) :
    m.finish (n + 1) store c = m.finish n store' d := by
  rw [finish, hwork]

/-- More statements than are left make no difference. -/
theorem finish_eq_finish {k : ℕ} (hn : m.rank store c ≤ n) (hk : m.rank store c ≤ k) :
    m.finish n store c = m.finish k store c := by
  induction n generalizing store c k with
  | zero =>
    have hwork : m.work store c = none := by
      by_contra hsome
      obtain ⟨⟨store', d⟩, hwork⟩ := Option.ne_none_iff_exists'.mp hsome
      have hlt := m.rank_work hwork
      omega
    rw [finish_of_end hwork, finish_of_end hwork]
  | succ n ih =>
    cases hwork : m.work store c with
    | none => rw [finish_of_end hwork, finish_of_end hwork]
    | some entry =>
      obtain ⟨store', d⟩ := entry
      have hlt := m.rank_work hwork
      cases k with
      | zero => omega
      | succ k =>
        rw [finish_of_work hwork, finish_of_work hwork]
        exact ih (by omega) (by omega)

theorem complete_of_end (hwork : m.work store c = none) :
    m.complete store c = (m.leave c).map fun d => (store, d) :=
  finish_of_end hwork

/-- A statement on the way changes nothing about what the section comes to. -/
theorem complete_of_work (hwork : m.work store c = some (store', d)) :
    m.complete store c = m.complete store' d := by
  have hlt := m.rank_work hwork
  unfold complete
  cases hrank : m.rank store c with
  | zero => omega
  | succ k =>
    rw [finish_of_work hwork]
    exact finish_eq_finish (by omega) (Nat.le_refl _)

/-! ## The two systems -/

/-- The store, the clients, and the one that has the lock. -/
structure Locked (Store Client Id : Type*) where
  store : Store
  clients : Id → Client
  holder : Option Id

/-- The steps of a client. -/
inductive Label (Id Free : Type*)
  | free (id : Id) (a : Free)
  | acquire (id : Id)
  | work (id : Id)
  | release (id : Id)

/-- The store and the clients, none of them in a section. -/
structure Atomic (Store Client Id : Type*) where
  store : Store
  clients : Id → Client

/-- The steps of a client whose sections are one step each. -/
inductive AtomicLabel (Id Free : Type*)
  | free (id : Id) (a : Free)
  | critical (id : Id)

variable [DecidableEq Id] (m)

/-- One step, statement by statement. -/
def step (s : Locked Store Client Id) : Label Id Free → Option (Locked Store Client Id)
  | .free id a =>
    if s.holder = some id then none
    else (m.free (s.clients id) a).map fun c =>
      { s with clients := Function.update s.clients id c }
  | .acquire id =>
    if s.holder = none then
      (m.enter (s.clients id)).map fun c =>
        { s with clients := Function.update s.clients id c, holder := some id }
    else none
  | .work id =>
    if s.holder = some id then
      (m.work s.store (s.clients id)).map fun entry =>
        { s with store := entry.1, clients := Function.update s.clients id entry.2 }
    else none
  | .release id =>
    if s.holder = some id ∧ (m.work s.store (s.clients id)).isNone then
      (m.leave (s.clients id)).map fun c =>
        { s with clients := Function.update s.clients id c, holder := none }
    else none

/-- One step, section by section. -/
def atomicStep (s : Atomic Store Client Id) :
    AtomicLabel Id Free → Option (Atomic Store Client Id)
  | .free id a => (m.free (s.clients id) a).map fun c =>
      { s with clients := Function.update s.clients id c }
  | .critical id => (m.enter (s.clients id)).bind fun c => (m.complete s.store c).map fun entry =>
      ⟨entry.1, Function.update s.clients id entry.2⟩

/-- A section that has begun counts as taken, and one that blocks as never begun. -/
def atomic (s : Locked Store Client Id) : Atomic Store Client Id :=
  match s.holder with
  | none => ⟨s.store, s.clients⟩
  | some id =>
    match m.complete s.store (s.clients id) with
    | some entry => ⟨entry.1, Function.update s.clients id entry.2⟩
    | none => ⟨s.store, Function.update s.clients id (m.before (s.clients id))⟩

/-- The section takes place when the lock is taken. -/
def observe : Locked Store Client Id × Label Id Free → Option (AtomicLabel Id Free)
  | (_, .free id a) => some (.free id a)
  | (s, .acquire id) =>
    if ((m.enter (s.clients id)).bind (m.complete s.store)).isSome then some (.critical id)
    else none
  | (_, .work _) => none
  | (_, .release _) => none

/-- A section that blocks leaves the store alone. -/
def BlocksQuietly : Prop :=
  ∀ store c store' d, m.work store c = some (store', d) → m.complete store c = none →
    store' = store

/-! ## The refinement -/

variable {m} {s t : Locked Store Client Id} {id : Id} {a : Free} {l : Label Id Free}

theorem atomic_of_free (hfree : s.holder = none) : m.atomic s = ⟨s.store, s.clients⟩ := by
  rw [atomic, hfree]

theorem atomic_of_complete {entry : Store × Client} (hholder : s.holder = some id)
    (hcomplete : m.complete s.store (s.clients id) = some entry) :
    m.atomic s = ⟨entry.1, Function.update s.clients id entry.2⟩ := by
  simp only [atomic, hholder, hcomplete]

theorem atomic_of_blocks (hholder : s.holder = some id)
    (hcomplete : m.complete s.store (s.clients id) = none) :
    m.atomic s = ⟨s.store, Function.update s.clients id (m.before (s.clients id))⟩ := by
  simp only [atomic, hholder, hcomplete]

/-- A client outside of the section in progress is where it is in both systems. -/
theorem clients_atomic (hother : s.holder ≠ some id) : (m.atomic s).clients id = s.clients id := by
  rcases hholder : s.holder with _ | owner
  · rw [atomic_of_free hholder]
  · have hne : id ≠ owner := by
      rintro rfl
      exact hother hholder
    cases hcomplete : m.complete s.store (s.clients owner) with
    | none =>
      rw [atomic_of_blocks hholder hcomplete]
      exact Function.update_of_ne hne _ _
    | some entry =>
      rw [atomic_of_complete hholder hcomplete]
      exact Function.update_of_ne hne _ _

theorem step_free (hstep : m.step s (.free id a) = some t) :
    s.holder ≠ some id ∧ ∃ c, m.free (s.clients id) a = some c ∧
      t = { s with clients := Function.update s.clients id c } := by
  simp only [step] at hstep
  split_ifs at hstep with hholder
  obtain ⟨c, hc, rfl⟩ := Option.map_eq_some_iff.mp hstep
  exact ⟨hholder, c, hc, rfl⟩

theorem step_acquire (hstep : m.step s (.acquire id : Label Id Free) = some t) :
    s.holder = none ∧ ∃ c, m.enter (s.clients id) = some c ∧
      t = { s with clients := Function.update s.clients id c, holder := some id } := by
  simp only [step] at hstep
  split_ifs at hstep with hholder
  obtain ⟨c, hc, rfl⟩ := Option.map_eq_some_iff.mp hstep
  exact ⟨hholder, c, hc, rfl⟩

theorem step_work (hstep : m.step s (.work id : Label Id Free) = some t) :
    s.holder = some id ∧ ∃ store c, m.work s.store (s.clients id) = some (store, c) ∧
      t = { s with store := store, clients := Function.update s.clients id c } := by
  simp only [step] at hstep
  split_ifs at hstep with hholder
  obtain ⟨⟨store, c⟩, hc, rfl⟩ := Option.map_eq_some_iff.mp hstep
  exact ⟨hholder, store, c, hc, rfl⟩

theorem step_release (hstep : m.step s (.release id : Label Id Free) = some t) :
    s.holder = some id ∧ m.work s.store (s.clients id) = none ∧
      ∃ c, m.leave (s.clients id) = some c ∧
        t = { s with clients := Function.update s.clients id c, holder := none } := by
  simp only [step] at hstep
  split_ifs at hstep with hguard
  obtain ⟨c, hc, rfl⟩ := Option.map_eq_some_iff.mp hstep
  exact ⟨hguard.1, Option.isNone_iff_eq_none.mp hguard.2, c, hc, rfl⟩

/-- A client outside of the section in progress does the same in both systems. -/
theorem atomic_of_step_free (hstep : m.step s (.free id a) = some t) :
    m.atomicStep (m.atomic s) (.free id a) = some (m.atomic t) := by
  obtain ⟨hother, c, hc, rfl⟩ := step_free hstep
  rcases hholder : s.holder with _ | owner
  · rw [atomic_of_free hholder, atomic_of_free rfl, atomicStep, hc]
    rfl
  · have hne : owner ≠ id := by
      rintro rfl
      exact hother hholder
    cases hcomplete : m.complete s.store (s.clients owner) with
    | none =>
      rw [atomic_of_blocks hholder hcomplete, atomic_of_blocks rfl (by simpa [hne] using hcomplete)]
      simp only [atomicStep, Function.update_of_ne hne, Function.update_of_ne hne.symm, hc,
        Option.map_some, Function.update_comm hne]
    | some entry =>
      rw [atomic_of_complete hholder hcomplete,
        atomic_of_complete rfl (by simpa [hne] using hcomplete)]
      simp only [atomicStep, Function.update_of_ne hne.symm, hc, Option.map_some,
        Function.update_comm hne]

/-- The section takes place, or is one that will block. -/
theorem atomic_of_step_acquire (hstep : m.step s (.acquire id : Label Id Free) = some t) :
    StepOrStay m.atomicStep (m.atomic s) (m.observe (s, .acquire id)) (m.atomic t) := by
  obtain ⟨hfree, c, hc, rfl⟩ := step_acquire hstep
  rw [atomic_of_free hfree, observe, hc, Option.bind_some]
  cases hcomplete : m.complete s.store c with
  | none =>
    rw [atomic_of_blocks rfl (by simpa using hcomplete), if_neg (by simp)]
    simp only [StepOrStay, Function.update_self, m.before_enter hc, Function.update_idem,
      Function.update_eq_self]
  | some entry =>
    rw [atomic_of_complete rfl (by simpa using hcomplete), if_pos (by simp)]
    simp only [StepOrStay, atomicStep, hc, Option.bind_some, hcomplete, Option.map_some,
      Function.update_idem]

theorem atomic_of_step_work (hquiet : m.BlocksQuietly)
    (hstep : m.step s (.work id : Label Id Free) = some t) : m.atomic t = m.atomic s := by
  obtain ⟨hholder, store, c, hwork, rfl⟩ := step_work hstep
  have hsame := complete_of_work hwork
  cases hcomplete : m.complete store c with
  | none =>
    rw [atomic_of_blocks hholder (hsame.trans hcomplete),
      atomic_of_blocks (by exact hholder) (by simpa using hcomplete)]
    simp only [Function.update_self, Function.update_idem, m.before_work hwork,
      hquiet _ _ _ _ hwork (hsame.trans hcomplete)]
  | some entry =>
    rw [atomic_of_complete hholder (hsame.trans hcomplete),
      atomic_of_complete (by exact hholder) (by simpa using hcomplete)]
    simp only [Function.update_idem]

theorem atomic_of_step_release (hstep : m.step s (.release id : Label Id Free) = some t) :
    m.atomic t = m.atomic s := by
  obtain ⟨hholder, hwork, c, hc, rfl⟩ := step_release hstep
  have hcomplete : m.complete s.store (s.clients id) = some (s.store, c) := by
    rw [complete_of_end hwork, hc, Option.map_some]
  rw [atomic_of_complete hholder hcomplete, atomic_of_free rfl]

omit [DecidableEq Id] in
theorem acquire_of_observe (hobserve : m.observe (s, l) = some (.critical id)) :
    l = .acquire id := by
  cases l with
  | acquire other =>
    simp only [observe] at hobserve
    split_ifs at hobserve
    obtain rfl := AtomicLabel.critical.inj (Option.some.inj hobserve)
    rfl
  | free other a => cases hobserve
  | work other | release other => cases hobserve

/-- The step lemma. -/
theorem atomic_of_step (hquiet : m.BlocksQuietly) (hstep : m.step s l = some t) :
    StepOrStay m.atomicStep (m.atomic s) (m.observe (s, l)) (m.atomic t) := by
  cases l with
  | free id a => exact atomic_of_step_free hstep
  | acquire id => exact atomic_of_step_acquire hstep
  | work id => exact atomic_of_step_work hquiet hstep
  | release id => exact atomic_of_step_release hstep

/-- Every run is a run of the system whose sections are one step each. -/
theorem atomic_of_run (hquiet : m.BlocksQuietly)
    {trace : List (Locked Store Client Id × Label Id Free)} (run : Run m.step s trace t) :
    Run m.atomicStep (m.atomic s) (project m.atomic m.observe trace) (m.atomic t) :=
  run.refine (I := fun _ => True) trivial (fun _ _ _ _ _ => trivial)
    fun _ _ _ _ hstep => atomic_of_step hquiet hstep

/-! ## Sections that block -/

/-- The client that has the lock is in a section that blocks. -/
def Blocks (m : Monitor Store Client Free) (s : Locked Store Client Id) (id : Id) : Prop :=
  s.holder = some id ∧ m.complete s.store (s.clients id) = none

/-- From then on no other client enters a section, and none leaves one. -/
theorem Blocks.step (blocks : m.Blocks s id) (hquiet : m.BlocksQuietly)
    (hstep : m.step s l = some t) :
    m.Blocks t id ∧ t.store = s.store ∧ (l = .work id ∨ ∃ other a, l = .free other a) := by
  obtain ⟨hholder, hcomplete⟩ := blocks
  cases l with
  | free other a =>
    obtain ⟨hother, c, -, rfl⟩ := step_free hstep
    have hne : id ≠ other := by
      rintro rfl
      exact hother hholder
    exact ⟨⟨hholder, by simpa [hne] using hcomplete⟩, rfl, .inr ⟨other, a, rfl⟩⟩
  | acquire other =>
    obtain ⟨hfree, -⟩ := step_acquire hstep
    cases hfree.symm.trans hholder
  | work other =>
    obtain ⟨howns, store, c, hwork, rfl⟩ := step_work hstep
    obtain rfl := Option.some.inj (howns.symm.trans hholder)
    -- the work that is left after the step does not come to an end either
    have hsame := complete_of_work hwork
    refine ⟨⟨hholder, ?_⟩, hquiet _ _ _ _ hwork hcomplete, .inl rfl⟩
    simpa using hsame.symm.trans hcomplete
  | release other =>
    obtain ⟨howns, hwork, c, hleave, -⟩ := step_release hstep
    obtain rfl := Option.some.inj (howns.symm.trans hholder)
    rw [complete_of_end hwork, hleave] at hcomplete
    cases hcomplete

theorem Blocks.run (blocks : m.Blocks s id) (hquiet : m.BlocksQuietly)
    {trace : List (Locked Store Client Id × Label Id Free)} (run : Run m.step s trace t) :
    (m.Blocks t id ∧ t.store = s.store) ∧ ∀ x ∈ trace, x.1.store = s.store ∧
      (x.2 = .work id ∨ ∃ other a, x.2 = .free other a) := by
  induction run with
  | nil => exact ⟨⟨blocks, rfl⟩, by simp⟩
  | snoc _ hstep ih =>
    obtain ⟨⟨hblocks, hstore⟩, hbefore⟩ := ih
    obtain ⟨hnext, hsame, hlabel⟩ := hblocks.step hquiet hstep
    refine ⟨⟨hnext, hsame.trans hstore⟩, fun x hx => ?_⟩
    rcases List.mem_append.mp hx with hprior | hlast
    · exact hbefore x hprior
    · obtain rfl := List.mem_singleton.mp hlast
      exact ⟨hstore, hlabel⟩

end Monitor

end NetDiscovery.Semantics
