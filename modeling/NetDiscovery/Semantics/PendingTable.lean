/-
# Tables of pending requests

A table keeps each pending request under a key together with the promise that
will answer it. The table owns its promises: the promise of an entry has not
been set, no two entries share one, and every promise that is neither set nor
destroyed belongs to an entry. These facts are fields, so every table has them.

An entry leaves the table in one of two ways. Resolving it sets its promise.
Overwriting or discarding it destroys the promise, and then its future never
becomes ready with a value. The lemmas say, for every operation, what each key
finds afterwards and what each future holds.
-/

import Mathlib
import NetDiscovery.Semantics.Promise

namespace NetDiscovery.Semantics

/-- A pending request: what is known of it and the number of its promise. -/
structure Entry (ρ : Type*) where
  request : ρ
  promise : ℕ
  deriving DecidableEq

/-- Pending requests by key, with the promises that answer them. -/
structure PendingTable (κ ρ α : Type*) [Ord κ] [Std.TransOrd κ] [Std.LawfulEqOrd κ] where
  entries : Std.ExtTreeMap κ (Entry ρ) compare
  promises : PromiseStore α
  /-- The promise of a pending request was handed out and is not set. -/
  held : ∀ (key : κ) (entry : Entry ρ), entries[key]? = some entry →
    entry.promise < promises.next ∧ promises.cell entry.promise = .unset
  /-- No two requests share a promise. -/
  distinct : ∀ (key key' : κ) (entry entry' : Entry ρ), entries[key]? = some entry →
    entries[key']? = some entry' → entry.promise = entry'.promise → key = key'
  /-- A promise that is neither set nor destroyed is in the table. -/
  owned : ∀ p < promises.next, promises.cell p = .unset →
    ∃ (key : κ) (entry : Entry ρ), entries[key]? = some entry ∧ entry.promise = p
  /-- Nothing is stored for a promise that does not exist yet. -/
  fresh : ∀ p, promises.next ≤ p → promises.cell p = .unset

namespace PendingTable

variable {κ ρ α : Type*} [Ord κ] [Std.TransOrd κ] [Std.LawfulEqOrd κ]

/-- No request is pending. -/
def empty : PendingTable κ ρ α where
  entries := ∅
  promises := .empty
  held key entry hentry := by simp at hentry
  distinct key key' entry entry' hentry := by simp at hentry
  owned p hp := absurd hp (Nat.not_lt_zero p)
  fresh _ _ := rfl

variable (table : PendingTable κ ρ α)

/-- The entry under a key. -/
def lookup (key : κ) : Option (Entry ρ) :=
  table.entries[key]?

/-- What the future of a promise holds. -/
def future (p : ℕ) : SharedState α :=
  table.promises.cell p

/-- The number of the next promise. -/
def next : ℕ :=
  table.promises.next

/-- The shared states once the promise under `key` has been given `state`. -/
def settle (key : κ) (state : SharedState α) : ℕ → SharedState α :=
  match table.entries[key]? with
  | some entry => Function.update table.promises.cell entry.promise state
  | none => table.promises.cell

variable {table} {key key' : κ} {request : ρ} {value : α} {state : SharedState α} {p : ℕ}
  {entry : Entry ρ}

theorem settle_of_lookup (hentry : table.lookup key = some entry) :
    table.settle key state = Function.update table.promises.cell entry.promise state := by
  unfold lookup at hentry
  simp [settle, hentry]

theorem settle_of_lookup_none (hnone : table.lookup key = none) :
    table.settle key state = table.promises.cell := by
  unfold lookup at hnone
  simp [settle, hnone]

/-- Settling the entry under one key leaves the promises of the others alone. -/
theorem settle_of_lookup_ne (hentry : table.lookup key' = some entry) (hne : key ≠ key') :
    table.settle key state entry.promise = table.promises.cell entry.promise := by
  cases hkey : table.lookup key with
  | none => rw [settle_of_lookup_none hkey]
  | some found =>
    rw [settle_of_lookup hkey, Function.update_of_ne]
    exact fun heq => hne (table.distinct _ _ _ _ hkey hentry heq.symm)

/-- A promise left unset by settling `key` was unset before and is not the one
under `key`. -/
theorem settle_eq_unset (hstate : state ≠ .unset) (hunset : table.settle key state p = .unset) :
    table.promises.cell p = .unset ∧
      ∀ entry, table.lookup key = some entry → p ≠ entry.promise := by
  cases hkey : table.lookup key with
  | none =>
    rw [settle_of_lookup_none hkey] at hunset
    exact ⟨hunset, fun _ h => by cases h⟩
  | some found =>
    rw [settle_of_lookup hkey] at hunset
    -- the promise under `key` was given `state`, so it is not among the unset ones
    have hne : p ≠ found.promise := by
      rintro rfl
      exact hstate (by simpa using hunset)
    rw [Function.update_of_ne hne] at hunset
    refine ⟨hunset, fun entry hentry => ?_⟩
    obtain rfl := Option.some.inj hentry
    exact hne

section Entries

variable {entries : Std.ExtTreeMap κ (Entry ρ) compare}

private theorem getElem?_erase_of_ne (hne : key ≠ key') :
    (entries.erase key)[key']? = entries[key']? := by
  rw [Std.ExtTreeMap.getElem?_erase, if_neg (by simpa using hne)]

private theorem getElem?_insert_of_ne (hne : key ≠ key') :
    (entries.insert key entry)[key']? = entries[key']? := by
  rw [Std.ExtTreeMap.getElem?_insert, if_neg (by simpa using hne)]

private theorem entry_of_erase (hentry : (entries.erase key)[key']? = some entry) :
    key ≠ key' ∧ entries[key']? = some entry := by
  have hne : key ≠ key' := by
    rintro rfl
    simp at hentry
  exact ⟨hne, (getElem?_erase_of_ne hne).symm.trans hentry⟩

private theorem entry_of_insert {entry' : Entry ρ}
    (hentry : (entries.insert key entry)[key']? = some entry') :
    (key = key' ∧ entry = entry') ∨ (key ≠ key' ∧ entries[key']? = some entry') := by
  by_cases heq : key = key'
  · subst heq
    exact .inl ⟨rfl, by simpa using hentry⟩
  · exact .inr ⟨heq, (getElem?_insert_of_ne heq).symm.trans hentry⟩

end Entries

variable (table)

/-- Take the entry under `key` out, leaving `state` in its promise. -/
def remove (key : κ) (state : SharedState α) (hstate : state ≠ .unset) : PendingTable κ ρ α where
  entries := table.entries.erase key
  promises := { table.promises with cell := table.settle key state }
  held key' entry hentry := by
    obtain ⟨hne, hentry⟩ := entry_of_erase hentry
    obtain ⟨hlt, hunset⟩ := table.held key' entry hentry
    exact ⟨hlt, (settle_of_lookup_ne hentry hne).trans hunset⟩
  distinct _ _ _ _ hentry hentry' :=
    table.distinct _ _ _ _ (entry_of_erase hentry).2 (entry_of_erase hentry').2
  owned p hp hunset := by
    obtain ⟨hcell, hne⟩ := settle_eq_unset hstate hunset
    obtain ⟨key', entry, hentry, rfl⟩ := table.owned p hp hcell
    refine ⟨key', entry, ?_, rfl⟩
    rw [getElem?_erase_of_ne, hentry]
    rintro rfl
    exact hne entry hentry rfl
  fresh p hp := by
    cases hkey : table.lookup key with
    | none => simpa [settle_of_lookup_none hkey] using table.fresh p hp
    | some entry =>
      have hlt := (table.held key entry hkey).1
      have hne : p ≠ entry.promise := by
        change table.promises.next ≤ p at hp
        omega
      simpa [settle_of_lookup hkey, hne] using table.fresh p hp

/-- Put a request with a new promise under a key that has none. -/
def add (key : κ) (request : ρ) (hnone : table.lookup key = none) : PendingTable κ ρ α where
  entries := table.entries.insert key ⟨request, table.promises.next⟩
  promises := table.promises.create
  held key' entry hentry := by
    rcases entry_of_insert hentry with ⟨rfl, rfl⟩ | ⟨-, hentry⟩
    · exact ⟨Nat.lt_succ_self _, table.fresh _ le_rfl⟩
    · obtain ⟨hlt, hunset⟩ := table.held key' entry hentry
      exact ⟨Nat.lt_succ_of_lt hlt, hunset⟩
  distinct key₁ key₂ entry₁ entry₂ hentry₁ hentry₂ hpromise := by
    rcases entry_of_insert hentry₁ with ⟨rfl, rfl⟩ | ⟨-, hold₁⟩ <;>
      rcases entry_of_insert hentry₂ with ⟨rfl, rfl⟩ | ⟨-, hold₂⟩
    · rfl
    · exact absurd (table.held _ _ hold₂).1 (by simp [← hpromise])
    · exact absurd (table.held _ _ hold₁).1 (by simp [hpromise])
    · exact table.distinct _ _ _ _ hold₁ hold₂ hpromise
  owned p hp hunset := by
    -- an older promise is where it was, and the new one is under `key`
    rcases Nat.lt_succ_iff_lt_or_eq.mp hp with hlt | rfl
    · obtain ⟨key', entry, hentry, hpromise⟩ := table.owned p hlt hunset
      refine ⟨key', entry, ?_, hpromise⟩
      rw [getElem?_insert_of_ne, hentry]
      rintro rfl
      exact Option.some_ne_none _ (hentry.symm.trans hnone)
    · exact ⟨key, ⟨request, _⟩, Std.ExtTreeMap.getElem?_insert_self, rfl⟩
  fresh p hp := table.fresh p (Nat.le_of_succ_le hp)

/-- Set the promise of the entry under `key` and take the entry out. -/
abbrev resolve (key : κ) (value : α) : PendingTable κ ρ α :=
  table.remove key (.value value) (by simp)

/-- Erase the entry under `key`, and its promise with it. -/
abbrev discard (key : κ) : PendingTable κ ρ α :=
  table.remove key .broken (by simp)

variable {table}

@[simp]
theorem lookup_remove_self {hstate : state ≠ .unset} :
    (table.remove key state hstate).lookup key = none :=
  Std.ExtTreeMap.getElem?_erase_self

theorem lookup_remove_of_ne {hstate : state ≠ .unset} (hne : key ≠ key') :
    (table.remove key state hstate).lookup key' = table.lookup key' :=
  getElem?_erase_of_ne hne

theorem lookup_of_lookup_remove {hstate : state ≠ .unset}
    (hentry : (table.remove key state hstate).lookup key' = some entry) :
    key ≠ key' ∧ table.lookup key' = some entry :=
  entry_of_erase hentry

theorem future_remove_self {hstate : state ≠ .unset} (hentry : table.lookup key = some entry) :
    (table.remove key state hstate).future entry.promise = state := by
  change table.settle key state entry.promise = state
  rw [settle_of_lookup hentry, Function.update_self]

theorem future_remove_of_ne {hstate : state ≠ .unset}
    (hne : ∀ entry, table.lookup key = some entry → p ≠ entry.promise) :
    (table.remove key state hstate).future p = table.future p := by
  change table.settle key state p = table.promises.cell p
  cases hkey : table.lookup key with
  | none => rw [settle_of_lookup_none hkey]
  | some entry => rw [settle_of_lookup hkey, Function.update_of_ne (hne entry hkey)]

/-- Resolving an entry sets its promise, which has no value yet. -/
theorem setValue_promises (hentry : table.lookup key = some entry) :
    table.promises.setValue entry.promise value = some (table.resolve key value).promises := by
  have hcell : (table.resolve key value).promises.cell =
      Function.update table.promises.cell entry.promise (.value value) := settle_of_lookup hentry
  rw [PromiseStore.setValue_of_unset (table.held key entry hentry).2, ← hcell]
  rfl

/-- Discarding an entry destroys its promise. -/
theorem abandon_promises (hentry : table.lookup key = some entry) :
    table.promises.abandon entry.promise = (table.discard key).promises := by
  have hcell : (table.discard key).promises.cell =
      Function.update table.promises.cell entry.promise .broken := settle_of_lookup hentry
  rw [PromiseStore.abandon_of_unset (table.held key entry hentry).2, ← hcell]
  rfl

variable (table)

/-- Assign a request to a key. The entry that was there, if any, is destroyed. -/
def assign (key : κ) (request : ρ) : PendingTable κ ρ α :=
  (table.discard key).add key request lookup_remove_self

/-- Read a key with an operator that inserts `request` where none is found. -/
def touch (key : κ) (request : ρ) : PendingTable κ ρ α :=
  if hnone : table.lookup key = none then table.add key request hnone else table

/-- Resolve the entry under `key` if there is one and it is due. -/
def resolveIf (due : ρ → Bool) (answer : ρ → α) (key : κ) : PendingTable κ ρ α :=
  match table.lookup key with
  | some entry => if due entry.request then table.resolve key (answer entry.request) else table
  | none => table

/-- Visit the keys in turn, resolving each entry that is due. -/
def sweep (due : ρ → Bool) (answer : ρ → α) (keys : List κ) : PendingTable κ ρ α :=
  keys.foldl (fun table key => table.resolveIf due answer key) table

variable {table}

/-! ## Entries and futures after each operation -/

theorem promise_lt_next (hentry : table.lookup key = some entry) : entry.promise < table.next :=
  (table.held key entry hentry).1

theorem future_of_lookup (hentry : table.lookup key = some entry) :
    table.future entry.promise = .unset :=
  (table.held key entry hentry).2

theorem future_next : table.future table.next = .unset :=
  table.fresh _ le_rfl

theorem lookup_of_future_unset (hlt : p < table.next) (hunset : table.future p = .unset) :
    ∃ key entry, table.lookup key = some entry ∧ entry.promise = p :=
  table.owned p hlt hunset

@[simp]
theorem lookup_empty : (empty : PendingTable κ ρ α).lookup key = none :=
  Std.ExtTreeMap.getElem?_empty

theorem lookup_discard_of_ne (hne : key ≠ key') :
    (table.discard key).lookup key' = table.lookup key' :=
  getElem?_erase_of_ne hne

@[simp]
theorem lookup_assign_self :
    (table.assign key request).lookup key = some ⟨request, table.next⟩ :=
  Std.ExtTreeMap.getElem?_insert_self

theorem lookup_assign_of_ne (hne : key ≠ key') :
    (table.assign key request).lookup key' = table.lookup key' :=
  (getElem?_insert_of_ne hne).trans (lookup_discard_of_ne hne)

theorem lookup_of_lookup_assign (hentry : (table.assign key request).lookup key' = some entry) :
    (key = key' ∧ entry = ⟨request, table.next⟩) ∨
      (key ≠ key' ∧ table.lookup key' = some entry) := by
  rcases entry_of_insert hentry with ⟨rfl, rfl⟩ | ⟨hne, hentry⟩
  · exact .inl ⟨rfl, rfl⟩
  · exact .inr ⟨hne, (entry_of_erase hentry).2⟩

/-- The future of the request just assigned is not ready. -/
theorem future_assign_next : (table.assign key request).future table.next = .unset :=
  (table.discard key).fresh _ le_rfl

theorem future_assign_of_ne (hne : ∀ entry, table.lookup key = some entry → p ≠ entry.promise) :
    (table.assign key request).future p = table.future p :=
  @future_remove_of_ne _ _ _ _ _ _ table key .broken p (by simp) hne

theorem lookup_of_lookup_touch (hentry : (table.touch key request).lookup key' = some entry) :
    (key = key' ∧ entry = ⟨request, table.next⟩) ∨ table.lookup key' = some entry := by
  unfold touch at hentry
  split_ifs at hentry
  · rcases entry_of_insert hentry with ⟨rfl, rfl⟩ | ⟨-, hentry⟩
    · exact .inl ⟨rfl, rfl⟩
    · exact .inr hentry
  · exact .inr hentry

theorem lookup_touch_of_lookup (hentry : table.lookup key = some entry) :
    (table.touch key' request).lookup key = some entry := by
  unfold touch
  split_ifs with hnone
  · refine (getElem?_insert_of_ne ?_).trans hentry
    rintro rfl
    simp [hnone] at hentry
  · exact hentry

theorem lookup_touch_of_ne (hne : key ≠ key') :
    (table.touch key request).lookup key' = table.lookup key' := by
  unfold touch
  split_ifs
  · exact getElem?_insert_of_ne hne
  · rfl

@[simp]
theorem future_touch : (table.touch key request).future p = table.future p := by
  unfold touch
  split_ifs <;> rfl

theorem next_le_next_touch : table.next ≤ (table.touch key request).next := by
  unfold touch
  split_ifs
  · exact Nat.le_succ _
  · exact le_rfl

theorem isEmpty_entries_iff :
    table.entries.isEmpty = true ↔ ∀ key, table.lookup key = none := by
  rw [Std.ExtTreeMap.isEmpty_iff]
  constructor
  · intro hempty key
    rw [lookup, hempty, Std.ExtTreeMap.getElem?_empty]
  · intro hnone
    exact Std.ExtTreeMap.ext_getElem? fun key =>
      (hnone key).trans Std.ExtTreeMap.getElem?_empty.symm

/-- A property of tables kept by resolving a due entry is kept by a sweep. -/
theorem sweep_induction {J : PendingTable κ ρ α → Prop} {due : ρ → Bool} {answer : ρ → α}
    (initial : J table)
    (resolved : ∀ table key entry, J table → table.lookup key = some entry →
      due entry.request = true → J (table.resolve key (answer entry.request)))
    (keys : List κ) : J (table.sweep due answer keys) := by
  induction keys generalizing table with
  | nil => exact initial
  | cons key keys ih =>
    have hkey : J (table.resolveIf due answer key) := by
      unfold resolveIf
      split
      · split_ifs with hdue
        · exact resolved _ _ _ initial ‹_› hdue
        · exact initial
      · exact initial
    exact ih hkey

/-! ## Futures over time -/

/-- Later tables hand out further promises and never change a settled future. -/
structure Extends (table table' : PendingTable κ ρ α) : Prop where
  next_le : table.next ≤ table'.next
  settled : ∀ p, table.future p ≠ .unset → table'.future p = table.future p

theorem Extends.refl (table : PendingTable κ ρ α) : table.Extends table :=
  ⟨le_rfl, fun _ _ => rfl⟩

theorem Extends.trans {table' table'' : PendingTable κ ρ α} (first : table.Extends table')
    (second : table'.Extends table'') : table.Extends table'' where
  next_le := first.next_le.trans second.next_le
  settled p hset := by
    have hsame := first.settled p hset
    rw [second.settled p (hsame.symm ▸ hset), hsame]

private theorem ne_promise_of_settled (hset : table.future p ≠ .unset)
    (hentry : table.lookup key = some entry) : p ≠ entry.promise := by
  rintro rfl
  exact hset (future_of_lookup hentry)

theorem extends_remove {hstate : state ≠ .unset} :
    table.Extends (table.remove key state hstate) where
  next_le := le_rfl
  settled _ hset := future_remove_of_ne fun _ => ne_promise_of_settled hset

theorem extends_discard : table.Extends (table.discard key) :=
  @extends_remove _ _ _ _ _ _ table key .broken (by simp)

theorem extends_assign : table.Extends (table.assign key request) where
  next_le := Nat.le_succ _
  settled _ hset := future_assign_of_ne fun _ => ne_promise_of_settled hset

theorem extends_touch : table.Extends (table.touch key request) where
  next_le := next_le_next_touch
  settled _ _ := future_touch

theorem extends_sweep {due : ρ → Bool} {answer : ρ → α} {keys : List κ} :
    table.Extends (table.sweep due answer keys) :=
  sweep_induction (J := table.Extends) (.refl table)
    (fun _ _ _ hext _ _ => hext.trans extends_remove) keys

/-! ## Entries over time -/

/-- The later table has no request that the earlier one did not have. -/
structure Shrinks (table table' : PendingTable κ ρ α) : Prop where
  next_eq : table'.next = table.next
  lookup : ∀ key entry, table'.lookup key = some entry → table.lookup key = some entry

theorem Shrinks.refl (table : PendingTable κ ρ α) : table.Shrinks table :=
  ⟨rfl, fun _ _ hentry => hentry⟩

theorem Shrinks.trans {table' table'' : PendingTable κ ρ α} (first : table.Shrinks table')
    (second : table'.Shrinks table'') : table.Shrinks table'' where
  next_eq := second.next_eq.trans first.next_eq
  lookup key entry hentry := first.lookup key entry (second.lookup key entry hentry)

theorem shrinks_remove {hstate : state ≠ .unset} :
    table.Shrinks (table.remove key state hstate) where
  next_eq := rfl
  lookup _ _ hentry := (lookup_of_lookup_remove hentry).2

theorem shrinks_discard : table.Shrinks (table.discard key) :=
  @shrinks_remove _ _ _ _ _ _ table key .broken (by simp)

theorem shrinks_sweep {due : ρ → Bool} {answer : ρ → α} {keys : List κ} :
    table.Shrinks (table.sweep due answer keys) :=
  sweep_induction (J := table.Shrinks) (.refl table)
    (fun _ _ _ hshrinks _ _ => hshrinks.trans shrinks_remove) keys

/-! ## Broken futures -/

/-- The future of `p` has a value, or its promise is still in the table. -/
def Answerable (table : PendingTable κ ρ α) (p : ℕ) : Prop :=
  (∃ value, table.future p = .value value) ∨
    ∃ key entry, table.lookup key = some entry ∧ entry.promise = p

/-- A promise is answerable unless it was destroyed. -/
theorem answerable_iff (hlt : p < table.next) : table.Answerable p ↔ table.future p ≠ .broken := by
  constructor
  · rintro (⟨value, hvalue⟩ | ⟨key, entry, hentry, rfl⟩)
    · simp [hvalue]
    · simp [future_of_lookup hentry]
  · intro hbroken
    cases hstate : table.future p with
    | unset => exact .inr (lookup_of_future_unset hlt hstate)
    | value value => exact .inl ⟨value, hstate⟩
    | broken => exact absurd hstate hbroken

/-- Resolving destroys no promise. -/
theorem future_resolve_eq_broken_iff :
    (table.resolve key value).future p = .broken ↔ table.future p = .broken := by
  by_cases howner : ∃ entry, table.lookup key = some entry ∧ p = entry.promise
  · obtain ⟨entry, hentry, rfl⟩ := howner
    simp [future_remove_self hentry, future_of_lookup hentry]
  · rw [future_remove_of_ne fun entry hentry hp => howner ⟨entry, hentry, hp⟩]

/-- Neither does a sweep. -/
theorem future_sweep_eq_broken_iff {due : ρ → Bool} {answer : ρ → α} {keys : List κ} :
    (table.sweep due answer keys).future p = .broken ↔ table.future p = .broken :=
  sweep_induction (J := fun t => t.future p = .broken ↔ table.future p = .broken) Iff.rfl
    (fun _ _ _ hprior _ _ => future_resolve_eq_broken_iff.trans hprior) keys

/-- Discarding a key destroys the promise found there and no other. -/
theorem future_discard_eq_broken_iff : (table.discard key).future p = .broken ↔
    table.future p = .broken ∨ ∃ entry, table.lookup key = some entry ∧ entry.promise = p := by
  by_cases howner : ∃ entry, table.lookup key = some entry ∧ entry.promise = p
  · obtain ⟨entry, hentry, rfl⟩ := howner
    simp only [future_remove_self hentry, true_iff]
    exact .inr ⟨entry, hentry, rfl⟩
  · rw [future_remove_of_ne fun entry hentry hp => howner ⟨entry, hentry, hp.symm⟩]
    simp [howner]

/-- So does assigning to it. -/
theorem future_assign_eq_broken_iff : (table.assign key request).future p = .broken ↔
    table.future p = .broken ∨ ∃ entry, table.lookup key = some entry ∧ entry.promise = p :=
  future_discard_eq_broken_iff

/-! ## Values of futures -/

/-- Discarding a key gives no future a value, and takes none away. -/
theorem future_discard_eq_value_iff :
    (table.discard key).future p = .value value ↔ table.future p = .value value := by
  by_cases howner : ∃ entry, table.lookup key = some entry ∧ p = entry.promise
  · obtain ⟨entry, hentry, rfl⟩ := howner
    simp [future_remove_self hentry, future_of_lookup hentry]
  · rw [future_remove_of_ne fun entry hentry hp => howner ⟨entry, hentry, hp⟩]

/-- Nor does assigning to it. -/
theorem future_assign_eq_value_iff :
    (table.assign key request).future p = .value value ↔ table.future p = .value value :=
  future_discard_eq_value_iff

/-- A value that appears when a key is resolved is the one given. -/
theorem value_of_resolve {value' : α}
    (hvalue : (table.resolve key value).future p = .value value') :
    table.future p = .value value' ∨
      ∃ entry, table.lookup key = some entry ∧ entry.promise = p ∧ value' = value := by
  by_cases howner : ∃ entry, table.lookup key = some entry ∧ p = entry.promise
  · obtain ⟨entry, hentry, rfl⟩ := howner
    rw [future_remove_self hentry] at hvalue
    exact .inr ⟨entry, hentry, rfl, (SharedState.value.inj hvalue).symm⟩
  · rw [future_remove_of_ne fun entry hentry hp => howner ⟨entry, hentry, hp⟩] at hvalue
    exact .inl hvalue

/-- A value that appears during a sweep is the answer to a request that was
pending before it. -/
theorem value_of_sweep {due : ρ → Bool} {answer : ρ → α} {keys : List κ}
    (hvalue : (table.sweep due answer keys).future p = .value value) :
    table.future p = .value value ∨
      ∃ key entry, table.lookup key = some entry ∧ entry.promise = p ∧
        value = answer entry.request := by
  -- a sweep answers requests it finds on the way, and those were pending from the start
  suffices hsweep : table.Shrinks (table.sweep due answer keys) ∧
      ∀ value, (table.sweep due answer keys).future p = .value value →
        table.future p = .value value ∨ ∃ key entry, table.lookup key = some entry ∧
          entry.promise = p ∧ value = answer entry.request from hsweep.2 value hvalue
  refine sweep_induction (J := fun t => table.Shrinks t ∧ ∀ value, t.future p = .value value →
    table.future p = .value value ∨ ∃ key entry, table.lookup key = some entry ∧
      entry.promise = p ∧ value = answer entry.request) ⟨.refl table, fun _ => .inl⟩ ?_ keys
  rintro t key entry ⟨hshrinks, hprior⟩ hentry -
  refine ⟨hshrinks.trans shrinks_remove, fun value hresolved => ?_⟩
  rcases value_of_resolve hresolved with hsame | ⟨found, hfound, rfl, rfl⟩
  · exact hprior value hsame
  · obtain rfl := Option.some.inj (hentry.symm.trans hfound)
    exact .inr ⟨key, entry, hshrinks.lookup key entry hentry, rfl, rfl⟩

/-! ## What a sweep takes out -/

section Sweep

variable {due : ρ → Bool} {answer : ρ → α} {keys : List κ}

/-- A key without a request still has none after a sweep. -/
theorem lookup_sweep_eq_none (hnone : table.lookup key = none) :
    (table.sweep due answer keys).lookup key = none := by
  refine Option.eq_none_iff_forall_ne_some.mpr fun entry hentry => ?_
  cases hnone.symm.trans (shrinks_sweep.lookup key entry hentry)

/-- A due request under a visited key is taken out. -/
theorem lookup_sweep_of_due (hentry : table.lookup key = some entry)
    (hdue : due entry.request = true) (hmem : key ∈ keys) :
    (table.sweep due answer keys).lookup key = none := by
  induction keys generalizing table with
  | nil => cases hmem
  | cons visitedKey keys ih =>
    change ((table.resolveIf due answer visitedKey).sweep due answer keys).lookup key = none
    by_cases heq : visitedKey = key
    · subst heq
      refine lookup_sweep_eq_none ?_
      simp only [resolveIf, hentry, hdue, if_true, lookup_remove_self]
    · -- resolving another entry leaves this one to the rest of the sweep
      refine ih ?_ ((List.mem_cons.mp hmem).resolve_left (Ne.symm heq))
      unfold resolveIf
      split
      · split_ifs
        · exact (lookup_remove_of_ne heq).trans hentry
        · exact hentry
      · exact hentry

/-- A request that is not due stays. -/
theorem lookup_sweep_of_not_due (hentry : table.lookup key = some entry)
    (hdue : due entry.request = false) :
    (table.sweep due answer keys).lookup key = some entry := by
  refine sweep_induction (J := fun t => t.lookup key = some entry) hentry ?_ keys
  intro t key' entry' hkept hentry' hdue'
  have hne : key' ≠ key := by
    rintro rfl
    obtain rfl := Option.some.inj (hkept.symm.trans hentry')
    exact Bool.noConfusion (hdue.symm.trans hdue')
  exact (lookup_remove_of_ne hne).trans hkept

/-- A due request under a visited key is answered. -/
theorem future_sweep_of_due (hentry : table.lookup key = some entry)
    (hdue : due entry.request = true) (hmem : key ∈ keys) :
    (table.sweep due answer keys).future entry.promise = .value (answer entry.request) := by
  suffices hsweep : (table.sweep due answer keys).lookup key = some entry ∨
      (table.sweep due answer keys).future entry.promise = .value (answer entry.request) by
    refine hsweep.resolve_left fun hkept => ?_
    cases hkept.symm.trans (lookup_sweep_of_due hentry hdue hmem)
  refine sweep_induction (J := fun t => t.lookup key = some entry ∨
    t.future entry.promise = .value (answer entry.request)) (.inl hentry) ?_ keys
  rintro t key' entry' (hkept | hvalue) hentry' -
  · by_cases heq : key' = key
    · subst heq
      obtain rfl := Option.some.inj (hkept.symm.trans hentry')
      exact .inr (future_remove_self hkept)
    · exact .inl ((lookup_remove_of_ne heq).trans hkept)
  · refine .inr ?_
    rw [← hvalue]
    exact extends_remove.settled _ (by simp [hvalue])

end Sweep

/-! ## The end of a table -/

variable (table) in
/-- Destroy the table, and every promise in it. -/
def clear : PendingTable κ ρ α where
  entries := ∅
  promises := { table.promises with
    cell := fun p =>
      if p < table.promises.next then (table.promises.cell p).abandoned
      else table.promises.cell p }
  held key entry hentry := by simp at hentry
  distinct key key' entry entry' hentry := by simp at hentry
  owned p hp hunset := by
    have hlt : p < table.promises.next := hp
    simp only [hlt, if_true] at hunset
    exact absurd hunset SharedState.abandoned_ne_unset
  fresh p hp := by
    have hle : table.promises.next ≤ p := hp
    simp only [Nat.not_lt.mpr hle, if_false]
    exact table.fresh p hle

@[simp]
theorem lookup_clear : table.clear.lookup key = none :=
  Std.ExtTreeMap.getElem?_empty

/-- What a future holds it keeps. -/
theorem future_clear_of_settled (hset : table.future p ≠ .unset) :
    table.clear.future p = table.future p := by
  change (if p < table.promises.next then (table.promises.cell p).abandoned
    else table.promises.cell p) = table.promises.cell p
  have hsame : (table.promises.cell p).abandoned = table.promises.cell p :=
    SharedState.abandoned_of_ne_unset hset
  rw [hsame, ite_self]

/-- A promise that was not set is broken. -/
theorem future_clear_of_unset (hlt : p < table.next) (hunset : table.future p = .unset) :
    table.clear.future p = .broken := by
  have hcell : table.promises.cell p = .unset := hunset
  change (if p < table.promises.next then (table.promises.cell p).abandoned
    else table.promises.cell p) = .broken
  rw [hcell, SharedState.abandoned]
  exact if_pos hlt

end PendingTable

end NetDiscovery.Semantics
