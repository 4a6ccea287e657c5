/-
# A MIB and the agent that serves it

A MIB lists its bindings in increasing order of their identifiers. An agent
answers a GETBULK for an identifier with one binding per repetition, each the
successor of the one before it. Past the end of the MIB a repetition keeps the
last identifier and marks the end instead of carrying a value.

What remains of the MIB past an identifier is a list that loses its head with
each successor. The subtree under a root is the first part of what remains past
the root.
-/

import NetDiscovery.Math.PrefixOrder
import NetDiscovery.Net.Snmp.SnmpClient

namespace NetDiscovery.Net

open NetDiscovery.Math SnmpClient

/-- A finite MIB. -/
structure Mib where
  bindings : List Vb
  increasing : bindings.Pairwise fun a b => a.oid < b.oid
  value_ne_end : ∀ vb ∈ bindings, vb.value ≠ .endOfMibView

namespace Mib

variable (mib : Mib) {oid root : Oid} {vb : Vb}

/-- The binding with the least identifier past `oid`. -/
def next (oid : Oid) : Option Vb :=
  mib.bindings.find? fun vb => oid < vb.oid

/-- All bindings past `oid`. -/
def after (oid : Oid) : List Vb :=
  mib.bindings.filter fun vb => oid < vb.oid

/-- The bindings strictly under `root`. -/
def subtree (root : Oid) : List Vb :=
  mib.bindings.filter fun vb => root < vb.oid ∧ root <+: vb.oid

/-- The repetitions of an answer to a GETBULK for `oid`. -/
inductive Answers : Oid → Pdu → Prop
  | nil (oid : Oid) : Answers oid []
  | successor {oid : Oid} {vb : Vb} {pdu : Pdu} :
      mib.next oid = some vb → Answers vb.oid pdu → Answers oid (vb :: pdu)
  | endOfMib {oid : Oid} {vb : Vb} {pdu : Pdu} :
      mib.next oid = none → vb.oid = oid → vb.value = .endOfMibView → Answers oid pdu →
        Answers oid (vb :: pdu)

/-- The answer with `n` repetitions. -/
def answer : ℕ → Oid → Pdu
  | 0, _ => []
  | n + 1, oid =>
    match mib.next oid with
    | some vb => vb :: answer n vb.oid
    | none => { oid := oid, value := .endOfMibView, valid := true, printableValue := "" } ::
        answer n oid

theorem length_answer (n : ℕ) (oid : Oid) : (mib.answer n oid).length = n := by
  induction n generalizing oid with
  | zero => rfl
  | succ n ih =>
    unfold answer
    split <;> simp [ih]

theorem answers_answer (n : ℕ) (oid : Oid) : mib.Answers oid (mib.answer n oid) := by
  induction n generalizing oid with
  | zero => exact .nil oid
  | succ n ih =>
    unfold answer
    split
    · exact .successor ‹_› (ih _)
    · exact .endOfMib ‹_› rfl rfl (ih oid)

variable {mib}

theorem after_of_next_eq_none (hnext : mib.next oid = none) : mib.after oid = [] := by
  simpa [next, after] using hnext

theorem mem_of_next_eq_some (hnext : mib.next oid = some vb) : vb ∈ mib.bindings :=
  List.mem_of_find?_eq_some hnext

/-- The successor of `oid` is the head of what remains past `oid`, and the rest is
what remains past the successor. -/
theorem after_of_next_eq_some (hnext : mib.next oid = some vb) :
    mib.after oid = vb :: mib.after vb.oid := by
  have hpast : oid < vb.oid := by simpa using List.find?_some hnext
  obtain ⟨rest, hrest⟩ : ∃ rest, mib.after oid = vb :: rest := by
    rw [next, ← List.head?_filter] at hnext
    exact List.head?_eq_some_iff.mp hnext
  have hsorted : (vb :: rest).Pairwise fun a b => a.oid < b.oid :=
    hrest ▸ mib.increasing.filter _
  -- what lies past the successor lies past `oid`, so the same filter applies to what remains
  have hafter : mib.after vb.oid = (mib.after oid).filter fun other => vb.oid < other.oid := by
    rw [after, after, List.filter_filter]
    refine List.filter_congr fun other _ => ?_
    have himp : vb.oid < other.oid → oid < other.oid := hpast.trans
    simpa using himp
  rw [hafter, hrest, List.filter_cons_of_neg (by simp), List.filter_eq_self.mpr]
  simpa using (List.pairwise_cons.mp hsorted).1

/-- Past the root, the subtree comes first. -/
theorem takeWhile_after (mib : Mib) (root : Oid) :
    (mib.after root).takeWhile (fun vb => root.isPrefixOf vb.oid) = mib.subtree root := by
  have hpast : ∀ vb ∈ mib.after root, root < vb.oid := by simp [after]
  calc
    _ = (mib.after root).filter fun vb => root.isPrefixOf vb.oid :=
      takeWhile_prefix_eq_filter (mib.increasing.filter _) hpast
    _ = mib.subtree root := by
      rw [after, subtree, List.filter_filter]
      refine List.filter_congr fun vb _ => ?_
      rw [Bool.eq_iff_iff]
      simp [and_comm]

end Mib

end NetDiscovery.Net
