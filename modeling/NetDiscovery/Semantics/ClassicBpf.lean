/-
# Classic packet filters

A filter is a program for a machine with an accumulator. It loads fields of a
packet, most significant byte first, compares the accumulator with constants and
returns how many bytes of the packet are kept; with none of them kept, the packet
is dropped. Jumps are relative to the next instruction and lead forward. A load
past the end of the packet drops the packet.

The instructions here are those of filters on fixed header fields. A program is
checked before it is attached: every instruction is known, and no instruction
leads out of the program. A checked program gives a verdict within as many steps
as it has instructions.
-/

import Mathlib.Data.UInt
import Mathlib.Logic.Relation

namespace NetDiscovery.Semantics.ClassicBpf

/-- `sock_filter`. -/
structure Instruction where
  code : UInt16
  jt : UInt8
  jf : UInt8
  k : UInt32

/-- How a conditional jump compares the accumulator with its constant. -/
inductive Test
  | eq
  | gt
  | ge
  /-- some bit is set in both -/
  | set
  deriving DecidableEq

/-- What an instruction does. -/
inductive Operation
  /-- load a field of `width` bytes -/
  | load (width offset : ℕ)
  | loadConstant (value : UInt32)
  | loadLength
  | mask (value : UInt32)
  | jump (offset : ℕ)
  | branch (test : Test) (value : UInt32) (jt jf : ℕ)
  | keep (length : UInt32)
  | keepAccumulator
  deriving DecidableEq

/-- The state between two instructions. -/
structure Machine where
  pc : ℕ
  accumulator : UInt32

/-- A filter starts with its first instruction. -/
def Machine.start : Machine where
  pc := 0
  accumulator := 0

namespace Instruction

/-- A load at a constant offset. From `2 ^ 31` on, the constant is no offset into
the packet. -/
def decodeLoad (i : Instruction) (width : ℕ) : Option Operation :=
  if i.k.toNat < 2 ^ 31 then some (.load width i.k.toNat) else none

/-- A conditional jump. -/
def decodeBranch (i : Instruction) (test : Test) : Option Operation :=
  some (.branch test i.k i.jt.toNat i.jf.toNat)

/-- The operation of an instruction. -/
def decode (i : Instruction) : Option Operation :=
  match i.code with
  | 0x00 => some (.loadConstant i.k)
  | 0x20 => i.decodeLoad 4
  | 0x28 => i.decodeLoad 2
  | 0x30 => i.decodeLoad 1
  | 0x80 => some .loadLength
  | 0x54 => some (.mask i.k)
  | 0x05 => some (.jump i.k.toNat)
  | 0x15 => i.decodeBranch .eq
  | 0x25 => i.decodeBranch .gt
  | 0x35 => i.decodeBranch .ge
  | 0x45 => i.decodeBranch .set
  | 0x06 => some (.keep i.k)
  | 0x16 => some .keepAccumulator
  | _ => none

end Instruction

/-- The number in a field, most significant byte first. -/
def bigEndian (bytes : List UInt8) : ℕ :=
  bytes.foldl (fun value byte => 256 * value + byte.toNat) 0

/-- A field that lies within the packet. -/
def readField (packet : List UInt8) (width offset : ℕ) : Option UInt32 :=
  if offset + width ≤ packet.length then
    some (UInt32.ofNat (bigEndian ((packet.drop offset).take width)))
  else none

def Test.holds (accumulator value : UInt32) : Test → Bool
  | .eq => accumulator = value
  | .gt => value < accumulator
  | .ge => value ≤ accumulator
  | .set => accumulator &&& value ≠ 0

/-- Go on after the next `offset` instructions. -/
def Machine.skip (m : Machine) (offset : ℕ) : Machine :=
  { m with pc := m.pc + 1 + offset }

/-- Go on with another value in the accumulator. -/
def Machine.put (m : Machine) (value : UInt32) : Machine where
  pc := m.pc + 1
  accumulator := value

/-- The next state, or the verdict: how many bytes are kept. -/
def Operation.run (packet : List UInt8) (m : Machine) : Operation → Machine ⊕ UInt32
  | .load width offset =>
    match readField packet width offset with
    | some value => .inl (m.put value)
    | none => .inr 0
  | .loadConstant value => .inl (m.put value)
  | .loadLength => .inl (m.put (UInt32.ofNat packet.length))
  | .mask value => .inl (m.put (m.accumulator &&& value))
  | .jump offset => .inl (m.skip offset)
  | .branch test value jt jf =>
    .inl (m.skip (if test.holds m.accumulator value then jt else jf))
  | .keep length => .inr length
  | .keepAccumulator => .inr m.accumulator

/-- The instructions that an operation may go on with, relative to the next. -/
def Operation.offsets : Operation → List ℕ
  | .load _ _ | .loadConstant _ | .loadLength | .mask _ => [0]
  | .jump offset => [offset]
  | .branch _ _ jt jf => [jt, jf]
  | .keep _ | .keepAccumulator => []

/-- The operation at a position. -/
def operationAt (program : List Instruction) (pc : ℕ) : Option Operation :=
  program[pc]?.bind Instruction.decode

/-- One step, unless there is no operation to run. -/
def step (program : List Instruction) (packet : List UInt8) (m : Machine) :
    Option (Machine ⊕ UInt32) :=
  (operationAt program m.pc).map (Operation.run packet m)

/-- The verdict within a number of steps. -/
def exec (program : List Instruction) (packet : List UInt8) : ℕ → Machine → Option UInt32
  | 0, _ => none
  | fuel + 1, m =>
    match step program packet m with
    | some (.inl next) => exec program packet fuel next
    | some (.inr kept) => some kept
    | none => none

/-- The states that a program comes to on a packet. -/
def Reaches (program : List Instruction) (packet : List UInt8) : Machine → Prop :=
  Relation.ReflTransGen (fun m next => step program packet m = some (.inl next)) .start

/-- The instruction at a position is known and leads to one of the program. -/
def LeadsInside (program : List Instruction) (pc : ℕ) : Prop :=
  match operationAt program pc with
  | some operation => ∀ offset ∈ operation.offsets, pc + 1 + offset < program.length
  | none => False

instance (program : List Instruction) (pc : ℕ) : Decidable (LeadsInside program pc) :=
  match h : operationAt program pc with
  | some operation => decidable_of_iff
      (∀ offset ∈ operation.offsets, pc + 1 + offset < program.length) (by simp [LeadsInside, h])
  | none => .isFalse (by simp [LeadsInside, h])

/-- The test of a program before it is attached. -/
def Checked (program : List Instruction) : Prop :=
  0 < program.length ∧ ∀ pc < program.length, LeadsInside program pc

instance (program : List Instruction) : Decidable (Checked program) :=
  inferInstanceAs (Decidable (_ ∧ _))

variable {program : List Instruction} {packet : List UInt8} {m next : Machine} {kept : UInt32}
  {operation : Operation} {fuel : ℕ}

/-! ## Checked programs -/

/-- An operation goes on after the instructions between. -/
theorem exists_offset_of_run (hrun : operation.run packet m = .inl next) :
    ∃ offset ∈ operation.offsets, next.pc = m.pc + 1 + offset := by
  cases operation with
  | load width offset =>
    simp only [Operation.run] at hrun
    split at hrun
    · obtain rfl := Sum.inl.inj hrun
      exact ⟨0, List.mem_singleton_self 0, rfl⟩
    · cases hrun
  | loadConstant | loadLength | mask =>
    obtain rfl := Sum.inl.inj hrun
    exact ⟨0, List.mem_singleton_self 0, rfl⟩
  | jump offset =>
    obtain rfl := Sum.inl.inj hrun
    exact ⟨offset, List.mem_singleton_self offset, rfl⟩
  | branch test value jt jf =>
    obtain rfl := Sum.inl.inj hrun
    -- whichever way the test goes
    refine ⟨_, ?_, rfl⟩
    split_ifs
    · exact List.mem_cons_self
    · exact List.mem_cons_of_mem _ (List.mem_singleton_self jf)
  | keep | keepAccumulator => cases hrun

/-- The step lemma: within a checked program there is a next step, and it leads
forward and not out of the program. -/
theorem Checked.exists_step (checked : Checked program) (hpc : m.pc < program.length)
    (packet : List UInt8) :
    ∃ result, step program packet m = some result ∧
      ∀ next, result = .inl next → m.pc < next.pc ∧ next.pc < program.length := by
  have hleads := checked.2 m.pc hpc
  unfold LeadsInside at hleads
  split at hleads
  · next operation hoperation =>
    refine ⟨operation.run packet m, by rw [step, hoperation, Option.map_some], fun next hnext => ?_⟩
    obtain ⟨offset, hmem, hforward⟩ := exists_offset_of_run hnext
    have hstays := hleads offset hmem
    omega
  · exact hleads.elim

theorem Checked.pc_lt_of_reaches (checked : Checked program) (hreaches : Reaches program packet m) :
    m.pc < program.length := by
  induction hreaches with
  | refl => exact checked.1
  | tail _ hstep ih =>
    obtain ⟨result, hresult, hforward⟩ := checked.exists_step ih packet
    exact (hforward _ (Option.some.inj (hresult.symm.trans hstep))).2

/-- A checked program gives a verdict. The induction is on the instructions left. -/
theorem Checked.exists_exec (checked : Checked program) (packet : List UInt8)
    (hpc : m.pc < program.length) (hfuel : program.length ≤ m.pc + fuel) :
    ∃ kept, exec program packet fuel m = some kept := by
  induction fuel generalizing m with
  | zero => omega
  | succ fuel ih =>
    obtain ⟨result, hresult, hforward⟩ := checked.exists_step hpc packet
    rw [exec, hresult]
    cases result with
    | inl next =>
      -- jumps lead forward, so fewer instructions are left
      obtain ⟨hlt, hstays⟩ := hforward next rfl
      exact ih hstays (by omega)
    | inr kept => exact ⟨kept, rfl⟩

/-! ## Runs -/

/-- A load past the end of the packet reads nothing. -/
theorem readField_eq_none {width offset : ℕ} (hshort : packet.length < offset + width) :
    readField packet width offset = none :=
  if_neg (Nat.not_le.mpr hshort)

theorem exec_of_next (hstep : step program packet m = some (.inl next)) (fuel : ℕ) :
    exec program packet (fuel + 1) m = exec program packet fuel next := by
  rw [exec, hstep]

theorem exec_of_verdict (hstep : step program packet m = some (.inr kept)) (fuel : ℕ) :
    exec program packet (fuel + 1) m = some kept := by
  rw [exec, hstep]

end NetDiscovery.Semantics.ClassicBpf
