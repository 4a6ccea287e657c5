/-
# Views into zero-terminated text

A view is a part of a buffer. A function that is handed only the address of its first
character does not know where the view ends: it reads up to the first zero byte, and past
the end of the buffer if there is none.

So what it reads depends on the bytes after the view, unless the view has a zero in it or
the function makes no difference between the ways in which the text may go on.
-/

import Mathlib

namespace NetDiscovery.Text

variable {α : Type*}

/-- `std::string_view`. -/
structure StringView where
  buffer : List UInt8
  start : ℕ
  size : ℕ
  inside : start + size ≤ buffer.length

/-- A text without a zero byte. -/
abbrev ZeroFree := {bytes : List UInt8 // 0 ∉ bytes}

namespace StringView

/-- The characters of a view. -/
def chars (view : StringView) : List UInt8 :=
  (view.buffer.drop view.start).take view.size

/-- The bytes from `data()` on. -/
def data (view : StringView) : List UInt8 :=
  view.buffer.drop view.start

theorem zero_notMem_takeWhile (bytes : List UInt8) : 0 ∉ bytes.takeWhile (· ≠ 0) := by
  intro hmem
  simpa using List.mem_takeWhile_imp hmem

/-- What a function reads that is handed `data()`, if the buffer has a zero there. -/
def zeroTerminated (view : StringView) : Option ZeroFree :=
  if 0 ∈ view.data then some ⟨view.data.takeWhile (· ≠ 0), zero_notMem_takeWhile view.data⟩
  else none

/-- A view of some characters, with a buffer around them. -/
def within (before chars after : List UInt8) : StringView where
  buffer := before ++ chars ++ after
  start := before.length
  size := chars.length
  inside := by simp

end StringView

/-- What is made of a view with these characters depends on nothing around it. -/
def IgnoresSurroundings (f : StringView → Option α) (chars : List UInt8) : Prop :=
  ∀ first second : StringView, first.chars = chars → second.chars = chars →
    ∀ x y, f first = some x → f second = some y → x = y

namespace StringView

variable {view : StringView} {text : ZeroFree} {before chars after rest : List UInt8}

/-- The characters of a view come first in its data. -/
theorem exists_data_eq (view : StringView) : ∃ after, view.data = view.chars ++ after :=
  ⟨_, (List.take_append_drop view.size view.data).symm⟩

@[simp]
theorem data_within : (within before chars after).data = chars ++ after := by
  simp [data, within]

@[simp]
theorem chars_within : (within before chars after).chars = chars := by
  simp [StringView.chars, within]

theorem zeroTerminated_eq_some (hread : view.zeroTerminated = some text) :
    text.1 = view.data.takeWhile (· ≠ 0) := by
  rw [zeroTerminated] at hread
  split_ifs at hread
  exact congrArg Subtype.val (Option.some.inj hread).symm

/-- A text that ends before a zero is read. -/
theorem zeroTerminated_within (text : ZeroFree) (htext : text.1 = chars ++ after) :
    (within before chars (after ++ 0 :: rest)).zeroTerminated = some text := by
  have hdata : (within before chars (after ++ 0 :: rest)).data = text.1 ++ 0 :: rest := by
    rw [data_within, htext, List.append_assoc]
  have hnonzero : ∀ byte ∈ text.1, decide (byte ≠ 0) = true := fun byte hmem =>
    decide_eq_true fun hzero => text.2 (hzero ▸ hmem)
  rw [zeroTerminated, if_pos (by simp [hdata])]
  refine congrArg some (Subtype.ext ?_)
  change (within before chars (after ++ 0 :: rest)).data.takeWhile (· ≠ 0) = text.1
  rw [hdata, List.takeWhile_append_of_pos hnonzero]
  simp

/-- A zero among the characters ends the text. -/
theorem takeWhile_append_of_zero_mem (hzero : 0 ∈ chars) :
    (chars ++ after).takeWhile (· ≠ 0) = chars.takeWhile (· ≠ 0) := by
  rw [List.takeWhile_append, if_neg]
  intro hlength
  have hself := (List.takeWhile_prefix _).eq_of_length hlength
  exact zero_notMem_takeWhile chars (hself.symm ▸ hzero)

/-- **A function of the text at `data()` ignores the surroundings of a view exactly if
the view has a zero in it or all texts that it may go on to are treated alike.** -/
theorem ignoresSurroundings_iff (f : ZeroFree → α) (chars : List UInt8) :
    IgnoresSurroundings (fun view => view.zeroTerminated.map f) chars ↔
      0 ∈ chars ∨ ∀ first second : ZeroFree, chars <+: first.1 → chars <+: second.1 →
        f first = f second := by
  constructor
  · intro hignores
    refine .inr ?_
    rintro first second ⟨after, hfirst⟩ ⟨after', hsecond⟩
    have hread : (within [] chars (after ++ [0])).zeroTerminated = some first :=
      zeroTerminated_within first hfirst.symm
    have hread' : (within [] chars (after' ++ [0])).zeroTerminated = some second :=
      zeroTerminated_within second hsecond.symm
    exact hignores _ _ chars_within chars_within _ _ (congrArg (Option.map f) hread)
      (congrArg (Option.map f) hread')
  · rintro halike first second rfl hchars x y hx hy
    obtain ⟨text, hread, rfl⟩ := Option.map_eq_some_iff.mp hx
    obtain ⟨text', hread', rfl⟩ := Option.map_eq_some_iff.mp hy
    obtain ⟨after, hdata⟩ := exists_data_eq first
    obtain ⟨after', hdata'⟩ := exists_data_eq second
    rw [hchars] at hdata'
    have htext := zeroTerminated_eq_some hread
    have htext' := zeroTerminated_eq_some hread'
    rw [hdata] at htext
    rw [hdata'] at htext'
    by_cases hzero : 0 ∈ first.chars
    · rw [takeWhile_append_of_zero_mem hzero] at htext htext'
      rw [Subtype.ext (htext.trans htext'.symm)]
    · -- all of the view is read, and something of what follows it
      have hnonzero : ∀ byte ∈ first.chars, decide (byte ≠ 0) = true := fun byte hmem =>
        decide_eq_true fun h => hzero (h ▸ hmem)
      rw [List.takeWhile_append_of_pos hnonzero] at htext htext'
      exact halike.resolve_left hzero text text' ⟨_, htext.symm⟩ ⟨_, htext'.symm⟩

/-- A function that keeps the texts apart ignores the surroundings only of a view with a
zero in it. -/
theorem ignoresSurroundings_iff_of_injective {f : ZeroFree → α} (hf : Function.Injective f) :
    IgnoresSurroundings (fun view => view.zeroTerminated.map f) chars ↔ 0 ∈ chars := by
  rw [ignoresSurroundings_iff]
  refine ⟨fun halike => ?_, .inl⟩
  by_contra hzero
  -- the view may be the whole text, or go on
  have hlonger : 0 ∉ chars ++ [1] := by simpa using hzero
  have hsame := hf (halike.resolve_left hzero ⟨chars, hzero⟩ ⟨_, hlonger⟩ List.prefix_rfl
    (List.prefix_append _ _))
  simpa using congrArg (List.length ∘ Subtype.val) hsame

end StringView

end NetDiscovery.Text
