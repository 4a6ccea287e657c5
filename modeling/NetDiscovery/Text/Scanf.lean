/-
# Reading numbers with `sscanf`

Three directives of a format: `%hhx`, a scan set of width one whose match is not
stored, and `%n`. The first is the generous one. It skips white space, takes a
sign and a `0x`, and reads as many digits as there are; the number is converted
by `strtoul` and its low byte is stored.

A numeral is what `%hhx` accepts. A format of several `%hhx` with a scan set
between each two reads exactly the texts that are numerals joined by single
characters of the set.
-/

import Mathlib

namespace NetDiscovery.Text

/-! ## Characters -/

/-- `isspace` of the C locale. -/
def isSpace (c : UInt8) : Bool :=
  c = 32 ∨ 9 ≤ c ∧ c ≤ 13

/-- The value of a hexadecimal digit. -/
def hexDigit (c : UInt8) : Option ℕ :=
  if 48 ≤ c ∧ c ≤ 57 then some (c.toNat - 48)
  else if 65 ≤ c ∧ c ≤ 70 then some (c.toNat - 55)
  else if 97 ≤ c ∧ c ≤ 102 then some (c.toNat - 87)
  else none

def isHexDigit (c : UInt8) : Bool :=
  (hexDigit c).isSome

theorem hexDigit_lt {c : UInt8} {d : ℕ} (hdigit : hexDigit c = some d) : d < 16 := by
  simp only [hexDigit, UInt8.le_iff_toNat_le, UInt8.reduceToNat] at hdigit
  split_ifs at hdigit <;>
  · obtain rfl := Option.some.inj hdigit
    omega

/-- The number that a string of digits denotes. -/
def hexValue (digits : List UInt8) : ℕ :=
  digits.foldl (fun value c => 16 * value + (hexDigit c).getD 0) 0

/-- No sign, or one. -/
def signs : List (List UInt8) :=
  [[], [43], [45]]

/-- No prefix, `0x` or `0X`. -/
def hexPrefixes : List (List UInt8) :=
  [[], [48, 120], [48, 88]]

/-- The number of `strtoul` for a sign and digits: too large a number becomes the
greatest one, and a minus negates modulo `2 ^ 64`. -/
def unsignedLong (sign : List UInt8) (value : ℕ) : ℕ :=
  if 2 ^ 64 ≤ value then 2 ^ 64 - 1
  else if sign = [45] then (2 ^ 64 - value) % 2 ^ 64
  else value

/-! ## Numerals -/

/-- What `%hhx` accepts. -/
structure Numeral where
  blanks : List UInt8
  sign : List UInt8
  hexPrefix : List UInt8
  digits : List UInt8
  isSpace_of_mem : ∀ c ∈ blanks, isSpace c = true
  sign_mem : sign ∈ signs
  hexPrefix_mem : hexPrefix ∈ hexPrefixes
  isHexDigit_of_mem : ∀ c ∈ digits, isHexDigit c = true
  digits_ne_nil : digits ≠ []

namespace Numeral

/-- One or two digits and nothing else. -/
structure Bare (numeral : Numeral) : Prop where
  blanks : numeral.blanks = []
  sign : numeral.sign = []
  hexPrefix : numeral.hexPrefix = []
  digits : numeral.digits.length ≤ 2

def text (numeral : Numeral) : List UInt8 :=
  numeral.blanks ++ (numeral.sign ++ (numeral.hexPrefix ++ numeral.digits))

/-- The byte that is stored. -/
def value (numeral : Numeral) : UInt8 :=
  UInt8.ofNat (unsignedLong numeral.sign (hexValue numeral.digits))

end Numeral

/-- A sign at the front, and the rest. -/
def readSign : List UInt8 → List UInt8 × List UInt8
  | [] => ([], [])
  | c :: rest => if c = 43 ∨ c = 45 then ([c], rest) else ([], c :: rest)

/-- A `0x` at the front, and the rest. -/
def readPrefix : List UInt8 → List UInt8 × List UInt8
  | [] => ([], [])
  | [c] => ([], [c])
  | c :: d :: rest => if c = 48 ∧ (d = 120 ∨ d = 88) then ([c, d], rest) else ([], c :: d :: rest)

/-- `%hhx`: the byte stored and the rest of the input. A `0x` without a digit after
it does not match, as ISO C has it; glibc reads it as zero. -/
def readHex (input : List UInt8) : Option (UInt8 × List UInt8) :=
  let (sign, unsigned) := readSign (input.dropWhile isSpace)
  let (_, bare) := readPrefix unsigned
  let digits := bare.takeWhile isHexDigit
  if digits = [] then none
  else some (UInt8.ofNat (unsignedLong sign (hexValue digits)), bare.dropWhile isHexDigit)

variable {input rest : List UInt8} {c : UInt8} {value : UInt8}

theorem readSign_spec (input : List UInt8) :
    (readSign input).1 ∈ signs ∧ (readSign input).1 ++ (readSign input).2 = input := by
  cases input with
  | nil => simp [readSign, signs]
  | cons c rest =>
    simp only [readSign]
    split_ifs with hsign
    · rcases hsign with rfl | rfl <;> simp [signs]
    · simp [signs]

theorem readPrefix_spec (input : List UInt8) :
    (readPrefix input).1 ∈ hexPrefixes ∧
      (readPrefix input).1 ++ (readPrefix input).2 = input := by
  rcases input with _ | ⟨c, _ | ⟨d, rest⟩⟩
  · simp [readPrefix, hexPrefixes]
  · simp [readPrefix, hexPrefixes]
  · by_cases hlead : c = 48 ∧ (d = 120 ∨ d = 88)
    · obtain ⟨rfl, rfl | rfl⟩ := hlead <;> simp [readPrefix, hexPrefixes]
    · simp [readPrefix, hlead, hexPrefixes]

/-- What `%hhx` has read is a numeral. -/
theorem exists_numeral_of_readHex (hread : readHex input = some (value, rest)) :
    ∃ numeral : Numeral, input = numeral.text ++ rest ∧ value = numeral.value := by
  have hsign := readSign_spec (input.dropWhile isSpace)
  have hlead := readPrefix_spec (readSign (input.dropWhile isSpace)).2
  simp only [readHex] at hread
  split_ifs at hread with hdigits
  obtain ⟨rfl, rfl⟩ := Prod.mk.inj (Option.some.inj hread)
  refine ⟨⟨input.takeWhile isSpace, _, _, _, fun c => List.mem_takeWhile_imp, hsign.1, hlead.1,
    fun c => List.mem_takeWhile_imp, hdigits⟩, ?_, rfl⟩
  simp only [Numeral.text, List.append_assoc, List.takeWhile_append_dropWhile, hlead.2, hsign.2]

/-- A character that does not go on with a numeral. -/
def Stops (c : UInt8) : Prop :=
  isHexDigit c = false ∧ c ≠ 120 ∧ c ≠ 88

instance (c : UInt8) : Decidable (Stops c) :=
  inferInstanceAs (Decidable (_ ∧ _))

theorem ne_of_isHexDigit (hdigit : isHexDigit c = true) :
    isSpace c = false ∧ c ≠ 43 ∧ c ≠ 45 ∧ c ≠ 120 ∧ c ≠ 88 := by
  unfold isHexDigit hexDigit at hdigit
  unfold isSpace
  grind

theorem readSign_append {sign : List UInt8} (hsign : sign ∈ signs)
    (hstops : ∀ c ∈ rest.head?, c ≠ 43 ∧ c ≠ 45) : readSign (sign ++ rest) = (sign, rest) := by
  simp only [signs, List.mem_cons, List.not_mem_nil, or_false] at hsign
  rcases hsign with rfl | rfl | rfl
  · cases rest with
    | nil => rfl
    | cons c rest => simp [readSign, hstops c rfl]
  · rfl
  · rfl

/-- A prefix is taken only if digits, or something else that is no `x`, follow. -/
theorem readPrefix_append {hexPrefix : List UInt8} (hlead : hexPrefix ∈ hexPrefixes)
    (hstops : ∀ d ∈ rest.tail.head?, d ≠ 120 ∧ d ≠ 88) :
    readPrefix (hexPrefix ++ rest) = (hexPrefix, rest) := by
  simp only [hexPrefixes, List.mem_cons, List.not_mem_nil, or_false] at hlead
  rcases hlead with rfl | rfl | rfl
  · rcases rest with _ | ⟨c, _ | ⟨d, rest⟩⟩
    · rfl
    · rfl
    · simp [readPrefix, hstops d rfl]
  · rfl
  · rfl

private theorem dropWhile_eq_self {p : UInt8 → Bool} (hhead : ∀ c ∈ input.head?, p c = false) :
    input.dropWhile p = input := by
  cases input with
  | nil => rfl
  | cons c input => exact List.dropWhile_cons_of_neg (Bool.eq_false_iff.mp (hhead c rfl))

private theorem takeWhile_eq_nil {p : UInt8 → Bool} (hhead : ∀ c ∈ input.head?, p c = false) :
    input.takeWhile p = [] := by
  cases input with
  | nil => rfl
  | cons c input => exact List.takeWhile_cons_of_neg (Bool.eq_false_iff.mp (hhead c rfl))

/-- What the part of a numeral after its blanks starts with. -/
private theorem head_cases {sign hexPrefix : List UInt8} (hsign : sign ∈ signs)
    (hlead : hexPrefix ∈ hexPrefixes) {d : UInt8}
    (hc : c ∈ (sign ++ (hexPrefix ++ d :: rest)).head?) :
    (sign ≠ [] ∧ (c = 43 ∨ c = 45)) ∨ c = 48 ∨ c = d := by
  simp only [signs, hexPrefixes, List.mem_cons, List.not_mem_nil, or_false] at hsign hlead
  rcases hsign with rfl | rfl | rfl <;> rcases hlead with rfl | rfl | rfl <;> simp_all

/-- `%hhx` reads a numeral to its end. -/
theorem readHex_text (numeral : Numeral) (rest : List UInt8)
    (hstops : ∀ c ∈ rest.head?, Stops c) :
    readHex (numeral.text ++ rest) = some (numeral.value, rest) := by
  obtain ⟨blanks, sign, hexPrefix, digits, hblanks, hsign, hlead, hdigits, hne⟩ := numeral
  obtain ⟨first, digits, rfl⟩ := List.exists_cons_of_ne_nil hne
  have hfirst := ne_of_isHexDigit (hdigits first (List.mem_cons_self ..))
  have hstop : ∀ c ∈ rest.head?, isHexDigit c = false := fun c hc => (hstops c hc).1
  -- each part is read up to the next one
  have hblanksRead : (blanks ++ (sign ++ (hexPrefix ++ (first :: digits ++ rest)))).dropWhile
      isSpace = sign ++ (hexPrefix ++ (first :: digits ++ rest)) := by
    rw [List.dropWhile_append_of_pos hblanks]
    refine dropWhile_eq_self fun c hc => ?_
    rcases head_cases hsign hlead hc with ⟨-, rfl | rfl⟩ | rfl | rfl
    · decide
    · decide
    · decide
    · exact hfirst.1
  have hsignRead : readSign (sign ++ (hexPrefix ++ (first :: digits ++ rest))) =
      (sign, hexPrefix ++ (first :: digits ++ rest)) := by
    refine readSign_append hsign fun c hc => ?_
    rcases head_cases (show [] ∈ signs by decide) hlead hc with ⟨hnil, -⟩ | rfl | rfl
    · exact absurd rfl hnil
    · decide
    · exact ⟨hfirst.2.1, hfirst.2.2.1⟩
  have hprefixRead : readPrefix (hexPrefix ++ (first :: digits ++ rest)) =
      (hexPrefix, first :: digits ++ rest) := by
    refine readPrefix_append hlead fun d hd => ?_
    cases digits with
    | nil => exact (hstops d hd).2
    | cons second digits =>
      obtain rfl : second = d := Option.some.inj hd
      exact (ne_of_isHexDigit (hdigits second (by simp))).2.2.2
  have htake : (first :: digits ++ rest).takeWhile isHexDigit = first :: digits := by
    rw [List.takeWhile_append_of_pos hdigits, takeWhile_eq_nil hstop, List.append_nil]
  have hdrop : (first :: digits ++ rest).dropWhile isHexDigit = rest := by
    rw [List.dropWhile_append_of_pos hdigits, dropWhile_eq_self hstop]
  simp only [readHex, Numeral.text, List.append_assoc, hblanksRead, hsignRead, hprefixRead, htake,
    hdrop]
  rfl

/-! ## Formats -/

/-- The directives of a format. -/
inductive Directive
  /-- `%hhx` -/
  | hex
  /-- `%*1[set]` -/
  | skipOne (set : List UInt8)
  /-- `%n` -/
  | count

/-- What `sscanf` has stored: the bytes, in order, and the number of characters
read, where it was asked for. -/
structure Scan where
  values : List UInt8
  n : ℕ

/-- `sscanf` from the middle of an input of `total` characters on. It stops at the
first directive that does not match. -/
def scan (total : ℕ) : List Directive → List UInt8 → Scan → Scan
  | [], _, result => result
  | .hex :: format, input, result =>
    match readHex input with
    | some (value, rest) =>
      scan total format rest { result with values := result.values ++ [value] }
    | none => result
  | .skipOne set :: format, input, result =>
    match input with
    | c :: rest => if c ∈ set then scan total format rest result else result
    | [] => result
  | .count :: format, input, result =>
    scan total format input { result with n := total - input.length }

/-- `sscanf`, with a zero where `%n` is to store. -/
def sscanf (format : List Directive) (input : List UInt8) : Scan :=
  scan input.length format input ⟨[], 0⟩

/-- One number more than `more`, with separators between them, and `%n`. -/
def numbers (separators : List UInt8) : ℕ → List Directive
  | 0 => [.hex, .count]
  | more + 1 => .hex :: .skipOne separators :: numbers separators more

/-- The pieces joined by single separators. -/
inductive Joined (separators : List UInt8) : List (List UInt8) → List UInt8 → Prop
  | single (piece : List UInt8) : Joined separators [piece] piece
  | cons {pieces : List (List UInt8)} {text : List UInt8} (piece : List UInt8) {c : UInt8} :
      c ∈ separators → Joined separators pieces text →
        Joined separators (piece :: pieces) (piece ++ c :: text)

variable {separators text : List UInt8} {numerals : List Numeral} {more total : ℕ} {result : Scan}

/-- Pieces joined by one and the same separator. -/
theorem joined_intercalate {c : UInt8} (hc : c ∈ separators) :
    ∀ {pieces : List (List UInt8)}, pieces ≠ [] → Joined separators pieces ([c].intercalate pieces)
  | [], hne => absurd rfl hne
  | [piece], _ => by simpa using Joined.single piece
  | piece :: next :: pieces, _ => by
    have hrest := joined_intercalate hc (List.cons_ne_nil next pieces)
    simpa using Joined.cons piece hc hrest

/-- A joined text consists of its pieces and separators. -/
theorem Joined.mem {pieces : List (List UInt8)} (joined : Joined separators pieces text)
    {c : UInt8} (hmem : c ∈ text) : c ∈ separators ∨ ∃ piece ∈ pieces, c ∈ piece := by
  induction joined with
  | single piece => exact .inr ⟨piece, by simp, hmem⟩
  | cons piece hsep _ ih =>
    rcases List.mem_append.mp hmem with hpiece | hrest
    · exact .inr ⟨piece, by simp, hpiece⟩
    · rcases List.mem_cons.mp hrest with rfl | htext
      · exact .inl hsep
      · obtain hself | ⟨other, hother, hself⟩ := ih htext
        · exact .inl hself
        · exact .inr ⟨other, List.mem_cons_of_mem _ hother, hself⟩

theorem joined_cons_iff {piece : List UInt8} {pieces : List (List UInt8)} :
    Joined separators (piece :: pieces) text ↔ (pieces = [] ∧ piece = text) ∨
      ∃ c rest, c ∈ separators ∧ Joined separators pieces rest ∧ piece ++ c :: rest = text := by
  constructor
  · intro joined
    cases joined with
    | single => exact .inl ⟨rfl, rfl⟩
    | cons _ hc joined => exact .inr ⟨_, _, hc, joined, rfl⟩
  · rintro (⟨rfl, rfl⟩ | ⟨c, rest, hc, joined, rfl⟩)
    · exact .single piece
    · exact .cons piece hc joined

/-- Joined numerals are read one after the other. -/
theorem scan_numbers_of_joined (hseparators : ∀ c ∈ separators, Stops c)
    (joined : Joined separators (numerals.map Numeral.text) text)
    (hlength : numerals.length = more + 1) :
    scan total (numbers separators more) text result =
      ⟨result.values ++ numerals.map Numeral.value, total⟩ := by
  induction more generalizing numerals text result with
  | zero =>
    obtain ⟨numeral, rfl⟩ := List.length_eq_one_iff.mp hlength
    rcases joined_cons_iff.mp joined with ⟨-, rfl⟩ | ⟨c, rest, hc, hrest, rfl⟩
    · have hread := readHex_text numeral [] nofun
      rw [List.append_nil] at hread
      simp [numbers, scan, hread]
    · cases hrest
  | succ more ih =>
    obtain ⟨numeral, numerals, rfl⟩ := List.exists_cons_of_length_eq_add_one hlength
    rcases joined_cons_iff.mp joined with ⟨hnil, -⟩ | ⟨c, rest, hc, hrest, rfl⟩
    · simp_all
    · have hread := readHex_text numeral (c :: rest)
        fun d hd => hseparators d (Option.some.inj hd ▸ hc)
      simp [numbers, scan, hread, hc, ih hrest (Nat.succ.inj hlength)]

/-- Whatever is read as several numbers is joined numerals. -/
theorem exists_joined_of_scan_numbers
    (hvalues : result.values.length + more + 1 ≤
      (scan total (numbers separators more) input result).values.length) :
    ∃ (numerals : List Numeral) (text rest : List UInt8), numerals.length = more + 1 ∧
      input = text ++ rest ∧ Joined separators (numerals.map Numeral.text) text ∧
      (scan total (numbers separators more) input result).n = total - rest.length := by
  induction more generalizing input result with
  | zero =>
    cases hread : readHex input with
    | none =>
      simp only [numbers, scan, hread] at hvalues
      omega
    | some read =>
      obtain ⟨value, rest⟩ := read
      obtain ⟨numeral, rfl, rfl⟩ := exists_numeral_of_readHex hread
      exact ⟨[numeral], numeral.text, rest, rfl, rfl, .single _, by simp [numbers, scan, hread]⟩
  | succ more ih =>
    cases hread : readHex input with
    | none =>
      simp only [numbers, scan, hread] at hvalues
      omega
    | some read =>
      obtain ⟨value, middle⟩ := read
      obtain ⟨numeral, rfl, rfl⟩ := exists_numeral_of_readHex hread
      cases middle with
      | nil =>
        simp only [numbers, scan, hread, List.length_append, List.length_singleton] at hvalues
        omega
      | cons c input =>
        by_cases hc : c ∈ separators
        · simp only [numbers, scan, hread, hc, if_true] at hvalues ⊢
          -- the rest of the format reads the rest of the input
          generalize hnext : ({ result with values := result.values ++ [numeral.value] } : Scan) =
            next at hvalues ⊢
          have hone : next.values.length = result.values.length + 1 := by simp [← hnext]
          have hmore : next.values.length + more + 1 ≤
              (scan total (numbers separators more) input next).values.length := by omega
          obtain ⟨numerals, text, rest, hlength, rfl, joined, hn⟩ := ih hmore
          exact ⟨numeral :: numerals, numeral.text ++ c :: text, rest, by simp [hlength],
            by simp, .cons numeral.text hc joined, hn⟩
        · simp only [numbers, scan, hread, hc, if_false, List.length_append,
            List.length_singleton] at hvalues
          omega

/-- A text of joined numerals is read to its end. -/
theorem sscanf_of_joined (hseparators : ∀ c ∈ separators, Stops c)
    (joined : Joined separators (numerals.map Numeral.text) text)
    (hlength : numerals.length = more + 1) :
    sscanf (numbers separators more) text = ⟨numerals.map Numeral.value, text.length⟩ := by
  rw [sscanf, scan_numbers_of_joined hseparators joined hlength, List.nil_append]

/-- An input of which all numbers are read starts with joined numerals. -/
theorem exists_joined_of_sscanf
    (hvalues : (sscanf (numbers separators more) input).values.length = more + 1) :
    ∃ (numerals : List Numeral) (text rest : List UInt8), numerals.length = more + 1 ∧
      input = text ++ rest ∧ Joined separators (numerals.map Numeral.text) text ∧
      (sscanf (numbers separators more) input).n = text.length := by
  have hmore : (⟨[], 0⟩ : Scan).values.length + more + 1 ≤
      (sscanf (numbers separators more) input).values.length := by
    rw [hvalues, List.length_nil, Nat.zero_add]
  obtain ⟨numerals, text, rest, hlength, hsplit, joined, hn⟩ := exists_joined_of_scan_numbers hmore
  refine ⟨numerals, text, rest, hlength, hsplit, joined, hn.trans ?_⟩
  rw [hsplit, List.length_append, Nat.add_sub_cancel]

/-- A text starts with one numeral only, if it stops after it. -/
theorem text_append_inj {numeral numeral' : Numeral} {rest' : List UInt8}
    (hstops : ∀ c ∈ rest.head?, Stops c) (hstops' : ∀ c ∈ rest'.head?, Stops c)
    (htext : numeral.text ++ rest = numeral'.text ++ rest') :
    numeral.text = numeral'.text ∧ rest = rest' := by
  have hread := readHex_text numeral rest hstops
  rw [htext, readHex_text numeral' rest' hstops'] at hread
  obtain rfl := (Prod.mk.inj (Option.some.inj hread)).2
  exact ⟨List.append_cancel_right htext, rfl⟩

/-- A text is joined of numerals in one way at most. -/
theorem Joined.texts_unique (hseparators : ∀ c ∈ separators, Stops c) {numerals' : List Numeral}
    (joined : Joined separators (numerals.map Numeral.text) text)
    (joined' : Joined separators (numerals'.map Numeral.text) text)
    (hlength : numerals.length = numerals'.length) :
    numerals.map Numeral.text = numerals'.map Numeral.text := by
  induction numerals generalizing numerals' text with
  | nil => cases joined
  | cons numeral numerals ih =>
    obtain ⟨numeral', numerals', rfl⟩ := List.exists_cons_of_length_eq_add_one hlength.symm
    have hlength := Nat.succ.inj hlength
    rw [List.map_cons] at joined joined'
    rcases joined_cons_iff.mp joined with ⟨hnil, rfl⟩ | ⟨c, rest, hc, hrest, rfl⟩
    · rcases joined_cons_iff.mp joined' with ⟨hnil', htext⟩ | ⟨c', rest', -, hrest', -⟩
      · simp [hnil, hnil', htext]
      · -- the lists are of one length
        rw [List.map_eq_nil_iff.mp hnil, List.length_nil] at hlength
        rw [List.length_eq_zero_iff.mp hlength.symm] at hrest'
        cases hrest'
    · have hstops : ∀ d ∈ (c :: rest).head?, Stops d :=
        fun d hd => hseparators d (Option.some.inj hd ▸ hc)
      rcases joined_cons_iff.mp joined' with ⟨hnil', -⟩ | ⟨c', rest', hc', hrest', htext⟩
      · rw [List.map_eq_nil_iff.mp hnil', List.length_nil] at hlength
        rw [List.length_eq_zero_iff.mp hlength] at hrest
        cases hrest
      · have hstops' : ∀ d ∈ (c' :: rest').head?, Stops d :=
          fun d hd => hseparators d (Option.some.inj hd ▸ hc')
        obtain ⟨hsame, htail⟩ := text_append_inj hstops hstops' htext.symm
        obtain ⟨-, rfl⟩ := List.cons.inj htail
        simp only [List.map_cons, hsame, ih hrest hrest' hlength]

end NetDiscovery.Text
