/-
# Views that are read as zero-terminated text

`MacAddress::parse`, `Oid::parse` and the constructor of `CommunityTarget` take views and
pass on the address of the first character. What they make of a view is made of the text
that is there in memory, up to the first zero byte.

`readsOnlyView_iff` says for which views nothing outside of the view matters.
-/

import NetDiscovery.Net.MacAddressText
import NetDiscovery.Net.Snmp.OidValue
import NetDiscovery.Text.StringView

namespace NetDiscovery.Net

open NetDiscovery.Text NetDiscovery.Util

/-- `MacAddress::parse(std::string_view)`, if the buffer has a zero after the view's
start. -/
def MacAddress.parse (mac : StringView) : Option (Result ErrorType MacAddress) :=
  mac.zeroTerminated.map fun text => parseString ⟨text.1, text.2⟩

/-- A text for the SNMP library. -/
def textOf (text : ZeroFree) : String :=
  String.ofList (text.1.map fun byte => Char.ofNat byte.toNat)

/-- `Oid::parse`. -/
def Oid.parse (library : SnmpLibrary) (oid : StringView) : Option (Result ErrorType Oid) :=
  oid.zeroTerminated.map fun text =>
    match library.ofText (textOf text) with
    | some snmpOid => .ok snmpOid
    | none => .error .invalidArgument

/-- `net::SnmpVersion`. -/
inductive SnmpVersion
  | v1
  | v2
  | unusedV2
  | v3
  deriving DecidableEq

/-- `net::SnmpTarget`. -/
structure SnmpTarget where
  ipAddress : IPv4Address
  version : SnmpVersion
  /-- in milliseconds -/
  timeout : ℕ
  retries : ℕ
  port : Option ℕ

/-- `SnmpTarget(version, target)`. -/
def SnmpTarget.ofAddress (version : SnmpVersion) (target : IPv4Address) : SnmpTarget where
  ipAddress := target
  version := version
  timeout := 5000
  retries := 0
  port := none

/-- `net::CommunityTarget`. -/
structure CommunityTarget extends SnmpTarget where
  readCommunity : List UInt8
  writeCommunity : List UInt8

/-- The constructor of `CommunityTarget`. -/
def CommunityTarget.ofViews (version : SnmpVersion) (target : IPv4Address)
    (readCommunity writeCommunity : StringView) : Option CommunityTarget :=
  match readCommunity.zeroTerminated, writeCommunity.zeroTerminated with
  | some read, some write => some
    { SnmpTarget.ofAddress version target with
      readCommunity := read.1
      writeCommunity := write.1 }
  | _, _ => none

/-- Whatever a view with these characters is used for, nothing around it matters. -/
structure ReadsOnlyView (library : SnmpLibrary) (chars : List UInt8) : Prop where
  mac : IgnoresSurroundings MacAddress.parse chars
  oid : IgnoresSurroundings (Oid.parse library) chars
  readCommunity : ∀ version target other, IgnoresSurroundings (fun view =>
    (CommunityTarget.ofViews version target view other).map CommunityTarget.readCommunity) chars
  writeCommunity : ∀ version target other, IgnoresSurroundings (fun view =>
    (CommunityTarget.ofViews version target other view).map CommunityTarget.writeCommunity) chars

/-- The characters can be continued to six numerals joined by separators. -/
def MacAddress.Completable (chars : List UInt8) : Prop :=
  ∃ (rest : List UInt8) (numerals : List Numeral), numerals.length = 6 ∧
    Joined separators (numerals.map Numeral.text) (chars ++ rest)

variable {library : SnmpLibrary} {chars text : List UInt8} {numeral : Numeral}
  {numerals : List Numeral} {view other : StringView} {version : SnmpVersion}
  {target : IPv4Address}

/-! ## MAC addresses -/

/-- What a numeral consists of. -/
theorem mem_text {c : UInt8} (hmem : c ∈ numeral.text) :
    isSpace c = true ∨ c ∈ [43, 45, 48, 120, 88] ∨ isHexDigit c = true := by
  have hsign := numeral.sign_mem
  have hlead := numeral.hexPrefix_mem
  simp only [signs, hexPrefixes, List.mem_cons, List.not_mem_nil, or_false] at hsign hlead
  simp only [Numeral.text, List.mem_append] at hmem
  rcases hmem with hblank | hmem | hmem | hdigit
  · exact .inl (numeral.isSpace_of_mem c hblank)
  · rcases hsign with hnil | hplus | hminus <;> simp_all
  · rcases hlead with hnil | hlower | hupper <;> simp_all <;> tauto
  · exact .inr (.inr (numeral.isHexDigit_of_mem c hdigit))

/-- A character that occurs in no address. -/
theorem notMem_of_joined {c : UInt8} (hspace : isSpace c = false)
    (hlead : c ∉ [43, 45, 48, 120, 88]) (hdigit : isHexDigit c = false)
    (hseparator : c ∉ MacAddress.separators)
    (joined : Joined MacAddress.separators (numerals.map Numeral.text) text) : c ∉ text := by
  intro hmem
  rcases joined.mem hmem with hsep | ⟨piece, hpiece, hmem⟩
  · exact hseparator hsep
  · obtain ⟨numeral, -, rfl⟩ := List.mem_map.mp hpiece
    rcases mem_text hmem with h | h | h
    · simp [h] at hspace
    · exact hlead h
    · simp [h] at hdigit

/-- A MAC address is parsed from the view alone exactly if the view has a zero in it or
cannot be continued to an address. -/
theorem MacAddress.ignoresSurroundings_parse_iff :
    IgnoresSurroundings MacAddress.parse chars ↔ 0 ∈ chars ∨ ¬ Completable chars := by
  refine (StringView.ignoresSurroundings_iff _ chars).trans (or_congr_right ?_)
  constructor
  · rintro halike ⟨rest, numerals, hlength, joined⟩
    have hzero : 0 ∉ chars ++ rest :=
      notMem_of_joined (by decide) (by decide) (by decide) (by decide) joined
    have hlonger : 0 ∉ chars ++ rest ++ [103] := by simpa using hzero
    have hread : ∃ m, parseString ⟨chars ++ rest, hzero⟩ = .ok m ∧
        List.ofFn (m.toBytes .hostOrder) = numerals.map Numeral.value :=
      parseString_of_joined hlength joined
    obtain ⟨m, hparse, -⟩ := hread
    have hsame := halike ⟨_, hzero⟩ ⟨_, hlonger⟩ (List.prefix_append _ _)
      (by simp [List.append_assoc])
    -- no address has a `g` in it
    obtain ⟨numerals', -, joined'⟩ := exists_joined_of_parseString (hsame.symm.trans hparse)
    exact notMem_of_joined (c := 103) (by decide) (by decide) (by decide) (by decide) joined'
      (by simp)
  · intro hnot first second hfirst hsecond
    have hrejects : ∀ text : ZeroFree, chars <+: text.1 →
        parseString ⟨text.1, text.2⟩ = .error .invalidArgument := by
      rintro text ⟨rest, htext⟩
      refine (parseString_cases _).resolve_left ?_
      rintro ⟨m, hparse⟩
      obtain ⟨numerals, hlength, joined⟩ := exists_joined_of_parseString hparse
      exact hnot ⟨rest, numerals, hlength, htext ▸ joined⟩
    rw [hrejects first hfirst, hrejects second hsecond]

/-! ## Community strings -/

theorem CommunityTarget.readCommunity_ofViews :
    (ofViews version target view other).map readCommunity =
      other.zeroTerminated.bind fun _ => view.zeroTerminated.map Subtype.val := by
  unfold ofViews
  cases view.zeroTerminated <;> cases other.zeroTerminated <;> rfl

theorem CommunityTarget.writeCommunity_ofViews :
    (ofViews version target other view).map writeCommunity =
      other.zeroTerminated.bind fun _ => view.zeroTerminated.map Subtype.val := by
  unfold ofViews
  cases view.zeroTerminated <;> cases other.zeroTerminated <;> rfl

/-- The other community string does not matter. -/
theorem ignoresSurroundings_bind {α β : Type*} {f : StringView → Option α} (o : Option β)
    (hignores : IgnoresSurroundings f chars) :
    IgnoresSurroundings (fun view => o.bind fun _ => f view) chars := by
  cases o with
  | none =>
    intro _ _ _ _ _ _ hx
    cases hx
  | some => exact hignores

/-- A stored community string is what is in memory. -/
theorem ignoresSurroundings_stored_iff :
    IgnoresSurroundings (fun view => view.zeroTerminated.map Subtype.val) chars ↔ 0 ∈ chars :=
  StringView.ignoresSurroundings_iff_of_injective Subtype.val_injective

/-- **Nothing outside of a view matters exactly if the view has a zero in it.** -/
theorem readsOnlyView_iff (library : SnmpLibrary) (chars : List UInt8) :
    ReadsOnlyView library chars ↔ 0 ∈ chars := by
  constructor
  · intro reads
    have hempty : (StringView.within [] [] ([] ++ [0])).zeroTerminated =
        some ⟨[], List.not_mem_nil⟩ := StringView.zeroTerminated_within _ rfl
    -- a community string is stored as it is read, so it shows every difference
    have hstored := reads.readCommunity .v1 (.ofOctets 10 0 0 7) (.within [] [] ([] ++ [0]))
    simp only [CommunityTarget.readCommunity_ofViews, hempty, Option.bind_some] at hstored
    exact ignoresSurroundings_stored_iff.mp hstored
  · intro hzero
    have hstored := ignoresSurroundings_stored_iff.mpr hzero
    refine ⟨MacAddress.ignoresSurroundings_parse_iff.mpr (.inl hzero),
      (StringView.ignoresSurroundings_iff _ chars).mpr (.inl hzero), fun _ _ other => ?_,
      fun _ _ other => ?_⟩
    · simp only [CommunityTarget.readCommunity_ofViews]
      exact ignoresSurroundings_bind _ hstored
    · simp only [CommunityTarget.writeCommunity_ofViews]
      exact ignoresSurroundings_bind _ hstored

/-- An address that is followed by something else in its line is not parsed. -/
theorem not_readsOnlyView_configurationLine :
    ¬ ReadsOnlyView .dotted (MacAddress.codes "14:D7:D8:C8:A7:77") := by
  intro reads
  have halone : ∃ m, MacAddress.parse (.within [] (MacAddress.codes "14:D7:D8:C8:A7:77") [0]) =
      some (.ok m) := ⟨_, rfl⟩
  have hfollowed : MacAddress.parse (.within (MacAddress.codes "mac = ")
      (MacAddress.codes "14:D7:D8:C8:A7:77") (MacAddress.codes ", ttl = 64" ++ [0])) =
      some (.error .invalidArgument) := rfl
  obtain ⟨m, hparse⟩ := halone
  have hsame := reads.mac _ _ StringView.chars_within StringView.chars_within _ _ hparse hfollowed
  cases hsame

end NetDiscovery.Net
