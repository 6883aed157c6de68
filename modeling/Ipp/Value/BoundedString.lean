import Ipp.Foundation.Utf8
import Ipp.Model.Tags
import Mathlib.Data.Vector.Basic

/-!
# Length-bounded strings and tiered text

`BoundedString MAX` is a string of at most `MAX` bytes.  The Rust struct keeps
its one field private, so only `new`, `shrink`, `expand` and `from_array` build
a value; here the bound is a second field, and each of those functions proves
it for what it builds.  `IppTextValue` is the three-tier text type of IPP
`text(*)` values, whose constructor picks the narrowest tier.
-/

namespace Ipp

@[ext] structure BoundedString (MAX : UInt16) where
  inner : String
  len_le : len inner ≤ MAX.toNat
  deriving DecidableEq

abbrev IppString := BoundedString 1023
abbrev IppShortString := BoundedString 127
abbrev IppKeyword := BoundedString 255
abbrev IppMimeMediaType := BoundedString 255
abbrev IppCharset := BoundedString 63
abbrev IppLanguage := BoundedString 63
abbrev IppName := BoundedString 255

/-- Modelled from the spec: `http::Uri` is an external type, of which the
crate reads only the `to_string()` rendering. -/
structure Uri where
  toString : String

theorem uint16_lt_iff {a b : UInt16} : a < b ↔ a.toNat < b.toNat := Iff.rfl

namespace BoundedString

variable {MAX : UInt16}

/-- `BoundedString::new`.  A length that does not fit a `u16` and a length
over `MAX` raise the same error. -/
def new (s : String) : Except IppParseError (BoundedString MAX) :=
  if h : len s < 0x10000 then
    if h' : (len s).toUInt16 > MAX then .error (.invalidStringLength (len s) MAX)
    else .ok ⟨s, by
      rw [gt_iff_lt, uint16_lt_iff, toNat_toUInt16, Nat.mod_eq_of_lt h] at h'
      omega⟩
  else .error (.invalidStringLength (len s) MAX)

/-- `TryFrom<&str>`, `TryFrom<String>` and `TryFrom<Cow<str>>`, all of which
call `new`. -/
def tryFrom (s : String) : Except IppParseError (BoundedString MAX) := new s

/-- `FromStr::from_str`. -/
def fromStr (s : String) : Except IppParseError (BoundedString MAX) := new s

/-- `TryFrom<Uri>`: `u.to_string().try_into()`. -/
def tryFromUri (u : Uri) : Except IppParseError (BoundedString MAX) := tryFrom u.toString

/-- `BoundedString::expand`; `none` is the panic of `assert!(MAX2 >= MAX)`. -/
def expand (MAX2 : UInt16) (self : BoundedString MAX) : Option (BoundedString MAX2) :=
  if h : MAX2 ≥ MAX then some ⟨self.inner, le_trans self.len_le h⟩ else none

/-- `BoundedString::shrink`. -/
def shrink (MAX2 : UInt16) (self : BoundedString MAX) :
    Except IppParseError (BoundedString MAX2) :=
  if h : len self.inner > MAX2.toNat then .error (.invalidStringLength (len self.inner) MAX2)
  else .ok ⟨self.inner, Nat.le_of_not_lt h⟩

/-- `FromArray::from_array`: `assert_eq!(MAX as usize, CAP)`, then
`String::from_utf8_lossy(value).try_into().unwrap()`; `none` is a panic. -/
def fromArray {CAP : Nat} (value : Mathlib.Vector UInt8 CAP) : Option (BoundedString MAX) :=
  if MAX.toNat = CAP then
    match tryFrom (fromUtf8Lossy value.toList) with
    | .ok s => some s
    | .error _ => none
  else none

/-- `From<&[u8; CAP]>::from`, which calls `from_array`. -/
def fromU8Array {CAP : Nat} (value : Mathlib.Vector UInt8 CAP) : Option (BoundedString MAX) :=
  fromArray value

theorem len_lt (b : BoundedString MAX) : len b.inner < 0x10000 :=
  lt_of_le_of_lt b.len_le MAX.toNat_lt_size

theorem new_eq (s : String) :
    (new s : Except IppParseError (BoundedString MAX)) =
      if h : len s ≤ MAX.toNat then .ok ⟨s, h⟩
      else .error (.invalidStringLength (len s) MAX) := by
  have hmax : MAX.toNat < 0x10000 := MAX.toNat_lt_size
  unfold new
  by_cases h₁ : len s < 0x10000
  · have hu : (len s).toUInt16 > MAX ↔ ¬len s ≤ MAX.toNat := by
      rw [gt_iff_lt, uint16_lt_iff, toNat_toUInt16, Nat.mod_eq_of_lt h₁]
      omega
    by_cases h₂ : len s ≤ MAX.toNat
    · rw [dif_pos h₁, dif_neg (by rwa [hu, not_not]), dif_pos h₂]
    · rw [dif_pos h₁, dif_pos (hu.mpr h₂), dif_neg h₂]
  · rw [dif_neg h₁, dif_neg (by omega)]

theorem new_ok {s : String} (h : len s ≤ MAX.toNat) : new s = .ok ⟨s, h⟩ := by
  rw [new_eq, dif_pos h]

theorem new_error {s : String} (h : ¬len s ≤ MAX.toNat) :
    (new s : Except IppParseError (BoundedString MAX)) =
      .error (.invalidStringLength (len s) MAX) := by
  rw [new_eq, dif_neg h]

@[simp] theorem new_inner (b : BoundedString MAX) : new b.inner = .ok b := new_ok b.len_le

theorem shrink_eq (MAX2 : UInt16) (b : BoundedString MAX) :
    shrink MAX2 b =
      if h : len b.inner ≤ MAX2.toNat then .ok ⟨b.inner, h⟩
      else .error (.invalidStringLength (len b.inner) MAX2) := by
  unfold shrink
  split_ifs <;> first | rfl | omega

theorem expand_inner {MAX2 : UInt16} (b : BoundedString MAX) (h : MAX ≤ MAX2) :
    (expand MAX2 b).map inner = some b.inner := by
  simp [expand, h]

theorem fromArray_asBytes {CAP : Nat} (value : Mathlib.Vector UInt8 CAP) (s : String)
    (hcap : MAX.toNat = CAP) (hs : value.toList = asBytes s) :
    (fromArray value : Option (BoundedString MAX)).map inner = some s := by
  have hlen : len s ≤ MAX.toNat := by simp only [len, ← hs, value.toList_length, hcap, le_refl]
  unfold fromArray
  rw [if_pos hcap, hs, fromUtf8Lossy_asBytes, tryFrom, new_eq, dif_pos hlen]
  rfl

theorem fromArray_asBytes_accent :
    (2 : UInt16).toNat = 2 ∧ [0xC3, 0xA9] = asBytes "é" ∧
      (fromArray (⟨[0xC3, 0xA9], rfl⟩ : Mathlib.Vector UInt8 2) : Option (BoundedString 2)).map
        inner = some "é" :=
  ⟨rfl, by decide, fromArray_asBytes _ "é" rfl (by decide)⟩

/-- `from_array` on the one byte `0xFF`, for `MAX = CAP = 1`: the lossy decoding
is U+FFFD, three bytes, which `new` refuses, and the `unwrap` panics. -/
theorem fromArray_invalid_utf8_panics :
    len (fromUtf8Lossy [0xFF]) = 3 ∧
      (fromArray (⟨[0xFF], rfl⟩ : Mathlib.Vector UInt8 1) : Option (BoundedString 1)) = none :=
  ⟨by decide, by decide⟩

end BoundedString

/-! ## Tiered text -/

inductive IppTextValue where
  | short (s : IppShortString)
  | medium (s : BoundedString 255)
  | long (s : IppString)
  deriving DecidableEq

namespace IppTextValue

/-- `IppTextValue::new`: the tiers hold `0..=127`, `128..=255` and
`256..=1023` bytes. -/
def new (s : String) : Except IppParseError IppTextValue :=
  if len s ≤ 127 then return .short (← BoundedString.new s)
  else if len s ≤ 255 then return .medium (← BoundedString.new s)
  else if len s ≤ 1023 then return .long (← BoundedString.new s)
  else .error (.invalidStringLength (len s) 1023)

/-- `TryFrom<&str>`, `TryFrom<String>` and `TryFrom<Cow<str>>`. -/
def tryFrom (s : String) : Except IppParseError IppTextValue := new s

/-- `From<IppShortString>`. -/
def fromIppShortString (value : IppShortString) : IppTextValue := .short value

/-- `From<BoundedString<255>>`. -/
def fromBoundedString255 (value : BoundedString 255) : IppTextValue := .medium value

/-- `From<IppString>`. -/
def fromIppString (value : IppString) : IppTextValue := .long value

/-- `AsRef<str>`, the view `Deref` and `Display` also give. -/
def asRef : IppTextValue → String
  | .short s => s.inner
  | .medium s => s.inner
  | .long s => s.inner

/-- The value sits in the tier `new` picks for its length. -/
def Narrowest : IppTextValue → Prop
  | .short _ => True
  | .medium s => 127 < len s.inner
  | .long s => 255 < len s.inner

instance (t : IppTextValue) : Decidable t.Narrowest :=
  match t with
  | .short _ => isTrue trivial
  | .medium s => inferInstanceAs (Decidable (127 < len s.inner))
  | .long s => inferInstanceAs (Decidable (255 < len s.inner))

theorem len_asRef_le (t : IppTextValue) : len t.asRef ≤ 1023 := by
  cases t with
  | short s => exact le_trans s.len_le (by decide)
  | medium s => exact le_trans s.len_le (by decide)
  | long s => exact s.len_le

theorem len_asRef_lt (t : IppTextValue) : len t.asRef < 0x10000 :=
  lt_of_le_of_lt t.len_asRef_le (by decide)

theorem new_of_le {s : String} (h : len s ≤ 1023) :
    ∃ t, new s = .ok t ∧ t.Narrowest ∧ t.asRef = s := by
  unfold new
  split_ifs with h₁ h₂
  · exact ⟨.short ⟨s, h₁⟩, by rw [@BoundedString.new_ok 127 s h₁]; rfl, trivial, rfl⟩
  · exact ⟨.medium ⟨s, h₂⟩, by rw [@BoundedString.new_ok 255 s h₂]; rfl,
      by simp [Narrowest]; omega, rfl⟩
  · exact ⟨.long ⟨s, h⟩, by rw [@BoundedString.new_ok 1023 s h]; rfl,
      by simp [Narrowest]; omega, rfl⟩

theorem new_of_gt {s : String} (h : 1023 < len s) :
    new s = .error (.invalidStringLength (len s) 1023) := by
  simp [new, show ¬len s ≤ 127 by omega, show ¬len s ≤ 255 by omega, show ¬len s ≤ 1023 by omega]


theorem new_asRef {t : IppTextValue} (h : t.Narrowest) : new t.asRef = .ok t := by
  cases t with
  | short s =>
      have hs : len s.inner ≤ 127 := s.len_le
      simp [new, asRef, hs]
  | medium s =>
      have hs : len s.inner ≤ 255 := s.len_le
      simp [new, asRef, hs, Nat.not_le.mpr h]
  | long s =>
      have hs : len s.inner ≤ 1023 := s.len_le
      have h127 : ¬len s.inner ≤ 127 := by simp [Narrowest] at h; omega
      simp [new, asRef, hs, Nat.not_le.mpr h, h127]

theorem new_eq_ok {s : String} {t : IppTextValue} (h : new s = .ok t) :
    t.Narrowest ∧ t.asRef = s := by
  by_cases hs : len s ≤ 1023
  · obtain ⟨t', h', ht'⟩ := new_of_le hs
    rw [h] at h'
    cases h'
    exact ht'
  · rw [new_of_gt (by omega)] at h
    cases h

theorem new_eq_ok_iff (s : String) (t : IppTextValue) :
    new s = .ok t ↔ t.Narrowest ∧ t.asRef = s :=
  ⟨new_eq_ok, fun ⟨ht, hs⟩ => hs ▸ new_asRef ht⟩

/-- `From<BoundedString<255>>` on `"a"` gives `Medium("a")`, where `new("a")`
gives `Short("a")`: the same string, two values the derived equality tells
apart. -/
theorem fromBoundedString255_not_narrowest :
    new "a" = .ok (.short ⟨"a", by decide⟩) ∧
      (fromBoundedString255 ⟨"a", by decide⟩).asRef = "a" ∧
      ¬(fromBoundedString255 ⟨"a", by decide⟩).Narrowest ∧
      fromBoundedString255 ⟨"a", by decide⟩ ≠ .short ⟨"a", by decide⟩ :=
  ⟨rfl, rfl, by decide, by decide⟩

end IppTextValue

theorem bounded_string_discipline (MAX M2 : UInt16) (s : String) (u : Uri)
    (b : BoundedString MAX) :
    (BoundedString.new s : Except IppParseError (BoundedString MAX)) =
        (if h : len s ≤ MAX.toNat then .ok ⟨s, h⟩
        else .error (.invalidStringLength (len s) MAX)) ∧
      (BoundedString.tryFrom s : Except IppParseError (BoundedString MAX)) =
        BoundedString.new s ∧
      (BoundedString.fromStr s : Except IppParseError (BoundedString MAX)) =
        BoundedString.new s ∧
      (BoundedString.tryFromUri u : Except IppParseError (BoundedString MAX)) =
        BoundedString.new u.toString ∧
      (len s ≤ 1023 → ∃ t, IppTextValue.new s = .ok t ∧ t.asRef = s) ∧
      (1023 < len s → IppTextValue.new s = .error (.invalidStringLength (len s) 1023)) ∧
      b.shrink M2 =
        (if h : len b.inner ≤ M2.toNat then .ok ⟨b.inner, h⟩
        else .error (.invalidStringLength (len b.inner) M2)) ∧
      (MAX ≤ M2 → (b.expand M2).map BoundedString.inner = some b.inner) ∧
      len b.inner ≤ MAX.toNat := by
  refine ⟨BoundedString.new_eq s, rfl, rfl, rfl, fun h => ?_, IppTextValue.new_of_gt,
    BoundedString.shrink_eq M2 b, b.expand_inner, b.len_le⟩
  obtain ⟨t, ht, -, hv⟩ := IppTextValue.new_of_le h
  exact ⟨t, ht, hv⟩

end Ipp
