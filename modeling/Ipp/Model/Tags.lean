import Ipp.Foundation.Buf

/-!
# Tags and parse errors

`model::DelimiterTag`, `model::ValueTag` and `parser::IppParseError` are used
by the value and attribute code but are not among its sources.  The tag codes
are those of RFC 8010 as the specification lists them; `from_u8` is the
`FromPrimitive` conversion, which knows exactly the listed codes.
-/

namespace Ipp

/-- Modelled from the spec: `model::DelimiterTag` is not among the sources. -/
inductive DelimiterTag where
  | operationAttributes
  | jobAttributes
  | endOfAttributes
  | printerAttributes
  | unsupportedAttributes
  | subscriptionAttributes
  | eventNotificationAttributes
  | resourceAttributes
  | documentAttributes
  | systemAttributes
  deriving DecidableEq, Repr

/-- Modelled from the spec: the discriminants of `model::DelimiterTag`. -/
def DelimiterTag.toU8 : DelimiterTag → UInt8
  | .operationAttributes => 0x01
  | .jobAttributes => 0x02
  | .endOfAttributes => 0x03
  | .printerAttributes => 0x04
  | .unsupportedAttributes => 0x05
  | .subscriptionAttributes => 0x06
  | .eventNotificationAttributes => 0x07
  | .resourceAttributes => 0x08
  | .documentAttributes => 0x09
  | .systemAttributes => 0x0A

/-- Modelled from the spec: `model::ValueTag` is not among the sources. -/
inductive ValueTag where
  | unsupported
  | unknown
  | noValue
  | integer
  | boolean
  | enum
  | octetStringUnspecified
  | dateTime
  | resolution
  | rangeOfInteger
  | begCollection
  | textWithLanguage
  | nameWithLanguage
  | endCollection
  | textWithoutLanguage
  | nameWithoutLanguage
  | keyword
  | uri
  | uriScheme
  | charset
  | naturalLanguage
  | mimeMediaType
  | memberAttrName
  deriving DecidableEq, Repr

/-- Modelled from the spec: the discriminants of `model::ValueTag`. -/
def ValueTag.toU8 : ValueTag → UInt8
  | .unsupported => 0x10
  | .unknown => 0x12
  | .noValue => 0x13
  | .integer => 0x21
  | .boolean => 0x22
  | .enum => 0x23
  | .octetStringUnspecified => 0x30
  | .dateTime => 0x31
  | .resolution => 0x32
  | .rangeOfInteger => 0x33
  | .begCollection => 0x34
  | .textWithLanguage => 0x35
  | .nameWithLanguage => 0x36
  | .endCollection => 0x37
  | .textWithoutLanguage => 0x41
  | .nameWithoutLanguage => 0x42
  | .keyword => 0x44
  | .uri => 0x45
  | .uriScheme => 0x46
  | .charset => 0x47
  | .naturalLanguage => 0x48
  | .mimeMediaType => 0x49
  | .memberAttrName => 0x4A

/-- Modelled from the spec: `ValueTag::from_u8`, derived by `FromPrimitive`. -/
def ValueTag.fromU8 (b : UInt8) : Option ValueTag :=
  match b.toNat with
  | 0x10 => some .unsupported
  | 0x12 => some .unknown
  | 0x13 => some .noValue
  | 0x21 => some .integer
  | 0x22 => some .boolean
  | 0x23 => some .enum
  | 0x30 => some .octetStringUnspecified
  | 0x31 => some .dateTime
  | 0x32 => some .resolution
  | 0x33 => some .rangeOfInteger
  | 0x34 => some .begCollection
  | 0x35 => some .textWithLanguage
  | 0x36 => some .nameWithLanguage
  | 0x37 => some .endCollection
  | 0x41 => some .textWithoutLanguage
  | 0x42 => some .nameWithoutLanguage
  | 0x44 => some .keyword
  | 0x45 => some .uri
  | 0x46 => some .uriScheme
  | 0x47 => some .charset
  | 0x48 => some .naturalLanguage
  | 0x49 => some .mimeMediaType
  | 0x4A => some .memberAttrName
  | _ => none

@[simp] theorem ValueTag.fromU8_toU8 (t : ValueTag) : ValueTag.fromU8 t.toU8 = some t := by
  cases t <;> rfl

theorem ValueTag.toU8_of_fromU8 {b : UInt8} {t : ValueTag} (h : ValueTag.fromU8 b = some t) :
    t.toU8 = b := by
  unfold ValueTag.fromU8 at h
  split at h <;> rename_i hb <;> cases h <;> exact UInt8.toNat.inj hb.symm

/-- Modelled from the spec: `parser::IppParseError` is not among the sources.
Only the variant the modelled code raises is kept. -/
inductive IppParseError where
  | invalidStringLength (len : Nat) (max : UInt16)
  deriving DecidableEq, Repr

end Ipp
