import Ipp.Value.BoundedString

/-!
# IPP values and their codec

`IppValue` is the tagged union of RFC 8010 values.  `toBytes` writes a value's
payload behind its `u16` length, without the tag; arrays and collections write
the records that follow their first one as well.  `parse` reads one payload,
already cut to its length, for a tag read before it.

A `BTreeMap<IppName, IppValue>` is its entry list in iteration order, which
is ascending key order.  A `char` field holds a Unicode scalar value, and a
Rust `i32` is a 32-bit two's complement word.
-/

namespace Ipp

inductive IppValue where
  | integer (i : BitVec 32)
  | enum (i : BitVec 32)
  | octetString (s : IppTextValue)
  | textWithoutLanguage (s : IppTextValue)
  | nameWithoutLanguage (s : IppName)
  | textWithLanguage (language : IppLanguage) (text : IppTextValue)
  | nameWithLanguage (language : IppLanguage) (name : IppName)
  | charset (s : IppCharset)
  | naturalLanguage (s : IppLanguage)
  | uri (s : IppString)
  | uriScheme (s : IppString)
  | rangeOfInteger (min max : BitVec 32)
  | boolean (b : Bool)
  | keyword (s : IppKeyword)
  | array (list : List IppValue)
  | collection (list : List (IppName × IppValue))
  | mimeMediaType (s : IppMimeMediaType)
  | dateTime (year : UInt16) (month day hour minutes seconds deciSeconds : UInt8)
      (utcDir : Char) (utcHours utcMins : UInt8)
  | memberAttrName (s : IppKeyword)
  | resolution (crossFeed feed : BitVec 32) (units : Int8)
  | noValue
  | other (tag : UInt8) (data : Bytes)

namespace IppValue

/-- `IppValue::to_tag`; an array has the tag of its first element. -/
def toTag : IppValue → UInt8
  | integer _ => ValueTag.integer.toU8
  | enum _ => ValueTag.enum.toU8
  | rangeOfInteger .. => ValueTag.rangeOfInteger.toU8
  | boolean _ => ValueTag.boolean.toU8
  | keyword _ => ValueTag.keyword.toU8
  | octetString _ => ValueTag.octetStringUnspecified.toU8
  | textWithoutLanguage _ => ValueTag.textWithoutLanguage.toU8
  | nameWithoutLanguage _ => ValueTag.nameWithoutLanguage.toU8
  | textWithLanguage .. => ValueTag.textWithLanguage.toU8
  | nameWithLanguage .. => ValueTag.nameWithLanguage.toU8
  | charset _ => ValueTag.charset.toU8
  | naturalLanguage _ => ValueTag.naturalLanguage.toU8
  | uri _ => ValueTag.uri.toU8
  | uriScheme _ => ValueTag.uriScheme.toU8
  | mimeMediaType _ => ValueTag.mimeMediaType.toU8
  | array [] => ValueTag.unknown.toU8
  | array (v :: _) => v.toTag
  | collection _ => ValueTag.begCollection.toU8
  | dateTime .. => ValueTag.dateTime.toU8
  | memberAttrName _ => ValueTag.memberAttrName.toU8
  | resolution .. => ValueTag.resolution.toU8
  | other tag _ => tag
  | noValue => ValueTag.noValue.toU8

/-- A value that holds no other value. -/
def isScalar : IppValue → Bool
  | array _ | collection _ => false
  | _ => true

theorem nested_induction {motive : IppValue → Prop}
    (scalar : ∀ v, v.isScalar → motive v)
    (array : ∀ list, (∀ x ∈ list, motive x) → motive (array list))
    (collection : ∀ list, (∀ p ∈ list, motive p.2) → motive (collection list))
    (v : IppValue) : motive v := by
  generalize h : sizeOf v = n
  induction n using Nat.strong_induction_on generalizing v with
  | _ n ih =>
    cases v
    case array list =>
      refine array list fun x hx => ih (sizeOf x) ?_ x rfl
      have := List.sizeOf_lt_of_mem hx
      simp at h
      omega
    case collection list =>
      refine collection list fun p hp => ih (sizeOf p.2) ?_ p.2 rfl
      have := List.sizeOf_lt_of_mem hp
      have : sizeOf p.2 < sizeOf p := by cases p; simp only [Prod.mk.sizeOf_spec]; omega
      simp at h
      omega
    all_goals exact scalar _ rfl

end IppValue

/-- `put_u16(s.len() as u16)` followed by `put_slice(s.as_bytes())`, the body
`to_bytes` shares between all its string variants. -/
def putString (s : String) : Bytes := putU16 (len s).toUInt16 ++ asBytes s

mutual

/-- `IppValue::to_bytes`. -/
def IppValue.toBytes : IppValue → Bytes
  | .integer i | .enum i => putU16 4 ++ putI32 i
  | .rangeOfInteger min max => putU16 8 ++ putI32 min ++ putI32 max
  | .boolean b => putU16 1 ++ [if b then 1 else 0]
  | .keyword s | .nameWithoutLanguage s => putString s.inner
  | .octetString s => putString s.asRef
  | .textWithoutLanguage s => putString s.asRef
  | .charset s | .naturalLanguage s => putString s.inner
  | .uri s | .uriScheme s => putString s.inner
  | .mimeMediaType s | .memberAttrName s => putString s.inner
  | .textWithLanguage language text =>
      putU16 (len language.inner + len text.asRef + 4).toUInt16 ++
        putString language.inner ++ putString text.asRef
  | .nameWithLanguage language name =>
      putU16 (len language.inner + len name.inner + 4).toUInt16 ++
        putString language.inner ++ putString name.inner
  | .array list => arrayBytes (IppValue.array list).toTag list
  | .collection list =>
      putU16 0 ++ collectionBytes list ++ [ValueTag.endCollection.toU8] ++ putU32 0
  | .dateTime year month day hour minutes seconds deciSeconds utcDir utcHours utcMins =>
      putU16 11 ++ putU16 year ++
        [month, day, hour, minutes, seconds, deciSeconds, utcDir.toNat.toUInt8, utcHours,
          utcMins]
  | .resolution crossFeed feed units =>
      putU16 9 ++ putI32 crossFeed ++ putI32 feed ++ [units.toUInt8]
  | .noValue => putU16 0
  | .other _ data => putU16 data.length.toUInt16 ++ data

/-- The loop of `to_bytes` over an array: every element but the last is
followed by the array's tag and an empty name. -/
def arrayBytes (tag : UInt8) : List IppValue → Bytes
  | [] => []
  | [item] => item.toBytes
  | item :: rest => item.toBytes ++ [tag] ++ putU16 0 ++ arrayBytes tag rest

/-- The loop of `to_bytes` over a collection: a `MemberAttrName` record holding
the key, then a record holding the value, both with an empty name.  The key's
record is `IppValue::MemberAttrName(key).to_bytes()`, see
`toBytes_memberAttrName`. -/
def collectionBytes : List (IppName × IppValue) → Bytes
  | [] => []
  | (name, value) :: rest =>
      [(IppValue.memberAttrName name).toTag] ++ putU16 0 ++ putString name.inner ++
        [value.toTag] ++ putU16 0 ++ value.toBytes ++ collectionBytes rest

end

/-! ## Parsing -/

/-- `get_len_string`: a `u16` length, then that many bytes decoded lossily.
The slice `data[0..len]` panics when fewer bytes remain. -/
def getLenString (data : Bytes) : Option (String × Bytes) := do
  let (length, data) ← getU16 data
  if length.toNat ≤ data.length then
    some (fromUtf8Lossy (data.take length.toNat), data.drop length.toNat)
  else none

namespace IppValue

/-- `IppValue::parse`.  Each `get_*` call panics on too short a payload;
bytes after the fields a tag reads are ignored. -/
def parse (valueTag : UInt8) (data : Bytes) : Outcome IppParseError IppValue :=
  match ValueTag.fromU8 valueTag with
  | none => pure (other valueTag data)
  | some ippTag =>
    match ippTag with
    | .integer => do
        let (i, _) ← getI32 data
        pure (integer i)
    | .enum => do
        let (i, _) ← getI32 data
        pure (enum i)
    | .octetStringUnspecified => do
        pure (octetString (← IppTextValue.tryFrom (fromUtf8Lossy data)))
    | .textWithoutLanguage => do
        pure (textWithoutLanguage (← IppTextValue.tryFrom (fromUtf8Lossy data)))
    | .nameWithoutLanguage => do
        pure (nameWithoutLanguage (← BoundedString.tryFrom (fromUtf8Lossy data)))
    | .textWithLanguage => do
        let (language, data) ← getLenString data
        let language ← BoundedString.tryFrom language
        let (text, _) ← getLenString data
        pure (textWithLanguage language (← IppTextValue.tryFrom text))
    | .nameWithLanguage => do
        let (language, data) ← getLenString data
        let language ← BoundedString.tryFrom language
        let (name, _) ← getLenString data
        pure (nameWithLanguage language (← BoundedString.tryFrom name))
    | .charset => do pure (charset (← BoundedString.tryFrom (fromUtf8Lossy data)))
    | .naturalLanguage => do
        pure (naturalLanguage (← BoundedString.tryFrom (fromUtf8Lossy data)))
    | .uri => do pure (uri (← BoundedString.tryFrom (fromUtf8Lossy data)))
    | .uriScheme => do pure (uriScheme (← BoundedString.tryFrom (fromUtf8Lossy data)))
    | .rangeOfInteger => do
        let (min, data) ← getI32 data
        let (max, _) ← getI32 data
        pure (rangeOfInteger min max)
    | .boolean => do
        let (b, _) ← getU8 data
        pure (boolean (b != 0))
    | .keyword => do pure (keyword (← BoundedString.tryFrom (fromUtf8Lossy data)))
    | .mimeMediaType => do
        pure (mimeMediaType (← BoundedString.tryFrom (fromUtf8Lossy data)))
    | .dateTime => do
        let (year, data) ← getU16 data
        let (month, data) ← getU8 data
        let (day, data) ← getU8 data
        let (hour, data) ← getU8 data
        let (minutes, data) ← getU8 data
        let (seconds, data) ← getU8 data
        let (deciSeconds, data) ← getU8 data
        let (utcDir, data) ← getU8 data
        let (utcHours, data) ← getU8 data
        let (utcMins, _) ← getU8 data
        pure (dateTime year month day hour minutes seconds deciSeconds
          (Char.ofNat utcDir.toNat) utcHours utcMins)
    | .memberAttrName => do
        pure (memberAttrName (← BoundedString.tryFrom (fromUtf8Lossy data)))
    | .resolution => do
        let (crossFeed, data) ← getI32 data
        let (feed, data) ← getI32 data
        let (units, _) ← getI8 data
        pure (resolution crossFeed feed units)
    | .noValue => pure noValue
    | _ => pure (other valueTag data)

/-- Two payloads a peer can send: an `Integer` with no bytes, on which
`get_i32` panics, and a `TextWithLanguage` whose language length runs past the
payload, on which the slice in `get_len_string` panics. -/
theorem parse_short_payload_panics :
    parse ValueTag.integer.toU8 [] = .panic ∧
      parse ValueTag.textWithLanguage.toU8 [0, 5, 0x65, 0x6E] = .panic :=
  ⟨rfl, rfl⟩

/-! ## Reading back what `toBytes` wrote -/

/-- A value `parse` gives back: neither an array nor a collection, text in the
tier `IppTextValue::new` picks, a `utc_dir` that fits one byte, and an `Other`
whose tag `parse` does not decode as a dedicated variant. -/
def ParseWellFormed : IppValue → Prop
  | octetString s | textWithoutLanguage s => s.Narrowest
  | textWithLanguage _ text => text.Narrowest
  | dateTime _ _ _ _ _ _ _ utcDir _ _ => utcDir.toNat ≤ 0xFF
  | array _ | collection _ => False
  | other tag _ => decodesAsOther tag = true
  | _ => True
where
  /-- The tags `parse` keeps as `Other`: unknown codes, and the four codes its
  last arm catches. -/
  decodesAsOther (tag : UInt8) : Bool :=
    match ValueTag.fromU8 tag with
    | none | some .unsupported | some .unknown | some .begCollection
    | some .endCollection => true
    | some _ => false

theorem parse_other {tag : UInt8} (data : Bytes)
    (h : ParseWellFormed.decodesAsOther tag = true) :
    parse tag data = .ok (other tag data) := by
  unfold ParseWellFormed.decodesAsOther at h
  unfold parse
  split at h <;> simp_all

end IppValue

@[simp] theorem drop_putString (s : String) : (putString s).drop 2 = asBytes s := rfl

@[simp] theorem BoundedString.tryFrom_eq {MAX : UInt16} (s : String) :
    (BoundedString.tryFrom s : Except IppParseError (BoundedString MAX)) = BoundedString.new s :=
  rfl

@[simp] theorem IppTextValue.tryFrom_eq (s : String) :
    IppTextValue.tryFrom s = IppTextValue.new s :=
  rfl

theorem getLenString_putString {s : String} (h : len s < 0x10000) (rest : Bytes) :
    getLenString (putString s ++ rest) = some (s, rest) := by
  simp [getLenString, putString, Nat.mod_eq_of_lt h, List.take_left', List.drop_left',
    fromUtf8Lossy_asBytes]

theorem getLenString_bounded {MAX : UInt16} (b : BoundedString MAX) (rest : Bytes) :
    getLenString (putString b.inner ++ rest) = some (b.inner, rest) :=
  getLenString_putString (lt_of_le_of_lt b.len_le MAX.toNat_lt_size) rest

namespace IppValue

theorem getLenString_text (t : IppTextValue) (rest : Bytes) :
    getLenString (putString t.asRef ++ rest) = some (t.asRef, rest) :=
  getLenString_putString (lt_of_le_of_lt t.len_asRef_le (by decide)) rest

theorem parse_toBytes (v : IppValue) (hv : v.ParseWellFormed) :
    parse v.toTag (v.toBytes.drop 2) = .ok v := by
  cases v with
  | octetString s | textWithoutLanguage s =>
      simp only [parse, toTag, ValueTag.fromU8_toU8, toBytes, drop_putString,
        fromUtf8Lossy_asBytes, IppTextValue.tryFrom_eq, IppTextValue.new_asRef hv, Outcome.lift_ok,
        Outcome.pure_eq, Outcome.ok_bind]
  | textWithLanguage language text =>
      have ht := getLenString_text text []
      simp only [List.append_nil] at ht
      simp only [parse, toTag, ValueTag.fromU8_toU8, toBytes, List.append_assoc, length_putU16,
        List.drop_left', getLenString_bounded, Outcome.lift_some, BoundedString.tryFrom_eq,
        IppTextValue.tryFrom_eq, Outcome.pure_eq, Outcome.ok_bind, BoundedString.new_inner,
        Outcome.lift_ok, ht, IppTextValue.new_asRef hv]
  | nameWithLanguage language name =>
      have hn := getLenString_bounded name []
      simp only [List.append_nil] at hn
      simp only [parse, toTag, ValueTag.fromU8_toU8, toBytes, List.append_assoc, length_putU16,
        List.drop_left', getLenString_bounded, Outcome.lift_some, BoundedString.tryFrom_eq,
        Outcome.pure_eq, Outcome.ok_bind, BoundedString.new_inner, Outcome.lift_ok, hn]
  | nameWithoutLanguage s | charset s | naturalLanguage s | uri s | uriScheme s | keyword s
  | mimeMediaType s | memberAttrName s =>
      simp only [parse, toTag, ValueTag.fromU8_toU8, toBytes, drop_putString,
        fromUtf8Lossy_asBytes, BoundedString.tryFrom_eq, BoundedString.new_inner, Outcome.lift_ok,
        Outcome.pure_eq, Outcome.ok_bind]
  | integer i | enum i | rangeOfInteger i _ | resolution i _ _ =>
      simp only [parse, toTag, ValueTag.fromU8_toU8, toBytes, List.append_assoc, length_putU16,
        List.drop_left', getI32_putI32, getI32_putI32_self, getI8_cons, Outcome.lift_some,
        Outcome.pure_eq, Outcome.ok_bind]
  | boolean b => cases b <;> rfl
  | dateTime year month day hour minutes seconds deciSeconds utcDir utcHours utcMins =>
      have hu : Char.ofNat (utcDir.toNat % 0x100) = utcDir := by
        rw [Nat.mod_eq_of_lt (by simp [ParseWellFormed] at hv; omega), Char.ofNat_toNat]
      simp only [parse, toTag, ValueTag.fromU8_toU8, toBytes, List.append_assoc, length_putU16,
        List.drop_left', getU16_putU16, Outcome.lift_some, Outcome.pure_eq, Outcome.ok_bind,
        getU8_cons, toNat_toUInt8, hu]
  | noValue => rfl
  | other tag data => exact parse_other data hv
  | array _ | collection _ => exact hv.elim

theorem parse_toBytes_dateTime :
    (dateTime 2020 2 13 12 34 22 1 '+' 1 30).ParseWellFormed ∧
      parse (dateTime 2020 2 13 12 34 22 1 '+' 1 30).toTag
          ((dateTime 2020 2 13 12 34 22 1 '+' 1 30).toBytes.drop 2) =
        .ok (dateTime 2020 2 13 12 34 22 1 '+' 1 30) :=
  have h : (dateTime 2020 2 13 12 34 22 1 '+' 1 30).ParseWellFormed :=
    show '+'.toNat ≤ 0xFF by decide
  ⟨h, parse_toBytes _ h⟩

/-! ## Where `parse` reads past the end -/

/-- A `u16` length field at the front of `data` is cut short, or announces
more bytes than follow it. -/
def lengthRunsPast : Bytes → Bool
  | b₀ :: b₁ :: rest => rest.length < b₀.toNat * 0x100 + b₁.toNat
  | _ => true

/-- The payloads `parse` reads past the end of: shorter than the fixed layout
of an integer, enum, range, boolean, date or resolution; or, for a string
pair, a first length field that runs past the payload, or a language of at
most 63 bytes followed by a second length field that runs past what is left. -/
def readsPastEnd (valueTag : UInt8) (data : Bytes) : Bool :=
  match ValueTag.fromU8 valueTag with
  | some .integer | some .enum => data.length < 4
  | some .rangeOfInteger => data.length < 8
  | some .boolean => data.length < 1
  | some .dateTime => data.length < 11
  | some .resolution => data.length < 9
  | some .textWithLanguage | some .nameWithLanguage =>
      match data with
      | b₀ :: b₁ :: rest =>
          let n := b₀.toNat * 0x100 + b₁.toNat
          rest.length < n || (len (fromUtf8Lossy (rest.take n)) ≤ 63 && lengthRunsPast (rest.drop n))
      | _ => true
  | _ => false

theorem toNat_u16 (b₀ b₁ : UInt8) :
    (b₀.toNat * 0x100 + b₁.toNat).toUInt16.toNat = b₀.toNat * 0x100 + b₁.toNat := by
  have h₀ : b₀.toNat < 0x100 := b₀.toNat_lt_size
  have h₁ : b₁.toNat < 0x100 := b₁.toNat_lt_size
  rw [toNat_toUInt16, Nat.mod_eq_of_lt (by omega)]

theorem getLenString_cons (b₀ b₁ : UInt8) (rest : Bytes) :
    getLenString (b₀ :: b₁ :: rest) =
      if b₀.toNat * 0x100 + b₁.toNat ≤ rest.length then
        some (fromUtf8Lossy (rest.take (b₀.toNat * 0x100 + b₁.toNat)),
          rest.drop (b₀.toNat * 0x100 + b₁.toNat))
      else none := by
  show (if _ ≤ rest.length then _ else none) = _
  rw [toNat_u16]

theorem getLenString_eq_none_iff (data : Bytes) :
    getLenString data = none ↔ lengthRunsPast data = true := by
  match data with
  | [] | [_] => exact iff_of_true rfl rfl
  | b₀ :: b₁ :: rest =>
      rw [getLenString_cons]
      by_cases h : b₀.toNat * 0x100 + b₁.toNat ≤ rest.length
      · simp [lengthRunsPast, h]
      · simp [lengthRunsPast, h, Nat.lt_of_not_le h]

theorem parse_eq_panic_iff (valueTag : UInt8) (data : Bytes) :
    parse valueTag data = .panic ↔ readsPastEnd valueTag data = true := by
  have done : ∀ (v : IppValue) (rest : Bytes),
      (pure v : Outcome IppParseError IppValue) = .panic ↔ rest.length < 0 :=
    pure_eq_panic_iff
  unfold parse readsPastEnd
  cases ValueTag.fromU8 valueTag with
  | none => exact iff_of_false nofun nofun
  | some tag =>
    cases tag <;> simp only [decide_eq_true_eq]
    case integer | enum =>
      apply read_bind_eq_panic readsWidth_getI32
      exact fun _ _ => done _ _
    case boolean =>
      apply read_bind_eq_panic readsWidth_getU8
      exact fun _ _ => done _ _
    case rangeOfInteger =>
      apply read_bind_eq_panic readsWidth_getI32
      intro _ _
      apply read_bind_eq_panic readsWidth_getI32
      exact fun _ _ => done _ _
    case resolution =>
      apply read_bind_eq_panic readsWidth_getI32
      intro _ _
      apply read_bind_eq_panic readsWidth_getI32
      intro _ _
      apply read_bind_eq_panic readsWidth_getI8
      exact fun _ _ => done _ _
    case dateTime =>
      apply read_bind_eq_panic readsWidth_getU16
      repeat (intro _ _; apply read_bind_eq_panic readsWidth_getU8)
      exact fun _ _ => done _ _
    case textWithLanguage | nameWithLanguage =>
      match data with
      | [] | [_] => exact iff_of_true rfl rfl
      | b₀ :: b₁ :: rest =>
        rw [getLenString_cons]
        by_cases hn : b₀.toNat * 0x100 + b₁.toNat ≤ rest.length
        · simp only [if_pos hn, Outcome.lift_some, Outcome.ok_bind, BoundedString.tryFrom_eq,
            Nat.not_lt.mpr hn, decide_False, Bool.false_or]
          by_cases h63 : len (fromUtf8Lossy (rest.take (b₀.toNat * 0x100 + b₁.toNat))) ≤ 63
          · rw [@BoundedString.new_ok 63 _ h63]
            have hrest := getLenString_eq_none_iff (rest.drop (b₀.toNat * 0x100 + b₁.toNat))
            cases h : getLenString (rest.drop (b₀.toNat * 0x100 + b₁.toNat)) <;>
              simp [h63, ← hrest, h]
          · rw [@BoundedString.new_error 63 _ h63]
            simp [h63]
        · simp [hn, Nat.lt_of_not_le hn]
    all_goals simp only [BoundedString.tryFrom_eq, IppTextValue.tryFrom_eq, Outcome.pure_eq,
      Outcome.bind_eq_panic, Outcome.lift_except_ne_panic, reduceCtorEq, and_false, exists_false,
      or_self, Bool.false_eq_true]

/-! ## What `parse` accepts -/

theorem toNat_charOfNat_byte (b : UInt8) : (Char.ofNat b.toNat).toNat = b.toNat := by
  have h : b.toNat.isValidChar := Or.inl (lt_trans b.toNat_lt_size (by decide))
  simp [Char.ofNat, h, Char.ofNatAux, Char.toNat, UInt32.toNat]

theorem parse_holds (valueTag : UInt8) (data : Bytes) :
    (parse valueTag data).Holds fun v => v.toTag = valueTag ∧ v.ParseWellFormed := by
  cases hf : ValueTag.fromU8 valueTag with
  | none =>
      simp only [parse, hf]
      exact ⟨rfl, show ParseWellFormed.decodesAsOther valueTag = true by
        rw [ParseWellFormed.decodesAsOther, hf]⟩
  | some tag =>
    obtain rfl := ValueTag.toU8_of_fromU8 hf
    have narrowest : ∀ {s t}, (monadLift (IppTextValue.tryFrom s) : Outcome IppParseError _) =
        .ok t → t.Narrowest := fun ht =>
      (IppTextValue.new_eq_ok ((Outcome.lift_except_eq_ok _ _).mp ht)).1
    cases tag <;> simp only [parse, ValueTag.fromU8_toU8]
    case octetStringUnspecified | textWithoutLanguage =>
      exact .bind fun _ ht => ⟨rfl, narrowest ht⟩
    case textWithLanguage =>
      exact .bind fun _ _ => .bind fun _ _ => .bind fun _ _ => .bind fun _ ht => ⟨rfl, narrowest ht⟩
    case dateTime =>
      repeat refine .bind fun ⟨_, _⟩ _ => ?_
      exact ⟨rfl, (toNat_charOfNat_byte _).trans_le (Nat.le_of_lt_succ (UInt8.toNat_lt_size _))⟩
    all_goals
      repeat (first | exact ⟨rfl, trivial⟩ | exact ⟨rfl, rfl⟩ | refine .bind fun ⟨_, _⟩ _ => ?_)

theorem parse_ok_wellFormed {valueTag : UInt8} {data : Bytes} {v : IppValue}
    (h : parse valueTag data = .ok v) : v.toTag = valueTag ∧ v.ParseWellFormed :=
  (parse_holds valueTag data).of_eq_ok h

theorem parse_ok_wellFormed_text :
    parse ValueTag.textWithoutLanguage.toU8 [0x61] =
        .ok (textWithoutLanguage (.short ⟨"a", by decide⟩)) ∧
      (textWithoutLanguage (.short ⟨"a", by decide⟩)).toTag = ValueTag.textWithoutLanguage.toU8 ∧
      (textWithoutLanguage (.short ⟨"a", by decide⟩)).ParseWellFormed :=
  ⟨rfl, @parse_ok_wellFormed _ [0x61] _ rfl⟩

end IppValue

end Ipp
