import Ipp.Value.Codec

/-!
# Attributes and wire records

An attribute is written as `[value_tag][name_len][name][value_len][value]`,
and a multi-valued or collection attribute as several such records, the later
ones with an empty name.  `wireRecords` lists the records the encoder writes
for a value under a given first tag and name, and `headBytes_of_framable`
shows the encoder's bytes are those records when the value is `framable`.
From it follow a reader that takes the records back off the bytes
(`readAll_toBytes`) and, for arrays whose elements share a tag, the RFC 8010
record stream `rfcRecords`.  An empty array, and a name or an `Other` payload
of `2^16` bytes or more, give bytes that are not records at all
(`toBytes_not_framed`).
-/

namespace Ipp

structure IppAttribute where
  name : String
  value : IppValue

namespace IppAttribute

/-- `IppAttribute::new`. -/
def new (name : String) (value : IppValue) : IppAttribute := ⟨name, value⟩

/-- The bytes `to_bytes` returns. -/
def encoding (self : IppAttribute) : Bytes :=
  [self.value.toTag] ++ putString self.name ++ self.value.toBytes

/-- `IppAttribute::to_bytes`.  The source applies `?` to `IppValue::to_bytes`,
which returns plain `Bytes`; the model puts those bytes as they are. -/
def toBytes (self : IppAttribute) : Except IppParseError Bytes := pure self.encoding

end IppAttribute

/-! ## Records -/

structure WireRecord where
  tag : UInt8
  name : Bytes
  payload : Bytes

namespace WireRecord

def encode (r : WireRecord) : Bytes :=
  [r.tag] ++ putU16 r.name.length.toUInt16 ++ r.name ++
    putU16 r.payload.length.toUInt16 ++ r.payload

/-- Both lengths fit their `u16` fields. -/
def Fits (r : WireRecord) : Prop := r.name.length < 0x10000 ∧ r.payload.length < 0x10000

end WireRecord

/-- Bytes that split exactly into records whose length fields give the
lengths of what follows them. -/
def FramedRecords (bytes : Bytes) : Prop :=
  ∃ rs : List WireRecord, (∀ r ∈ rs, r.Fits) ∧ bytes = rs.flatMap WireRecord.encode

namespace IppValue

/-- The bytes behind a value's `u16` length. -/
def payload (v : IppValue) : Bytes := v.toBytes.drop 2

end IppValue

mutual

/-- At every depth, arrays are non-empty and `Other` payloads are shorter than
`2^16` bytes. -/
def IppValue.framable : IppValue → Bool
  | .array [] => false
  | .array (v :: vs) => v.framable && framableList vs
  | .collection list => framableMembers list
  | .other _ data => data.length < 0x10000
  | _ => true

def framableList : List IppValue → Bool
  | [] => true
  | v :: vs => v.framable && framableList vs

def framableMembers : List (IppName × IppValue) → Bool
  | [] => true
  | (_, v) :: rest => v.framable && framableMembers rest

end

mutual

/-- The records the encoder writes for `v` when its first record starts with
`tag` and `name`.  That head comes from the caller, the attribute or the array
around `v`; the rest comes from `to_bytes`. -/
def wireRecords (tag : UInt8) (name : Bytes) : IppValue → List WireRecord
  | .array list => arrayRecords tag name (IppValue.array list).toTag list
  | .collection list =>
      ⟨tag, name, []⟩ :: memberRecords list ++ [⟨ValueTag.endCollection.toU8, [], []⟩]
  | v => [⟨tag, name, v.payload⟩]

/-- The first element of an array takes the head; each later one gets the
array's tag and an empty name. -/
def arrayRecords (tag : UInt8) (name : Bytes) (sep : UInt8) : List IppValue → List WireRecord
  | [] => []
  | item :: rest => wireRecords tag name item ++ arrayRecords sep [] sep rest

def memberRecords : List (IppName × IppValue) → List WireRecord
  | [] => []
  | (key, value) :: rest =>
      ⟨ValueTag.memberAttrName.toU8, [], asBytes key.inner⟩ ::
        wireRecords value.toTag [] value ++ memberRecords rest

end

/-! ## The encoder writes its records -/

namespace IppValue

theorem toBytes_scalar {v : IppValue} (h : v.isScalar) :
    v.toBytes = putU16 v.payload.length.toUInt16 ++ v.payload := by
  have hlen : ∀ a b : String,
      (len a + len b + 4).toUInt16 = (putString a ++ putString b).length.toUInt16 := by
    intro a b
    simp only [putString, List.length_append, length_putU16, length_asBytes]
    congr 1
    omega
  cases v
  case textWithLanguage | nameWithLanguage => simp only [toBytes, hlen]; rfl
  case array | collection => nomatch h
  all_goals rfl

theorem wireRecords_scalar {v : IppValue} (h : v.isScalar) (tag : UInt8) (name : Bytes) :
    wireRecords tag name v = [⟨tag, name, v.payload⟩] := by
  cases v <;> first | rfl | simp [isScalar] at h

end IppValue

theorem framableList_iff (list : List IppValue) :
    framableList list = true ↔ ∀ x ∈ list, x.framable = true := by
  induction list with
  | nil => simp [framableList]
  | cons x xs ih => simp [framableList, ih]

theorem framableMembers_iff (list : List (IppName × IppValue)) :
    framableMembers list = true ↔ ∀ p ∈ list, p.2.framable = true := by
  induction list with
  | nil => simp [framableMembers]
  | cons p ps ih => simp [framableMembers, ih]

namespace IppValue

theorem framable_array {list : List IppValue} (h : (array list).framable = true) :
    list ≠ [] ∧ ∀ x ∈ list, x.framable = true := by
  cases list with
  | nil => nomatch h
  | cons x xs =>
      change (x.framable && framableList xs) = true at h
      rw [Bool.and_eq_true, framableList_iff] at h
      exact ⟨List.cons_ne_nil x xs, List.forall_mem_cons.mpr h⟩

theorem wireRecords_head (v : IppValue) (hv : v.framable = true) (tag : UInt8) (name : Bytes) :
    ∃ payload rs, wireRecords tag name v = ⟨tag, name, payload⟩ :: rs := by
  induction v using IppValue.nested_induction generalizing tag name with
  | scalar v hs => exact ⟨_, [], wireRecords_scalar hs tag name⟩
  | array list ih =>
      obtain ⟨hne, hall⟩ := framable_array hv
      obtain _ | ⟨x, xs⟩ := list
      · contradiction
      obtain ⟨payload, rs, hx⟩ := ih x (List.mem_cons_self x xs) (hall x (List.mem_cons_self x xs))
        tag name
      exact ⟨payload, rs ++ arrayRecords (array (x :: xs)).toTag [] (array (x :: xs)).toTag xs,
        by rw [wireRecords, arrayRecords, hx]; rfl⟩
  | collection list => exact ⟨[], _, rfl⟩

theorem payload_length_lt {v : IppValue} (hs : v.isScalar) (h : v.framable = true) :
    v.payload.length < 0x10000 := by
  cases v
  case textWithLanguage language text =>
      have : len language.inner ≤ 63 := language.len_le
      have := text.len_asRef_le
      change (putString language.inner ++ putString text.asRef).length < 0x10000
      simp only [putString, List.length_append, length_putU16, length_asBytes]
      omega
  case nameWithLanguage language name =>
      have : len language.inner ≤ 63 := language.len_le
      have : len name.inner ≤ 255 := name.len_le
      change (putString language.inner ++ putString name.inner).length < 0x10000
      simp only [putString, List.length_append, length_putU16, length_asBytes]
      omega
  case keyword s | nameWithoutLanguage s | charset s | naturalLanguage s | uri s | uriScheme s |
      mimeMediaType s | memberAttrName s => exact s.len_lt
  case octetString s | textWithoutLanguage s => exact s.len_asRef_lt
  case other data => exact of_decide_eq_true h
  case array | collection => nomatch hs
  all_goals simp [payload, toBytes]

end IppValue

/-- The bytes of `v` behind a record head `tag`, `name` are the records
`wireRecords` lists. -/
def HeadBytes (v : IppValue) : Prop :=
  ∀ (tag : UInt8) (name : Bytes), [tag] ++ putU16 name.length.toUInt16 ++ name ++ v.toBytes =
    (wireRecords tag name v).flatMap WireRecord.encode

private theorem headBytes_array {list : List IppValue} (hne : list ≠ [])
    (ih : ∀ x ∈ list, HeadBytes x) (tag sep : UInt8) (name : Bytes) :
    [tag] ++ putU16 name.length.toUInt16 ++ name ++ arrayBytes sep list =
      (arrayRecords tag name sep list).flatMap WireRecord.encode := by
  induction list generalizing tag name with
  | nil => contradiction
  | cons x xs ihl =>
    have hx := ih x (List.mem_cons_self x xs) tag name
    cases xs with
    | nil =>
      change _ ++ x.toBytes = List.flatMap (wireRecords tag name x ++ []) WireRecord.encode
      rw [List.append_nil, hx]
    | cons y ys =>
      have hrest := ihl (List.cons_ne_nil y ys)
        (fun z hz => ih z (List.mem_cons_of_mem x hz)) sep []
      change _ ++ (x.toBytes ++ [sep] ++ putU16 0 ++ arrayBytes sep (y :: ys)) =
        (wireRecords tag name x ++ arrayRecords sep [] sep (y :: ys)).flatMap WireRecord.encode
      rw [List.flatMap_append, ← hx, ← hrest]
      simp only [List.append_assoc, List.nil_append, List.length_nil, toUInt16_zero]

private theorem headBytes_members {list : List (IppName × IppValue)}
    (ih : ∀ p ∈ list, HeadBytes p.2) :
    collectionBytes list = (memberRecords list).flatMap WireRecord.encode := by
  induction list with
  | nil => rfl
  | cons p ps ihl =>
    obtain ⟨key, x⟩ := p
    have hx := ih (key, x) (List.mem_cons_self _ ps) x.toTag []
    have hps := ihl (fun q hq => ih q (List.mem_cons_of_mem _ hq))
    change [ValueTag.memberAttrName.toU8] ++ putU16 0 ++ putString key.inner ++ [x.toTag] ++
        putU16 0 ++ x.toBytes ++ collectionBytes ps =
      (⟨ValueTag.memberAttrName.toU8, [], asBytes key.inner⟩ :: wireRecords x.toTag [] x ++
        memberRecords ps).flatMap WireRecord.encode
    rw [List.flatMap_append, List.flatMap_cons, ← hx, ← hps]
    simp only [WireRecord.encode, putString, List.append_assoc, List.nil_append, List.length_nil,
      toUInt16_zero, length_asBytes]

theorem headBytes_of_framable (v : IppValue) (h : v.framable = true) : HeadBytes v := by
  induction v using IppValue.nested_induction with
  | scalar v hs =>
      intro tag name
      rw [IppValue.wireRecords_scalar hs, IppValue.toBytes_scalar hs]
      simp only [List.flatMap_cons, List.flatMap_nil, WireRecord.encode, List.append_nil,
        List.append_assoc]
  | array list ih =>
      obtain ⟨hne, hall⟩ := IppValue.framable_array h
      intro tag name
      exact headBytes_array hne (fun x hx => ih x hx (hall x hx)) tag _ name
  | collection list ih =>
      have hall := (framableMembers_iff list).mp h
      intro tag name
      change _ ++ (putU16 0 ++ collectionBytes list ++ [ValueTag.endCollection.toU8] ++ putU32 0) =
        List.flatMap (⟨tag, name, []⟩ :: memberRecords list ++
          [⟨ValueTag.endCollection.toU8, [], []⟩]) WireRecord.encode
      rw [headBytes_members (fun p hp => ih p hp (hall p hp))]
      simp only [List.flatMap_cons, List.flatMap_append, List.flatMap_nil, WireRecord.encode,
        List.append_assoc, List.length_nil, toUInt16_zero, putU16_zero, putU32_zero,
        List.append_nil, List.nil_append, List.cons_append, List.singleton_append]

/-- Every record under a head whose name fits has both its lengths fit. -/
def RecordsFit (v : IppValue) : Prop :=
  ∀ (tag : UInt8) (name : Bytes), name.length < 0x10000 → ∀ r ∈ wireRecords tag name v, r.Fits

private theorem recordsFit_array {list : List IppValue} (ih : ∀ x ∈ list, RecordsFit x)
    (tag sep : UInt8) {name : Bytes} (hn : name.length < 0x10000) :
    ∀ r ∈ arrayRecords tag name sep list, r.Fits := by
  induction list generalizing tag name with
  | nil => simp [arrayRecords]
  | cons x xs ihl =>
      simp only [arrayRecords, List.mem_append]
      rintro r (hr | hr)
      · exact ih x (by simp) tag name hn r hr
      · exact ihl (fun y hy => ih y (by simp [hy])) sep (by simp) r hr

private theorem recordsFit_members {list : List (IppName × IppValue)}
    (ih : ∀ p ∈ list, RecordsFit p.2) : ∀ r ∈ memberRecords list, r.Fits := by
  induction list with
  | nil => simp [memberRecords]
  | cons p ps ihl =>
      obtain ⟨key, x⟩ := p
      simp only [memberRecords, List.mem_cons, List.mem_append]
      rintro r ((rfl | hr) | hr)
      · exact ⟨by simp, by simpa using key.len_lt⟩
      · exact ih (key, x) (by simp) x.toTag [] (by simp) r hr
      · exact ihl (fun q hq => ih q (by simp [hq])) r hr

theorem recordsFit_of_framable (v : IppValue) (h : v.framable = true) : RecordsFit v := by
  induction v using IppValue.nested_induction with
  | scalar v hs =>
      intro tag name hn
      simp [IppValue.wireRecords_scalar hs, WireRecord.Fits, hn, IppValue.payload_length_lt hs h]
  | array list ih =>
      obtain ⟨-, hall⟩ := IppValue.framable_array h
      exact fun tag name hn =>
        recordsFit_array (fun x hx => ih x hx (hall x hx)) tag _ hn
  | collection list ih =>
      have hall := (framableMembers_iff list).mp h
      intro tag name hn
      change ∀ r ∈ ⟨tag, name, []⟩ :: memberRecords list ++ [⟨ValueTag.endCollection.toU8, [], []⟩],
        r.Fits
      simp only [List.mem_cons, List.mem_append, List.mem_singleton, List.not_mem_nil, or_false]
      rintro r ((rfl | hr) | rfl)
      · exact ⟨hn, by simp⟩
      · exact recordsFit_members (fun p hp => ih p hp (hall p hp)) r hr
      · exact ⟨by simp, by simp⟩

/-! ## Record tags -/

mutual

/-- At every depth, an `Other` value has a tag of `0x10` or more, outside the
range RFC 8010 keeps for delimiters. -/
def IppValue.valueTagged : IppValue → Bool
  | .array list => valueTaggedList list
  | .collection list => valueTaggedMembers list
  | .other tag _ => 0x10 ≤ tag
  | _ => true

def valueTaggedList : List IppValue → Bool
  | [] => true
  | v :: vs => v.valueTagged && valueTaggedList vs

def valueTaggedMembers : List (IppName × IppValue) → Bool
  | [] => true
  | (_, v) :: rest => v.valueTagged && valueTaggedMembers rest

end

theorem valueTaggedList_iff (list : List IppValue) :
    valueTaggedList list = true ↔ ∀ x ∈ list, x.valueTagged = true := by
  induction list with
  | nil => simp [valueTaggedList]
  | cons x xs ih => simp [valueTaggedList, ih]

theorem valueTaggedMembers_iff (list : List (IppName × IppValue)) :
    valueTaggedMembers list = true ↔ ∀ p ∈ list, p.2.valueTagged = true := by
  induction list with
  | nil => simp [valueTaggedMembers]
  | cons p ps ih => simp [valueTaggedMembers, ih]

theorem IppValue.le_toTag (v : IppValue) (h : v.valueTagged = true) : 0x10 ≤ v.toTag := by
  induction v using IppValue.nested_induction with
  | scalar v hs =>
      cases v
      case other tag data => simpa [IppValue.valueTagged] using h
      case array | collection => nomatch hs
      all_goals exact Nat.le_of_ble_eq_true rfl
  | array list ih =>
      cases list with
      | nil => decide
      | cons x xs =>
          have hall := (valueTaggedList_iff (x :: xs)).mp h
          exact ih x (List.mem_cons_self x xs) (hall x (List.mem_cons_self x xs))
  | collection list => exact Nat.le_of_ble_eq_true rfl

/-- Every record under a head has the head's tag or one outside the delimiter
range. -/
def RecordsTagged (v : IppValue) : Prop :=
  ∀ (tag : UInt8) (name : Bytes), ∀ r ∈ wireRecords tag name v, r.tag = tag ∨ 0x10 ≤ r.tag

private theorem recordsTagged_array {list : List IppValue} (ih : ∀ x ∈ list, RecordsTagged x)
    {sep : UInt8} (hsep : 0x10 ≤ sep) (tag : UInt8) (name : Bytes) :
    ∀ r ∈ arrayRecords tag name sep list, r.tag = tag ∨ 0x10 ≤ r.tag := by
  induction list generalizing tag name with
  | nil => simp [arrayRecords]
  | cons x xs ihl =>
      simp only [arrayRecords, List.mem_append]
      rintro r (hr | hr)
      · exact ih x (by simp) tag name r hr
      · rcases ihl (fun y hy => ih y (by simp [hy])) sep [] r hr with h | h
        · exact .inr (h ▸ hsep)
        · exact .inr h

private theorem recordsTagged_members {list : List (IppName × IppValue)}
    (ih : ∀ p ∈ list, RecordsTagged p.2) (hall : ∀ p ∈ list, p.2.valueTagged = true) :
    ∀ r ∈ memberRecords list, 0x10 ≤ r.tag := by
  induction list with
  | nil => simp [memberRecords]
  | cons p ps ihl =>
      obtain ⟨key, x⟩ := p
      simp only [memberRecords, List.mem_cons, List.mem_append]
      rintro r ((rfl | hr) | hr)
      · exact Nat.le_of_ble_eq_true rfl
      · rcases ih (key, x) (by simp) x.toTag [] r hr with h | h
        · exact h ▸ x.le_toTag (hall (key, x) (by simp))
        · exact h
      · exact ihl (fun q hq => ih q (by simp [hq])) (fun q hq => hall q (by simp [hq])) r hr

theorem recordsTagged_of_valueTagged (v : IppValue) (h : v.valueTagged = true) :
    RecordsTagged v := by
  induction v using IppValue.nested_induction with
  | scalar v hs =>
      intro tag name
      simp [IppValue.wireRecords_scalar hs]
  | array list ih =>
      have hall := (valueTaggedList_iff list).mp h
      exact recordsTagged_array (fun x hx => ih x hx (hall x hx)) ((IppValue.array list).le_toTag h)
  | collection list ih =>
      have hall := (valueTaggedMembers_iff list).mp h
      intro tag name
      change ∀ r ∈ ⟨tag, name, []⟩ :: memberRecords list ++ [⟨ValueTag.endCollection.toU8, [], []⟩],
        r.tag = tag ∨ 0x10 ≤ r.tag
      simp only [List.mem_cons, List.mem_append, List.mem_singleton, List.not_mem_nil, or_false]
      rintro r ((rfl | hr) | rfl)
      · exact .inl rfl
      · exact .inr (recordsTagged_members (fun p hp => ih p hp (hall p hp)) hall r hr)
      · exact .inr (by decide)

namespace IppAttribute

/-- The records `to_bytes` writes for an attribute. -/
def records (a : IppAttribute) : List WireRecord :=
  wireRecords a.value.toTag (asBytes a.name) a.value

theorem encoding_eq (a : IppAttribute) :
    a.encoding = [a.value.toTag] ++ putU16 (asBytes a.name).length.toUInt16 ++
      asBytes a.name ++ a.value.toBytes := by
  simp [encoding, putString]

end IppAttribute

/-! ## Reading records back -/

theorem length_le_length_flatMap {α β : Type} {f : α → List β} (hf : ∀ a, f a ≠ [])
    (l : List α) : l.length ≤ (l.flatMap f).length := by
  induction l with
  | nil => exact le_refl 0
  | cons a l ih =>
      have ha : 0 < (f a).length := List.length_pos.mpr (hf a)
      rw [List.flatMap_cons, List.length_append, List.length_cons]
      omega

namespace WireRecord

/-- Reads one record off the front of `bytes`: a tag, a `u16` name length and
the name, a `u16` value length and the value; `none` when the bytes run out. -/
def read (bytes : Bytes) : Option (WireRecord × Bytes) := do
  let (tag, bytes) ← getU8 bytes
  let (nameLength, bytes) ← getU16 bytes
  if nameLength.toNat ≤ bytes.length then
    let (valueLength, rest) ← getU16 (bytes.drop nameLength.toNat)
    if valueLength.toNat ≤ rest.length then
      some (⟨tag, bytes.take nameLength.toNat, rest.take valueLength.toNat⟩,
        rest.drop valueLength.toNat)
    else none
  else none

/-- Reads records until the bytes are used up, at most `fuel` of them. -/
def readAll : Nat → Bytes → Option (List WireRecord)
  | _, [] => some []
  | 0, _ :: _ => none
  | fuel + 1, bytes@(_ :: _) => do
      let (r, rest) ← read bytes
      let rs ← readAll fuel rest
      pure (r :: rs)

theorem read_encode {r : WireRecord} (h : r.Fits) (rest : Bytes) :
    read (r.encode ++ rest) = some (r, rest) := by
  obtain ⟨tag, name, payload⟩ := r
  obtain ⟨hn, hp⟩ := h
  simp [read, encode, Nat.mod_eq_of_lt hn, Nat.mod_eq_of_lt hp]

theorem readAll_flatMap {rs : List WireRecord} (h : ∀ r ∈ rs, r.Fits) {fuel : Nat}
    (hf : rs.length ≤ fuel) : readAll fuel (rs.flatMap encode) = some rs := by
  induction rs generalizing fuel with
  | nil => cases fuel <;> rfl
  | cons r rs ih =>
      obtain ⟨fuel, rfl⟩ : ∃ f, fuel = f + 1 := ⟨fuel - 1, by simp at hf; omega⟩
      have hr := read_encode (h r (List.mem_cons_self r rs)) (rs.flatMap encode)
      have hrs := ih (fun r' hr' => h r' (List.mem_cons_of_mem r hr')) (by simpa using hf)
      obtain ⟨b, bs, hb⟩ : ∃ b bs, r.encode ++ rs.flatMap encode = b :: bs := ⟨r.tag, _, rfl⟩
      rw [List.flatMap_cons, hb, readAll, ← hb, hr]
      simp [hrs]

end WireRecord

namespace IppAttribute

theorem readAll_toBytes (a : IppAttribute) (hname : len a.name < 0x10000)
    (hv : a.value.framable = true) :
    ∃ bytes, a.toBytes = .ok bytes ∧
      WireRecord.readAll bytes.length bytes =
        some (wireRecords a.value.toTag (asBytes a.name) a.value) ∧
      ∃ r rs, wireRecords a.value.toTag (asBytes a.name) a.value = r :: rs ∧
        r.tag = a.value.toTag ∧ fromUtf8Lossy r.name = a.name := by
  have hbytes : a.encoding = (wireRecords a.value.toTag (asBytes a.name) a.value).flatMap
      WireRecord.encode := by rw [encoding_eq, headBytes_of_framable a.value hv]
  obtain ⟨payload, rs, hrs⟩ := IppValue.wireRecords_head a.value hv a.value.toTag (asBytes a.name)
  refine ⟨a.encoding, rfl, ?_, ⟨a.value.toTag, asBytes a.name, payload⟩, rs, hrs, rfl,
    fromUtf8Lossy_asBytes _⟩
  rw [hbytes]
  exact WireRecord.readAll_flatMap (recordsFit_of_framable a.value hv _ _ hname)
    (length_le_length_flatMap (fun _ => List.cons_ne_nil _ _) _)

theorem readAll_toBytes_array :
    len "n" < 0x10000 ∧ (IppValue.array [.integer 1, .integer 2]).framable = true ∧
      ∃ bytes, (IppAttribute.new "n" (.array [.integer 1, .integer 2])).toBytes = .ok bytes ∧
        WireRecord.readAll bytes.length bytes =
          some (wireRecords (IppValue.array [.integer 1, .integer 2]).toTag (asBytes "n")
            (.array [.integer 1, .integer 2])) ∧
        ∃ r rs, wireRecords (IppValue.array [.integer 1, .integer 2]).toTag (asBytes "n")
            (.array [.integer 1, .integer 2]) = r :: rs ∧
          r.tag = (IppValue.array [.integer 1, .integer 2]).toTag ∧ fromUtf8Lossy r.name = "n" :=
  ⟨by decide, rfl, readAll_toBytes (IppAttribute.new "n" (.array [.integer 1, .integer 2]))
    (by decide) rfl⟩

end IppAttribute

/-! ## The RFC 8010 record stream -/

mutual

/-- The record stream of RFC 8010 as the specification states it: a scalar
is one record; an array is its elements' records, the later ones unnamed; a
collection is a `begCollection` record, a `memberAttrName` record and the
member's records for each member, and an `endCollection` record. -/
def rfcRecords (name : Bytes) : IppValue → List WireRecord
  | .array [] => []
  | .array (v :: vs) => rfcRecords name v ++ rfcLaterRecords vs
  | .collection list => ⟨0x34, name, []⟩ :: rfcMemberRecords list ++ [⟨0x37, [], []⟩]
  | v => [⟨v.toTag, name, v.payload⟩]

def rfcLaterRecords : List IppValue → List WireRecord
  | [] => []
  | v :: vs => rfcRecords [] v ++ rfcLaterRecords vs

def rfcMemberRecords : List (IppName × IppValue) → List WireRecord
  | [] => []
  | (key, x) :: rest => ⟨0x4A, [], asBytes key.inner⟩ :: rfcRecords [] x ++ rfcMemberRecords rest

end

mutual

/-- At every depth, the elements of an array share the array's tag, that of
its first element. -/
def IppValue.uniform : IppValue → Bool
  | .array list => uniformList (IppValue.array list).toTag list
  | .collection list => uniformMembers list
  | _ => true

def uniformList (tag : UInt8) : List IppValue → Bool
  | [] => true
  | v :: vs => v.toTag == tag && v.uniform && uniformList tag vs

def uniformMembers : List (IppName × IppValue) → Bool
  | [] => true
  | (_, v) :: rest => v.uniform && uniformMembers rest

end

theorem uniformList_iff (tag : UInt8) (list : List IppValue) :
    uniformList tag list = true ↔ ∀ x ∈ list, x.toTag = tag ∧ x.uniform = true := by
  induction list with
  | nil => simp [uniformList]
  | cons x xs ih => simp [uniformList, ih, and_assoc]

theorem uniformMembers_iff (list : List (IppName × IppValue)) :
    uniformMembers list = true ↔ ∀ p ∈ list, p.2.uniform = true := by
  induction list with
  | nil => simp [uniformMembers]
  | cons p ps ih => simp [uniformMembers, ih]

theorem rfcRecords_scalar {v : IppValue} (h : v.isScalar) (name : Bytes) :
    rfcRecords name v = [⟨v.toTag, name, v.payload⟩] := by
  cases v <;> first | rfl | simp [IppValue.isScalar] at h

/-- The encoder's records are those of RFC 8010 when the head is the value's
own tag. -/
def RfcShaped (v : IppValue) : Prop :=
  ∀ name : Bytes, wireRecords v.toTag name v = rfcRecords name v

private theorem rfcShaped_later {sep : UInt8} {list : List IppValue}
    (ih : ∀ x ∈ list, RfcShaped x) (htag : ∀ x ∈ list, x.toTag = sep) :
    arrayRecords sep [] sep list = rfcLaterRecords list := by
  induction list with
  | nil => rfl
  | cons x xs ihl =>
      rw [arrayRecords, rfcLaterRecords, ← htag x (by simp), ih x (by simp),
        htag x (by simp), ihl (fun y hy => ih y (by simp [hy])) (fun y hy => htag y (by simp [hy]))]

private theorem rfcShaped_members {list : List (IppName × IppValue)}
    (ih : ∀ p ∈ list, RfcShaped p.2) : memberRecords list = rfcMemberRecords list := by
  induction list with
  | nil => rfl
  | cons p ps ihl =>
      obtain ⟨key, x⟩ := p
      rw [memberRecords, rfcMemberRecords, ih (key, x) (by simp),
        ihl (fun q hq => ih q (by simp [hq]))]
      rfl

theorem rfcShaped_of_uniform (v : IppValue) (hf : v.framable = true) (hu : v.uniform = true) :
    RfcShaped v := by
  induction v using IppValue.nested_induction with
  | scalar v hs =>
      intro name
      rw [IppValue.wireRecords_scalar hs, rfcRecords_scalar hs]
  | array list ih =>
      obtain ⟨hne, hall⟩ := IppValue.framable_array hf
      obtain _ | ⟨x, xs⟩ := list
      · contradiction
      have hxs := (uniformList_iff _ _).mp hu
      have hx := List.mem_cons_self x xs
      have hys : ∀ y ∈ xs, y ∈ x :: xs := fun y => List.mem_cons_of_mem x
      intro name
      change wireRecords x.toTag name x ++ arrayRecords x.toTag [] x.toTag xs =
        rfcRecords name x ++ rfcLaterRecords xs
      rw [ih x hx (hall x hx) (hxs x hx).2 name,
        @rfcShaped_later x.toTag xs
          (fun y hy => ih y (hys y hy) (hall y (hys y hy)) (hxs y (hys y hy)).2)
          (fun y hy => (hxs y (hys y hy)).1)]
  | collection list ih =>
      have hall := (framableMembers_iff list).mp hf
      have hus := (uniformMembers_iff list).mp hu
      intro name
      change _ :: memberRecords list ++ _ = _ :: rfcMemberRecords list ++ _
      rw [rfcShaped_members (fun p hp => ih p hp (hall p hp) (hus p hp))]
      rfl

namespace IppAttribute

theorem toBytes_rfcRecords (a : IppAttribute) (hname : len a.name < 0x10000)
    (hv : a.value.framable = true) (hu : a.value.uniform = true) :
    a.toBytes = .ok ((rfcRecords (asBytes a.name) a.value).flatMap WireRecord.encode) ∧
      ∀ r ∈ rfcRecords (asBytes a.name) a.value, r.Fits := by
  rw [← rfcShaped_of_uniform a.value hv hu]
  exact ⟨by rw [toBytes, encoding_eq, headBytes_of_framable a.value hv]; rfl,
    recordsFit_of_framable a.value hv _ _ hname⟩

theorem toBytes_rfcRecords_array :
    len "n" < 0x10000 ∧ (IppValue.array [.integer 1, .integer 2]).framable = true ∧
      (IppValue.array [.integer 1, .integer 2]).uniform = true ∧
      (IppAttribute.new "n" (.array [.integer 1, .integer 2])).toBytes =
        .ok ((rfcRecords (asBytes "n") (.array [.integer 1, .integer 2])).flatMap
          WireRecord.encode) ∧
      ∀ r ∈ rfcRecords (asBytes "n") (.array [.integer 1, .integer 2]), r.Fits :=
  ⟨by decide, rfl, rfl, toBytes_rfcRecords (IppAttribute.new "n" (.array [.integer 1, .integer 2]))
    (by decide) rfl rfl⟩

end IppAttribute

/-! ## Byte strings that are not records -/

theorem framedRecords_length {bytes : Bytes} (h : FramedRecords bytes) :
    bytes = [] ∨ 5 ≤ bytes.length := by
  obtain ⟨rs, -, rfl⟩ := h
  cases rs with
  | nil => exact .inl rfl
  | cons r rs => exact .inr (by simp [WireRecord.encode]; omega)

private theorem encode_zeros {r : WireRecord} (hr : r.Fits) (h : ∀ b ∈ r.encode, b = 0) :
    r.encode.length = 5 := by
  have hb : ∀ n : Nat, (n / 0x100).toUInt8 = 0 → n.toUInt8 = 0 → n < 0x10000 → n = 0 := by
    intro n h₁ h₂ hn
    have := congrArg UInt8.toNat h₁
    have := congrArg UInt8.toNat h₂
    simp only [toNat_toUInt8, UInt8.toNat_zero] at *
    omega
  have hname := hb r.name.length.toUInt16.toNat (h _ (by simp [WireRecord.encode, putU16]))
    (h _ (by simp [WireRecord.encode, putU16])) (UInt16.toNat_lt_size _)
  have hpay := hb r.payload.length.toUInt16.toNat (h _ (by simp [WireRecord.encode, putU16]))
    (h _ (by simp [WireRecord.encode, putU16])) (UInt16.toNat_lt_size _)
  simp only [toNat_toUInt16, Nat.mod_eq_of_lt hr.1, Nat.mod_eq_of_lt hr.2] at hname hpay
  simp [WireRecord.encode, hname, hpay]

theorem framedRecords_zeros {n : Nat} (h : FramedRecords (List.replicate n 0)) : n % 5 = 0 := by
  obtain ⟨rs, hfit, heq⟩ := h
  induction rs generalizing n with
  | nil => simp at heq; omega
  | cons r rs ih =>
      rw [List.flatMap_cons, eq_comm, List.append_eq_replicate_iff] at heq
      obtain ⟨hlen, hr, hrest⟩ := heq
      have h5 := encode_zeros (hfit r (by simp))
        (fun b hb => List.eq_of_mem_replicate (hr ▸ hb))
      have := ih (fun r' hr' => hfit r' (by simp [hr'])) hrest.symm
      omega

private theorem asBytes_nulls (n : Nat) :
    asBytes ⟨List.replicate n '\x00'⟩ = List.replicate n 0 := by
  induction n with
  | zero => rfl
  | succ n ih =>
      simp only [asBytes, List.replicate_succ, List.flatMap_cons] at ih ⊢
      rw [ih]
      rfl

private theorem putU16_wrap {n : Nat} (h : n % 0x10000 = 0) : putU16 n.toUInt16 = [0, 0] := by
  simp only [putU16, toNat_toUInt16, h, Nat.zero_div]
  rfl

private theorem encoding_long_other {n : Nat} (h : n % 0x10000 = 0) :
    (IppAttribute.new "" (.other 0 (List.replicate n 0))).encoding = List.replicate (n + 5) 0 := by
  have hs : putString "" = [0, 0] := rfl
  rw [List.eq_replicate_iff]
  simp only [IppAttribute.encoding, IppAttribute.new, IppValue.toTag, IppValue.toBytes, hs,
    List.length_replicate, putU16_wrap h, List.mem_append, List.mem_replicate]
  constructor <;> simp

private theorem encoding_long_name {n : Nat} (h : n % 0x10000 = 0) :
    (IppAttribute.new ⟨List.replicate n '\x00'⟩ (.other 0 [])).encoding =
      List.replicate (n + 5) 0 := by
  have hl : len ⟨List.replicate n '\x00'⟩ = n := by simp [len, asBytes_nulls]
  rw [List.eq_replicate_iff]
  simp only [IppAttribute.encoding, IppAttribute.new, IppValue.toTag, IppValue.toBytes, putString,
    hl, asBytes_nulls, putU16_wrap h, List.length_nil, toUInt16_zero, putU16_zero,
    List.append_nil, List.mem_append, List.mem_replicate, List.length_append,
    List.length_replicate]
  exact ⟨by simp; omega, by simp; tauto⟩

/-- Three attributes whose bytes are not records: an empty array, whose
`to_bytes` writes the `Unknown` tag and the name and no value length field; an
`Other` payload of `2^16` bytes, whose length is written as `0`; a name of
`2^16` bytes, likewise. -/
theorem toBytes_not_framed :
    (IppAttribute.new "" (.array [])).toBytes = .ok [0x12, 0, 0] ∧ ¬FramedRecords [0x12, 0, 0] ∧
      ¬(∃ bytes, (IppAttribute.new "" (.other 0 (List.replicate 0x10000 0))).toBytes = .ok bytes ∧
        FramedRecords bytes) ∧
      ¬(∃ bytes, (IppAttribute.new ⟨List.replicate 0x10000 '\x00'⟩ (.other 0 [])).toBytes =
        .ok bytes ∧ FramedRecords bytes) := by
  refine ⟨rfl, fun hf => ?_, ?_, ?_⟩
  · rcases framedRecords_length hf with h | h <;> simp at h
  all_goals rintro ⟨bytes, hb, hf⟩; cases hb
  · rw [encoding_long_other (by decide)] at hf
    exact absurd (framedRecords_zeros hf) (by decide)
  · rw [encoding_long_name (by decide)] at hf
    exact absurd (framedRecords_zeros hf) (by decide)

end Ipp
