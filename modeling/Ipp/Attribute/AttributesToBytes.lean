import Ipp.Attribute.Groups

/-!
# Writing an attribute list

`IppAttributes::to_bytes` writes `0x01`, the first operation group with the
header attributes of RFC 8011 §4.1.4 first, every group of another tag behind
its own delimiter, and `0x03`.  `toBytes_eq` gives the bytes in closed form;
for a group whose keys name their attributes, the operation attributes are a
permutation of the group's, the headers first in `HEADER_ATTRS` order.  Later
operation groups are not written.

`sections` lists what `to_bytes` writes, delimiter by delimiter; after any run
of `add` from `new` it holds each attribute last added under a tag and name
(`toBytes_addAll`).  `readItems` reads the bytes back, a byte below `0x10` as a
delimiter and any other as the start of a record, and recovers the sections
(`readItems_toBytes`).
-/

namespace Ipp

/-- `IppAttribute::HEADER_ATTRS`. -/
def headerAttrs : List String :=
  ["attributes-charset", "attributes-natural-language", "printer-uri"]

/-- `is_header_attr`. -/
def isHeaderAttr (attr : String) : Bool := headerAttrs.contains attr

/-- The loop `for attr in attrs { buffer.put(attr.to_bytes()?) }`. -/
def putAttributes : List IppAttribute → Except IppParseError Bytes
  | [] => pure []
  | attr :: rest => do
      let bytes ← attr.toBytes
      let more ← putAttributes rest
      pure (bytes ++ more)

namespace IppAttributes

/-- The loop over the groups of other tags: each group's delimiter, then its
attributes. -/
def putGroups : List IppAttributeGroup → Except IppParseError Bytes
  | [] => pure []
  | group :: rest => do
      let attrs ← putAttributes group.attributes.values
      let more ← putGroups rest
      pure ([group.tag.toU8] ++ attrs ++ more)

/-- `IppAttributes::to_bytes`. -/
def toBytes (self : IppAttributes) : Except IppParseError Bytes := do
  let operation ← match (self.groupsOf .operationAttributes).head? with
    | some group => do
        let headers ← putAttributes (headerAttrs.filterMap group.attributes.get)
        let others ← putAttributes
          (group.attributes.values.filter fun attr => !isHeaderAttr attr.name)
        pure (headers ++ others)
    | none => pure []
  let rest ← putGroups (self.groups.filter (·.tag ≠ .operationAttributes))
  pure ([DelimiterTag.operationAttributes.toU8] ++ operation ++ rest ++
    [DelimiterTag.endOfAttributes.toU8])

/-- The attributes of an operation group in the order `to_bytes` writes them. -/
def operationAttrs (group : IppAttributeGroup) : List IppAttribute :=
  headerAttrs.filterMap group.attributes.get ++
    group.attributes.values.filter fun attr => !isHeaderAttr attr.name

/-- A group of another tag as `to_bytes` writes it. -/
def groupBytes (group : IppAttributeGroup) : Bytes :=
  [group.tag.toU8] ++ group.attributes.values.flatMap IppAttribute.encoding

end IppAttributes

/-! ## The bytes in closed form -/

theorem putAttributes_eq (attrs : List IppAttribute) :
    putAttributes attrs = .ok (attrs.flatMap IppAttribute.encoding) := by
  induction attrs with
  | nil => rfl
  | cons attr rest ih => rw [putAttributes, ih]; rfl

namespace IppAttributes

theorem putGroups_eq (groups : List IppAttributeGroup) :
    putGroups groups = .ok (groups.flatMap groupBytes) := by
  induction groups with
  | nil => rfl
  | cons group rest ih =>
      rw [putGroups, putAttributes_eq, ih]
      simp only [groupBytes, List.flatMap_cons, List.append_assoc]
      rfl

theorem toBytes_eq (L : IppAttributes) :
    L.toBytes = .ok ([DelimiterTag.operationAttributes.toU8] ++
      (((L.groupsOf .operationAttributes).head?.map operationAttrs).getD []).flatMap
        IppAttribute.encoding ++
      (L.groups.filter (·.tag ≠ .operationAttributes)).flatMap groupBytes ++
      [DelimiterTag.endOfAttributes.toU8]) := by
  unfold toBytes
  cases (L.groupsOf .operationAttributes).head? <;>
    simp only [putAttributes_eq, putGroups_eq, Option.map_some', Option.getD_some, operationAttrs,
      List.flatMap_append] <;> rfl

/-! ## The operation group -/

theorem nodup_headerAttrs : headerAttrs.Nodup := by decide

theorem operationAttrs_perm {group : IppAttributeGroup} (h : group.KeyedByName) :
    (operationAttrs group).Perm group.attributes.values := by
  have hheaders : (headerAttrs.filterMap group.attributes.get).Perm
      (group.attributes.values.filter fun attr => isHeaderAttr attr.name) := by
    refine (List.perm_ext_iff_of_nodup ?_ ((IppAttributeGroup.nodup_values h).filter _)).mpr
      fun attr => ?_
    · apply List.Nodup.of_map (·.name)
      rw [IppAttributeGroup.map_name_filterMap_get h]
      exact nodup_headerAttrs.filter _
    · simp [IppAttributeGroup.mem_filterMap_get_iff h, isHeaderAttr]
  exact (hheaders.append_right _).trans (List.filter_append_perm _ _)

theorem toBytes_sections (L : IppAttributes) (hkey : ∀ g ∈ L.groups, g.KeyedByName) :
    ∃ ops : List IppAttribute,
      L.toBytes = .ok ([DelimiterTag.operationAttributes.toU8] ++
        ops.flatMap IppAttribute.encoding ++
        (L.groups.filter (·.tag ≠ .operationAttributes)).flatMap groupBytes ++
        [DelimiterTag.endOfAttributes.toU8]) ∧
      ops.Perm (((L.groupsOf .operationAttributes).head?.map (·.attributes.values)).getD []) := by
  refine ⟨_, toBytes_eq L, ?_⟩
  cases hg : (L.groupsOf .operationAttributes).head? with
  | none => exact .nil
  | some group =>
      exact operationAttrs_perm (hkey group (List.mem_of_mem_filter (List.mem_of_mem_head? hg)))

theorem toBytes_sections_two_operation_groups :
    (∀ g ∈ [IppAttributeGroup.new .operationAttributes,
        (IppAttributeGroup.new .operationAttributes).insert
          (IppAttribute.new "copies" (.integer 1))], g.KeyedByName) ∧
    ∃ ops : List IppAttribute,
      (IppAttributes.mk [IppAttributeGroup.new .operationAttributes,
        (IppAttributeGroup.new .operationAttributes).insert
          (IppAttribute.new "copies" (.integer 1))]).toBytes =
        .ok ([DelimiterTag.operationAttributes.toU8] ++ ops.flatMap IppAttribute.encoding ++
          ([IppAttributeGroup.new .operationAttributes,
            (IppAttributeGroup.new .operationAttributes).insert
              (IppAttribute.new "copies" (.integer 1))].filter
                (·.tag ≠ .operationAttributes)).flatMap groupBytes ++
          [DelimiterTag.endOfAttributes.toU8]) ∧
      ops.Perm ((((IppAttributes.mk [IppAttributeGroup.new .operationAttributes,
        (IppAttributeGroup.new .operationAttributes).insert
          (IppAttribute.new "copies" (.integer 1))]).groupsOf .operationAttributes).head?.map
            (·.attributes.values)).getD []) :=
  ⟨by decide, toBytes_sections (IppAttributes.mk [IppAttributeGroup.new .operationAttributes,
    (IppAttributeGroup.new .operationAttributes).insert (IppAttribute.new "copies" (.integer 1))])
    (by decide)⟩

/-- The attribute of a second operation group is not written. -/
theorem toBytes_skips_second_operation_group :
    ((IppAttributeGroup.new .operationAttributes).insert
        (IppAttribute.new "copies" (.integer 1))).attributes.values =
      [IppAttribute.new "copies" (.integer 1)] ∧
    (IppAttributes.mk [IppAttributeGroup.new .operationAttributes,
        (IppAttributeGroup.new .operationAttributes).insert
          (IppAttribute.new "copies" (.integer 1))]).toBytes = .ok [0x01, 0x03] :=
  ⟨rfl, rfl⟩

theorem toBytes_headers_first (L : IppAttributes) (G : IppAttributeGroup)
    (hG : (L.groupsOf .operationAttributes).head? = some G) (hkey : G.KeyedByName) :
    ∃ headers others : List IppAttribute,
      L.toBytes = .ok ([0x01] ++ (headers ++ others).flatMap IppAttribute.encoding ++
        (L.groups.filter (·.tag ≠ .operationAttributes)).flatMap groupBytes ++ [0x03]) ∧
      headers.map (·.name) =
        ["attributes-charset", "attributes-natural-language", "printer-uri"].filter
          G.attributes.containsKey ∧
      (∀ a ∈ others,
        a.name ∉ ["attributes-charset", "attributes-natural-language", "printer-uri"]) ∧
      (headers ++ others).Perm G.attributes.values := by
  refine ⟨headerAttrs.filterMap G.attributes.get,
    G.attributes.values.filter fun attr => !isHeaderAttr attr.name, ?_,
    IppAttributeGroup.map_name_filterMap_get hkey _, fun a ha => ?_, operationAttrs_perm hkey⟩
  · rw [toBytes_eq, hG]
    simp only [Option.map_some', Option.getD_some, operationAttrs, List.append_assoc]
    rfl
  · simpa [isHeaderAttr, headerAttrs] using (List.mem_filter.mp ha).2

theorem toBytes_headers_first_printer_uri :
    ((IppAttributes.mk [(IppAttributeGroup.new .operationAttributes).insert
          (IppAttribute.new "printer-uri" (.integer 1))]).groupsOf .operationAttributes).head? =
      some ((IppAttributeGroup.new .operationAttributes).insert
        (IppAttribute.new "printer-uri" (.integer 1))) ∧
    ((IppAttributeGroup.new .operationAttributes).insert
        (IppAttribute.new "printer-uri" (.integer 1))).KeyedByName ∧
    ∃ headers others : List IppAttribute,
      (IppAttributes.mk [(IppAttributeGroup.new .operationAttributes).insert
          (IppAttribute.new "printer-uri" (.integer 1))]).toBytes =
        .ok ([0x01] ++ (headers ++ others).flatMap IppAttribute.encoding ++
          ([(IppAttributeGroup.new .operationAttributes).insert
            (IppAttribute.new "printer-uri" (.integer 1))].filter
              (·.tag ≠ .operationAttributes)).flatMap groupBytes ++ [0x03]) ∧
      headers.map (·.name) =
        ["attributes-charset", "attributes-natural-language", "printer-uri"].filter
          ((IppAttributeGroup.new .operationAttributes).insert
            (IppAttribute.new "printer-uri" (.integer 1))).attributes.containsKey ∧
      (∀ a ∈ others,
        a.name ∉ ["attributes-charset", "attributes-natural-language", "printer-uri"]) ∧
      (headers ++ others).Perm ((IppAttributeGroup.new .operationAttributes).insert
        (IppAttribute.new "printer-uri" (.integer 1))).attributes.values :=
  ⟨rfl, by decide, toBytes_headers_first
    (IppAttributes.mk [(IppAttributeGroup.new .operationAttributes).insert
      (IppAttribute.new "printer-uri" (.integer 1))])
    ((IppAttributeGroup.new .operationAttributes).insert
      (IppAttribute.new "printer-uri" (.integer 1))) rfl (by decide)⟩

/-! ## `to_bytes` after a run of `add` -/

/-- The sections `to_bytes` writes, each a delimiter tag and the attributes
behind it: the operation section first, then every group of another tag. -/
def sections (L : IppAttributes) : List (DelimiterTag × List IppAttribute) :=
  (.operationAttributes, ((L.groupsOf .operationAttributes).head?.map operationAttrs).getD []) ::
    (L.groups.filter (·.tag ≠ .operationAttributes)).map fun g => (g.tag, g.attributes.values)

/-- The bytes of sections: each delimiter and its attributes, then `0x03`. -/
def sectionsBytes (secs : List (DelimiterTag × List IppAttribute)) : Bytes :=
  secs.flatMap (fun sec => [sec.1.toU8] ++ sec.2.flatMap IppAttribute.encoding) ++
    [DelimiterTag.endOfAttributes.toU8]

theorem toBytes_eq_sectionsBytes (L : IppAttributes) :
    L.toBytes = .ok (sectionsBytes L.sections) := by
  rw [toBytes_eq]
  simp [sections, sectionsBytes, List.flatMap_map]
  rfl

theorem map_fst_sections (L : IppAttributes) :
    L.sections.map (·.1) =
      .operationAttributes :: (L.groups.map (·.tag)).filter (· ≠ .operationAttributes) := by
  simp [sections, List.filter_map, Function.comp_def]

theorem filter_name_operationAttrs {G : IppAttributeGroup} (h : G.KeyedByName) (n : String) :
    (operationAttrs G).filter (·.name = n) = (G.attributes.get n).toList := by
  have hperm := (operationAttrs_perm h).filter (fun attr => decide (attr.name = n))
  rw [IppAttributeGroup.filter_name_values h] at hperm
  exact IppAttributeGroup.eq_toList_of_perm hperm

theorem sections_filter_name {L : IppAttributes} (hnd : (L.groups.map (·.tag)).Nodup)
    (hkey : ∀ g ∈ L.groups, g.KeyedByName) (t : DelimiterTag) (n : String) :
    ((L.sections.filter (·.1 = t)).flatMap (·.2)).filter (·.name = n) = (L.find t n).toList := by
  by_cases ht : t = .operationAttributes
  · subst ht
    have hrest : ((L.groups.filter (·.tag ≠ .operationAttributes)).map
        fun g => (g.tag, g.attributes.values)).filter (·.1 = .operationAttributes) = [] :=
      List.filter_eq_nil_iff.mpr fun p hp => by
        obtain ⟨g, hg, rfl⟩ := List.mem_map.mp hp
        simpa using (List.mem_filter.mp hg).2
    rw [sections, List.filter_cons_of_pos (by simp), hrest, find]
    cases hg : (L.groupsOf .operationAttributes).head? with
    | none => rfl
    | some G =>
        have hG := hkey G (List.mem_of_mem_filter (List.mem_of_mem_head? hg))
        simp [filter_name_operationAttrs hG]
  · have hsec : L.sections.filter (·.1 = t) =
        (L.groupsOf t).map fun g => (g.tag, g.attributes.values) := by
      rw [sections, List.filter_cons_of_neg (by simpa using Ne.symm ht), List.filter_map,
        List.filter_filter, groupsOf]
      congr 1
      exact List.filter_congr fun g _ => by by_cases hg : g.tag = t <;> simp [hg, ht]
    rw [hsec, groupsOf_eq_head? hnd, find]
    cases hg : (L.groupsOf t).head? with
    | none => rfl
    | some G =>
        have hG := hkey G (List.mem_of_mem_filter (List.mem_of_mem_head? hg))
        simp [IppAttributeGroup.filter_name_values hG]

theorem toBytes_addAll (adds : List (DelimiterTag × IppAttribute)) :
    (new.addAll adds).toBytes = .ok (sectionsBytes (new.addAll adds).sections) ∧
      (new.addAll adds).sections.map (·.1) = .operationAttributes ::
        (firstOccurrences [] (adds.map Prod.fst)).filter (· ≠ .operationAttributes) ∧
      ∀ t n, (((new.addAll adds).sections.filter (·.1 = t)).flatMap (·.2)).filter (·.name = n) =
        ((adds.filter fun op => op.1 = t ∧ op.2.name = n).getLast?.map Prod.snd).toList := by
  have htags := tags_addAll new adds
  refine ⟨toBytes_eq_sectionsBytes _, by rw [map_fst_sections, htags]; rfl, fun t n => ?_⟩
  rw [sections_filter_name (htags ▸ nodup_firstOccurrences List.nodup_nil _)
    (keyedByName_addAll (by simp [new]) adds), find_addAll, show new.find t n = none from rfl,
    Option.or_none]

/-! ## Reading an attribute list back -/

/-- What a reader of an attribute list meets: a delimiter byte or a record. -/
inductive Item where
  | delimiter (tag : UInt8)
  | record (r : WireRecord)

namespace Item

def encode : Item → Bytes
  | delimiter tag => [tag]
  | record r => r.encode

/-- An item the reader takes back: a delimiter below `0x10`, or a record whose
lengths fit and whose tag is `0x10` or more. -/
def Readable : Item → Prop
  | delimiter tag => tag < 0x10
  | record r => r.Fits ∧ 0x10 ≤ r.tag

end Item

/-- Reads an attribute list item by item, at most `fuel` items: a byte below
`0x10` is a delimiter, as RFC 8010 assigns them, and any other byte starts a
record. -/
def readItems : Nat → Bytes → Option (List Item)
  | _, [] => some []
  | 0, _ :: _ => none
  | fuel + 1, b :: rest =>
      if b < 0x10 then (readItems fuel rest).map (.delimiter b :: ·)
      else do
        let (r, rest) ← WireRecord.read (b :: rest)
        let items ← readItems fuel rest
        pure (.record r :: items)

theorem readItems_flatMap {items : List Item} (h : ∀ i ∈ items, i.Readable) {fuel : Nat}
    (hf : items.length ≤ fuel) : readItems fuel (items.flatMap Item.encode) = some items := by
  induction items generalizing fuel with
  | nil => cases fuel <;> rfl
  | cons i is ih =>
      obtain ⟨fuel, rfl⟩ : ∃ f, fuel = f + 1 := ⟨fuel - 1, by simp at hf; omega⟩
      have his := ih (fun j hj => h j (List.mem_cons_of_mem i hj)) (by simpa using hf)
      have hi := h i (List.mem_cons_self i is)
      cases i with
      | delimiter tag =>
          show readItems (fuel + 1) (tag :: is.flatMap Item.encode) = _
          rw [readItems, if_pos (show tag < 0x10 from hi), his]
          rfl
      | record r =>
          have hr := WireRecord.read_encode hi.1 (is.flatMap Item.encode)
          obtain ⟨b, bs, hb⟩ : ∃ b bs, r.encode ++ is.flatMap Item.encode = b :: bs :=
            ⟨r.tag, _, rfl⟩
          have htag : b = r.tag := (List.cons.inj (hb.symm.trans rfl)).1
          rw [List.flatMap_cons, show Item.encode (.record r) = r.encode from rfl, hb, readItems,
            if_neg (by rw [htag]; exact Nat.not_lt.mpr hi.2), ← hb, hr]
          simp [his]

/-- The items `to_bytes` writes for its sections: each delimiter, the records
of each attribute behind it, and `0x03`. -/
def sectionsItems (secs : List (DelimiterTag × List IppAttribute)) : List Item :=
  secs.flatMap (fun sec =>
    .delimiter sec.1.toU8 :: (sec.2.flatMap IppAttribute.records).map .record) ++
    [.delimiter DelimiterTag.endOfAttributes.toU8]

theorem sectionsBytes_eq {secs : List (DelimiterTag × List IppAttribute)}
    (h : ∀ sec ∈ secs, ∀ a ∈ sec.2, a.value.framable = true) :
    sectionsBytes secs = (sectionsItems secs).flatMap Item.encode := by
  have hattrs : ∀ attrs : List IppAttribute, (∀ a ∈ attrs, a.value.framable = true) →
      attrs.flatMap IppAttribute.encoding =
        ((attrs.flatMap IppAttribute.records).map Item.record).flatMap Item.encode := by
    intro attrs ha
    induction attrs with
    | nil => rfl
    | cons a as ih =>
        rw [List.flatMap_cons, ih (fun b hb => ha b (List.mem_cons_of_mem a hb)),
          IppAttribute.encoding_eq, headBytes_of_framable a.value (ha a (List.mem_cons_self a as))]
        simp [IppAttribute.records, List.flatMap_map, Item.encode]
  simp only [sectionsBytes, sectionsItems, List.flatMap_append, List.flatMap_assoc,
    List.flatMap_cons, List.flatMap_nil, List.append_nil]
  congr 1
  refine List.flatMap_congr fun sec hsec => ?_
  rw [hattrs sec.2 (h sec hsec)]
  rfl

theorem mem_sections {L : IppAttributes} {sec : DelimiterTag × List IppAttribute}
    (hsec : sec ∈ L.sections) {a : IppAttribute} (ha : a ∈ sec.2) :
    ∃ g ∈ L.groups, a ∈ g.attributes.values := by
  simp only [sections, List.mem_cons, List.mem_map] at hsec
  rcases hsec with rfl | ⟨g, hg, rfl⟩
  · cases hG : (L.groupsOf .operationAttributes).head? with
    | none => simp [hG] at ha
    | some G =>
        refine ⟨G, List.mem_of_mem_filter (List.mem_of_mem_head? hG), ?_⟩
        simp only [hG, Option.map_some', Option.getD_some, operationAttrs, List.mem_append,
          List.mem_filterMap, List.mem_filter] at ha
        rcases ha with ⟨n, -, hn⟩ | ⟨ha, -⟩
        · exact List.mem_map.mpr ⟨(n, a), (HashMap.get_eq_some_iff _ _ _).mp hn, rfl⟩
        · exact ha
  · exact ⟨g, List.mem_of_mem_filter hg, ha⟩

theorem readItems_toBytes (L : IppAttributes)
    (h : ∀ g ∈ L.groups, ∀ a ∈ g.attributes.values,
      len a.name < 0x10000 ∧ a.value.framable = true ∧ a.value.valueTagged = true) :
    ∃ bytes, L.toBytes = .ok bytes ∧
      readItems bytes.length bytes = some (sectionsItems L.sections) := by
  have hwritten : ∀ sec ∈ L.sections, ∀ a ∈ sec.2,
      len a.name < 0x10000 ∧ a.value.framable = true ∧ a.value.valueTagged = true :=
    fun sec hsec a ha => by
      obtain ⟨g, hg, hag⟩ := mem_sections hsec ha
      exact h g hg a hag
  have hreadable : ∀ i ∈ sectionsItems L.sections, i.Readable := by
    simp only [sectionsItems, List.mem_append, List.mem_flatMap, List.mem_cons, List.mem_map,
      List.not_mem_nil, or_false]
    rintro i (⟨sec, hsec, rfl | ⟨r, ⟨a, ha, hr⟩, rfl⟩⟩ | rfl)
    · show sec.1.toU8 < 0x10
      cases sec.1 <;> decide
    · obtain ⟨hn, hf, ht⟩ := hwritten sec hsec a ha
      refine ⟨recordsFit_of_framable a.value hf _ _ (by simpa using hn) r hr, ?_⟩
      rcases recordsTagged_of_valueTagged a.value ht _ _ r hr with h' | h'
      · exact h' ▸ a.value.le_toTag ht
      · exact h'
    · show DelimiterTag.endOfAttributes.toU8 < 0x10
      decide
  refine ⟨sectionsBytes L.sections, toBytes_eq_sectionsBytes L, ?_⟩
  rw [sectionsBytes_eq fun sec hsec a ha => (hwritten sec hsec a ha).2.1]
  exact readItems_flatMap hreadable
    (length_le_length_flatMap (fun i => by cases i <;> exact List.cons_ne_nil _ _) _)

theorem readItems_toBytes_job_group :
    (∀ g ∈ [(IppAttributeGroup.new .operationAttributes).insert
          (IppAttribute.new "copies" (.integer 1)),
        (IppAttributeGroup.new .jobAttributes).insert
          (IppAttribute.new "sides" (.array [.keyword ⟨"one-sided", by decide⟩]))],
      ∀ a ∈ g.attributes.values,
        len a.name < 0x10000 ∧ a.value.framable = true ∧ a.value.valueTagged = true) ∧
    ∃ bytes, (IppAttributes.mk [(IppAttributeGroup.new .operationAttributes).insert
          (IppAttribute.new "copies" (.integer 1)),
        (IppAttributeGroup.new .jobAttributes).insert
          (IppAttribute.new "sides" (.array [.keyword ⟨"one-sided", by decide⟩]))]).toBytes =
        .ok bytes ∧
      readItems bytes.length bytes = some (sectionsItems (IppAttributes.mk
        [(IppAttributeGroup.new .operationAttributes).insert
          (IppAttribute.new "copies" (.integer 1)),
        (IppAttributeGroup.new .jobAttributes).insert
          (IppAttribute.new "sides" (.array [.keyword ⟨"one-sided", by decide⟩]))]).sections) :=
  ⟨by decide, readItems_toBytes (IppAttributes.mk [(IppAttributeGroup.new .operationAttributes).insert
      (IppAttribute.new "copies" (.integer 1)),
    (IppAttributeGroup.new .jobAttributes).insert
      (IppAttribute.new "sides" (.array [.keyword ⟨"one-sided", by decide⟩]))]) (by decide)⟩

end IppAttributes

end Ipp
