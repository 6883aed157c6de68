import Ipp.Attribute.Records
import Ipp.Foundation.HashMap

/-!
# Attribute groups and `IppAttributes::add`

An attribute list is a vector of groups, each a delimiter tag and a map from
names to attributes.  `add` inserts into the first group of the tag, or
appends a new group when there is none.  One step is `add_cases`; over any
sequence of `add` calls from `IppAttributes::new` the tags stay distinct, in
the order of their first `add`, every key names its attribute, and each key
holds the last attribute added under it.
-/

namespace Ipp

structure IppAttributeGroup where
  tag : DelimiterTag
  attributes : HashMap String IppAttribute

namespace IppAttributeGroup

/-- `IppAttributeGroup::new`. -/
def new (tag : DelimiterTag) : IppAttributeGroup := ⟨tag, HashMap.empty⟩

/-- `group.attributes_mut().insert(attr.name().to_owned(), attr)`. -/
def insert (group : IppAttributeGroup) (attr : IppAttribute) : IppAttributeGroup :=
  { group with attributes := group.attributes.insert attr.name attr }

/-- Every key of the map is the name of the attribute stored under it. -/
def KeyedByName (group : IppAttributeGroup) : Prop :=
  ∀ e ∈ group.attributes.entries, e.2.name = e.1

instance : DecidablePred KeyedByName := fun group =>
  inferInstanceAs (Decidable (∀ e ∈ group.attributes.entries, e.2.name = e.1))

@[simp] theorem new_tag (tag : DelimiterTag) : (new tag).tag = tag := rfl

@[simp] theorem new_attributes (tag : DelimiterTag) : (new tag).attributes = HashMap.empty := rfl

@[simp] theorem insert_tag (group : IppAttributeGroup) (attr : IppAttribute) :
    (group.insert attr).tag = group.tag := rfl

theorem get_insert (group : IppAttributeGroup) (attr : IppAttribute) (n : String) :
    (group.insert attr).attributes.get n =
      if attr.name = n then some attr else group.attributes.get n :=
  HashMap.get_insert _ _ _ _

theorem keyedByName_insert {group : IppAttributeGroup} (h : group.KeyedByName)
    (attr : IppAttribute) : (group.insert attr).KeyedByName := by
  intro e he
  rcases HashMap.mem_entries_insert he with rfl | he
  · rfl
  · exact h e he

theorem keyedByName_new (tag : DelimiterTag) : (new tag).KeyedByName := nofun

theorem eq_toList_of_perm {α : Type} {l : List α} {o : Option α} (h : l.Perm o.toList) :
    l = o.toList := by
  cases o with
  | none => exact List.perm_nil.mp h
  | some a => exact List.perm_singleton.mp h

section KeyedByName

variable {group : IppAttributeGroup} (h : group.KeyedByName)
include h

theorem name_of_get {n : String} {attr : IppAttribute} (hg : group.attributes.get n = some attr) :
    attr.name = n :=
  h (n, attr) ((HashMap.get_eq_some_iff _ _ _).mp hg)

theorem nodup_values : group.attributes.values.Nodup := by
  apply List.Nodup.of_map (·.name)
  rw [HashMap.values, List.map_map]
  convert group.attributes.nodup using 1
  exact List.map_congr_left fun e he => h e he

theorem mem_values_iff {attr : IppAttribute} :
    attr ∈ group.attributes.values ↔ group.attributes.get attr.name = some attr := by
  rw [HashMap.get_eq_some_iff]
  constructor
  · intro ha
    obtain ⟨e, he, rfl⟩ := List.mem_map.mp ha
    rwa [h e he]
  · exact fun ha => List.mem_map.mpr ⟨_, ha, rfl⟩

theorem filter_name_values (n : String) :
    group.attributes.values.filter (·.name = n) = (group.attributes.get n).toList := by
  refine eq_toList_of_perm ((List.perm_ext_iff_of_nodup ((nodup_values h).filter _)
    (by cases group.attributes.get n <;> simp)).mpr fun attr => ?_)
  rw [List.mem_filter, mem_values_iff h, decide_eq_true_eq, Option.mem_toList, Option.mem_def]
  exact ⟨fun ⟨hg, hn⟩ => hn ▸ hg, fun hg => ⟨name_of_get h hg ▸ hg, name_of_get h hg⟩⟩

theorem map_name_filterMap_get (names : List String) :
    (names.filterMap group.attributes.get).map (·.name) =
      names.filter group.attributes.containsKey := by
  induction names with
  | nil => rfl
  | cons n ns ih =>
      cases hg : group.attributes.get n with
      | none =>
          have hc := (HashMap.get_eq_none_iff _ _).mp hg
          simp [List.filterMap_cons, hg, hc, ih]
      | some attr =>
          have hc : group.attributes.containsKey n = true :=
            (HashMap.containsKey_iff _ _).mpr ⟨attr, (HashMap.get_eq_some_iff _ _ _).mp hg⟩
          simp [List.filterMap_cons, hg, hc, ih, name_of_get h hg]

theorem mem_filterMap_get_iff (names : List String) {attr : IppAttribute} :
    attr ∈ names.filterMap group.attributes.get ↔
      attr ∈ group.attributes.values ∧ attr.name ∈ names := by
  rw [List.mem_filterMap, mem_values_iff h]
  constructor
  · rintro ⟨n, hn, hg⟩
    obtain rfl := name_of_get h hg
    exact ⟨hg, hn⟩
  · rintro ⟨hg, hn⟩
    exact ⟨attr.name, hn, hg⟩

end KeyedByName

end IppAttributeGroup

structure IppAttributes where
  groups : List IppAttributeGroup

namespace IppAttributes

/-- `IppAttributes::new`. -/
def new : IppAttributes := ⟨[]⟩

/-- `IppAttributes::groups_of`. -/
def groupsOf (self : IppAttributes) (tag : DelimiterTag) : List IppAttributeGroup :=
  self.groups.filter (·.tag = tag)

/-- `iter_mut().find(|g| g.tag() == tag)` and the insert into the group it
finds; `none` when it finds none. -/
def insertIntoFirst (tag : DelimiterTag) (attr : IppAttribute) :
    List IppAttributeGroup → Option (List IppAttributeGroup)
  | [] => none
  | g :: gs =>
      if g.tag = tag then some (g.insert attr :: gs)
      else (insertIntoFirst tag attr gs).map (g :: ·)

/-- `IppAttributes::add`. -/
def add (self : IppAttributes) (tag : DelimiterTag) (attr : IppAttribute) : IppAttributes :=
  match insertIntoFirst tag attr self.groups with
  | some groups => ⟨groups⟩
  | none => ⟨self.groups ++ [(IppAttributeGroup.new tag).insert attr]⟩

/-! ## One `add` -/

theorem insertIntoFirst_eq_none {tag : DelimiterTag} {attr : IppAttribute}
    {gs : List IppAttributeGroup} :
    insertIntoFirst tag attr gs = none ↔ ∀ g ∈ gs, g.tag ≠ tag := by
  induction gs with
  | nil => simp [insertIntoFirst]
  | cons g gs ih => by_cases h : g.tag = tag <;> simp [insertIntoFirst, h, ih]

theorem insertIntoFirst_eq_some {tag : DelimiterTag} {attr : IppAttribute}
    {gs gs' : List IppAttributeGroup} (h : insertIntoFirst tag attr gs = some gs') :
    ∃ pre g post, gs = pre ++ g :: post ∧ (∀ h ∈ pre, h.tag ≠ tag) ∧ g.tag = tag ∧
      gs' = pre ++ g.insert attr :: post := by
  induction gs generalizing gs' with
  | nil => simp [insertIntoFirst] at h
  | cons g gs ih =>
      by_cases hg : g.tag = tag
      · simp only [insertIntoFirst, hg, if_true, Option.some.injEq] at h
        exact ⟨[], g, gs, rfl, by simp, hg, h.symm⟩
      · simp only [insertIntoFirst, hg, if_false, Option.map_eq_some'] at h
        obtain ⟨_, h', rfl⟩ := h
        obtain ⟨pre, g', post, rfl, hpre, hg', rfl⟩ := ih h'
        exact ⟨g :: pre, g', post, rfl, List.forall_mem_cons.mpr ⟨hg, hpre⟩, hg', rfl⟩

theorem add_cases (L : IppAttributes) (t : DelimiterTag) (a : IppAttribute) :
    (∃ pre g post, L.groups = pre ++ g :: post ∧ (∀ h ∈ pre, h.tag ≠ t) ∧ g.tag = t ∧
      (L.add t a).groups = pre ++ g.insert a :: post) ∨
    ((∀ g ∈ L.groups, g.tag ≠ t) ∧
      (L.add t a).groups = L.groups ++ [(IppAttributeGroup.new t).insert a]) := by
  unfold add
  cases h : insertIntoFirst t a L.groups with
  | none => exact .inr ⟨insertIntoFirst_eq_none.mp h, rfl⟩
  | some gs => exact .inl (insertIntoFirst_eq_some h)

theorem tags_add (L : IppAttributes) (t : DelimiterTag) (a : IppAttribute) :
    (L.add t a).groups.map (·.tag) =
      if t ∈ L.groups.map (·.tag) then L.groups.map (·.tag) else L.groups.map (·.tag) ++ [t] := by
  rcases add_cases L t a with ⟨pre, g, post, hL, -, rfl, hadd⟩ | ⟨hnone, hadd⟩
  · simp [hadd, hL]
  · have ht : t ∉ L.groups.map (·.tag) := by simpa using hnone
    rw [if_neg ht, hadd]
    simp

theorem keyedByName_add {L : IppAttributes} (h : ∀ g ∈ L.groups, g.KeyedByName)
    (t : DelimiterTag) (a : IppAttribute) : ∀ g ∈ (L.add t a).groups, g.KeyedByName := by
  rcases add_cases L t a with ⟨pre, g, post, hL, -, -, hadd⟩ | ⟨-, hadd⟩
  · simp only [hL, List.mem_append, List.mem_cons] at h
    simp only [hadd, List.mem_append, List.mem_cons]
    rintro g' (hg' | rfl | hg')
    · exact h g' (.inl hg')
    · exact IppAttributeGroup.keyedByName_insert (h _ (.inr (.inl rfl))) a
    · exact h g' (.inr (.inr hg'))
  · simp only [hadd, List.mem_append, List.mem_singleton]
    rintro g' (hg' | rfl)
    · exact h g' hg'
    · exact IppAttributeGroup.keyedByName_insert (IppAttributeGroup.keyedByName_new t) a

/-- The attribute stored under tag `t` and name `n`: the one the first group
of tag `t` holds under `n`. -/
def find (self : IppAttributes) (t : DelimiterTag) (n : String) : Option IppAttribute :=
  (self.groupsOf t).head?.bind (·.attributes.get n)

theorem find_add (L : IppAttributes) (t t' : DelimiterTag) (a : IppAttribute) (n : String) :
    (L.add t a).find t' n = if t = t' ∧ a.name = n then some a else L.find t' n := by
  rcases add_cases L t a with ⟨pre, g, post, hL, hpre, rfl, hadd⟩ | ⟨hnone, hadd⟩
  · have hpre' : pre.filter (·.tag = g.tag) = [] := List.filter_eq_nil_iff.mpr (by simpa using hpre)
    by_cases ht : t' = g.tag
    · subst ht
      simp [find, groupsOf, hadd, hL, hpre', IppAttributeGroup.get_insert]
    · simp [find, groupsOf, hadd, hL, ht, Ne.symm ht]
  · by_cases ht : t' = t
    · subst ht
      have hnil : L.groups.filter (·.tag = t') = [] :=
        List.filter_eq_nil_iff.mpr (by simpa using hnone)
      simp [find, groupsOf, hadd, hnil, IppAttributeGroup.get_insert]
    · simp [find, groupsOf, hadd, ht, Ne.symm ht]

theorem groupsOf_eq_head? {L : IppAttributes} (h : (L.groups.map (·.tag)).Nodup)
    (t : DelimiterTag) : L.groupsOf t = (L.groupsOf t).head?.toList := by
  have htags : (L.groupsOf t).map (·.tag) = List.replicate (L.groupsOf t).length t :=
    List.eq_replicate_iff.mpr ⟨List.length_map _ _, fun b hb => by
      obtain ⟨g, hg, rfl⟩ := List.mem_map.mp hb
      simpa using (List.mem_filter.mp hg).2⟩
  have hlen : (L.groupsOf t).length ≤ 1 := by
    have hnd : ((L.groupsOf t).map (·.tag)).Nodup :=
      h.sublist ((List.filter_sublist L.groups).map (·.tag))
    rwa [htags, List.nodup_replicate] at hnd
  match hg : L.groupsOf t, hlen with
  | [], _ | [_], _ => rfl
  | _ :: _ :: _, hlen => simp [hg] at hlen

/-! ## Runs of `add` -/

/-- `add` applied to each `(tag, attribute)` of `adds` in turn. -/
def addAll (self : IppAttributes) (adds : List (DelimiterTag × IppAttribute)) : IppAttributes :=
  adds.foldl (fun L op => L.add op.1 op.2) self

/-- The tags `seen`, then those of `ts` not among them, in the order of their
first occurrence. -/
def firstOccurrences (seen : List DelimiterTag) : List DelimiterTag → List DelimiterTag
  | [] => seen
  | t :: ts => firstOccurrences (if t ∈ seen then seen else seen ++ [t]) ts

theorem nodup_firstOccurrences {seen : List DelimiterTag} (h : seen.Nodup)
    (ts : List DelimiterTag) : (firstOccurrences seen ts).Nodup := by
  induction ts generalizing seen with
  | nil => exact h
  | cons t ts ih =>
      apply ih
      split_ifs with ht
      · exact h
      · exact h.append (List.nodup_singleton t) (List.disjoint_singleton.mpr ht)

theorem addAll_cons (L : IppAttributes) (op : DelimiterTag × IppAttribute)
    (adds : List (DelimiterTag × IppAttribute)) :
    L.addAll (op :: adds) = (L.add op.1 op.2).addAll adds := rfl

theorem tags_addAll (L : IppAttributes) (adds : List (DelimiterTag × IppAttribute)) :
    (L.addAll adds).groups.map (·.tag) =
      firstOccurrences (L.groups.map (·.tag)) (adds.map Prod.fst) := by
  induction adds generalizing L with
  | nil => rfl
  | cons op adds ih => rw [addAll_cons, ih, tags_add]; rfl

theorem keyedByName_addAll {L : IppAttributes} (h : ∀ g ∈ L.groups, g.KeyedByName)
    (adds : List (DelimiterTag × IppAttribute)) :
    ∀ g ∈ (L.addAll adds).groups, g.KeyedByName := by
  induction adds generalizing L with
  | nil => exact h
  | cons op adds ih => exact ih (keyedByName_add h op.1 op.2)

theorem find_addAll (L : IppAttributes) (adds : List (DelimiterTag × IppAttribute))
    (t : DelimiterTag) (n : String) :
    (L.addAll adds).find t n =
      ((adds.filter fun op => op.1 = t ∧ op.2.name = n).getLast?.map Prod.snd).or (L.find t n) := by
  induction adds generalizing L with
  | nil => simp [addAll]
  | cons op adds ih =>
      rw [addAll_cons, ih, find_add]
      by_cases hop : op.1 = t ∧ op.2.name = n
      · rw [if_pos hop, List.filter_cons_of_pos (by simpa using hop), List.getLast?_cons]
        cases (adds.filter fun op => op.1 = t ∧ op.2.name = n).getLast? <;> rfl
      · rw [if_neg hop, List.filter_cons_of_neg (by simpa using hop)]

theorem add_upsert :
    (∀ (L : IppAttributes) (t : DelimiterTag) (a : IppAttribute),
      (∃ pre g post, L.groups = pre ++ g :: post ∧ (∀ h ∈ pre, h.tag ≠ t) ∧ g.tag = t ∧
        (L.add t a).groups = pre ++ g.insert a :: post) ∨
      ((∀ g ∈ L.groups, g.tag ≠ t) ∧
        (L.add t a).groups = L.groups ++ [(IppAttributeGroup.new t).insert a])) ∧
    ∀ adds : List (DelimiterTag × IppAttribute),
      ((new.addAll adds).groups.map (·.tag)).Nodup ∧
      (new.addAll adds).groups.map (·.tag) = firstOccurrences [] (adds.map Prod.fst) ∧
      (∀ g ∈ (new.addAll adds).groups, g.KeyedByName) ∧
      ∀ t n, (new.addAll adds).find t n =
        (adds.filter fun op => op.1 = t ∧ op.2.name = n).getLast?.map Prod.snd :=
  ⟨add_cases, fun adds =>
    ⟨tags_addAll new adds ▸ nodup_firstOccurrences List.nodup_nil _, tags_addAll new adds,
      keyedByName_addAll (by simp [new]) adds,
      fun t n => by rw [find_addAll]; exact Option.or_none⟩⟩

end IppAttributes

end Ipp
