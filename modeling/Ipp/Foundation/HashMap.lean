import Mathlib.Data.List.Nodup

/-!
# `std::collections::HashMap`

A map is its list of entries, keys pairwise distinct.  The list order stands
for one iteration order, which Rust leaves unspecified: a theorem about
`values` holds for every map, hence for every order.  `insert` replaces the
value of a key already present where it stands and otherwise adds the entry at
the end; nothing proved below depends on where.
-/

namespace Ipp

structure HashMap (K V : Type) [DecidableEq K] where
  entries : List (K × V)
  nodup : (entries.map Prod.fst).Nodup

namespace HashMap

variable {K V : Type} [DecidableEq K]

/-- `HashMap::new`. -/
def empty : HashMap K V := ⟨[], List.nodup_nil⟩

/-- `HashMap::get`. -/
def get (m : HashMap K V) (k : K) : Option V := (m.entries.find? (·.1 = k)).map Prod.snd

/-- `HashMap::contains_key`. -/
def containsKey (m : HashMap K V) (k : K) : Bool := m.entries.any (·.1 = k)

/-- `HashMap::values`, in the order of `entries`. -/
def values (m : HashMap K V) : List V := m.entries.map Prod.snd

private theorem nodup_replace (m : HashMap K V) (k : K) (v : V) :
    ((m.entries.map fun e => if e.1 = k then (k, v) else e).map Prod.fst).Nodup := by
  rw [List.map_map]
  convert m.nodup using 1
  exact List.map_congr_left fun e _ => by by_cases h : e.1 = k <;> simp [h]

private theorem nodup_push (m : HashMap K V) {k : K} (v : V) (h : ¬m.containsKey k = true) :
    ((m.entries ++ [(k, v)]).map Prod.fst).Nodup := by
  simp only [containsKey, List.any_eq_true, decide_eq_true_eq, not_exists, not_and] at h
  simpa [List.nodup_append, m.nodup] using fun w hw => h _ hw rfl

/-- `HashMap::insert`; the previous value it returns is not modelled, as the
callers drop it. -/
def insert (m : HashMap K V) (k : K) (v : V) : HashMap K V :=
  if h : m.containsKey k = true then
    ⟨m.entries.map fun e => if e.1 = k then (k, v) else e, nodup_replace m k v⟩
  else ⟨m.entries ++ [(k, v)], nodup_push m v h⟩

@[simp] theorem get_empty (k : K) : (empty : HashMap K V).get k = none := rfl

theorem containsKey_iff (m : HashMap K V) (k : K) :
    m.containsKey k = true ↔ ∃ v, (k, v) ∈ m.entries := by
  simp only [containsKey, List.any_eq_true, decide_eq_true_eq]
  exact ⟨fun ⟨e, he, hk⟩ => ⟨e.2, hk ▸ he⟩, fun ⟨v, hv⟩ => ⟨_, hv, rfl⟩⟩

theorem get_eq_some_iff (m : HashMap K V) (k : K) (v : V) :
    m.get k = some v ↔ (k, v) ∈ m.entries := by
  constructor
  · simp only [get, Option.map_eq_some']
    rintro ⟨e, he, rfl⟩
    have hk : e.1 = k := by simpa using List.find?_some he
    exact hk ▸ List.mem_of_find?_eq_some he
  · intro hkv
    cases he : m.entries.find? (·.1 = k) with
    | none => exact absurd hkv (by simpa using List.find?_eq_none.mp he (k, v))
    | some e =>
        have hk : e.1 = k := by simpa using List.find?_some he
        obtain rfl := List.inj_on_of_nodup_map m.nodup (List.mem_of_find?_eq_some he) hkv hk
        simp [get, he]

theorem get_eq_none_iff (m : HashMap K V) (k : K) :
    m.get k = none ↔ m.containsKey k = false := by
  simp [get, containsKey, List.find?_eq_none]

theorem mem_entries_insert {m : HashMap K V} {k : K} {v : V} {e : K × V}
    (he : e ∈ (m.insert k v).entries) : e = (k, v) ∨ e ∈ m.entries := by
  unfold insert at he
  split at he
  · obtain ⟨e', he', rfl⟩ := List.mem_map.mp he
    by_cases h : e'.1 = k <;> simp [h, he']
  · simpa [or_comm] using he

theorem get_insert (m : HashMap K V) (k k' : K) (v : V) :
    (m.insert k v).get k' = if k = k' then some v else m.get k' := by
  split_ifs with hk
  · subst hk
    rw [get_eq_some_iff]
    unfold insert
    split
    · obtain ⟨w, hw⟩ := (containsKey_iff m k).mp ‹_›
      exact List.mem_map.mpr ⟨(k, w), hw, by simp⟩
    · simp
  · cases h : m.get k' with
    | none =>
        rw [get_eq_none_iff] at h ⊢
        simp only [containsKey, List.any_eq_false, decide_eq_true_eq] at h ⊢
        intro e he hek
        rcases mem_entries_insert he with rfl | he
        · exact hk hek
        · exact h e he hek
    | some w =>
        rw [get_eq_some_iff] at h ⊢
        unfold insert
        split
        · exact List.mem_map.mpr ⟨(k', w), h, by simp [Ne.symm hk]⟩
        · simp [h]

end HashMap

end Ipp
