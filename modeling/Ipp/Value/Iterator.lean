import Ipp.Value.Codec

/-!
# Iterating over a value

`&IppValue` is `IntoIterator`: an array yields its elements, a collection the
values of its members in the order of the map, which is ascending key order,
and every other value yields itself.  `IppValueIterator` holds the value and
an index counting the items yielded so far.

`next_fst` and `next_snd` say once what a call of `next` does; the run lemmas
`calls_mk` and `advance_mk` follow from them by induction on the number of
calls.  From a fresh iterator, the calls return the members in order and then
`None` for ever (`intoIter_calls`), and the index never passes the number of
members, so `self.index += 1` cannot overflow (`intoIter_advance`).
-/

namespace Ipp

namespace IppValue

/-- What iterating `&v` yields: the elements of an array, the member values of
a collection in key order, and the value itself for every other variant. -/
def members : IppValue → List IppValue
  | array list => list
  | collection list => list.map Prod.snd
  | v => [v]

end IppValue

/-- `IppValueIterator`. -/
structure IppValueIterator where
  value : IppValue
  index : Nat

/-- `IntoIterator for &IppValue`. -/
def IppValue.intoIter (v : IppValue) : IppValueIterator := ⟨v, 0⟩

namespace IppValueIterator

/-- `Iterator::next`: the item, and the iterator after the call.  For an array,
`array[self.index - 1]` after the increment is the element at the old index;
for a collection, `map.iter().nth(self.index)` is the entry at the index. -/
def next (self : IppValueIterator) : Option IppValue × IppValueIterator :=
  match self.value with
  | .array array =>
      if h : self.index < array.length then
        (some (array.get ⟨self.index, h⟩), { self with index := self.index + 1 })
      else (none, self)
  | .collection map =>
      match map[self.index]? with
      | some entry => (some entry.2, { self with index := self.index + 1 })
      | none => (none, self)
  | _ =>
      if self.index = 0 then (some self.value, { self with index := self.index + 1 })
      else (none, self)

/-- The items that `n` calls of `next` return, in order. -/
def calls (self : IppValueIterator) : Nat → List (Option IppValue)
  | 0 => []
  | n + 1 => self.next.1 :: self.next.2.calls n

/-- The iterator after `n` calls of `next`. -/
def advance (self : IppValueIterator) : Nat → IppValueIterator
  | 0 => self
  | n + 1 => self.next.2.advance n

/-! ## One call -/

theorem next_fst (self : IppValueIterator) : self.next.1 = self.value.members[self.index]? := by
  obtain ⟨value, index⟩ := self
  cases value
  case array array =>
    by_cases h : index < array.length <;> simp [next, IppValue.members, h]
    omega
  case collection map =>
    simp only [next, IppValue.members, List.getElem?_map]
    cases map[index]? <;> rfl
  all_goals cases index <;> rfl

theorem next_snd (self : IppValueIterator) :
    self.next.2 =
      if self.index < self.value.members.length then ⟨self.value, self.index + 1⟩ else self := by
  obtain ⟨value, index⟩ := self
  cases value
  case array array =>
    by_cases h : index < array.length <;> simp [next, IppValue.members, h]
  case collection map =>
    simp only [next, IppValue.members, List.length_map]
    by_cases h : index < map.length
    · simp [List.getElem?_eq_getElem h, h]
    · simp [List.getElem?_eq_none (Nat.le_of_not_lt h), h]
  all_goals cases index <;> rfl

/-! ## Runs -/

theorem calls_mk (v : IppValue) (i n : Nat) :
    (IppValueIterator.mk v i).calls n =
      ((v.members.drop i).take n).map some ++
        List.replicate (n - (v.members.length - i)) none := by
  induction n generalizing i with
  | zero => simp [calls]
  | succ n ih =>
      rw [calls, next_fst, next_snd]
      by_cases h : i < v.members.length
      · simp only [if_pos h, ih, List.getElem?_eq_getElem h, List.drop_eq_getElem_cons h,
          List.take_succ_cons, List.map_cons, List.cons_append]
        congr 3
        omega
      · have hdrop : v.members.drop i = [] := List.drop_eq_nil_of_le (by omega)
        have hspent : v.members.length - i = 0 := by omega
        simp only [if_neg h, ih, List.getElem?_eq_none (Nat.le_of_not_lt h), hdrop, hspent,
          List.take_nil, List.map_nil, List.nil_append, Nat.sub_zero, List.replicate_succ]

theorem intoIter_calls (v : IppValue) (n : Nat) :
    v.intoIter.calls n =
      (v.members.take n).map some ++ List.replicate (n - v.members.length) none := by
  simpa using calls_mk v 0 n

theorem advance_mk (v : IppValue) {i : Nat} (h : i ≤ v.members.length) (n : Nat) :
    (IppValueIterator.mk v i).advance n = ⟨v, min (i + n) v.members.length⟩ := by
  induction n generalizing i with
  | zero => simp [advance, Nat.min_eq_left h]
  | succ n ih =>
      rw [advance, next_snd]
      by_cases hi : i < v.members.length
      · rw [if_pos hi, ih hi]
        congr 2
        omega
      · rw [if_neg hi, ih h]
        congr 1
        omega

theorem intoIter_advance (v : IppValue) (n : Nat) :
    v.intoIter.advance n = ⟨v, min n v.members.length⟩ := by
  simpa using advance_mk v (Nat.zero_le _) n

end IppValueIterator

end Ipp
