import Mathlib.Data.Finmap
import Mathlib.Data.Finset.Card

/-!
# Hash maps built from lists

`collect` inserts the pairs of a list from left to right: of several values for a key
the last one stays. The values of a map come in no particular order (`IsValues`).

* `lookup_collect`: what is in the map.
* `IsValues.perm`: of a list with distinct keys the map keeps every value.
-/

namespace Foundation.HashMap

variable {κ β γ : Type} [DecidableEq κ]

/-- A map with one value for each key. -/
abbrev Map (κ β : Type) := Finmap fun _ : κ => β

/-- `iter().collect()` into a map. -/
def collect (entries : List (κ × β)) : Map κ β :=
  entries.foldl (fun map entry => map.insert entry.1 entry.2) ∅

/-- The list holds the values of the map, in any order. -/
def IsValues (map : Map κ β) (values : List β) : Prop :=
  (values : Multiset β) = map.entries.map Sigma.snd

variable {entries : List (κ × β)} {map : Map κ β} {k : κ} {v : β}

theorem collect_concat (entries : List (κ × β)) (entry : κ × β) :
    collect (entries ++ [entry]) = (collect entries).insert entry.1 entry.2 := by
  rw [collect, List.foldl_append]
  rfl

/-- The last value for a key is the one in the map. -/
theorem lookup_collect (entries : List (κ × β)) (k : κ) :
    (collect entries).lookup k =
      (entries.reverse.find? fun entry => decide (entry.1 = k)).map Prod.snd := by
  induction entries using List.reverseRecOn with
  | nil => rfl
  | append_singleton entries entry ih =>
    rw [collect_concat, List.reverse_concat, List.find?_cons]
    by_cases hk : entry.1 = k
    · subst hk
      simp
    · rw [Finmap.lookup_insert_of_ne _ (Ne.symm hk), ih]
      simp [hk]

/-- Mapping the values before or after building the map. -/
theorem lookup_collect_map (f : β → γ) (entries : List (κ × β)) (k : κ) :
    (collect (entries.map fun entry => (entry.1, f entry.2))).lookup k =
      ((collect entries).lookup k).map f := by
  rw [lookup_collect, lookup_collect, ← List.map_reverse, List.find?_map, Option.map_map,
    Option.map_map]
  rfl

/-- With distinct keys nothing is overwritten. -/
theorem entries_collect (hKeys : (entries.map Prod.fst).Nodup) :
    (collect entries).entries = (entries : Multiset (κ × β)).map fun entry => ⟨entry.1, entry.2⟩ := by
  induction entries using List.reverseRecOn with
  | nil => rfl
  | append_singleton entries entry ih =>
    rw [List.map_append, List.nodup_append] at hKeys
    obtain ⟨hKeys, -, hFresh⟩ := hKeys
    have hNew : entry.1 ∉ collect entries := by
      rw [Finmap.mem_def, ih hKeys]
      intro hMem
      obtain ⟨pair, hPair, hKey⟩ := Multiset.mem_map.mp hMem
      obtain ⟨other, hOther, rfl⟩ := Multiset.mem_map.mp hPair
      exact hFresh other.1 (List.mem_map_of_mem (Multiset.mem_coe.mp hOther)) entry.1
        (List.mem_map_of_mem (List.mem_singleton_self entry)) hKey
    rw [collect_concat, Finmap.entries_insert_of_notMem hNew, ih hKeys, ← Multiset.coe_add,
      Multiset.map_add, add_comm]
    rfl

theorem IsValues.perm {values : List β} (h : IsValues (collect entries) values)
    (hKeys : (entries.map Prod.fst).Nodup) : values.Perm (entries.map Prod.snd) := by
  rw [IsValues, entries_collect hKeys, Multiset.map_map, Multiset.map_coe] at h
  exact Multiset.coe_eq_coe.mp h

omit [DecidableEq κ] in
/-- The values of a map come in any order. -/
theorem IsValues.of_perm {values values' : List β} (h : IsValues map values)
    (hPerm : values'.Perm values) : IsValues map values' :=
  (Multiset.coe_eq_coe.mpr hPerm).trans h

theorem IsValues.mem_iff {values : List β} (h : IsValues map values) :
    v ∈ values ↔ ∃ k, map.lookup k = some v := by
  rw [← Multiset.mem_coe, h, Multiset.mem_map]
  constructor
  · rintro ⟨⟨k, w⟩, hEntry, rfl⟩
    exact ⟨k, Finmap.lookup_eq_some_iff.mpr hEntry⟩
  · rintro ⟨k, hk⟩
    exact ⟨⟨k, v⟩, Finmap.lookup_eq_some_iff.mp hk, rfl⟩

/-- In a map of values by a key of their own each value is found under its key. -/
theorem lookup_key_eq {key : β → κ} {list : List β}
    (h : (collect (list.map fun v => (key v, v))).lookup k = some v) : key v = k := by
  rw [lookup_collect, Option.map_eq_some_iff] at h
  obtain ⟨entry, hFind, rfl⟩ := h
  have hEntry := List.mem_reverse.mp (List.mem_of_find?_eq_some hFind)
  obtain ⟨w, -, rfl⟩ := List.mem_map.mp hEntry
  simpa using List.find?_some hFind

theorem IsValues.lookup_key {key : β → κ} {list values : List β}
    (h : IsValues (collect (list.map fun v => (key v, v))) values) (hv : v ∈ values) :
    (collect (list.map fun v => (key v, v))).lookup (key v) = some v := by
  obtain ⟨k, hk⟩ := h.mem_iff.mp hv
  rw [lookup_key_eq hk]
  exact hk

theorem IsValues.key_nodup {key : β → κ} {list values : List β}
    (h : IsValues (collect (list.map fun v => (key v, v))) values) : (values.map key).Nodup := by
  have hKeys : ((values.map key : List κ) : Multiset κ) =
      (collect (list.map fun v => (key v, v))).entries.map Sigma.fst := by
    rw [← Multiset.map_coe, h, Multiset.map_map]
    refine Multiset.map_congr rfl ?_
    rintro ⟨k, v⟩ hEntry
    show key v = k
    exact lookup_key_eq (Finmap.lookup_eq_some_iff.mpr hEntry)
  rw [← Multiset.coe_nodup, hKeys]
  exact (collect (list.map fun v => (key v, v))).nodupKeys.nodup_keys

/-- A map built from a list has no more values than the list. -/
theorem IsValues.length_le {values : List β} (h : IsValues (collect entries) values) :
    values.length ≤ entries.length := by
  have hLength : values.length = (collect entries).keys.card := by
    rw [← Multiset.coe_card, h, Multiset.card_map]
    exact (Multiset.card_map _ _).symm
  have hKeys : (collect entries).keys ⊆ (entries.map Prod.fst).toFinset := by
    intro k hk
    obtain ⟨v, hv⟩ := Finmap.mem_iff.mp (Finmap.mem_keys.mp hk)
    rw [lookup_collect, Option.map_eq_some_iff] at hv
    obtain ⟨entry, hFind, -⟩ := hv
    have hEntry := List.mem_reverse.mp (List.mem_of_find?_eq_some hFind)
    have hKey : entry.1 = k := by simpa using List.find?_some hFind
    exact List.mem_toFinset.mpr (List.mem_map.mpr ⟨entry, hEntry, hKey⟩)
  calc values.length = (collect entries).keys.card := hLength
    _ ≤ (entries.map Prod.fst).toFinset.card := Finset.card_le_card hKeys
    _ ≤ (entries.map Prod.fst).length := List.toFinset_card_le _
    _ = entries.length := List.length_map _

/-- What is in a map built from a list is in the list. -/
theorem IsValues.subperm {values : List β} (h : IsValues (collect entries) values) :
    values.Subperm (entries.map Prod.snd) := by
  let pairs := (collect entries).entries.map fun entry => (entry.1, entry.2)
  have hNodup : pairs.Nodup := by
    have hKeys : (pairs.map Prod.fst).Nodup := by
      rw [Multiset.map_map]
      exact (collect entries).nodupKeys.nodup_keys
    exact hKeys.of_map
  have hSubset : pairs ⊆ (entries : Multiset (κ × β)) := by
    intro pair hPair
    obtain ⟨⟨k, v⟩, hEntry, rfl⟩ := Multiset.mem_map.mp hPair
    have hLookup : (collect entries).lookup k = some v := Finmap.lookup_eq_some_iff.mpr hEntry
    rw [lookup_collect, Option.map_eq_some_iff] at hLookup
    obtain ⟨entry, hFind, rfl⟩ := hLookup
    have hKey : entry.1 = k := by simpa using List.find?_some hFind
    subst hKey
    exact List.mem_reverse.mp (List.mem_of_find?_eq_some hFind)
  have hLe := Multiset.map_le_map (f := Prod.snd) ((Multiset.le_iff_subset hNodup).mpr hSubset)
  rw [Multiset.map_map] at hLe
  rw [← Multiset.coe_le, h]
  exact hLe

end Foundation.HashMap
