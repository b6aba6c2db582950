import Mathlib.Data.Finmap
import Mathlib.Data.Multiset.Count
import Mathlib.Data.Multiset.Filter
import Mathlib.Data.Finset.Union
import Mathlib.Data.Fintype.Basic
import Mathlib.Data.Fintype.Sets

/-!
# Lock tables and their holders

A holder owns a finite set of resources. Two kinds of table summarize a multiset
of holders: an exclusive table is the set of owned resources and says that each
has one owner (`Exclusive`); a reference-count table stores the number of owners
of each resource and has no entry at zero (`Counted`).

* `Exclusive.acquire`, `Exclusive.release`: adding a disjoint holder is a union,
  removing a holder is a set difference. The difference is sound because no other
  holder owns any of the removed resources.
* `Counted.acquire`, `Counted.release`: the same for the loops that increment or
  decrement one entry for each resource of the holder.
* `family_update`: the holders of an indexed family after one of them changes.
-/

namespace Foundation.LockTable

variable {α ι : Type*} [DecidableEq α]

/-- The number of holders that own `a`. -/
def ownerCount (holders : Multiset (Finset α)) (a : α) : ℕ := holders.countP (a ∈ ·)

@[simp] theorem ownerCount_zero (a : α) : ownerCount 0 a = 0 := Multiset.countP_zero _

@[simp] theorem ownerCount_cons (w : Finset α) (holders : Multiset (Finset α)) (a : α) :
    ownerCount (w ::ₘ holders) a = ownerCount holders a + if a ∈ w then 1 else 0 :=
  Multiset.countP_cons _ _ _

theorem ownerCount_pos_iff {holders : Multiset (Finset α)} {a : α} :
    0 < ownerCount holders a ↔ ∃ w ∈ holders, a ∈ w :=
  Multiset.countP_pos

/-! ## Exclusive tables -/

/-- The table is the set of owned resources and no resource has two owners. -/
def Exclusive (locked : Finset α) (holders : Multiset (Finset α)) : Prop :=
  ∀ a, ownerCount holders a = if a ∈ locked then 1 else 0

namespace Exclusive

variable {locked w v : Finset α} {holders : Multiset (Finset α)}

theorem mem_iff (h : Exclusive locked holders) {a : α} : a ∈ locked ↔ ∃ w ∈ holders, a ∈ w := by
  rw [← ownerCount_pos_iff, h a]
  by_cases ha : a ∈ locked <;> simp [ha]

theorem zero_iff : Exclusive locked 0 ↔ locked = ∅ := by
  constructor
  · intro h
    ext a
    simp [h.mem_iff]
  · rintro rfl a
    simp

theorem acquire (h : Exclusive locked holders) (hw : Disjoint w locked) :
    Exclusive (locked ∪ w) (w ::ₘ holders) := by
  intro a
  have ha := h a
  have hDisjoint : a ∈ w → a ∉ locked := fun haw => Finset.disjoint_left.mp hw haw
  rw [ownerCount_cons, ha]
  by_cases haw : a ∈ w
  · simp [haw, hDisjoint haw]
  · simp [haw]

theorem release (h : Exclusive locked (w ::ₘ holders)) : Exclusive (locked \ w) holders := by
  intro a
  have ha := h a
  rw [ownerCount_cons] at ha
  by_cases haw : a ∈ w
  · have hOne : ownerCount holders a + 1 ≤ 1 := by
      rw [if_pos haw] at ha
      rw [ha]
      split <;> omega
    simp only [Finset.mem_sdiff, haw, not_true_eq_false, and_false, if_false]
    omega
  · simpa [haw] using ha

/-- Two holders of one exclusive table own no common resource. -/
theorem disjoint (h : Exclusive locked (w ::ₘ v ::ₘ holders)) : Disjoint w v := by
  rw [Finset.disjoint_left]
  intro a haw hav
  have ha := h a
  simp only [ownerCount_cons, haw, hav, if_true] at ha
  split at ha <;> omega

theorem subset (h : Exclusive locked holders) (hw : w ∈ holders) : w ⊆ locked :=
  fun _ ha => h.mem_iff.mpr ⟨w, hw, ha⟩

end Exclusive

/-! ## Indexed families of holders -/

/-- What the members of a family own. -/
def family [Fintype ι] (held : ι → Finset α) : Multiset (Finset α) := Finset.univ.val.map held

section Family

variable [Fintype ι] {held : ι → Finset α} {locked : Finset α}

theorem Exclusive.family_mem_iff (h : Exclusive locked (family held)) {a : α} :
    a ∈ locked ↔ ∃ i, a ∈ held i := by
  simp [h.mem_iff, family]

theorem Exclusive.family_eq_biUnion (h : Exclusive locked (family held)) :
    locked = Finset.univ.biUnion held := by
  ext a
  simp [h.family_mem_iff]

variable [DecidableEq ι]

omit [DecidableEq α] in
/-- One member set apart from the others. -/
theorem family_eq_cons (held : ι → Finset α) (i : ι) :
    family held = held i ::ₘ (Finset.univ.erase i).val.map held := by
  rw [family, ← Multiset.map_cons, ← Finset.insert_val_of_notMem (Finset.notMem_erase i _),
    Finset.insert_erase (Finset.mem_univ i)]

omit [DecidableEq α] in
theorem family_update (held : ι → Finset α) (i : ι) (w : Finset α) :
    family (Function.update held i w) = w ::ₘ (Finset.univ.erase i).val.map held := by
  rw [family_eq_cons _ i, Function.update_self]
  congr 1
  apply Multiset.map_congr rfl
  intro j hj
  exact Function.update_of_ne (Finset.ne_of_mem_erase hj) _ _

theorem Exclusive.family_disjoint (h : Exclusive locked (family held)) {i j : ι} (hij : i ≠ j) :
    Disjoint (held i) (held j) := by
  have hj : j ∈ Finset.univ.erase i := Finset.mem_erase.mpr ⟨hij.symm, Finset.mem_univ j⟩
  obtain ⟨rest, hRest⟩ := Multiset.exists_cons_of_mem (Multiset.mem_map_of_mem held hj)
  rw [family_eq_cons held i, hRest] at h
  exact h.disjoint

/-- A member that owned nothing takes resources that nobody owns. -/
theorem Exclusive.family_acquire (h : Exclusive locked (family held)) {i : ι} (hi : held i = ∅)
    {w : Finset α} (hw : Disjoint w locked) :
    Exclusive (locked ∪ w) (family (Function.update held i w)) := by
  rw [family_update]
  rw [family_eq_cons held i, hi] at h
  refine Exclusive.acquire ?_ hw
  intro a
  simpa using h a

/-- A member gives up what it owned. -/
theorem Exclusive.family_release (h : Exclusive locked (family held)) (i : ι) :
    Exclusive (locked \ held i) (family (Function.update held i ∅)) := by
  rw [family_update]
  rw [family_eq_cons held i] at h
  intro a
  simpa using h.release a

end Family

/-! ## Reference counts -/

/-- A map from resources to reference counts. -/
abbrev CountTable (α : Type*) := Finmap fun _ : α => ℕ

/-- Add one reference, inserting a zero entry first if there is none. -/
def increment (table : CountTable α) (a : α) : CountTable α :=
  table.insert a ((table.lookup a).getD 0 + 1)

/-- Remove one reference if there is an entry, and the entry when it reaches zero. -/
def decrement (table : CountTable α) (a : α) : CountTable α :=
  match table.lookup a with
  | none => table
  | some count => if count - 1 = 0 then table.erase a else table.insert a (count - 1)

theorem lookup_increment (table : CountTable α) (a b : α) :
    (increment table a).lookup b =
      if b = a then some ((table.lookup b).getD 0 + 1) else table.lookup b := by
  unfold increment
  by_cases hb : b = a
  · subst hb
    simp
  · rw [if_neg hb, Finmap.lookup_insert_of_ne _ hb]

theorem lookup_decrement (table : CountTable α) (a b : α) :
    (decrement table a).lookup b =
      if b = a then (table.lookup b).bind fun count => if count - 1 = 0 then none else some (count - 1)
      else table.lookup b := by
  unfold decrement
  by_cases hb : b = a
  · subst hb
    rw [if_pos rfl]
    cases hc : table.lookup b with
    | none => simpa using hc
    | some count =>
      by_cases hz : count - 1 = 0
      · simp [hz]
      · simp [hz]
  · rw [if_neg hb]
    cases table.lookup a with
    | none => rfl
    | some count =>
      by_cases hz : count - 1 = 0
      · simp only [hz, if_true]
        exact Finmap.lookup_erase_ne hb
      · simp only [hz, if_false]
        exact Finmap.lookup_insert_of_ne _ hb

instance : RightCommutative (increment (α := α)) where
  right_comm table a b := by
    apply Finmap.ext_lookup
    intro c
    simp only [lookup_increment]
    rcases eq_or_ne c a with rfl | hca <;> rcases eq_or_ne c b with rfl | hcb <;> simp [*]

instance : RightCommutative (decrement (α := α)) where
  right_comm table a b := by
    apply Finmap.ext_lookup
    intro c
    simp only [lookup_decrement]
    rcases eq_or_ne c a with rfl | hca <;> rcases eq_or_ne c b with rfl | hcb <;> simp [*]

/-- `increment` for each resource of a set, in any order. -/
def incrementAll (table : CountTable α) (s : Finset α) : CountTable α :=
  s.val.foldl increment table

/-- `decrement` for each resource of a set, in any order. -/
def decrementAll (table : CountTable α) (s : Finset α) : CountTable α :=
  s.val.foldl decrement table

theorem lookup_incrementAll (table : CountTable α) (s : Finset α) (b : α) :
    (incrementAll table s).lookup b =
      if b ∈ s then some ((table.lookup b).getD 0 + 1) else table.lookup b := by
  unfold incrementAll
  induction s using Finset.cons_induction generalizing table with
  | empty => simp
  | cons a s ha ih =>
    rw [Finset.cons_val, Multiset.foldl_cons, ih, lookup_increment]
    by_cases hba : b = a
    · subst hba
      simp [ha]
    · simp [hba]

theorem lookup_decrementAll (table : CountTable α) (s : Finset α) (b : α) :
    (decrementAll table s).lookup b =
      if b ∈ s then (table.lookup b).bind fun count => if count - 1 = 0 then none else some (count - 1)
      else table.lookup b := by
  unfold decrementAll
  induction s using Finset.cons_induction generalizing table with
  | empty => simp
  | cons a s ha ih =>
    rw [Finset.cons_val, Multiset.foldl_cons, ih, lookup_decrement]
    by_cases hba : b = a
    · subst hba
      simp [ha]
    · simp [hba]

/-- The entry that stands for `count` references. -/
def entry (count : ℕ) : Option ℕ := if count = 0 then none else some count

/-- Each resource has its number of owners, and no entry when it has none. -/
def Counted (table : CountTable α) (holders : Multiset (Finset α)) : Prop :=
  ∀ a, table.lookup a = entry (ownerCount holders a)

namespace Counted

variable {table : CountTable α} {w : Finset α} {holders : Multiset (Finset α)}

theorem mem_iff (h : Counted table holders) {a : α} : a ∈ table ↔ ∃ w ∈ holders, a ∈ w := by
  rw [← ownerCount_pos_iff, ← Finmap.lookup_isSome, h a, entry]
  split <;> simp <;> omega

/-- An entry is positive: its decrement does not underflow. -/
theorem pos (h : Counted table holders) {a : α} {count : ℕ} (hc : table.lookup a = some count) :
    1 ≤ count := by
  rw [h a, entry] at hc
  split at hc
  · cases hc
  · cases hc
    omega

theorem zero_iff : Counted table 0 ↔ table = ∅ := by
  constructor
  · intro h
    apply Finmap.ext_lookup
    intro a
    simp [h a, entry]
  · rintro rfl a
    simp [entry]

theorem eq_empty_iff (h : Counted table holders) :
    table = ∅ ↔ ∀ w ∈ holders, ∀ a, a ∉ w := by
  constructor
  · rintro rfl w hw a ha
    exact absurd (h.mem_iff.mpr ⟨w, hw, ha⟩) Finmap.notMem_empty
  · intro hNone
    apply Finmap.ext_lookup
    intro a
    rw [Finmap.lookup_empty, Finmap.lookup_eq_none, h.mem_iff]
    rintro ⟨w, hw, ha⟩
    exact hNone w hw a ha

theorem acquire (h : Counted table holders) (w : Finset α) :
    Counted (incrementAll table w) (w ::ₘ holders) := by
  intro a
  rw [lookup_incrementAll, h a, ownerCount_cons]
  by_cases ha : a ∈ w
  · by_cases hz : ownerCount holders a = 0 <;> simp [ha, entry, hz]
  · simp [ha]

theorem release (h : Counted table (w ::ₘ holders)) : Counted (decrementAll table w) holders := by
  intro a
  rw [lookup_decrementAll, h a, ownerCount_cons]
  by_cases ha : a ∈ w
  · by_cases hz : ownerCount holders a = 0 <;> simp [ha, entry, hz]
  · simp [ha]

end Counted

end Foundation.LockTable
