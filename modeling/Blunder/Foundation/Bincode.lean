import Mathlib.Algebra.Order.Ring.Nat
import Mathlib.Data.List.Forall2
import Mathlib.Data.Nat.Notation
import Mathlib.Data.Vector.Defs

/-!
# The bincode format

The default encoding of bincode 1.3: integers have their fixed width, lowest byte first; a
string or a sequence has its length before it, a fixed array does not; the fields of a
structure follow each other, and those of an enum follow the number of the variant.

* `length_encode_list`: the size of a sequence from the sizes of its items.
* `length_encode_list_le`: sequences are compared item by item.
-/

namespace Foundation.Bincode

/-- The types with an encoding. `usize` is encoded as `u64`. -/
class Encode (α : Type) where
  encode : α → List UInt8

export Encode (encode)

/-- The `count` lowest bytes of a number. -/
def fixedInt : ℕ → ℕ → List UInt8
  | 0, _ => []
  | count + 1, n => UInt8.ofNat n :: fixedInt count (n / 256)

@[simp] theorem length_fixedInt (count n : ℕ) : (fixedInt count n).length = count := by
  induction count generalizing n with
  | zero => rfl
  | succ count ih => rw [fixedInt, List.length_cons, ih]

/-- The number of an enum's variant. -/
def variant (index : ℕ) : List UInt8 := fixedInt 4 index

@[simp] theorem length_variant (index : ℕ) : (variant index).length = 4 := length_fixedInt 4 index

instance instEncodeUInt64 : Encode UInt64 := ⟨fun n => fixedInt 8 n.toNat⟩

instance instEncodeUsize : Encode ℕ := ⟨fixedInt 8⟩

instance instEncodeBool : Encode Bool := ⟨fun b => [if b then 1 else 0]⟩

instance instEncodeArray {n : ℕ} : Encode (List.Vector UInt8 n) := ⟨List.Vector.toList⟩

instance instEncodeString : Encode String :=
  ⟨fun s => encode s.utf8ByteSize ++ s.toUTF8.data.toList⟩

instance instEncodeList {α : Type} [Encode α] : Encode (List α) :=
  ⟨fun xs => encode xs.length ++ xs.flatMap encode⟩

@[simp] theorem length_encode_uint64 (n : UInt64) : (encode n).length = 8 := length_fixedInt 8 _

@[simp] theorem length_encode_usize (n : ℕ) : (encode n).length = 8 := length_fixedInt 8 n

@[simp] theorem length_encode_bool (b : Bool) : (encode b).length = 1 := rfl

@[simp] theorem length_encode_array {n : ℕ} (v : List.Vector UInt8 n) : (encode v).length = n :=
  v.toList_length

@[simp] theorem length_encode_string (s : String) : (encode s).length = 8 + s.utf8ByteSize := by
  change (encode s.utf8ByteSize ++ s.toUTF8.data.toList).length = 8 + s.utf8ByteSize
  rw [List.length_append, length_encode_usize]
  rfl

section List

variable {α β : Type} [Encode α] [Encode β]

theorem length_encode_list (xs : List α) :
    (encode xs).length = 8 + (xs.map fun x => (encode x).length).sum := by
  change (encode xs.length ++ xs.flatMap encode).length = _
  rw [List.length_append, length_encode_usize, List.length_flatMap]

/-- Items of one size. -/
theorem length_encode_list_of_forall {size : ℕ} {xs : List α}
    (h : ∀ x ∈ xs, (encode x).length = size) : (encode xs).length = 8 + size * xs.length := by
  rw [length_encode_list, List.map_congr_left h]
  simp [Nat.mul_comm]

theorem length_encode_list_le {xs : List α} {ys : List β}
    (h : List.Forall₂ (fun x y => (encode y).length ≤ (encode x).length) xs ys) :
    (encode ys).length ≤ (encode xs).length := by
  rw [length_encode_list, length_encode_list]
  apply Nat.add_le_add_left
  induction h with
  | nil => exact le_rfl
  | cons hHead _ ih =>
    rw [List.map_cons, List.map_cons, List.sum_cons, List.sum_cons]
    exact Nat.add_le_add hHead ih

end List

end Foundation.Bincode
