import Blunder.Foundation.Bincode
import Mathlib.Data.List.Infix

/-!
# Codes that can be told apart

A code writes each value as a list of letters. It is a prefix code if the word of a value can
be told from what comes after it: no two values that fit are written at the front of one list.

* `PrefixCode.many`, `PrefixCode.sized`: words in a row, and words after their size.
* `PrefixCode.decode`: what a prefix code has written can be read; `decode_truncated`: nothing is
  read from a word that is cut short.
* `PrefixFree`: the types of `Foundation.Bincode` whose encoding is a prefix code.
-/

namespace Foundation

variable {α σ : Type}

/-- Of the values that fit, at most one is written at the front of a list. -/
def PrefixCode (enc : α → List σ) (fits : α → Prop) : Prop :=
  ∀ x y rest rest', fits x → fits y → enc x ++ rest = enc y ++ rest' → x = y ∧ rest = rest'

namespace PrefixCode

variable {enc : α → List σ} {fits : α → Prop} {x y : α} {bytes : List σ}

/-- No word is the beginning of another one. -/
theorem eq_of_prefix (h : PrefixCode enc fits) (hx : fits x) (hy : fits y)
    (hPrefix : enc x <+: enc y) : x = y := by
  obtain ⟨rest, hRest⟩ := hPrefix
  exact (h x y rest [] hx hy (hRest.trans (List.append_nil _).symm)).1

/-- Words of one length. -/
theorem of_length {size : ℕ} (hLength : ∀ x, fits x → (enc x).length = size)
    (hInj : ∀ x y, fits x → fits y → enc x = enc y → x = y) : PrefixCode enc fits := by
  intro x y rest rest' hx hy h
  obtain ⟨hWord, hRest⟩ := List.append_inj h ((hLength x hx).trans (hLength y hy).symm)
  exact ⟨hInj x y hx hy hWord, hRest⟩

/-- As many words in a row. -/
theorem many (h : PrefixCode enc fits) (count : ℕ) :
    PrefixCode (fun xs : List α => xs.flatMap enc)
      fun xs => xs.length = count ∧ ∀ x ∈ xs, fits x := by
  induction count with
  | zero =>
    intro xs ys rest rest' hxs hys hEq
    obtain rfl := List.length_eq_zero_iff.mp hxs.1
    obtain rfl := List.length_eq_zero_iff.mp hys.1
    exact ⟨rfl, hEq⟩
  | succ count ih =>
    intro xs ys rest rest' hxs hys hEq
    obtain ⟨x, xs, rfl⟩ := List.exists_cons_of_length_eq_add_one hxs.1
    obtain ⟨y, ys, rfl⟩ := List.exists_cons_of_length_eq_add_one hys.1
    obtain ⟨hx, hxRest⟩ := List.forall_mem_cons.mp hxs.2
    obtain ⟨hy, hyRest⟩ := List.forall_mem_cons.mp hys.2
    simp only [List.flatMap_cons, List.append_assoc] at hEq
    obtain ⟨rfl, hTail⟩ := h _ _ _ _ hx hy hEq
    have hxsFit := And.intro (Nat.succ.inj hxs.1) hxRest
    have hysFit := And.intro (Nat.succ.inj hys.1) hyRest
    obtain ⟨rfl, hRest⟩ := ih _ _ _ _ hxsFit hysFit hTail
    exact ⟨rfl, hRest⟩

/-- A size, and then what has that size. -/
theorem sized {sizeEnc : ℕ → List σ} {sizeFits : ℕ → Prop} {size : α → ℕ}
    (hSize : PrefixCode sizeEnc sizeFits)
    (h : ∀ n, PrefixCode enc fun x => size x = n ∧ fits x) :
    PrefixCode (fun x => sizeEnc (size x) ++ enc x) fun x => sizeFits (size x) ∧ fits x := by
  intro x y rest rest' hx hy hEq
  simp only [List.append_assoc] at hEq
  obtain ⟨hSame, hTail⟩ := hSize _ _ _ _ hx.1 hy.1 hEq
  exact h (size y) _ _ _ _ ⟨hSame, hx.2⟩ ⟨rfl, hy.2⟩ hTail

/-! ## Reading -/

open Classical in
/-- The value that is written at the front. What follows it is dropped. -/
noncomputable def decode (enc : α → List σ) (fits : α → Prop) (bytes : List σ) : Option α :=
  if h : ∃ x, fits x ∧ enc x <+: bytes then some h.choose else none

theorem decode_eq_some_iff (h : PrefixCode enc fits) :
    decode enc fits bytes = some x ↔ fits x ∧ enc x <+: bytes := by
  rw [decode]
  constructor
  · intro hDecode
    split at hDecode
    · rename_i hSome
      cases hDecode
      exact hSome.choose_spec
    · cases hDecode
  · intro hx
    have hSome : ∃ y, fits y ∧ enc y <+: bytes := ⟨x, hx⟩
    obtain ⟨hFits, rest, hRest⟩ := hSome.choose_spec
    obtain ⟨rest', hRest'⟩ := hx.2
    rw [dif_pos hSome, (h _ _ _ _ hFits hx.1 (hRest.trans hRest'.symm)).1]

theorem decode_enc (h : PrefixCode enc fits) (hx : fits x) : decode enc fits (enc x) = some x :=
  h.decode_eq_some_iff.mpr ⟨hx, List.prefix_refl _⟩

/-- No value is read from a word that is cut short. -/
theorem decode_truncated (h : PrefixCode enc fits) (hx : fits x) (hPrefix : bytes <+: enc x)
    (hCut : bytes ≠ enc x) : decode enc fits bytes = none := by
  cases hDecode : decode enc fits bytes with
  | none => rfl
  | some y =>
    obtain ⟨hy, hFront⟩ := h.decode_eq_some_iff.mp hDecode
    obtain rfl := h.eq_of_prefix hy hx (hFront.trans hPrefix)
    exact absurd (hPrefix.eq_of_length_le hFront.length_le) hCut

end PrefixCode

/-! ## The bincode format -/

namespace Bincode

/-- The types whose encoding is a prefix code. What fits is what a 64 bit machine can hold. -/
class PrefixFree (α : Type) [Encode α] where
  Fits : α → Prop
  prefixCode : PrefixCode (encode : α → List UInt8) Fits

export PrefixFree (Fits prefixCode)

theorem fixedInt_inj {count n m : ℕ} (hn : n < 256 ^ count) (hm : m < 256 ^ count)
    (h : fixedInt count n = fixedInt count m) : n = m := by
  induction count generalizing n m with
  | zero =>
    rw [Nat.pow_zero] at hn hm
    omega
  | succ count ih =>
    rw [fixedInt, fixedInt, List.cons.injEq] at h
    obtain ⟨hLow, hHigh⟩ := h
    have hByte := congrArg UInt8.toNat hLow
    rw [UInt8.toNat_ofNat', UInt8.toNat_ofNat'] at hByte
    rw [Nat.pow_succ'] at hn hm
    have hRest := ih (by omega) (by omega) hHigh
    omega

theorem prefixCode_fixedInt (count : ℕ) :
    PrefixCode (fixedInt count) fun n => n < 256 ^ count :=
  PrefixCode.of_length (fun n _ => length_fixedInt count n) fun _ _ => fixedInt_inj

theorem prefixCode_variant : PrefixCode variant fun n => n < 256 ^ 4 := prefixCode_fixedInt 4

/-- If each word begins with the number of its variant, words of one list are of one variant. -/
theorem index_eq_of_append {α : Type} [Encode α] (index : α → ℕ)
    (hIndex : ∀ x, index x < 256 ^ 4) (hBegins : ∀ x, variant (index x) <+: encode x)
    {x y : α} {rest rest' : List UInt8} (h : encode x ++ rest = encode y ++ rest') :
    index x = index y := by
  obtain ⟨fields, hx⟩ := hBegins x
  obtain ⟨fields', hy⟩ := hBegins y
  rw [← hx, ← hy, List.append_assoc, List.append_assoc] at h
  exact (prefixCode_variant _ _ _ _ (hIndex x) (hIndex y) h).1

theorem pow_eight : 256 ^ 8 = UInt64.size := by decide

instance instPrefixFreeUsize : PrefixFree ℕ where
  Fits n := n < UInt64.size
  prefixCode := by
    rw [← pow_eight]
    exact prefixCode_fixedInt 8

instance instPrefixFreeUInt64 : PrefixFree UInt64 where
  Fits _ := True
  prefixCode := by
    refine PrefixCode.of_length (fun n _ => length_encode_uint64 n) ?_
    intro n m _ _ h
    apply UInt64.toNat_inj.mp
    refine fixedInt_inj ?_ ?_ h
    · rw [pow_eight]
      exact n.toNat_lt_size
    · rw [pow_eight]
      exact m.toNat_lt_size

instance instPrefixFreeBool : PrefixFree Bool where
  Fits _ := True
  prefixCode := by
    refine PrefixCode.of_length (fun b _ => length_encode_bool b) ?_
    intro b b' _ _ h
    revert b b'
    decide

instance instPrefixFreeArray {n : ℕ} : PrefixFree (List.Vector UInt8 n) where
  Fits _ := True
  prefixCode :=
    PrefixCode.of_length (fun v _ => length_encode_array v) fun _ _ _ _ h => Subtype.ext h

instance instPrefixFreeString : PrefixFree String where
  Fits s := s.utf8ByteSize < UInt64.size
  prefixCode := by
    have hText : ∀ n, PrefixCode (fun s : String => s.toUTF8.data.toList)
        fun s => s.utf8ByteSize = n ∧ True := by
      intro n
      refine PrefixCode.of_length (fun s (hs : s.utf8ByteSize = n ∧ True) => hs.1) ?_
      intro s t _ _ h
      exact String.toByteArray_inj.mp (ByteArray.ext (Array.toList_inj.mp h))
    have hSized := PrefixCode.sized (prefixCode : PrefixCode (encode : ℕ → List UInt8) Fits) hText
    intro s t rest rest' hs ht h
    exact hSized s t rest rest' ⟨hs, trivial⟩ ⟨ht, trivial⟩ h

instance instPrefixFreeList {α : Type} [Encode α] [PrefixFree α] : PrefixFree (List α) where
  Fits xs := xs.length < UInt64.size ∧ ∀ x ∈ xs, Fits x
  prefixCode := PrefixCode.sized (prefixCode : PrefixCode (encode : ℕ → List UInt8) Fits)
    fun n => PrefixCode.many prefixCode n

end Bincode

end Foundation
