import Mathlib.Data.List.Lex

/-!
# The order of names is the order of their bytes

Texts are compared by their characters, one after the other.  Their encodings in UTF-8 compare in
the same way: the first byte grows with the number of bytes, and each byte after it holds six bits
of the code point, the highest first.

* `utf8`           the bytes of a text
* `utf8_lt_iff`    the bytes of two texts are in the order of the texts
-/

namespace TypeHint

def utf8 (s : String) : List UInt8 := s.toByteArray.data.toList

theorem utf8_eq_flatMap (s : String) : utf8 s = s.toList.flatMap String.utf8EncodeChar := by
  rw [utf8, ← String.utf8Encode_toList, List.utf8Encode, List.toList_data_toByteArray]

section

variable {m n : Nat} {s t : List UInt8}

theorem byte_lt (hmn : m < n) (hn : n < 256) : UInt8.ofNat m :: s < UInt8.ofNat n :: t := by
  rw [List.cons_lt_cons_iff, UInt8.lt_iff_toNat_lt, UInt8.toNat_ofNat', UInt8.toNat_ofNat']
  omega

theorem byte_eq (hmn : m = n) (hst : s < t) : UInt8.ofNat m :: s < UInt8.ofNat n :: t :=
  List.cons_lt_cons_iff.mpr (Or.inr ⟨congrArg _ hmn, hst⟩)

/-- the last six bits decide if those before them are the same -/
theorem high_or_low_lt (hmn : m < n) : m / 64 < n / 64 ∨ m / 64 = n / 64 ∧ m % 64 < n % 64 := by
  omega

theorem two_bytes_lt (hmn : m < n) (hn : n ≤ 0x7FF) :
    UInt8.ofNat (m / 64 % 32 + 192) :: UInt8.ofNat (m % 64 + 128) :: s <
      UInt8.ofNat (n / 64 % 32 + 192) :: UInt8.ofNat (n % 64 + 128) :: t := by
  rcases high_or_low_lt hmn with hlt | ⟨heq, hlt⟩
  · exact byte_lt (by omega) (by omega)
  · exact byte_eq (by omega) (byte_lt (by omega) (by omega))

theorem three_bytes_lt (hmn : m < n) (hn : n ≤ 0xFFFF) :
    UInt8.ofNat (m / 4096 % 16 + 224) :: UInt8.ofNat (m / 64 % 64 + 128) ::
        UInt8.ofNat (m % 64 + 128) :: s <
      UInt8.ofNat (n / 4096 % 16 + 224) :: UInt8.ofNat (n / 64 % 64 + 128) ::
        UInt8.ofNat (n % 64 + 128) :: t := by
  rcases high_or_low_lt hmn with hlt | ⟨heq, hlt⟩
  · rcases high_or_low_lt hlt with hlt | ⟨heq, hlt⟩
    · exact byte_lt (by omega) (by omega)
    · exact byte_eq (by omega) (byte_lt (by omega) (by omega))
  · exact byte_eq (by omega) (byte_eq (by omega) (byte_lt (by omega) (by omega)))

theorem four_bytes_lt (hmn : m < n) (hn : n < 0x110000) :
    UInt8.ofNat (m / 262144 % 8 + 240) :: UInt8.ofNat (m / 4096 % 64 + 128) ::
        UInt8.ofNat (m / 64 % 64 + 128) :: UInt8.ofNat (m % 64 + 128) :: s <
      UInt8.ofNat (n / 262144 % 8 + 240) :: UInt8.ofNat (n / 4096 % 64 + 128) ::
        UInt8.ofNat (n / 64 % 64 + 128) :: UInt8.ofNat (n % 64 + 128) :: t := by
  rcases high_or_low_lt hmn with hlt | ⟨heq, hlt⟩
  · rcases high_or_low_lt hlt with hlt | ⟨heq, hlt⟩
    · rcases high_or_low_lt hlt with hlt | ⟨heq, hlt⟩
      · exact byte_lt (by omega) (by omega)
      · exact byte_eq (by omega) (byte_lt (by omega) (by omega))
    · exact byte_eq (by omega) (byte_eq (by omega) (byte_lt (by omega) (by omega)))
  · exact byte_eq (by omega)
      (byte_eq (by omega) (byte_eq (by omega) (byte_lt (by omega) (by omega))))

end

/-- a smaller character has smaller bytes, whatever follows -/
theorem utf8EncodeChar_append_lt {c d : Char} (hcd : c < d) (s t : List UInt8) :
    String.utf8EncodeChar c ++ s < String.utf8EncodeChar d ++ t := by
  have hlt : c.val.toNat < d.val.toNat := hcd
  have hmax : d.val.toNat < 0x110000 := by rcases d.valid with hv | hv <;> omega
  unfold String.utf8EncodeChar
  dsimp only
  generalize c.val.toNat = m at *
  generalize d.val.toNat = n at *
  by_cases hm₁ : m ≤ 0x7F
  · rw [if_pos hm₁]
    by_cases hn₁ : n ≤ 0x7F
    · rw [if_pos hn₁]
      exact byte_lt hlt (by omega)
    · rw [if_neg hn₁]
      split
      · exact byte_lt (by omega) (by omega)
      · split <;> exact byte_lt (by omega) (by omega)
  · have hn₁ : ¬ n ≤ 0x7F := by omega
    rw [if_neg hm₁, if_neg hn₁]
    by_cases hm₂ : m ≤ 0x7FF
    · rw [if_pos hm₂]
      by_cases hn₂ : n ≤ 0x7FF
      · rw [if_pos hn₂]
        exact two_bytes_lt hlt hn₂
      · rw [if_neg hn₂]
        split <;> exact byte_lt (by omega) (by omega)
    · have hn₂ : ¬ n ≤ 0x7FF := by omega
      rw [if_neg hm₂, if_neg hn₂]
      by_cases hm₃ : m ≤ 0xFFFF
      · rw [if_pos hm₃]
        by_cases hn₃ : n ≤ 0xFFFF
        · rw [if_pos hn₃]
          exact three_bytes_lt hlt hn₃
        · rw [if_neg hn₃]
          exact byte_lt (by omega) (by omega)
      · have hn₃ : ¬ n ≤ 0xFFFF := by omega
        rw [if_neg hm₃, if_neg hn₃]
        exact four_bytes_lt hlt hmax

theorem flatMap_utf8EncodeChar_lt {s t : List Char} (hst : s < t) :
    s.flatMap String.utf8EncodeChar < t.flatMap String.utf8EncodeChar := by
  induction s generalizing t with
  | nil =>
    cases t with
    | nil => exact absurd hst (List.lt_irrefl _)
    | cons d t =>
      rw [List.flatMap_nil, List.flatMap_cons]
      cases e : String.utf8EncodeChar d with
      | nil => exact absurd e String.utf8EncodeChar_ne_nil
      | cons b bs => exact List.nil_lt_cons _ _
  | cons c s ih =>
    cases t with
    | nil => exact absurd hst (List.not_lt_nil _)
    | cons d t =>
      rw [List.flatMap_cons, List.flatMap_cons]
      rcases List.cons_lt_cons_iff.mp hst with hcd | ⟨rfl, hrest⟩
      · exact utf8EncodeChar_append_lt hcd _ _
      · exact List.append_left_lt (ih hrest)

/-- the bytes of two texts are in the order of the texts -/
theorem utf8_lt_iff {a b : String} : utf8 a < utf8 b ↔ a < b := by
  have hmono : ∀ {a b : String}, a < b → utf8 a < utf8 b := by
    intro a b hab
    rw [utf8_eq_flatMap, utf8_eq_flatMap]
    exact flatMap_utf8EncodeChar_lt hab
  refine ⟨fun hab => ?_, hmono⟩
  by_contra hno
  by_cases e : a = b
  · rw [e] at hab
    exact List.lt_irrefl _ hab
  · have hba : b < a := by
      by_contra hno'
      exact e (String.le_antisymm (String.not_lt.mp hno') (String.not_lt.mp hno))
    exact List.lt_asymm hab (hmono hba)

theorem utf8_le_iff {a b : String} : utf8 a ≤ utf8 b ↔ a ≤ b := by
  rw [← List.not_lt, ← String.not_lt, utf8_lt_iff]

end TypeHint
