import Mathlib
import TypeHint.Value.Json

/-!
# Keys from field names

A field name becomes an integer key if it is the decimal text of a 64-bit integer in its canonical
form.  The reader takes digits in any form and then compares the name with the text of the number;
here the form is described by its rules.

* `IsNumeral ds n`       `ds` are the digits of `n`, without leading zeros
* `IsDecimal s i`        `s` is the canonical text of `i`
* `isDecimal_iff`        this is the text that an integer is shown as
* `InInt64 i`            `i` has 64 bits
* `Key.ofText_eq_int_iff`, `Key.ofText_eq_text_iff`   the key of a name
* `Key.ofText_injective` different names have different keys
-/

namespace TypeHint

variable {c : Char} {ds : List Char} {s u : String} {n : Nat} {i : Int}

/-! ## numerals -/

structure IsNumeral (ds : List Char) (n : Nat) : Prop where
  ne_nil : ds ≠ []
  isDigit : ∀ c ∈ ds, c.isDigit = true
  noLeadingZero : ds.head? = some '0' → ds = ['0']
  value : Nat.ofDigitChars 10 ds 0 = n

theorem digitChar_toNat (hc : c.isDigit = true) :
    c.toNat - '0'.toNat < 10 ∧ Nat.digitChar (c.toNat - '0'.toNat) = c := by
  rw [Char.isDigit, Bool.and_eq_true, decide_eq_true_iff, decide_eq_true_iff] at hc
  have hlow : '0'.toNat ≤ c.toNat := UInt32.le_iff_toNat_le.mp hc.1
  have hhigh : c.toNat ≤ '9'.toNat := UInt32.le_iff_toNat_le.mp hc.2
  have hlt : c.toNat - '0'.toNat < 10 := by
    have : '9'.toNat = '0'.toNat + 9 := rfl
    omega
  refine ⟨hlt, Char.toNat_inj.mp ?_⟩
  rw [Nat.toNat_digitChar_of_lt_ten hlt]
  exact Nat.add_sub_of_le hlow

/-- digits that follow a positive number are appended to its own -/
theorem toDigits_append (hn : 0 < n) (hds : ∀ c ∈ ds, c.isDigit = true) :
    Nat.toDigits 10 n ++ ds = Nat.toDigits 10 (Nat.ofDigitChars 10 ds n) := by
  induction ds generalizing n with
  | nil => rw [List.append_nil, Nat.ofDigitChars_nil]
  | cons c ds ih =>
    rw [List.forall_mem_cons] at hds
    obtain ⟨hlt, hchar⟩ := digitChar_toNat hds.1
    have hone : Nat.toDigits 10 n ++ [c] = Nat.toDigits 10 (10 * n + (c.toNat - '0'.toNat)) := by
      rw [← Nat.toDigits_append_toDigits (by decide) hn hlt, Nat.toDigits_of_lt_base hlt, hchar]
    rw [Nat.ofDigitChars_cons, List.append_cons, hone, ih (by omega) hds.2]

theorem head?_toDigits_ne (hn : 0 < n) : (Nat.toDigits 10 n).head? ≠ some '0' := by
  induction n using Nat.strongRecOn with
  | ind n ih =>
    rw [Nat.toDigits_eq_if (by decide)]
    split
    case isTrue => simpa using by omega
    case isFalse hlarge =>
      rw [List.head?_append, Option.or_of_isSome (by simp [Nat.toDigits_ne_nil])]
      exact ih (n / 10) (by omega) (by omega)

theorem isNumeral_iff : IsNumeral ds n ↔ ds = Nat.toDigits 10 n := by
  constructor
  · rintro ⟨hne, hdigit, hzero, rfl⟩
    obtain ⟨c, ds, rfl⟩ := List.exists_cons_of_ne_nil hne
    rw [List.forall_mem_cons] at hdigit
    obtain ⟨hlt, hchar⟩ := digitChar_toNat hdigit.1
    rw [Nat.ofDigitChars_cons, Nat.mul_zero, Nat.zero_add]
    rcases Nat.eq_zero_or_pos (c.toNat - '0'.toNat) with h | hpos
    · have hc : c = '0' := by rw [← hchar, h]; rfl
      obtain ⟨-, rfl⟩ : c = '0' ∧ ds = [] := by simpa [hc] using hzero
      rw [hc]
      exact (Nat.toDigits_zero 10).symm
    · rw [← toDigits_append hpos hdigit.2, Nat.toDigits_of_lt_base hlt, hchar]
      rfl
  · rintro rfl
    refine ⟨Nat.toDigits_ne_nil, fun c => Nat.isDigit_of_mem_toDigits (by decide) (by decide),
      fun hhead => ?_, Nat.ofDigitChars_ten_toDigits⟩
    rcases Nat.eq_zero_or_pos n with rfl | hn
    · exact Nat.toDigits_zero 10
    · exact absurd hhead (head?_toDigits_ne hn)

/-! ## integers -/

/-- the canonical text of an integer: digits, after a minus sign if it is negative -/
inductive IsDecimal : List Char → Int → Prop
  | natural {cs : List Char} {k : Nat} : IsNumeral cs k → IsDecimal cs k
  | negative {cs : List Char} {k : Nat} : IsNumeral cs k → 0 < k → IsDecimal ('-' :: cs) (-k)

theorem toList_toString_natCast : (toString (n : Int)).toList = Nat.toDigits 10 n := by
  rw [Int.toString_eq_repr, Int.repr_eq_if, if_pos (Int.natCast_nonneg n), Int.toNat_natCast,
    Nat.toList_repr]

theorem toList_toString_neg (hn : 0 < n) :
    (toString (-(n : Int))).toList = '-' :: Nat.toDigits 10 n := by
  rw [Int.toString_eq_repr, Int.repr_eq_if, if_neg (by omega), Int.neg_neg, Int.toNat_natCast,
    String.toList_append, Nat.toList_repr]
  rfl

theorem isDecimal_iff : IsDecimal ds i ↔ ds = (toString i).toList := by
  constructor
  · rintro (⟨hds⟩ | ⟨hds, hn⟩)
    · rw [toList_toString_natCast, isNumeral_iff.mp hds]
    · rw [toList_toString_neg hn, isNumeral_iff.mp hds]
  · rintro rfl
    rcases Int.lt_or_le i 0 with hi | hi
    · obtain ⟨n, rfl, hn⟩ : ∃ n : Nat, i = -(n : Int) ∧ 0 < n := ⟨(-i).toNat, by omega, by omega⟩
      rw [toList_toString_neg hn]
      exact .negative (isNumeral_iff.mpr rfl) hn
    · obtain ⟨n, rfl⟩ := Int.eq_ofNat_of_zero_le hi
      rw [toList_toString_natCast]
      exact .natural (isNumeral_iff.mpr rfl)

/-- the reader takes the canonical text, among others -/
theorem decimal?_of_isDecimal (h : IsDecimal ds i) : decimal? ds = some i := by
  cases h with
  | natural hds =>
    have hall : ds.all Char.isDigit = true := List.all_eq_true.mpr hds.isDigit
    have hsign : ∀ cs, ds ≠ '-' :: cs := by
      rintro cs rfl
      simp at hall
    rw [decimal?, if_pos hall, ← hds.value]
    · rfl
    · exact hsign
  | negative hds hpos =>
    rw [decimal?, if_pos (List.all_eq_true.mpr hds.isDigit), ← hds.value]
    rfl

theorem decimal?_toString (i : Int) : decimal? (toString i).toList = some i :=
  decimal?_of_isDecimal (isDecimal_iff.mpr rfl)

/-! ## keys -/

def InInt64 (i : Int) : Prop := Int64.minValue.toInt ≤ i ∧ i ≤ Int64.maxValue.toInt

theorem fitsInt64_iff : Json.fitsInt64 i = true ↔ InInt64 i := by
  rw [Json.fitsInt64, Bool.and_eq_true, decide_eq_true_iff, decide_eq_true_iff]
  exact Iff.rfl

/-- the reader, with the text of the number that it is compared with -/
theorem Key.ofText_cases (s : String) :
    (∃ i, s = toString i ∧ Json.fitsInt64 i = true ∧ Key.ofText s = .int i) ∨
    (∀ i, s = toString i → Json.fitsInt64 i = false) ∧ Key.ofText s = .text s := by
  by_cases h : ∃ i, s = toString i ∧ Json.fitsInt64 i = true
  · obtain ⟨i, rfl, hfits⟩ := h
    refine .inl ⟨i, rfl, hfits, ?_⟩
    rw [Key.ofText, decimal?_toString]
    simp only [hfits, beq_self_eq_true, Bool.and_self, if_pos]
  · refine .inr ⟨fun i hi => Bool.eq_false_iff.mpr fun hfits => h ⟨i, hi, hfits⟩, ?_⟩
    unfold Key.ofText
    split
    case h_1 i _ =>
      refine if_neg fun hboth => ?_
      rw [Bool.and_eq_true, beq_iff_eq] at hboth
      exact h ⟨i, hboth.2.symm, hboth.1⟩
    case h_2 => rfl

theorem Key.ofText_eq_int_iff :
    Key.ofText s = .int i ↔ IsDecimal s.toList i ∧ InInt64 i := by
  rw [isDecimal_iff, String.toList_inj, ← fitsInt64_iff]
  rcases Key.ofText_cases s with ⟨k, rfl, hfits, hkey⟩ | ⟨hnone, hkey⟩
  · rw [hkey, Key.int.injEq]
    constructor
    · rintro rfl
      exact ⟨rfl, hfits⟩
    · rintro ⟨heq, -⟩
      exact Int.repr_injective heq
  · rw [hkey]
    simp only [reduceCtorEq, false_iff, not_and, Bool.not_eq_true]
    exact hnone i

theorem Key.ofText_eq_text_iff :
    Key.ofText s = .text u ↔ u = s ∧ ∀ i, IsDecimal s.toList i → ¬ InInt64 i := by
  simp only [isDecimal_iff, String.toList_inj, ← fitsInt64_iff, Bool.not_eq_true]
  rcases Key.ofText_cases s with ⟨k, rfl, hfits, hkey⟩ | ⟨hnone, hkey⟩
  · simp only [hkey, reduceCtorEq, false_iff, not_and]
    rintro - hnone
    exact Bool.noConfusion (hfits.symm.trans (hnone k rfl))
  · rw [hkey, Key.text.injEq, eq_comm, and_iff_left hnone]

theorem Key.ofText_injective : Function.Injective Key.ofText := by
  intro s u h
  cases hs : Key.ofText s with
  | int i =>
    have hsi := (Key.ofText_eq_int_iff.mp hs).1
    have hui := (Key.ofText_eq_int_iff.mp (h ▸ hs)).1
    rw [isDecimal_iff, String.toList_inj] at hsi hui
    rw [hsi, hui]
  | text w =>
    have hsw := (Key.ofText_eq_text_iff.mp hs).1
    have huw := (Key.ofText_eq_text_iff.mp (h ▸ hs)).1
    rw [← hsw, ← huw]

end TypeHint
