import Mathlib.Data.List.DropRight
import TypeHint.Text.Blank

/-!
# Blanks around a text

* `Blank s`          `s` holds nothing but blanks
* `Tight s`          `s` has no blank at either end
* `exists_trim`      a text is its trimmed text with blanks around it
* `trim_of_tight`, `trim_surround`   and these are all that trimming takes away
-/

namespace TypeHint.Text

variable {s w w' : List Char}

def Blank (s : List Char) : Prop := ∀ c ∈ s, isBlank c = true

def Tight (s : List Char) : Prop :=
  s.head?.any isBlank = false ∧ s.getLast?.any isBlank = false

instance (s : List Char) : Decidable (Blank s) :=
  decidable_of_iff (s.all isBlank = true) List.all_eq_true

instance (s : List Char) : Decidable (Tight s) := inferInstanceAs (Decidable (_ ∧ _))

theorem Blank.nil : Blank [] := fun _ hc => (by cases hc)

theorem Blank.reverse (hw : Blank w) : Blank w.reverse :=
  fun c hc => hw c (List.mem_reverse.mp hc)

/-! ## one end -/

theorem trimStart_append (hw : Blank w) (s : List Char) : trimStart (w ++ s) = trimStart s :=
  List.dropWhile_append_of_pos hw

theorem trimEnd_append (hw : Blank w) (s : List Char) : trimEnd (s ++ w) = trimEnd s := by
  unfold trimEnd
  rw [List.reverse_append, trimStart_append hw.reverse]

theorem trimStart_of_head (hs : s.head?.any isBlank = false) : trimStart s = s := by
  cases s with
  | nil => rfl
  | cons c s =>
    have hc : ¬ isBlank c = true := by simpa using hs
    exact List.dropWhile_cons_of_neg hc

theorem trimEnd_of_getLast (hs : s.getLast?.any isBlank = false) : trimEnd s = s := by
  rw [← List.head?_reverse] at hs
  rw [trimEnd, trimStart_of_head hs, List.reverse_reverse]

theorem head?_trimStart (s : List Char) : (trimStart s).head?.any isBlank = false := by
  have hhead := List.head?_dropWhile_not isBlank s
  unfold trimStart
  cases e : (s.dropWhile isBlank).head? with
  | none => rfl
  | some c => rw [e] at hhead; exact hhead

theorem getLast?_trimEnd (s : List Char) : (trimEnd s).getLast?.any isBlank = false := by
  rw [trimEnd, List.getLast?_reverse]
  exact head?_trimStart _

theorem exists_trimStart (s : List Char) : ∃ w, Blank w ∧ w ++ trimStart s = s :=
  ⟨s.takeWhile isBlank, fun _ hc => List.mem_takeWhile_imp hc, List.takeWhile_append_dropWhile⟩

theorem exists_trimEnd (s : List Char) : ∃ w, Blank w ∧ trimEnd s ++ w = s := by
  obtain ⟨w, hw, e⟩ := exists_trimStart s.reverse
  refine ⟨w.reverse, hw.reverse, ?_⟩
  rw [trimEnd, ← List.reverse_append, e, List.reverse_reverse]

theorem trimEnd_cons {c : Char} (hc : isBlank c = false) (s : List Char) :
    trimEnd (c :: s) = c :: trimEnd s := by
  have hc' : trimStart [c] = [c] := trimStart_of_head hc
  have hdrop : trimStart (s.reverse ++ [c]) = trimStart s.reverse ++ [c] := by
    have happend : trimStart (s.reverse ++ [c]) =
      if (trimStart s.reverse).isEmpty then trimStart [c] else trimStart s.reverse ++ [c] :=
        List.dropWhile_append
    rw [happend, hc']
    split
    · rename_i he
      rw [List.isEmpty_iff.mp he, List.nil_append]
    · rfl
  rw [trimEnd, List.reverse_cons, hdrop, List.reverse_append]
  rfl

/-! ## both ends -/

theorem exists_trim (s : List Char) : ∃ w w', Blank w ∧ Blank w' ∧ w ++ trim s ++ w' = s := by
  obtain ⟨w, hw, e⟩ := exists_trimStart s
  obtain ⟨w', hw', e'⟩ := exists_trimEnd (trimStart s)
  refine ⟨w, w', hw, hw', ?_⟩
  rw [trim, List.append_assoc, e', e]

theorem tight_trim (s : List Char) : Tight (trim s) := by
  refine ⟨?_, getLast?_trimEnd _⟩
  obtain ⟨w, -, e⟩ := exists_trimEnd (trimStart s)
  have hhead := head?_trimStart s
  rw [← e, List.head?_append] at hhead
  unfold trim
  cases h : (trimEnd (trimStart s)).head? with
  | none => rfl
  | some c => rw [h] at hhead; exact hhead

theorem trim_ne_nil {c : Char} (hc : c ∈ s) (hb : isBlank c = false) : trim s ≠ [] := by
  intro he
  obtain ⟨w, w', hw, hw', e⟩ := exists_trim s
  rw [he, List.append_nil] at e
  rw [← e] at hc
  rcases List.mem_append.mp hc with hc | hc
  · exact Bool.false_ne_true (hb.symm.trans (hw c hc))
  · exact Bool.false_ne_true (hb.symm.trans (hw' c hc))

theorem trim_of_tight (hs : Tight s) : trim s = s := by
  rw [trim, trimStart_of_head hs.1, trimEnd_of_getLast hs.2]

/-- blanks around a text do not change what is left of it -/
theorem trim_surround (hw : Blank w) (hw' : Blank w') (s : List Char) :
    trim (w ++ s ++ w') = trim s := by
  unfold trim
  rw [List.append_assoc, trimStart_append hw]
  have happend : trimStart (s ++ w') =
      if (trimStart s).isEmpty then trimStart w' else trimStart s ++ w' := List.dropWhile_append
  rw [happend]
  split
  · rename_i he
    have hblank : trimStart w' = [] := List.dropWhile_eq_nil_iff.mpr hw'
    rw [hblank, List.isEmpty_iff.mp he]
  · exact trimEnd_append hw' _

theorem trim_trimEnd (s : List Char) : trim (trimEnd s) = trim s := by
  obtain ⟨w, hw, e⟩ := exists_trimEnd s
  have h := trim_surround .nil hw (trimEnd s)
  rw [List.nil_append, e] at h
  exact h.symm

end TypeHint.Text
