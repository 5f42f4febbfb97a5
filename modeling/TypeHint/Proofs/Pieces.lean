import TypeHint.Proofs.Blank
import TypeHint.Text.Pieces

/-!
# Pieces of a text

`pieces sep` is `List.splitOn sep`, and `stripLeading` undoes what is put in front.

* `pieces_cut`           a separator between two texts cuts there
* `pieces_append`        without one, the pieces that meet are joined
* `pieces_intercalate`   texts without separators are the pieces of their sequence
* `Blank.pieces`         blank texts have blank pieces
* `stripLeading_replicate`   any number of leading characters is dropped
-/

namespace TypeHint.Text

variable {sep : Char} {s w : List Char}

theorem pieces_eq_splitOn (sep : Char) (s : List Char) : pieces sep s = s.splitOn sep := by
  induction s with
  | nil => rfl
  | cons c s ih =>
    rw [pieces, ih, List.splitOn, List.splitOn, List.splitOnP_cons_eq_if_modifyHead]
    by_cases e : c = sep
    · rw [if_pos e, if_pos (beq_iff_eq.mpr e)]
    · rw [if_neg e, if_neg (mt beq_iff_eq.mp e)]
      cases hs : s.splitOnP (· == sep) with
      | nil => exact absurd hs (List.splitOnP_ne_nil _ _)
      | cons p ps => rfl

theorem pieces_cut (sep : Char) (s u : List Char) :
    pieces sep (s ++ sep :: u) = pieces sep s ++ pieces sep u := by
  simp only [pieces_eq_splitOn]
  exact List.splitOnP_append_cons s u (beq_self_eq_true sep)

theorem pieces_of_notMem (hs : sep ∉ s) : pieces sep s = [s] := by
  rw [pieces_eq_splitOn]
  refine List.splitOnP_eq_singleton fun c hc => beq_eq_false_iff_ne.mpr ?_
  rintro rfl
  exact hs hc

theorem pieces_intercalate {ps : List (List Char)} (hps : ∀ p ∈ ps, sep ∉ p) (hne : ps ≠ []) :
    pieces sep ([sep].intercalate ps) = ps := by
  rw [pieces_eq_splitOn]
  exact List.splitOn_intercalate sep hps hne

theorem pieces_append (sep : Char) (s u : List Char) : ∃ ps p q qs, pieces sep s = ps ++ [p] ∧
    pieces sep u = q :: qs ∧ pieces sep (s ++ u) = ps ++ (p ++ q) :: qs := by
  induction s with
  | nil =>
    have hne : pieces sep u ≠ [] := by
      rw [pieces_eq_splitOn]
      exact List.splitOnP_ne_nil _ _
    obtain ⟨q, qs, hu⟩ := List.exists_cons_of_ne_nil hne
    exact ⟨[], [], q, qs, rfl, hu, hu⟩
  | cons c s ih =>
    obtain ⟨ps, p, q, qs, hs, hu, hsu⟩ := ih
    rw [List.cons_append, pieces, pieces, hs, hsu]
    by_cases hc : c = sep
    · rw [if_pos hc, if_pos hc]
      exact ⟨[] :: ps, p, q, qs, rfl, hu, rfl⟩
    · rw [if_neg hc, if_neg hc]
      cases ps with
      | nil => exact ⟨[], c :: p, q, qs, rfl, hu, rfl⟩
      | cons r ps => exact ⟨(c :: r) :: ps, p, q, qs, rfl, hu, rfl⟩

theorem infix_intercalate {sep s : List Char} {ss : List (List Char)} (hs : s ∈ ss) :
    s <:+: sep.intercalate ss := by
  induction ss with
  | nil => cases hs
  | cons u us ih =>
    cases us with
    | nil =>
      obtain rfl := List.mem_singleton.mp hs
      exact List.intercalate_singleton ▸ List.infix_refl s
    | cons v vs =>
      rw [List.intercalate_cons_cons]
      rcases List.mem_cons.mp hs with rfl | hs
      · rw [List.append_assoc]
        exact (List.prefix_append _ _).isInfix
      · exact (ih hs).trans (List.suffix_append _ _).isInfix

theorem mem_of_mem_pieces {c : Char} {p : List Char} (hp : p ∈ pieces sep s) (hc : c ∈ p) :
    c ∈ s := by
  have hs : [sep].intercalate (pieces sep s) = s := by
    rw [pieces_eq_splitOn]
    exact List.intercalate_splitOn sep
  exact hs ▸ (infix_intercalate hp).subset hc

theorem Blank.pieces (hw : Blank w) {p : List Char} (hp : p ∈ pieces sep w) : Blank p :=
  fun c hc => hw c (mem_of_mem_pieces hp hc)

/-! ## leading characters -/

theorem stripLeading_replicate {ch : Char} {s : String} (hs : s.toList.head? ≠ some ch) (k : Nat) :
    stripLeading ch (String.ofList (List.replicate k ch) ++ s) = s := by
  have hdrop : s.toList.dropWhile (· == ch) = s.toList := by
    cases e : s.toList with
    | nil => rfl
    | cons c cs =>
      rw [e, List.head?_cons] at hs
      exact List.dropWhile_cons_of_neg fun hc => hs (congrArg some (beq_iff_eq.mp hc))
  rw [stripLeading, String.toList_append, String.toList_ofList,
    List.dropWhile_append_of_pos (by simp), hdrop, String.ofList_toList]

end TypeHint.Text
