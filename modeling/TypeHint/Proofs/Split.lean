import TypeHint.Hint

/-!
# Cutting outside brackets

`Hint.split` cuts a text at the separators outside all brackets.  A text that it runs over without
a cut and without changing the open brackets is passed as a whole.

* `Passes sep stack s`      `s` is passed as a whole while the brackets `stack` are open
* `Passes.angle`, `Passes.group`   a text in brackets is passed if its inside is
* `split_intercalate`       texts that are passed as a whole are the parts of their sequence
-/

namespace TypeHint.Hint

open Text

variable {sep c : Char} {stack s u : List Char}

def prepend (s : List Char) (ps : List (List Char)) : List (List Char) := s.foldr consPiece ps

theorem prepend_cons (c : Char) (s : List Char) (ps : List (List Char)) :
    prepend (c :: s) ps = consPiece c (prepend s ps) := rfl

theorem prepend_append (s u : List Char) (ps : List (List Char)) :
    prepend (s ++ u) ps = prepend s (prepend u ps) := List.foldr_append

theorem prepend_piece (s p : List Char) (ps : List (List Char)) :
    prepend s (p :: ps) = (s ++ p) :: ps := by
  induction s with
  | nil => rfl
  | cons c s ih => rw [prepend_cons, ih]; rfl

def brackets : List Char := ['<', '(', '>', ')']

theorem split_char (hc : c ∉ brackets) (rest : List Char) : split sep stack (c :: rest) =
    if c = sep ∧ stack = [] then ([] :: ·) <$> split sep stack rest
    else consPiece c <$> split sep stack rest := by
  have hne : ∀ b ∈ brackets, c ≠ b := fun b hb e => hc (e ▸ hb)
  have hopen : ¬ (c = '<' ∨ c = '(') := by
    rintro (e | e)
    · exact hne '<' (by decide) e
    · exact hne '(' (by decide) e
  have hclose : opening? c = none := by
    rw [opening?, if_neg (hne '>' (by decide)), if_neg (hne ')' (by decide))]
  rw [split, if_neg hopen, hclose]

/-! ## texts that are passed as a whole -/

/-- while the brackets `stack` are open, `s` is not cut and leaves them open -/
def Passes (sep : Char) (stack s : List Char) : Prop :=
  ∀ rest, split sep stack (s ++ rest) = prepend s <$> split sep stack rest

theorem Passes.nil (sep : Char) (stack : List Char) : Passes sep stack [] := by
  intro rest
  rw [List.nil_append]
  cases split sep stack rest <;> rfl

theorem Passes.append (hs : Passes sep stack s) (hu : Passes sep stack u) :
    Passes sep stack (s ++ u) := by
  intro rest
  rw [List.append_assoc, hs, hu]
  cases split sep stack rest with
  | error e => rfl
  | ok ps => exact congrArg Except.ok (prepend_append s u ps).symm

theorem Passes.char (hc : c ∉ brackets) (hsep : c = sep → stack ≠ []) : Passes sep stack [c] := by
  intro rest
  show split sep stack (c :: rest) = _
  rw [split_char hc, if_neg fun h => hsep h.1 h.2]
  rfl

theorem split_open (hc : c = '<' ∨ c = '(') (sep : Char) (stack rest : List Char) :
    split sep stack (c :: rest) = consPiece c <$> split sep (c :: stack) rest := by
  rw [split, if_pos hc]

theorem split_close_angle (sep : Char) (stack rest : List Char) :
    split sep ('<' :: stack) ('>' :: rest) = consPiece '>' <$> split sep stack rest := rfl

theorem split_close_group (sep : Char) (stack rest : List Char) :
    split sep ('(' :: stack) (')' :: rest) = consPiece ')' <$> split sep stack rest := rfl

theorem Passes.enclosed {o k : Char} (ho : o = '<' ∨ o = '(')
    (hk : ∀ rest, split sep (o :: stack) (k :: rest) = consPiece k <$> split sep stack rest)
    (hs : Passes sep (o :: stack) s) : Passes sep stack (o :: (s ++ [k])) := by
  intro rest
  rw [List.cons_append, split_open ho, List.append_assoc, hs, List.singleton_append, hk]
  cases split sep stack rest with
  | error e => rfl
  | ok ps =>
    show Except.ok (consPiece o (prepend s (consPiece k ps))) = Except.ok _
    rw [prepend_cons, prepend_append]
    rfl

theorem Passes.angle (hs : Passes sep ('<' :: stack) s) : Passes sep stack ('<' :: (s ++ ['>'])) :=
  .enclosed (Or.inl rfl) (split_close_angle sep stack) hs

theorem Passes.group (hs : Passes sep ('(' :: stack) s) : Passes sep stack ('(' :: (s ++ [')'])) :=
  .enclosed (Or.inr rfl) (split_close_group sep stack) hs

theorem Passes.intercalate (hc : Passes sep stack [c]) {ss : List (List Char)}
    (hss : ∀ s ∈ ss, Passes sep stack s) : Passes sep stack ([c].intercalate ss) := by
  induction ss with
  | nil => exact .nil sep stack
  | cons s ss ih =>
    have hs := hss s List.mem_cons_self
    cases ss with
    | nil =>
      rw [List.intercalate_singleton]
      exact hs
    | cons u us =>
      rw [List.intercalate_cons_cons]
      exact (hs.append hc).append (ih fun v hv => hss v (List.mem_cons_of_mem _ hv))

/-! ## parts -/

theorem split_of_passes (hs : Passes sep [] s) : split sep [] s = .ok [s] := by
  have h := hs []
  rw [List.append_nil] at h
  rw [h]
  show Except.ok (prepend s [[]]) = _
  rw [prepend_piece, List.append_nil]

theorem split_sep (hsep : sep ∉ brackets) (hs : Passes sep [] s) (rest : List Char) :
    split sep [] (s ++ sep :: rest) = (s :: ·) <$> split sep [] rest := by
  rw [hs, split_char hsep, if_pos ⟨rfl, rfl⟩]
  cases split sep [] rest with
  | error e => rfl
  | ok ps =>
    show Except.ok (prepend s ([] :: ps)) = _
    rw [prepend_piece, List.append_nil]
    rfl

/-- texts that are passed as a whole are the parts of their sequence -/
theorem split_intercalate (hsep : sep ∉ brackets) {ss : List (List Char)} (hne : ss ≠ [])
    (hss : ∀ s ∈ ss, Passes sep [] s) :
    split sep [] ([sep].intercalate ss) = .ok ss := by
  induction ss with
  | nil => exact absurd rfl hne
  | cons s ss ih =>
    have hs := hss s List.mem_cons_self
    cases ss with
    | nil =>
      rw [List.intercalate_singleton]
      exact split_of_passes hs
    | cons u us =>
      rw [List.intercalate_cons_cons, List.append_assoc, List.singleton_append,
        split_sep hsep hs,
        ih (List.cons_ne_nil _ _) fun v hv => hss v (List.mem_cons_of_mem _ hv)]
      rfl

end TypeHint.Hint
