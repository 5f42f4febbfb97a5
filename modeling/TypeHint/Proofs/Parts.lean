import TypeHint.Proofs.Answers
import TypeHint.Proofs.Blank
import TypeHint.Proofs.Split

/-!
# The parts of a text

What `Hint.split` does with a character does not depend on what follows it (`split_step`): the
character is kept in the current piece, or it cuts, or the text is refused.

* `split_append`        a text that is passed as a whole joins the last piece before it
* `split_pieces`        the pieces make up the text, and none of them can be cut again
* `parts_surround`      blanks around a text do not change its parts
-/

namespace TypeHint.Hint

open Text

variable {sep c : Char} {stack s u w w' : List Char} {ps qs : List (List Char)}

/-! ## one character -/

/-- a character is kept, or it cuts, or the text is refused, whatever follows -/
theorem split_step (sep c : Char) (stack : List Char) :
    (∃ stack', ∀ rest, split sep stack (c :: rest) = consPiece c <$> split sep stack' rest) ∨
      (c = sep ∧ stack = [] ∧
        ∀ rest, split sep stack (c :: rest) = ([] :: ·) <$> split sep [] rest) ∨
      ∃ flaw, ∀ rest, split sep stack (c :: rest) = .error flaw := by
  by_cases ho : c = '<' ∨ c = '('
  · exact Or.inl ⟨c :: stack, fun rest => split_open ho sep stack rest⟩
  · cases hk : opening? c with
    | some o =>
      cases stack with
      | nil =>
        refine Or.inr (Or.inr ⟨.unbalanced c, fun rest => ?_⟩)
        rw [split, if_neg ho, hk]
      | cons o' stack =>
        by_cases e : o' = o
        · refine Or.inl ⟨stack, fun rest => ?_⟩
          rw [split, if_neg ho, hk]
          exact if_pos e
        · refine Or.inr (Or.inr ⟨.unbalanced c, fun rest => ?_⟩)
          rw [split, if_neg ho, hk]
          exact if_neg e
    | none =>
      have hplain : ∀ rest, split sep stack (c :: rest) =
          if c = sep ∧ stack = [] then ([] :: ·) <$> split sep stack rest
          else consPiece c <$> split sep stack rest := by
        intro rest
        rw [split, if_neg ho, hk]
      by_cases e : c = sep ∧ stack = []
      · refine Or.inr (Or.inl ⟨e.1, e.2, fun rest => ?_⟩)
        rw [hplain, if_pos e, e.2]
      · refine Or.inl ⟨stack, fun rest => ?_⟩
        rw [hplain, if_neg e]

theorem consPiece_ne_nil (c : Char) (ps : List (List Char)) : consPiece c ps ≠ [] := by
  cases ps <;> exact List.cons_ne_nil _ _

theorem split_ne_nil (hs : split sep stack s = .ok ps) : ps ≠ [] := by
  cases s with
  | nil =>
    cases stack with
    | nil => cases hs; exact List.cons_ne_nil _ _
    | cons o stack => cases hs
  | cons c s =>
    rcases split_step sep c stack with ⟨stack', hkeep⟩ | ⟨-, -, hcut⟩ | ⟨flaw, hno⟩
    · rw [hkeep] at hs
      obtain ⟨qs, -, rfl⟩ := map_eq_ok.mp hs
      exact consPiece_ne_nil c qs
    · rw [hcut] at hs
      obtain ⟨qs, -, rfl⟩ := map_eq_ok.mp hs
      exact List.cons_ne_nil _ _
    · rw [hno] at hs
      cases hs

/-! ## texts at the end -/

def appendLast (u : List Char) : List (List Char) → List (List Char)
  | [] => [u]
  | [p] => [p ++ u]
  | p :: q :: ps => p :: appendLast u (q :: ps)

theorem consPiece_appendLast (c : Char) (u : List Char) (ps : List (List Char)) :
    consPiece c (appendLast u ps) = appendLast u (consPiece c ps) := by
  match ps with
  | [] => rfl
  | [p] => rfl
  | p :: q :: ps => rfl

theorem cons_appendLast (p u : List Char) (hne : ps ≠ []) :
    p :: appendLast u ps = appendLast u (p :: ps) := by
  cases ps with
  | nil => exact absurd rfl hne
  | cons q ps => rfl

/-- a text that is passed everywhere joins the last piece of the text before it -/
theorem split_append (hu : ∀ stack, Passes sep stack u) :
    split sep stack (s ++ u) = appendLast u <$> split sep stack s := by
  induction s generalizing stack with
  | nil =>
    have h := hu stack []
    rw [List.append_nil] at h
    rw [List.nil_append, h]
    cases stack with
    | nil =>
      show Except.ok (prepend u [[]]) = Except.ok [[] ++ u]
      rw [prepend_piece, List.append_nil, List.nil_append]
    | cons o stack => rfl
  | cons c s ih =>
    rw [List.cons_append]
    rcases split_step sep c stack with ⟨stack', hkeep⟩ | ⟨-, -, hcut⟩ | ⟨flaw, hno⟩
    · rw [hkeep, hkeep, ih]
      cases split sep stack' s with
      | error e => rfl
      | ok ps => exact congrArg Except.ok (consPiece_appendLast c u ps)
    · rw [hcut, hcut, ih]
      cases hs : split sep [] s with
      | error e => rfl
      | ok ps => exact congrArg Except.ok (cons_appendLast [] u (split_ne_nil hs))
    · rw [hno, hno]
      rfl

/-! ## pieces -/

/-- the pieces make up the text; the first closes what was open before the text, and none can be cut
again -/
theorem split_pieces_of_stack (hs : split sep stack s = .ok ps) : ∃ p qs, ps = p :: qs ∧
    s = [sep].intercalate (p :: qs) ∧ split sep stack p = .ok [p] ∧
      ∀ q ∈ qs, split sep [] q = .ok [q] := by
  induction s generalizing stack ps with
  | nil =>
    cases stack with
    | nil =>
      cases hs
      exact ⟨[], [], rfl, rfl, rfl, fun q hq => (by cases hq)⟩
    | cons o stack => cases hs
  | cons c s ih =>
    rcases split_step sep c stack with ⟨stack', hkeep⟩ | ⟨rfl, rfl, hcut⟩ | ⟨flaw, hno⟩
    · rw [hkeep] at hs
      obtain ⟨ps', hps', rfl⟩ := map_eq_ok.mp hs
      obtain ⟨p, qs, rfl, rfl, hp, hqs⟩ := ih hps'
      refine ⟨c :: p, qs, rfl, ?_, ?_, hqs⟩
      · cases qs with
        | nil => rw [List.intercalate_singleton, List.intercalate_singleton]
        | cons q qs =>
          rw [List.intercalate_cons_cons, List.intercalate_cons_cons]
          rfl
      · rw [hkeep, hp]
        rfl
    · rw [hcut] at hs
      obtain ⟨ps', hps', rfl⟩ := map_eq_ok.mp hs
      obtain ⟨p, qs, rfl, rfl, hp, hqs⟩ := ih hps'
      refine ⟨[], p :: qs, rfl, ?_, rfl, ?_⟩
      · rw [List.intercalate_cons_cons]
        rfl
      · intro q hq
        rcases List.mem_cons.mp hq with rfl | hq
        · exact hp
        · exact hqs q hq
    · rw [hno] at hs
      cases hs

theorem split_pieces (hs : split sep [] s = .ok ps) :
    s = [sep].intercalate ps ∧ ∀ p ∈ ps, split sep [] p = .ok [p] := by
  obtain ⟨p, qs, rfl, hcat, hp, hqs⟩ := split_pieces_of_stack hs
  refine ⟨hcat, fun q hq => ?_⟩
  rcases List.mem_cons.mp hq with rfl | hq
  · exact hp
  · exact hqs q hq

/-! ## blanks -/

theorem Passes.blank (hsep : isBlank sep = false) (hw : Blank w) : Passes sep stack w := by
  induction w with
  | nil => exact .nil sep stack
  | cons c w ih =>
    have hc := hw c List.mem_cons_self
    have hnb : c ∉ brackets := by
      intro hb
      have hall : (brackets.all fun b => !isBlank b) = true := by decide
      have hno := List.all_eq_true.mp hall c hb
      rw [hc] at hno
      cases hno
    have hcs : c ≠ sep := by
      rintro rfl
      rw [hc] at hsep
      cases hsep
    have hone : Passes sep stack [c] := .char hnb fun e => absurd e hcs
    exact hone.append (ih fun d hd => hw d (List.mem_cons_of_mem _ hd))

theorem split_surround (hsep : isBlank sep = false) (hw : Blank w) (hw' : Blank w') :
    split sep [] (w ++ s ++ w') = (fun ps => prepend w (appendLast w' ps)) <$> split sep [] s := by
  rw [List.append_assoc, Passes.blank hsep hw, split_append fun stack => .blank hsep hw']
  cases split sep [] s <;> rfl

theorem map_trim_appendLast (hw : Blank w) (hne : ps ≠ []) :
    (appendLast w ps).map trim = ps.map trim := by
  induction ps with
  | nil => exact absurd rfl hne
  | cons p ps ih =>
    cases ps with
    | nil =>
      show [trim (p ++ w)] = [trim p]
      rw [← trim_surround .nil hw p]
      rfl
    | cons q ps =>
      show trim p :: (appendLast w (q :: ps)).map trim = trim p :: (q :: ps).map trim
      rw [ih (List.cons_ne_nil _ _)]

theorem map_trim_prepend (hw : Blank w) (hne : ps ≠ []) :
    (prepend w ps).map trim = ps.map trim := by
  cases ps with
  | nil => exact absurd rfl hne
  | cons p ps =>
    have hp := trim_surround hw .nil p
    rw [List.append_nil] at hp
    rw [prepend_piece, List.map_cons, List.map_cons, hp]

theorem appendLast_ne_nil (u : List Char) (ps : List (List Char)) : appendLast u ps ≠ [] := by
  match ps with
  | [] => exact List.cons_ne_nil _ _
  | [p] => exact List.cons_ne_nil _ _
  | p :: q :: ps => exact List.cons_ne_nil _ _

theorem split_trim (hsep : isBlank sep = false) (hs : split sep [] s = .ok [s]) :
    split sep [] (trim s) = .ok [trim s] := by
  obtain ⟨w, w', hw, hw', e⟩ := exists_trim s
  rw [← e, split_surround hsep hw hw'] at hs
  obtain ⟨ps, hps, hcat⟩ := map_eq_ok.mp hs
  match ps with
  | [] => exact absurd rfl (split_ne_nil hps)
  | [p] =>
    have hp := (split_pieces hps).1
    rw [List.intercalate_singleton] at hp
    rw [hps, hp]
  | p :: q :: ps =>
    have hlen : prepend w (p :: appendLast w' (q :: ps)) = [_] := hcat
    rw [prepend_piece] at hlen
    exact absurd (List.cons.inj hlen).2 (appendLast_ne_nil _ _)

/-! ## trimmed parts -/

theorem parts_eq_bind (sep : Char) (s : List Char) : parts sep s =
    ((·.map trim) <$> split sep [] s) >>= fun ps => if ps.all (!·.isEmpty) then .ok ps
      else .error (if ps.length = 1 then .emptyType else .emptyPart sep) := by
  unfold parts
  cases split sep [] s with
  | error e => rfl
  | ok ps => rfl

theorem parts_surround (hsep : isBlank sep = false) (hw : Blank w) (hw' : Blank w')
    (s : List Char) : parts sep (w ++ s ++ w') = parts sep s := by
  rw [parts_eq_bind, parts_eq_bind, split_surround hsep hw hw']
  congr 1
  cases hs : split sep [] s with
  | error e => rfl
  | ok ps =>
    apply congrArg Except.ok
    show (prepend w (appendLast w' ps)).map trim = ps.map trim
    rw [map_trim_prepend hw (appendLast_ne_nil w' ps), map_trim_appendLast hw' (split_ne_nil hs)]

theorem parts_trim (hsep : isBlank sep = false) (s : List Char) :
    parts sep (trim s) = parts sep s := by
  obtain ⟨w, w', hw, hw', e⟩ := exists_trim s
  rw [← parts_surround hsep hw hw' (trim s), e]

theorem parts_eq_ok_iff : parts sep s = .ok qs ↔
    ∃ ps, split sep [] s = .ok ps ∧ ps.map trim = qs ∧ ∀ q ∈ qs, q ≠ [] := by
  rw [parts_eq_bind]
  cases split sep [] s with
  | error e => exact ⟨fun h => (by cases h), fun ⟨_, h, _⟩ => (by cases h)⟩
  | ok ps =>
    show (if (ps.map trim).all (!·.isEmpty) = true then _ else _) = Except.ok qs ↔ _
    have hall : (ps.map trim).all (!·.isEmpty) = true ↔ ∀ q ∈ ps.map trim, q ≠ [] := by
      simp
    constructor
    · intro h
      split at h
      · rename_i hne
        cases h
        exact ⟨ps, rfl, rfl, hall.mp hne⟩
      · cases h
    · rintro ⟨ps', h, rfl, hne⟩
      cases h
      rw [if_pos (hall.mpr hne)]

end TypeHint.Hint
