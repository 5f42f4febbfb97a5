import TypeHint.Proofs.Grammar

/-!
# Relative names in a text

Marks cut a text into runs.  A run that is a relative name, but for blanks around it, is a leaf of the
text.  Here leaves are replaced in the text, without reading it as a type.

* `Hint.runs`           the stretches between the marks
* `Hint.leaves`         the relative names among them
* `Hint.rewrite f`      the text with each leaf `x` replaced by `f x`
* `Hint.cut_induction`  induction over the runs of a text
* `Hint.rewrite_trim`   blanks at the ends stay as they are
* `Hint.rewrite_inv`    so do the marks, and nothing else is one afterwards
-/

namespace TypeHint.Hint

open Text

variable {f g : List Char → List Char} {s u w w' x : List Char} {m : Char}

/-! ## runs -/

/-- the stretches of a text between its marks: the first one, then each mark with the next -/
def runs : List Char → List Char × List (Char × List Char)
  | [] => ([], [])
  | c :: cs =>
    if c ∈ marks then ([], (c, (runs cs).1) :: (runs cs).2) else (c :: (runs cs).1, (runs cs).2)

theorem runs_mark (hm : m ∈ marks) (s u : List Char) :
    runs (s ++ m :: u) = ((runs s).1, (runs s).2 ++ (m, (runs u).1) :: (runs u).2) := by
  induction s with
  | nil => simp [runs, hm]
  | cons c s ih =>
    simp only [List.cons_append, runs, ih]
    split <;> rfl

theorem runs_unmarked (hs : Unmarked s) : runs s = (s, []) := by
  induction s with
  | nil => rfl
  | cons c s ih =>
    obtain ⟨hc, hs⟩ := List.forall_mem_cons.mp hs
    rw [runs, if_neg hc, ih hs]

/-- a text is a run, or a run, a mark and a text -/
@[elab_as_elim]
theorem cut_induction {motive : List Char → Prop} (s : List Char)
    (unmarked : ∀ s, Unmarked s → motive s)
    (mark : ∀ u m rest, Unmarked u → m ∈ marks → motive u → motive rest →
      motive (u ++ m :: rest)) : motive s := by
  suffices h : ∀ u, Unmarked u → motive (u ++ s) from h [] nofun
  induction s with
  | nil =>
    intro u hu
    rw [List.append_nil]
    exact unmarked u hu
  | cons c s ih =>
    intro u hu
    by_cases hc : c ∈ marks
    · exact mark u c s hu hc (unmarked u hu) (ih [] nofun)
    · rw [List.append_cons]
      refine ih _ fun d hd => ?_
      rcases List.mem_append.mp hd with hd | hd
      · exact hu d hd
      · rwa [List.mem_singleton.mp hd]

/-! ## leaves -/

/-- a path that is neither the name or an alias of a primitive type nor `array` -/
def isRelative (x : List Char) : Bool :=
  Name.isValid x && (Primitive.ofName? (String.ofList x)).isNone && x != "array".toList

def leaves (s : List Char) : List (List Char) :=
  (((runs s).1 :: (runs s).2.map Prod.snd).map trim).filter isRelative

theorem leaves_mark (hm : m ∈ marks) (s u : List Char) :
    leaves (s ++ m :: u) = leaves s ++ leaves u := by
  simp [leaves, runs_mark hm, ← List.filter_append]

theorem leaves_unmarked (hs : Unmarked s) : leaves s = [trim s].filter isRelative := by
  rw [leaves, runs_unmarked hs]
  rfl

theorem isRelative_iff : isRelative x = true ↔
    Name.IsPath x ∧ (∀ p, ¬ Primitive.Called p x) ∧ x ≠ "array".toList := by
  rw [isRelative, Bool.and_eq_true, Bool.and_eq_true, Name.isValid_iff, Option.isNone_iff_eq_none,
    Primitive.ofName?_eq_none_iff, bne_iff_ne, and_assoc]

theorem leaves_blank_append (hw : Blank w) (s : List Char) : leaves (w ++ s) = leaves s := by
  induction s using cut_induction with
  | unmarked s hs =>
    have hall : Unmarked (w ++ s) := List.forall_mem_append.mpr ⟨hw.unmarked, hs⟩
    have htrim := trim_surround hw Blank.nil s
    rw [List.append_nil] at htrim
    rw [leaves_unmarked hall, leaves_unmarked hs, htrim]
  | mark u m rest hu hm ihu ih =>
    rw [← List.append_assoc, leaves_mark hm, leaves_mark hm, ihu]

theorem leaves_append_blank (hw : Blank w) (s : List Char) : leaves (s ++ w) = leaves s := by
  induction s using cut_induction with
  | unmarked s hs =>
    have hall : Unmarked (s ++ w) := List.forall_mem_append.mpr ⟨hs, hw.unmarked⟩
    have htrim := trim_surround Blank.nil hw s
    rw [List.nil_append] at htrim
    rw [leaves_unmarked hall, leaves_unmarked hs, htrim]
  | mark u m rest hu hm ihu ih =>
    rw [List.append_assoc, List.cons_append, leaves_mark hm, leaves_mark hm, ih]

theorem leaves_trim (s : List Char) : leaves (trim s) = leaves s := by
  obtain ⟨w, w', hw, hw', e⟩ := exists_trim s
  rw [← leaves_blank_append hw (trim s), ← leaves_append_blank hw' (w ++ trim s), e]

theorem leaves_intercalate (hm : m ∈ marks) (ps : List (List Char)) :
    leaves ([m].intercalate ps) = ps.flatMap leaves := by
  induction ps with
  | nil => rfl
  | cons p ps ih =>
    cases ps with
    | nil => rw [List.intercalate_singleton, List.flatMap_singleton]
    | cons q ps =>
      rw [List.intercalate_cons_cons, List.append_assoc, List.singleton_append, leaves_mark hm, ih]
      rfl

theorem leaves_relative (hx : isRelative x = true) (ht : Tight x) : leaves x = [x] := by
  have hs : Unmarked x := (isRelative_iff.mp hx).1.unmarked
  rw [leaves_unmarked hs, trim_of_tight ht]
  simp [hx]

/-! ## replacing leaves -/

def word (f : List Char → List Char) (x : List Char) : List Char :=
  if isRelative x then f x else x

/-- a run, in which the blanks around a relative name stay -/
def respell (f : List Char → List Char) (run : List Char) : List Char :=
  if isRelative (trim run) then
    run.takeWhile isBlank ++ f (trim run) ++ (run.reverse.takeWhile isBlank).reverse
  else run

/-- the text with each leaf `x` replaced by `f x` -/
def rewrite (f : List Char → List Char) (s : List Char) : List Char :=
  respell f (runs s).1 ++ (runs s).2.flatMap fun r => r.1 :: respell f r.2

theorem rewrite_mark (hm : m ∈ marks) (s u : List Char) :
    rewrite f (s ++ m :: u) = rewrite f s ++ m :: rewrite f u := by
  simp [rewrite, runs_mark hm]

theorem takeWhile_surround (hw : Blank w) (hx : x.head?.any isBlank = false) (hne : x ≠ [])
    (u : List Char) : (w ++ x ++ u).takeWhile isBlank = w := by
  cases x with
  | nil => exact absurd rfl hne
  | cons c x =>
    have hc : ¬ isBlank c = true := by simpa using hx
    rw [List.append_assoc, List.takeWhile_append_of_pos hw, List.cons_append,
      List.takeWhile_cons_of_neg hc, List.append_nil]

/-- of a run the word changes, and the blanks around it stay -/
theorem respell_surround (hw : Blank w) (hx : Tight x) (hw' : Blank w') :
    respell f (w ++ x ++ w') = w ++ word f x ++ w' := by
  have htrim : trim (w ++ x ++ w') = x := by rw [trim_surround hw hw', trim_of_tight hx]
  unfold respell word
  rw [htrim]
  split
  · rename_i hrel
    have hne : x ≠ [] := (isRelative_iff.mp hrel).1.ne_nil
    have hstart : (w ++ x ++ w').takeWhile isBlank = w := takeWhile_surround hw hx.1 hne w'
    have hend : (w ++ x ++ w').reverse.takeWhile isBlank = w'.reverse := by
      rw [List.reverse_append, List.reverse_append, ← List.append_assoc]
      refine takeWhile_surround hw'.reverse ?_ (mt List.reverse_eq_nil_iff.mp hne) _
      rw [List.head?_reverse]
      exact hx.2
    rw [hstart, hend, List.reverse_reverse]
  · rfl

theorem rewrite_unmarked (hs : Unmarked s) : rewrite f s = respell f s := by
  rw [rewrite, runs_unmarked hs]
  exact List.append_nil _

theorem rewrite_nil (f : List Char → List Char) : rewrite f [] = [] := rfl

theorem isBlank_mark (hm : m ∈ marks) : isBlank m = false := by
  rw [← Bool.not_eq_true]
  intro hb
  have hblank : Blank [m] := List.forall_mem_singleton.mpr hb
  exact hblank.unmarked m (List.mem_singleton_self m) hm

theorem exists_word (hs : Unmarked s) (f : List Char → List Char) :
    ∃ w x w', Blank w ∧ Tight x ∧ Blank w' ∧ Unmarked x ∧ s = w ++ x ++ w' ∧
      rewrite f s = w ++ word f x ++ w' := by
  obtain ⟨w, w', hw, hw', e⟩ := exists_trim s
  have hx : Unmarked (trim s) := fun c hc => hs c (e ▸ by simp [hc])
  refine ⟨w, trim s, w', hw, tight_trim s, hw', hx, e.symm, ?_⟩
  rw [rewrite_unmarked hs, ← respell_surround hw (tight_trim s) hw', e]

theorem rewrite_word (hs : Unmarked s) (ht : Tight s) : rewrite f s = word f s := by
  rw [rewrite_unmarked hs]
  simpa using respell_surround (f := f) Blank.nil ht Blank.nil

theorem rewrite_congr (hfg : ∀ x ∈ leaves s, f x = g x) : rewrite f s = rewrite g s := by
  induction s using cut_induction with
  | unmarked s hs =>
    rw [rewrite_unmarked hs, rewrite_unmarked hs]
    unfold respell
    split
    · rename_i hrel
      have hleaf : trim s ∈ leaves s := by
        rw [leaves_unmarked hs, List.mem_filter]
        exact ⟨List.mem_singleton_self _, hrel⟩
      rw [hfg _ hleaf]
    · rfl
  | mark u m rest hu hm ihu ih =>
    rw [leaves_mark hm, List.forall_mem_append] at hfg
    rw [rewrite_mark hm, rewrite_mark hm, ihu hfg.1, ih hfg.2]

theorem rewrite_blank_append (hw : Blank w) (s : List Char) :
    rewrite f (w ++ s) = w ++ rewrite f s := by
  induction s using cut_induction with
  | unmarked s hs =>
    obtain ⟨v, x, v', hv, hx, hv', -, rfl, e⟩ := exists_word hs f
    have hwv : Blank (w ++ v) := List.forall_mem_append.mpr ⟨hw, hv⟩
    have hall : Unmarked (w ++ (v ++ x ++ v')) := List.forall_mem_append.mpr ⟨hw.unmarked, hs⟩
    have hassoc : w ++ (v ++ x ++ v') = w ++ v ++ x ++ v' := by simp only [List.append_assoc]
    rw [e, rewrite_unmarked hall, hassoc, respell_surround hwv hx hv']
    simp only [List.append_assoc]
  | mark u m rest hu hm ihu ih =>
    rw [← List.append_assoc, rewrite_mark hm, rewrite_mark hm, ihu, List.append_assoc]

theorem rewrite_append_blank (hw : Blank w) (s : List Char) :
    rewrite f (s ++ w) = rewrite f s ++ w := by
  induction s using cut_induction with
  | unmarked s hs =>
    obtain ⟨v, x, v', hv, hx, hv', -, rfl, e⟩ := exists_word hs f
    have hwv : Blank (v' ++ w) := List.forall_mem_append.mpr ⟨hv', hw⟩
    have hall : Unmarked (v ++ x ++ v' ++ w) := List.forall_mem_append.mpr ⟨hs, hw.unmarked⟩
    rw [e, rewrite_unmarked hall, List.append_assoc (v ++ x), respell_surround hv hx hwv]
    simp only [List.append_assoc]
  | mark u m rest hu hm ihu ih =>
    rw [List.append_assoc, List.cons_append, rewrite_mark hm, rewrite_mark hm, ih,
      List.append_assoc, List.cons_append]

/-! ## absolute names -/

/-- each word stays as it is or becomes an absolute name -/
def MakesAbsolute (f : List Char → List Char) : Prop :=
  ∀ x, f x = x ∨
    ∃ p, f x = Name.separator :: p ∧ Name.IsPath p ∧ Tight (Name.separator :: p)

section

variable (hf : MakesAbsolute f)
include hf

theorem word_cases (x : List Char) : word f x = x ∨ isRelative x = true ∧
    ∃ p, word f x = Name.separator :: p ∧ Name.IsPath p ∧ Tight (Name.separator :: p) := by
  unfold word
  split
  · rename_i hrel
    exact (hf x).imp_right fun h => ⟨hrel, h⟩
  · exact .inl rfl

theorem tight_word (hx : Tight x) : Tight (word f x) := by
  obtain e | ⟨-, p, e, -, hp⟩ := word_cases hf x
  · rwa [e]
  · rwa [e]

theorem word_ne_nil (hx : x ≠ []) : word f x ≠ [] := by
  obtain e | ⟨-, p, e, -⟩ := word_cases hf x
  · rwa [e]
  · rw [e]
    exact List.cons_ne_nil _ _

theorem unmarked_word (hx : Unmarked x) : Unmarked (word f x) := by
  obtain e | ⟨-, p, e, hp, -⟩ := word_cases hf x
  · rwa [e]
  · rw [e]
    exact List.forall_mem_cons.mpr ⟨by decide, hp.unmarked⟩

theorem unmarked_rewrite (hs : Unmarked s) : Unmarked (rewrite f s) := by
  obtain ⟨w, x, w', hw, -, hw', hx, -, e⟩ := exists_word hs f
  rw [e]
  exact List.forall_mem_append.mpr
    ⟨List.forall_mem_append.mpr ⟨hw.unmarked, unmarked_word hf hx⟩, hw'.unmarked⟩

theorem rewrite_eq_nil (hs : rewrite f s = []) : s = [] := by
  induction s using cut_induction with
  | unmarked s hs' =>
    obtain ⟨w, x, w', -, -, -, -, rfl, e⟩ := exists_word hs' f
    rw [e, List.append_eq_nil_iff, List.append_eq_nil_iff] at hs
    obtain ⟨⟨rfl, hx⟩, rfl⟩ := hs
    have hx : x = [] := by
      by_contra hne
      exact word_ne_nil hf hne hx
    rw [hx]
    rfl
  | mark u m rest hu hm ihu ih =>
    rw [rewrite_mark hm] at hs
    cases (List.append_eq_nil_iff.mp hs).2

/-- no name is made where there was none, and a name that changes gets a separator -/
theorem rewrite_eq_or (s : List Char) : rewrite f s = s ∨ Name.separator ∈ rewrite f s := by
  induction s using cut_induction with
  | unmarked s hs =>
    obtain ⟨w, x, w', -, -, -, -, rfl, e⟩ := exists_word hs f
    rw [e]
    obtain e | ⟨-, p, e, -⟩ := word_cases hf x
    · exact .inl (by rw [e])
    · exact .inr (by simp [e])
  | mark u m rest hu hm ihu ih =>
    rw [rewrite_mark hm]
    obtain hu | hu := ihu
    · obtain hr | hr := ih
      · exact .inl (by rw [hu, hr])
      · exact .inr (by simp [hr])
    · exact .inr (by simp [hu])

/-! ## ends of a text -/

theorem head?_rewrite (hs : s.head?.any isBlank = false) :
    (rewrite f s).head?.any isBlank = false := by
  induction s using cut_induction with
  | unmarked s hs' =>
    obtain ⟨w, x, w', hw, hx, -, -, rfl, e⟩ := exists_word hs' f
    rw [e]
    cases w with
    | cons b w =>
      have hb : isBlank b = true := hw b List.mem_cons_self
      simp [hb] at hs
    | nil =>
      by_cases hne : x = []
      · subst hne
        exact hs
      · rw [List.nil_append, List.head?_append_of_ne_nil _ (word_ne_nil hf hne)]
        exact (tight_word hf hx).1
  | mark u m rest hu hm ihu ih =>
    rw [rewrite_mark hm]
    by_cases hne : u = []
    · subst hne
      exact isBlank_mark hm
    · rw [List.head?_append_of_ne_nil _ hne] at hs
      rw [List.head?_append_of_ne_nil _ (mt (rewrite_eq_nil hf) hne)]
      exact ihu hs

theorem getLast?_rewrite (hs : s.getLast?.any isBlank = false) :
    (rewrite f s).getLast?.any isBlank = false := by
  induction s using cut_induction with
  | unmarked s hs' =>
    obtain ⟨w, x, w', hw, hx, hw', -, rfl, e⟩ := exists_word hs' f
    rw [e]
    by_cases hlast : w' = []
    · subst hlast
      rw [List.append_nil] at hs ⊢
      by_cases hne : x = []
      · subst hne
        exact hs
      · rw [List.getLast?_append_of_ne_nil _ (word_ne_nil hf hne)]
        exact (tight_word hf hx).2
    · rw [List.getLast?_append_of_ne_nil _ hlast] at hs ⊢
      exact hs
  | mark u m rest hu hm ihu ih =>
    rw [rewrite_mark hm]
    by_cases hne : rest = []
    · subst hne
      rw [rewrite_nil, List.getLast?_concat]
      exact isBlank_mark hm
    · rw [List.append_cons, List.getLast?_append_of_ne_nil _ hne] at hs
      rw [List.append_cons, List.getLast?_append_of_ne_nil _ (mt (rewrite_eq_nil hf) hne)]
      exact ih hs

theorem trim_rewrite (s : List Char) : trim (rewrite f s) = rewrite f (trim s) := by
  obtain ⟨w, w', hw, hw', e⟩ := exists_trim s
  have ht : Tight (rewrite f (trim s)) :=
    ⟨head?_rewrite hf (tight_trim s).1, getLast?_rewrite hf (tight_trim s).2⟩
  conv_lhs => rw [← e]
  rw [rewrite_append_blank hw', rewrite_blank_append hw, trim_surround hw hw', trim_of_tight ht]

/-- a mark in the new text was one in the old -/
theorem rewrite_inv {y y' : List Char} (hm : m ∈ marks) (hs : rewrite f s = y ++ m :: y') :
    ∃ z z', s = z ++ m :: z' ∧ rewrite f z = y ∧ rewrite f z' = y' := by
  induction s using cut_induction generalizing y with
  | unmarked s hs' =>
    refine absurd hm (unmarked_rewrite hf hs' m ?_)
    rw [hs]
    exact List.mem_append_right _ List.mem_cons_self
  | mark u k rest hu hk ihu ih =>
    rw [rewrite_mark hk] at hs
    obtain ⟨a, rfl, hrest⟩ | ⟨a, ha, hrest⟩ := List.append_eq_append_iff.mp hs
    · cases a with
      | nil =>
        obtain ⟨rfl, htail⟩ := List.cons.inj hrest
        exact ⟨u, rest, rfl, (List.append_nil _).symm, htail⟩
      | cons d a =>
        obtain ⟨rfl, htail⟩ := List.cons.inj hrest
        obtain ⟨z, z', rfl, hz, hz'⟩ := ih htail
        refine ⟨u ++ k :: z, z', by simp, ?_, hz'⟩
        rw [rewrite_mark hk, hz]
    · cases a with
      | nil =>
        obtain ⟨rfl, htail⟩ := List.cons.inj hrest
        exact ⟨u, rest, rfl, by rw [ha, List.append_nil], htail.symm⟩
      | cons d a =>
        obtain ⟨rfl, -⟩ := List.cons.inj hrest
        refine absurd hm (unmarked_rewrite hf hu m ?_)
        rw [ha]
        exact List.mem_append_right _ List.mem_cons_self

end

end TypeHint.Hint
