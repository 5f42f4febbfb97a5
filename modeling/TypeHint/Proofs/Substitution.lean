import TypeHint.Proofs.Leaves
import TypeHint.Proofs.Reading

/-!
# Resolving names is substitution

Reading a text in which leaves were replaced by absolute names gives the hint of the old text with its
relative names replaced: the cuts, the forms and the flaws are the same.  So a resolver has no effect
beyond the names that it is asked for.

* `Hint.split_rewrite`, `Hint.between?_rewrite`   the new text is cut and taken apart like the old
* `Hint.read_rewrite`       and read like it
* `Hint.mem_leaves_of_mentions`   the relative names of a hint are leaves of its text
* `Hint.meaning_congr`      a resolver counts only for those
-/

namespace TypeHint

namespace Hint

open Text

variable {f : List Char → List Char} {s u l : List Char} {sep m a b : Char}

/-! ## replacing names in a hint -/

mutual

/-- the hint with its relative names replaced, and flaws shown in the text with its leaves replaced
-/
def substitute (f : List Char → List Char) : Hint → Hint
  | .primitive p => .primitive p
  | .named text => .named (String.ofList (word f text.toList))
  | .array key item => .array (substitute f key) (substitute f item)
  | .union parts => .union (substituteAll f parts)
  | .malformed text flaw => .malformed (String.ofList (rewrite f text.toList)) flaw

def substituteAll (f : List Char → List Char) : List Hint → List Hint
  | [] => []
  | hint :: hints => substitute f hint :: substituteAll f hints

end

theorem substituteAll_eq (f : List Char → List Char) (hints : List Hint) :
    substituteAll f hints = hints.map (substitute f) := by
  induction hints with
  | nil => rfl
  | cons hint hints ih => rw [substituteAll, ih, List.map_cons]

/-! ## cuts -/

theorem split_unmarked {stack : List Char} (hsep : sep ∈ marks) (hs : Unmarked s) :
    split sep stack s = prepend s <$> split sep stack [] := by
  have hpass : Passes sep stack s := .unmarked hsep hs
  rw [← hpass, List.append_nil]

section

variable (hf : MakesAbsolute f)
include hf

theorem split_rewrite (hsep : sep ∈ marks) (stack s : List Char) :
    split sep stack (rewrite f s) = List.map (rewrite f) <$> split sep stack s := by
  induction s using cut_induction generalizing stack with
  | unmarked s hs =>
    rw [split_unmarked hsep (unmarked_rewrite hf hs), split_unmarked hsep hs]
    cases stack with
    | nil =>
      show Except.ok (prepend (rewrite f s) [[]]) = Except.ok ((prepend s [[]]).map (rewrite f))
      rw [prepend_piece, prepend_piece, List.append_nil, List.append_nil]
      rfl
    | cons o stack => rfl
  | mark u m rest hu hm _ ih =>
    rw [rewrite_mark hm, Passes.unmarked hsep (unmarked_rewrite hf hu),
      Passes.unmarked hsep hu]
    obtain ⟨stack', hkeep⟩ | ⟨-, -, hcut⟩ | ⟨flaw, hno⟩ := split_step sep m stack
    · rw [hkeep, hkeep, ih]
      cases split sep stack' rest with
      | error e => rfl
      | ok ps =>
        refine congrArg Except.ok ?_
        show prepend _ (consPiece m (ps.map (rewrite f))) = (prepend u (consPiece m ps)).map _
        cases ps with
        | nil =>
          show prepend _ ([m] :: []) = (prepend u ([m] :: [])).map _
          rw [prepend_piece, prepend_piece, List.map_cons, rewrite_mark hm, rewrite_nil]
          rfl
        | cons p ps =>
          show prepend _ ((m :: rewrite f p) :: ps.map _) = (prepend u ((m :: p) :: ps)).map _
          rw [prepend_piece, prepend_piece, List.map_cons, rewrite_mark hm]
    · rw [hcut, hcut, ih]
      cases split sep [] rest with
      | error e => rfl
      | ok ps =>
        refine congrArg Except.ok ?_
        show prepend _ ([] :: ps.map (rewrite f)) = (prepend u ([] :: ps)).map _
        rw [prepend_piece, prepend_piece, List.append_nil, List.append_nil]
        rfl
    · rw [hno, hno]
      rfl

theorem isEmpty_rewrite (s : List Char) : (rewrite f s).isEmpty = s.isEmpty := by
  rw [Bool.eq_iff_iff, List.isEmpty_iff, List.isEmpty_iff]
  exact ⟨rewrite_eq_nil hf, fun e => e ▸ rewrite_nil f⟩

theorem parts_rewrite (hsep : sep ∈ marks) (s : List Char) :
    parts sep (rewrite f s) = List.map (rewrite f) <$> parts sep s := by
  rw [parts_eq_bind, parts_eq_bind, split_rewrite hf hsep]
  cases split sep [] s with
  | error e => rfl
  | ok ps =>
    have hmap : (ps.map (rewrite f)).map trim = (ps.map trim).map (rewrite f) := by
      rw [List.map_map, List.map_map]
      exact List.map_congr_left fun p _ => trim_rewrite hf p
    simp only [Except.map_ok, hmap]
    generalize ps.map trim = qs
    show (if (qs.map (rewrite f)).all (!·.isEmpty) = true then _ else _) =
      List.map (rewrite f) <$> if qs.all (!·.isEmpty) = true then _ else _
    rw [List.all_map, List.length_map]
    simp only [Function.comp_def, isEmpty_rewrite hf]
    split <;> rfl

/-! ## forms -/

theorem balanced_rewrite (depth : Nat) (s : List Char) :
    balanced depth (rewrite f s) = balanced depth s := by
  induction s using cut_induction generalizing depth with
  | unmarked s hs =>
    have hnew := (Uncut.unmarked (List.nil_subset _) (unmarked_rewrite hf hs)).balances depth []
    have hold := (Uncut.unmarked (List.nil_subset _) hs).balances depth []
    rw [List.append_nil] at hnew hold
    rw [hnew, hold]
  | mark u m rest hu hm _ ih =>
    rw [rewrite_mark hm,
      (Uncut.unmarked (List.nil_subset _) (unmarked_rewrite hf hu)).balances,
      (Uncut.unmarked (List.nil_subset _) hu).balances]
    rw [balanced.eq_def, balanced.eq_def depth (m :: rest)]
    simp only [ih]

/-- what is enclosed by two marks stays enclosed, and nothing else gets there -/
theorem rewrite_eq_enclosed_iff {v : List Char} (ha : a ∈ marks) (hb : b ∈ marks)
    (hl : rewrite f l = l) (hsep : Name.separator ∉ l) :
    rewrite f s = l ++ a :: (v ++ [b]) ↔ ∃ u, s = l ++ a :: (u ++ [b]) ∧ rewrite f u = v := by
  constructor
  · intro e
    obtain ⟨z, z', rfl, hz, hz'⟩ := rewrite_inv hf ha e
    obtain ⟨u, last, rfl, hu, hlast⟩ := rewrite_inv hf hb hz'
    cases rewrite_eq_nil hf hlast
    obtain hsame | hmem := rewrite_eq_or hf z
    · exact ⟨u, by rw [← hz, hsame], hu⟩
    · exact absurd (hz ▸ hmem) hsep
  · rintro ⟨u, rfl, rfl⟩
    rw [rewrite_mark ha, rewrite_mark hb, rewrite_nil, hl]

theorem rewrite_eq_suffix_iff {v : List Char} :
    rewrite f s = v ++ ['[', ']'] ↔ ∃ u, s = u ++ ['[', ']'] ∧ rewrite f u = v := by
  have hopen : '[' ∈ marks := by decide
  have hclose : ']' ∈ marks := by decide
  have hpair : ['[', ']'] = '[' :: ([] ++ ']' :: []) := rfl
  rw [hpair]
  constructor
  · intro e
    obtain ⟨u, z, rfl, hu, hz⟩ := rewrite_inv hf hopen e
    obtain ⟨first, last, rfl, hfirst, hlast⟩ := rewrite_inv hf hclose hz
    cases rewrite_eq_nil hf hfirst
    cases rewrite_eq_nil hf hlast
    exact ⟨u, rfl, hu⟩
  · rintro ⟨u, rfl, rfl⟩
    rw [rewrite_mark hopen, rewrite_mark hclose, rewrite_nil]

theorem inner?_rewrite (s : List Char) : inner? (rewrite f s) = (inner? s).map (rewrite f) := by
  refine Option.ext fun v => ?_
  rw [Option.map_eq_some_iff, inner?_eq_some_iff]
  simp only [inner?_eq_some_iff]
  constructor
  · rintro ⟨e, hb⟩
    obtain ⟨u, rfl, rfl⟩ := (rewrite_eq_enclosed_iff hf (l := []) (by decide) (by decide)
      (rewrite_nil f) (by decide)).mp e
    rw [balanced_rewrite hf] at hb
    exact ⟨u, ⟨rfl, hb⟩, rfl⟩
  · rintro ⟨u, ⟨rfl, hb⟩, rfl⟩
    refine ⟨?_, by rw [balanced_rewrite hf, hb]⟩
    exact (rewrite_eq_enclosed_iff hf (l := []) (by decide) (by decide) (rewrite_nil f)
      (by decide)).mpr ⟨u, rfl, rfl⟩

theorem item?_rewrite (s : List Char) : item? (rewrite f s) = (item? s).map (rewrite f) := by
  refine Option.ext fun v => ?_
  rw [Option.map_eq_some_iff, item?_eq_some_iff]
  simp only [item?_eq_some_iff]
  exact rewrite_eq_suffix_iff hf

omit hf in
theorem rewrite_array (f : List Char → List Char) :
    rewrite f "array".toList = "array".toList := by
  rw [rewrite_word (by decide) (by decide)]
  exact if_neg (by decide)

theorem arguments?_rewrite (s : List Char) :
    arguments? (rewrite f s) = (arguments? s).map (rewrite f) := by
  refine Option.ext fun v => ?_
  rw [Option.map_eq_some_iff, arguments?_eq_some_iff,
    rewrite_eq_enclosed_iff hf (by decide) (by decide) (rewrite_array f) (by decide)]
  simp only [arguments?_eq_some_iff]

theorem rewrite_eq_array_iff : rewrite f s = "array".toList ↔ s = "array".toList := by
  constructor
  · intro e
    obtain hsame | hmem := rewrite_eq_or hf s
    · rw [← hsame, e]
    · rw [e] at hmem
      exact absurd hmem (by decide)
  · rintro rfl
    exact rewrite_array f

theorem ofName?_rewrite (s : List Char) : Primitive.ofName? (String.ofList (rewrite f s)) =
    Primitive.ofName? (String.ofList s) := by
  refine Option.ext fun p => ?_
  rw [Primitive.ofName?_eq_some_iff, Primitive.ofName?_eq_some_iff]
  constructor
  · intro hp
    obtain hsame | hmem := rewrite_eq_or hf s
    · rwa [hsame] at hp
    · exact absurd hmem hp.text.2.2.1
  · intro hp
    have hrel : ¬ isRelative s = true := fun hrel => (isRelative_iff.mp hrel).2.1 p hp
    rwa [rewrite_word hp.text.2.2.2.1 hp.text.2.2.2.2, word, if_neg hrel]

/-! ## reading -/

omit hf in
theorem ofName_marked (hm : m ∈ marks) (hs : m ∈ s) :
    ofName s = .malformed (String.ofList s) .invalidName := by
  have hsep : m ≠ Name.separator := by
    rintro rfl
    exact absurd hm (by decide)
  unfold ofName
  refine if_neg fun hvalid => unmarked_of_isValid hvalid m ?_ hm
  cases s with
  | nil => cases hs
  | cons c s =>
    dsimp only
    split
    · rename_i hc
      exact (List.mem_cons.mp hs).resolve_left fun e => hsep (e.trans hc)
    · exact hs

theorem ofName_rewrite (ht : Tight s) : ofName (rewrite f s) = (ofName s).substitute f := by
  by_cases hs : Unmarked s
  · rw [rewrite_word hs ht]
    obtain hsame | ⟨hrel, p, e, hp, -⟩ := word_cases hf s
    · have hrewrite : rewrite f s = s := by rw [rewrite_word hs ht, hsame]
      rw [hsame]
      obtain e | e := ofName_eq s
      · rw [e, substitute, String.toList_ofList, hsame]
      · rw [e, substitute, String.toList_ofList, hrewrite]
    · rw [ofName_relative (isRelative_iff.mp hrel).1, substitute, String.toList_ofList, e,
        ofName_absolute hp]
  · -- a text with a mark is no name, before and after
    obtain ⟨m, hms, hm⟩ : ∃ m, m ∈ s ∧ m ∈ marks := by simpa [Unmarked] using hs
    have hnew : m ∈ rewrite f s := by
      obtain ⟨z, z', rfl⟩ := List.append_of_mem hms
      rw [rewrite_mark hm]
      exact List.mem_append_right _ List.mem_cons_self
    rw [ofName_marked hm hms, ofName_marked hm hnew, substitute, String.toList_ofList]

section

variable {read : List Char → Hint} (hread : ∀ s, read (rewrite f s) = (read s).substitute f)
include hread

theorem ofArguments_rewrite (text arguments : List Char) :
    ofArguments read (rewrite f text) (rewrite f arguments) =
      (ofArguments read text arguments).substitute f := by
  unfold ofArguments
  rw [parts_rewrite hf (by decide)]
  match parts ',' arguments with
  | .error e =>
    show Hint.malformed _ _ = substitute f (.malformed _ _)
    rw [substitute, String.toList_ofList]
  | .ok [] =>
    show Hint.malformed _ _ = substitute f (.malformed _ _)
    rw [substitute, String.toList_ofList]
  | .ok [item] =>
    show Hint.array _ (read (rewrite f item)) = substitute f (.array _ (read item))
    rw [hread, substitute, substitute]
  | .ok [key, item] =>
    show Hint.array (read (rewrite f key)) (read (rewrite f item)) =
      substitute f (.array (read key) (read item))
    rw [hread, hread, substitute]
  | .ok (_ :: _ :: _ :: _) =>
    show Hint.malformed _ _ = substitute f (.malformed _ _)
    rw [substitute, String.toList_ofList]

theorem ofSingle_rewrite (ht : Tight s) :
    ofSingle read (rewrite f s) = (ofSingle read s).substitute f := by
  unfold ofSingle
  rw [inner?_rewrite hf, ofName?_rewrite hf, item?_rewrite hf, arguments?_rewrite hf,
    if_congr (rewrite_eq_array_iff hf) rfl rfl]
  -- the cases are the forms in the order in which they are tried
  cases inner? s with
  | some u => exact hread u
  | none =>
    cases Primitive.ofName? (String.ofList s) with
    | some p => rfl
    | none =>
      cases item? s with
      | some item =>
        show (if (trim (rewrite f item)).isEmpty = true then _ else _) =
          substitute f (if (trim item).isEmpty = true then _ else _)
        rw [trim_rewrite hf, isEmpty_rewrite hf, hread]
        split
        · rw [substitute, String.toList_ofList]
        · rw [substitute, substitute]
      | none =>
        dsimp only [Option.map_none]
        split
        · rfl
        · cases arguments? s with
          | some arguments => exact ofArguments_rewrite hf hread s arguments
          | none => exact ofName_rewrite hf ht

end

theorem read_rewrite (n : Nat) (s : List Char) :
    read n (rewrite f s) = (read n s).substitute f := by
  induction n generalizing s with
  | zero => rw [read, read, substitute, String.toList_ofList]
  | succ n ih =>
    have htight : ∀ {ps}, parts '|' s = .ok ps → ∀ p ∈ ps, Tight p := by
      intro ps hps p hp
      obtain ⟨qs, -, rfl, -⟩ := parts_eq_ok_iff.mp hps
      obtain ⟨q, -, rfl⟩ := List.mem_map.mp hp
      exact tight_trim q
    rw [read, read, parts_rewrite hf (by decide)]
    cases hparts : parts '|' s with
    | error flaw =>
      show Hint.malformed _ _ = substitute f (.malformed _ _)
      rw [substitute, String.toList_ofList]
    | ok ps =>
      have hall : ∀ p ∈ ps, ofSingle (read n) (rewrite f p) = (ofSingle (read n) p).substitute f :=
        fun p hp => ofSingle_rewrite hf ih (htight hparts p hp)
      cases ps with
      | nil => rfl
      | cons p ps =>
        cases ps with
        | nil => exact hall p List.mem_cons_self
        | cons q ps =>
          show Hint.union (((p :: q :: ps).map (rewrite f)).map (ofSingle (read n))) =
            substitute f (.union ((p :: q :: ps).map (ofSingle (read n))))
          rw [substitute, substituteAll_eq, List.map_map, List.map_map]
          exact congrArg Hint.union (List.map_congr_left hall)

end

/-! ## the names in a hint -/

inductive Mentions (x : String) : Hint → Prop
  | named : Mentions x (.named x)
  | key {key item : Hint} (hx : Mentions x key) : Mentions x (.array key item)
  | item {key item : Hint} (hx : Mentions x item) : Mentions x (.array key item)
  | part {p : Hint} {parts : List Hint} (hp : p ∈ parts) (hx : Mentions x p) :
    Mentions x (.union parts)

/-- an absolute name, or a leaf of the text -/
def Stands (s : List Char) (x : String) : Prop :=
  x.toList.head? = some Name.separator ∨ x.toList ∈ leaves s

variable {x : String}

theorem Stands.mono (hx : Stands u x) (hsub : leaves u ⊆ leaves s) : Stands s x :=
  hx.imp_right (hsub ·)

theorem leaves_subset_of_parts {qs : List (List Char)} {q : List Char} (hsep : sep ∈ marks)
    (hqs : parts sep s = .ok qs) (hq : q ∈ qs) : leaves q ⊆ leaves s := by
  obtain ⟨ps, hps, rfl, -⟩ := parts_eq_ok_iff.mp hqs
  obtain ⟨p, hp, rfl⟩ := List.mem_map.mp hq
  rw [leaves_trim, (split_pieces hps).1, leaves_intercalate hsep]
  exact fun x hx => List.mem_flatMap.mpr ⟨p, hp, hx⟩

theorem stands_of_ofName (ht : Tight s) (hprim : ∀ p, ¬ Primitive.Called p s)
    (harray : s ≠ "array".toList) (hx : (ofName s).Mentions x) : Stands s x := by
  obtain e | e := ofName_eq s
  · rw [e] at hx
    cases hx
    unfold Stands
    rw [String.toList_ofList]
    cases s with
    | nil => cases e
    | cons c s =>
      by_cases hc : c = Name.separator
      · exact .inl (congrArg some hc)
      · have hvalid : Name.isValid (c :: s) = true := by
          by_contra hno
          simp only [ofName, if_neg hc, if_neg hno] at e
          cases e
        have hrel := isRelative_iff.mpr ⟨Name.isValid_iff.mp hvalid, hprim, harray⟩
        rw [leaves_relative hrel ht]
        exact .inr (List.mem_singleton_self _)
  · rw [e] at hx
    cases hx

theorem leaves_enclosed (ha : a ∈ marks) (hb : b ∈ marks) (l u : List Char) :
    leaves (l ++ a :: (u ++ [b])) = leaves l ++ leaves u := by
  rw [leaves_mark ha, leaves_mark hb]
  exact congrArg (leaves l ++ ·) (List.append_nil _)

theorem leaves_suffix (u : List Char) : leaves (u ++ ['[', ']']) = leaves u :=
  (leaves_mark (by decide) u [']']).trans (List.append_nil _)

section

variable {read : List Char → Hint} (hread : ∀ s, (read s).Mentions x → Stands s x)
include hread

theorem stands_of_ofArguments {text arguments : List Char}
    (hx : (ofArguments read text arguments).Mentions x) : Stands arguments x := by
  unfold ofArguments at hx
  split at hx
  · cases hx
  · rename_i item hparts
    cases hx with
    | key hx => cases hx
    | item hx =>
      exact (hread _ hx).mono (leaves_subset_of_parts (by decide) hparts List.mem_cons_self)
  · rename_i key item hparts
    cases hx with
    | key hx =>
      exact (hread _ hx).mono (leaves_subset_of_parts (by decide) hparts List.mem_cons_self)
    | item hx =>
      exact (hread _ hx).mono (leaves_subset_of_parts (by decide) hparts (by simp))
  · cases hx

theorem stands_of_ofSingle (ht : Tight s) (hx : (ofSingle read s).Mentions x) : Stands s x := by
  unfold ofSingle at hx
  cases hin : inner? s with
  | some u =>
    rw [hin] at hx
    obtain ⟨rfl, -⟩ := inner?_eq_some_iff.mp hin
    have hleaves : leaves ('(' :: (u ++ [')'])) = leaves u :=
      leaves_enclosed (by decide) (by decide) [] u
    exact (hread u hx).mono (hleaves ▸ List.Subset.refl _)
  | none =>
    rw [hin] at hx
    cases hprim : Primitive.ofName? (String.ofList s) with
    | some p =>
      rw [hprim] at hx
      cases hx
    | none =>
      rw [hprim] at hx
      cases hitem : item? s with
      | some u =>
        rw [hitem] at hx
        obtain rfl := item?_eq_some_iff.mp hitem
        dsimp only at hx
        split at hx
        · cases hx
        · cases hx with
          | key hx => cases hx
          | item hx => exact (hread u hx).mono (leaves_suffix u ▸ List.Subset.refl _)
      | none =>
        rw [hitem] at hx
        dsimp only at hx
        split at hx
        · rcases hx with _ | hx | hx
          · cases hx
          · cases hx
        · rename_i harray
          cases hargs : arguments? s with
          | some arguments =>
            rw [hargs] at hx
            rw [arguments?_eq_some_iff.mp hargs]
            refine (stands_of_ofArguments hread hx).mono ?_
            rw [leaves_enclosed (by decide) (by decide)]
            exact List.subset_append_right _ _
          | none =>
            rw [hargs] at hx
            exact stands_of_ofName ht (Primitive.ofName?_eq_none_iff.mp hprim) harray hx

end

theorem stands_of_read (n : Nat) (hx : (read n s).Mentions x) : Stands s x := by
  induction n generalizing s with
  | zero => cases hx
  | succ n ih =>
    have hsingle : ∀ {ps p}, parts '|' s = .ok ps → p ∈ ps →
        (ofSingle (read n) p).Mentions x → Stands s x := by
      intro ps p hps hp hx
      obtain ⟨qs, -, rfl, -⟩ := parts_eq_ok_iff.mp hps
      have ht : Tight p := by
        obtain ⟨q, -, rfl⟩ := List.mem_map.mp hp
        exact tight_trim q
      exact (stands_of_ofSingle (fun u => ih) ht hx).mono
        (leaves_subset_of_parts (by decide) hps hp)
    rw [read] at hx
    split at hx
    · cases hx
    · rename_i hparts
      exact hsingle hparts List.mem_cons_self hx
    · rename_i hparts
      cases hx with
      | part hp hx =>
        obtain ⟨q, hq, rfl⟩ := List.mem_map.mp hp
        exact hsingle hparts hq hx

/-! ## meanings -/

variable {h : Hierarchy} {t : Ty}

theorem expandName_absolute (r r' : Option Resolver)
    (hx : x.toList.head? = some Name.separator) : expandName r x = expandName r' x := by
  unfold expandName
  rw [if_pos hx, if_pos hx]

mutual

/-- a resolver counts only for the names in a hint -/
theorem meaning_congr {r r' : Option Resolver} : ∀ hint : Hint,
    (∀ x, hint.Mentions x → (expandName r x).result = (expandName r' x).result) →
    (hint.meaning h r).result = (hint.meaning h r').result
  | .primitive _, _ => rfl
  | .named text, hx => by
    simp only [meaning, namedType, Traced.result_bind, hx text .named]
  | .array key item, hx => by
    have hkey := meaning_congr key fun x hk => hx x (.key hk)
    have hitem := meaning_congr item fun x hi => hx x (.item hi)
    simp only [meaning, Traced.result_bind, hkey, hitem]
  | .union parts, hx => by
    have hparts := meanings_congr parts fun p hp x hp' => hx x (.part hp hp')
    simp only [meaning, Traced.result_bind, hparts]
  | .malformed _ _, _ => rfl

theorem meanings_congr {r r' : Option Resolver} : ∀ hints : List Hint,
    (∀ p ∈ hints, ∀ x, p.Mentions x → (expandName r x).result = (expandName r' x).result) →
    (meanings h r hints).result = (meanings h r' hints).result
  | [], _ => rfl
  | hint :: hints, hx => by
    have hfirst := meaning_congr hint (hx hint List.mem_cons_self)
    have hrest := meanings_congr hints fun p hp => hx p (List.mem_cons_of_mem _ hp)
    simp only [meanings, Traced.result_bind, hfirst, hrest]

end

/-- the name that stands for `x` under `f` means the same -/
def SameName (h : Hierarchy) (f : List Char → List Char) (r r' : Option Resolver) (x : String) : Prop :=
  ∀ t, (namedType h r' (String.ofList (word f x.toList))).result = .ok t ↔
    (namedType h r x).result = .ok t

mutual

theorem means_substitute_iff {r r' : Option Resolver} : ∀ (hint : Hint) (t : Ty),
    (∀ x, hint.Mentions x → SameName h f r r' x) →
    (Means h r' (hint.substitute f) t ↔ Means h r hint t)
  | .primitive _, _, _ => by rw [substitute, means_primitive_iff, means_primitive_iff]
  | .named text, t, hx => by
    rw [substitute, means_named_iff, means_named_iff, hx text .named]
  | .array key item, t, hx => by
    have hkey := fun k => means_substitute_iff key k fun x hk => hx x (.key hk)
    have hitem := fun i => means_substitute_iff item i fun x hi => hx x (.item hi)
    simp only [substitute, means_array_iff, hkey, hitem]
  | .union parts, t, hx => by
    have hparts := fun ts => forall₂_substitute_iff parts ts fun p hp x hp' => hx x (.part hp hp')
    simp only [substitute, means_union_iff, hparts]
  | .malformed _ _, _, _ => by
    rw [substitute]
    exact iff_of_false not_means_malformed not_means_malformed

theorem forall₂_substitute_iff {r r' : Option Resolver} : ∀ (hints : List Hint) (ts : List Ty),
    (∀ p ∈ hints, ∀ x, p.Mentions x → SameName h f r r' x) →
    (List.Forall₂ (Means h r') (substituteAll f hints) ts ↔ List.Forall₂ (Means h r) hints ts)
  | [], _, _ => by rw [substituteAll, List.forall₂_nil_left_iff, List.forall₂_nil_left_iff]
  | hint :: hints, ts, hx => by
    have hfirst := fun t => means_substitute_iff hint t (hx hint List.mem_cons_self)
    have hrest := fun us => forall₂_substitute_iff hints us fun p hp =>
      hx p (List.mem_cons_of_mem _ hp)
    simp only [substituteAll, List.forall₂_cons_left_iff, hfirst, hrest]

end

end Hint

/-! ## texts -/

open Hint Text

def relativeNames (text : String) : List String := (leaves text.toList).map String.ofList

def Resolver.absolute (r : Resolver) (x : List Char) : List Char :=
  match (r (String.ofList x)).result with
  | .ok full => Name.separator :: (Name.strip full).toList
  | .error _ => x

/-- the text with each relative name replaced by the absolute name of what it is expanded to -/
def Resolver.substitute (r : Resolver) (text : String) : String :=
  String.ofList (rewrite r.absolute text.toList)

/-- every relative name in the text is expanded to a name, but for separators in front of it -/
def Resolver.Expands (r : Resolver) (text : String) : Prop :=
  ∀ x ∈ relativeNames text, ∃ full, (r x).result = .ok full ∧
    Name.isValid (Name.strip full).toList = true ∧ Tight (Name.strip full).toList

section

variable {h : Hierarchy} {r : Resolver} {text x full : String}

theorem mem_relativeNames : x ∈ relativeNames text ↔ x.toList ∈ leaves text.toList := by
  unfold relativeNames
  rw [List.mem_map]
  constructor
  · rintro ⟨l, hl, rfl⟩
    rwa [String.toList_ofList]
  · intro hx
    exact ⟨x.toList, hx, String.ofList_toList⟩

theorem ofText_congr {r r' : Option Resolver}
    (hr : ∀ x ∈ relativeNames text, (expandName r x).result = (expandName r' x).result) :
    (Ty.ofText h r text).result = (Ty.ofText h r' text).result := by
  refine meaning_congr _ fun x hx => ?_
  obtain habs | hleaf := stands_of_read _ hx
  · rw [expandName_absolute r r' habs]
  · exact hr x (mem_relativeNames.mpr hleaf)

theorem Resolver.absolute_eq (hx : (r x).result = .ok full) :
    r.absolute x.toList = Name.separator :: (Name.strip full).toList := by
  unfold absolute
  rw [String.ofList_toList, hx]

theorem tight_absolute {p : List Char} (hp : Name.IsPath p) (ht : Tight p) :
    Tight (Name.separator :: p) := by
  refine ⟨show isBlank Name.separator = false by decide, ?_⟩
  rw [← List.singleton_append, List.getLast?_append_of_ne_nil _ hp.ne_nil]
  exact ht.2

/-- the names that the resolver gives to leaves, and nothing else -/
def Resolver.onLeaves (r : Resolver) (s x : List Char) : List Char :=
  if x ∈ leaves s then r.absolute x else x

theorem Resolver.Expands.makesAbsolute (hr : r.Expands text) :
    MakesAbsolute (r.onLeaves text.toList) := by
  intro x
  unfold onLeaves
  split
  · rename_i hx
    rw [← String.toList_ofList (l := x)] at hx
    obtain ⟨full, hfull, hvalid, ht⟩ := hr _ (mem_relativeNames.mpr hx)
    have hp := Name.isValid_iff.mp hvalid
    have e := Resolver.absolute_eq hfull
    rw [String.toList_ofList] at e
    exact .inr ⟨_, e, hp, tight_absolute hp ht⟩
  · exact .inl rfl

theorem Resolver.Expands.sameName (hr : r.Expands text) (hx : Stands text.toList x) :
    SameName h (r.onLeaves text.toList) (some r) none x := by
  intro t
  obtain habs | hleaf := hx
  · have hrel : ¬ isRelative x.toList = true :=
      fun hrel => (isRelative_iff.mp hrel).1.head?_ne habs
    rw [word, if_neg hrel, String.ofList_toList, namedType_eq_ok_iff, namedType_eq_ok_iff,
      expandName_absolute none (some r) habs]
  · obtain ⟨full, hfull, -⟩ := hr x (mem_relativeNames.mpr hleaf)
    have hrel : isRelative x.toList = true := (List.mem_filter.mp hleaf).2
    have hword : word (r.onLeaves text.toList) x.toList =
        Name.separator :: (Name.strip full).toList := by
      rw [word, if_pos hrel, onLeaves, if_pos hleaf, absolute_eq hfull]
    rw [hword, namedType_absolute_iff, String.ofList_toList,
      namedType_relative_iff (isRelative_iff.mp hrel).1.head?_ne]
    simp [Resolves, hfull]

theorem Resolver.Expands.ofText_iff (hr : r.Expands text) {t : Ty} :
    (Ty.ofText h (some r) text).result = .ok t ↔
      (Ty.ofText h none (r.substitute text)).result = .ok t := by
  have hleaves : rewrite r.absolute text.toList = rewrite (r.onLeaves text.toList) text.toList :=
    rewrite_congr fun x hx => (if_pos hx).symm
  unfold Ty.ofText Hint.ofText substitute
  rw [String.toList_ofList, hleaves, read_rewrite hr.makesAbsolute]
  exact (means_substitute_iff _ t fun x hx => hr.sameName (stands_of_read _ hx)).symm

end

/-- **Resolving names is substitution.**  If the relative names that occur in a text are expanded to
names, the text means what it means without a resolver once each of them is replaced by its absolute
name.  Resolvers that agree on these names agree on the text, also where it fails; and a text without
relative names has one meaning, with and without a resolver. -/
theorem resolving_is_substitution (h : Hierarchy) (text : String) :
    (∀ r : Resolver, r.Expands text → ∀ t, (Ty.ofText h (some r) text).result = .ok t ↔
      (Ty.ofText h none (r.substitute text)).result = .ok t) ∧
    (∀ r r' : Resolver, (∀ x ∈ relativeNames text, (r x).result = (r' x).result) →
      (Ty.ofText h (some r) text).result = (Ty.ofText h (some r') text).result) ∧
    (relativeNames text = [] → ∀ r : Option Resolver,
      (Ty.ofText h r text).result = (Ty.ofText h none text).result) := by
  refine ⟨fun r hr t => hr.ofText_iff, ?_, ?_⟩
  · intro r r' hagree
    refine ofText_congr fun x hx => ?_
    unfold expandName
    split
    · rfl
    · simp [Traced.result_bind, hagree x hx]
  · intro hnone r
    refine ofText_congr fun x hx => ?_
    rw [hnone] at hx
    cases hx

def Resolver.alias : Resolver := fun x =>
  if x = "Alias" then pure "\\\\Leaf" else .fail "no such alias"

/-- one leaf among a primitive name, an absolute name and blanks, a resolver that knows no more than
it needs, and a text without a leaf -/
theorem resolving_is_substitution_of_alias :
    let h := Table.handlers.hierarchy
    let text := "array<int, ( Alias | \\Handler[] | null ) []>"
    let other : Resolver := fun _ => pure "\\\\Leaf"
    relativeNames text = ["Alias"] ∧ Resolver.alias.Expands text ∧
    Resolver.alias.substitute text = "array<int, ( \\Leaf | \\Handler[] | null ) []>" ∧
    (Ty.ofText h (some .alias) text).result = .ok (.array (.primitive .integer)
      (.arrayOf (.union [.arrayOf (.iface "Handler"), .cls "Leaf", .null]))) ∧
    (Ty.ofText h (some other) text).result = (Ty.ofText h (some .alias) text).result ∧
    relativeNames "\\Leaf|int" = [] ∧
    (Ty.ofText h (some .alias) "\\Leaf|int").result = (Ty.ofText h none "\\Leaf|int").result := by
  intro h text other
  obtain ⟨hsubst, hagree, -⟩ := resolving_is_substitution h text
  have hnames : relativeNames text = ["Alias"] := by decide +kernel
  have hexpands : Resolver.alias.Expands text := by
    unfold Resolver.Expands
    rw [hnames, List.forall_mem_singleton]
    exact ⟨"\\\\Leaf", rfl, by decide +kernel, by decide +kernel⟩
  have htext : Resolver.alias.substitute text = "array<int, ( \\Leaf | \\Handler[] | null ) []>" := by
    decide +kernel
  have hnone : relativeNames "\\Leaf|int" = [] := by decide +kernel
  refine ⟨hnames, hexpands, htext, ?_, ?_, hnone, ?_⟩
  · rw [hsubst _ hexpands, htext]
    decide +kernel
  · refine hagree other .alias ?_
    rw [hnames, List.forall_mem_singleton]
    rfl
  · exact (resolving_is_substitution h "\\Leaf|int").2.2 hnone (some .alias)

end TypeHint
