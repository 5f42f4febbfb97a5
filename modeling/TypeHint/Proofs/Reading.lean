import TypeHint.Proofs.Grammar

/-!
# Reading follows the grammar

A single type is read by trying one form after the other, on a text whose brackets were never looked
at together: groups are told by their parentheses alone, suffixes and arguments by the ends of the
text.  Only parts of a cut text get there, and for these the forms exclude each other.

* `ofSingle_group`, …     a text of each form is read as that form
* `means_of_isSingle`, `isSingle_of_means`   one level: a form is read as what it denotes
* `means_read_iff`        all levels, by induction on how many are left
-/

namespace TypeHint

open Hint Text

namespace Hint

variable {read : List Char → Hint} {s u text : List Char} {c : Char} {p : Primitive}

/-! ## telling the forms apart -/

theorem between?_eq_some_iff {left right : List Char} :
    between? left right s = some u ↔ s = left ++ (u ++ right) := by
  show (left.isPrefixOf? s >>= right.isSuffixOf?) = some u ↔ _
  constructor
  · intro hu
    obtain ⟨v, hv, hu⟩ := Option.bind_eq_some_iff.mp hu
    rw [← List.isPrefixOf?_eq_some_iff_append_eq.mp hv,
      List.isSuffixOf?_eq_some_iff_append_eq.mp hu]
  · intro e
    refine Option.bind_eq_some_iff.mpr ⟨u ++ right, ?_, ?_⟩
    · exact List.isPrefixOf?_eq_some_iff_append_eq.mpr e.symm
    · exact List.isSuffixOf?_eq_some_iff_append_eq.mpr rfl

theorem inner?_eq_some_iff : inner? s = some u ↔ s = '(' :: (u ++ [')']) ∧ balanced 0 u = true := by
  rw [inner?, Option.filter_eq_some_iff, between?_eq_some_iff]
  rfl

theorem item?_eq_some_iff : item? s = some u ↔ s = u ++ "[]".toList :=
  List.isSuffixOf?_eq_some_iff_append_eq.trans eq_comm

theorem arguments?_eq_some_iff :
    arguments? s = some u ↔ s = "array".toList ++ '<' :: (u ++ ['>']) :=
  between?_eq_some_iff

/-- a group, a suffix and arguments are told by the last character -/
theorem inner?_eq_none (hs : s.getLast? ≠ some ')') : inner? s = none := by
  refine Option.eq_none_iff_forall_ne_some.mpr fun u hu => hs ?_
  rw [(inner?_eq_some_iff.mp hu).1, ← List.cons_append, List.getLast?_concat]

theorem item?_eq_none (hs : s.getLast? ≠ some ']') : item? s = none := by
  refine Option.eq_none_iff_forall_ne_some.mpr fun u hu => hs ?_
  rw [item?_eq_some_iff.mp hu, List.getLast?_append]
  rfl

theorem arguments?_eq_none (hs : s.getLast? ≠ some '>') : arguments? s = none := by
  refine Option.eq_none_iff_forall_ne_some.mpr fun u hu => hs ?_
  rw [arguments?_eq_some_iff.mp hu, getLast?_arguments]

theorem ofName?_eq_none (hc : c ∈ s) (hm : c ∈ marks) :
    Primitive.ofName? (String.ofList s) = none :=
  Primitive.ofName?_eq_none_iff.mpr fun _ hp => hp.text.2.2.2.1 c hc hm

theorem getLast?_ne_of_unmarked (hs : Unmarked s) (hm : c ∈ marks) : s.getLast? ≠ some c :=
  fun e => hs c (List.mem_of_getLast? e) hm

/-! ## reading each form -/

theorem ofSingle_group (hs : balanced 0 s = true) :
    ofSingle read ('(' :: (s ++ [')'])) = read s := by
  rw [ofSingle, inner?_eq_some_iff.mpr ⟨rfl, hs⟩]

theorem ofSingle_primitive (hp : p.Called s) : ofSingle read s = .primitive p := by
  have hin : inner? s = none :=
    inner?_eq_none (getLast?_ne_of_unmarked hp.text.2.2.2.1 (by decide))
  rw [ofSingle, hin, Primitive.ofName?_eq_some_iff.mpr hp]

theorem ofSingle_suffix (hs : trim s ≠ []) :
    ofSingle read (s ++ "[]".toList) = .array (.primitive .mixed) (read s) := by
  have hlast : (s ++ "[]".toList).getLast? = some ']' := by
    rw [List.getLast?_append]
    rfl
  have hin : inner? (s ++ "[]".toList) = none := inner?_eq_none (by rw [hlast]; decide)
  have hprim := ofName?_eq_none (List.mem_of_getLast? hlast) (by decide)
  rw [ofSingle, hin, hprim, item?_eq_some_iff.mpr rfl]
  exact if_neg (mt List.isEmpty_iff.mp hs)

theorem ofSingle_array :
    ofSingle read "array".toList = .array (.primitive .mixed) (.primitive .mixed) := rfl

theorem ofSingle_arguments : ofSingle read ("array".toList ++ '<' :: (s ++ ['>'])) =
    ofArguments read ("array".toList ++ '<' :: (s ++ ['>'])) s := by
  have hlast := getLast?_arguments (s := s)
  have hmem := List.mem_of_getLast? hlast
  have harray : "array".toList ++ '<' :: (s ++ ['>']) ≠ "array".toList := by simp
  have hin : inner? ("array".toList ++ '<' :: (s ++ ['>'])) = none :=
    inner?_eq_none (by rw [hlast]; decide)
  have hitem : item? ("array".toList ++ '<' :: (s ++ ['>'])) = none :=
    item?_eq_none (by rw [hlast]; decide)
  rw [ofSingle, hin, ofName?_eq_none hmem (by decide), hitem]
  rw [if_neg harray, arguments?_eq_some_iff.mpr rfl]

theorem ofSingle_name (hs : Unmarked s) (hprim : ∀ p, ¬ Primitive.Called p s)
    (harray : s ≠ "array".toList) : ofSingle read s = ofName s := by
  have hin := inner?_eq_none (getLast?_ne_of_unmarked hs (by decide))
  have hitem := item?_eq_none (getLast?_ne_of_unmarked hs (by decide))
  have hargs := arguments?_eq_none (getLast?_ne_of_unmarked hs (by decide))
  rw [ofSingle, hin, Primitive.ofName?_eq_none_iff.mpr hprim, hitem]
  rw [if_neg harray, hargs]

theorem ofName_eq (s : List Char) : ofName s = .named (String.ofList s) ∨
    ofName s = .malformed (String.ofList s) .invalidName := by
  unfold ofName
  exact ite_eq_or_eq _ _ _

theorem ofName_relative (hs : Name.IsPath s) : ofName s = .named (String.ofList s) := by
  have hvalid := Name.isValid_iff.mpr hs
  have hsep := hs.head?_ne
  cases s with
  | nil => exact absurd rfl hs.ne_nil
  | cons c s =>
    have hc : c ≠ Name.separator := fun e => hsep (congrArg some e)
    simp only [ofName, if_neg hc, if_pos hvalid]

theorem ofName_absolute (hs : Name.IsPath s) :
    ofName (Name.separator :: s) = .named (String.ofList (Name.separator :: s)) := by
  have hvalid := Name.isValid_iff.mpr hs
  simp only [ofName, if_true, if_pos hvalid]

theorem ofArguments_one (hs : split ',' [] u = .ok [u]) (hu : trim u ≠ []) :
    ofArguments read text u = .array (.primitive .mixed) (read (trim u)) := by
  have hparts : parts ',' u = .ok [trim u] :=
    parts_eq_ok_iff.mpr ⟨[u], hs, rfl, by simpa using hu⟩
  rw [ofArguments, hparts]

theorem ofArguments_two {k i : List Char} (hs : split ',' [] u = .ok [k, i]) (hk : trim k ≠ [])
    (hi : trim i ≠ []) : ofArguments read text u = .array (read (trim k)) (read (trim i)) := by
  have hparts : parts ',' u = .ok [trim k, trim i] :=
    parts_eq_ok_iff.mpr ⟨[k, i], hs, rfl, by simpa using ⟨hk, hi⟩⟩
  rw [ofArguments, hparts]

theorem read_of_one {n : Nat} (hs : split '|' [] s = .ok [s]) (hne : trim s ≠ []) :
    Hint.read (n + 1) s = ofSingle (Hint.read n) (trim s) := by
  have hparts : parts '|' s = .ok [trim s] :=
    parts_eq_ok_iff.mpr ⟨[s], hs, rfl, by simpa using hne⟩
  rw [Hint.read, hparts]

theorem read_of_several {n : Nat} {ps : List (List Char)} (hs : split '|' [] s = .ok ps)
    (htwo : 2 ≤ ps.length) (hne : ∀ p ∈ ps, trim p ≠ []) :
    Hint.read (n + 1) s = .union (ps.map fun p => ofSingle (Hint.read n) (trim p)) := by
  have hparts : parts '|' s = .ok (ps.map trim) :=
    parts_eq_ok_iff.mpr ⟨ps, hs, rfl, by simpa using hne⟩
  rw [Hint.read, hparts]
  match ps with
  | p :: q :: ps =>
    show Hint.union (((p :: q :: ps).map trim).map (ofSingle (Hint.read n))) = _
    rw [List.map_map]
    rfl

/-! ## the types that hints mean -/

section

variable {h : Hierarchy} {r : Option Resolver} {hint key item : Hint} {hints : List Hint} {t : Ty}
  {ts : List Ty}

def Means (h : Hierarchy) (r : Option Resolver) (hint : Hint) (t : Ty) : Prop :=
  (hint.meaning h r).result = .ok t

theorem means_primitive_iff : Means h r (.primitive p) t ↔ t = .primitive p := by
  rw [Means, meaning, Traced.result_pure, Except.ok.injEq, eq_comm]

theorem means_named_iff {name : String} :
    Means h r (.named name) t ↔ (namedType h r name).result = .ok t := by
  rw [Means, meaning]

theorem means_array_iff : Means h r (.array key item) t ↔
    ∃ k i, Means h r key k ∧ Means h r item i ∧ t = .array k i := by
  rw [Means, meaning]
  simp only [Traced.result_bind, Traced.result_pure, bind_eq_ok, Except.ok.injEq, Means]
  constructor
  · rintro ⟨k, hk, i, hi, e⟩
    exact ⟨k, i, hk, hi, e.symm⟩
  · rintro ⟨k, i, hk, hi, e⟩
    exact ⟨k, hk, i, hi, e.symm⟩

theorem means_items_iff : Means h r (.array (.primitive .mixed) item) t ↔
    ∃ i, Means h r item i ∧ t = .arrayOf i := by
  rw [means_array_iff]
  constructor
  · rintro ⟨k, i, hk, hi, rfl⟩
    exact ⟨i, hi, by rw [means_primitive_iff.mp hk]; rfl⟩
  · rintro ⟨i, hi, rfl⟩
    exact ⟨_, i, means_primitive_iff.mpr rfl, hi, rfl⟩

theorem not_means_malformed {text : String} {flaw : Flaw} :
    ¬ Means h r (.malformed text flaw) t := by
  intro ht
  rw [Means, meaning] at ht
  cases ht

theorem meanings_eq_ok_iff :
    (meanings h r hints).result = .ok ts ↔ List.Forall₂ (Means h r) hints ts := by
  induction hints generalizing ts with
  | nil =>
    rw [meanings, List.forall₂_nil_left_iff, Traced.result_pure, Except.ok.injEq, eq_comm]
  | cons hint hints ih =>
    rw [meanings, List.forall₂_cons_left_iff]
    simp only [Traced.result_bind, Traced.result_pure, bind_eq_ok, Except.ok.injEq, ih, Means]
    constructor
    · rintro ⟨t, ht, us, hus, e⟩
      exact ⟨t, us, ht, hus, e.symm⟩
    · rintro ⟨t, us, ht, hus, e⟩
      exact ⟨t, ht, us, hus, e.symm⟩

theorem means_union_iff : Means h r (.union hints) t ↔
    ∃ ts, List.Forall₂ (Means h r) hints ts ∧ (Ty.unite h ts).result = .ok t := by
  rw [Means, meaning, Traced.result_bind, bind_eq_ok]
  simp only [meanings_eq_ok_iff]

/-- blanks around a text show only in the text of a flaw -/
theorem read_trim (n : Nat) (s : List Char) : Hint.read n (trim s) = Hint.read n s ∨
    ∃ flaw, Hint.read n (trim s) = .malformed (String.ofList (trim s)) flaw ∧
      Hint.read n s = .malformed (String.ofList s) flaw := by
  cases n with
  | zero => exact Or.inr ⟨.tooDeep, rfl, rfl⟩
  | succ n =>
    rw [Hint.read, Hint.read, parts_trim (by decide)]
    match parts '|' s with
    | .error flaw => exact Or.inr ⟨flaw, rfl, rfl⟩
    | .ok [] => exact Or.inl rfl
    | .ok [q] => exact Or.inl rfl
    | .ok (_ :: _ :: _) => exact Or.inl rfl

theorem means_read_trim {n : Nat} :
    Means h r (Hint.read n (trim s)) t ↔ Means h r (Hint.read n s) t := by
  rcases read_trim n s with e | ⟨flaw, e, e'⟩
  · rw [e]
  · rw [e, e']
    exact iff_of_false not_means_malformed not_means_malformed

end

end Hint

/-! ## texts of the grammar -/

section

variable {h : Hierarchy} {rel : String → Ty → Prop} {n : Nat} {s u : List Char} {t : Ty}
  {ps : List (List Char × Ty)}

theorem IsPart.trim_ne_nil (hs : IsPart h rel n s t) : trim s ≠ [] := by
  obtain ⟨hw, hs, hw'⟩ := hs
  rw [trim_surround hw hw', trim_of_tight hs.ne_nil_and_tight.2]
  exact hs.ne_nil_and_tight.1

theorem IsUnion.trim_ne_nil (hs : IsUnion h rel n s t) : trim s ≠ [] := by
  cases hs with
  | one hs => exact hs.trim_ne_nil
  | @several _ _ ps _ htwo _ =>
    match ps with
    | p :: q :: ps =>
      refine Text.trim_ne_nil (c := '|') ?_ (by decide)
      rw [List.map_cons, List.map_cons, List.intercalate_cons_cons]
      simp

theorem split_parts (hps : ∀ p ∈ ps, IsPart h rel n p.1 p.2) (hne : ps ≠ []) :
    split '|' [] (['|'].intercalate (ps.map Prod.fst)) = .ok (ps.map Prod.fst) := by
  refine split_intercalate (by decide) (mt List.map_eq_nil_iff.mp hne) fun s hs => ?_
  obtain ⟨p, hp, rfl⟩ := List.mem_map.mp hs
  exact (hps p hp).uncut.passes '|' [] (by decide)

theorem IsUnion.split_entries {k i : Ty} (hs : IsUnion h rel n s k) (hu : IsUnion h rel n u i) :
    split ',' [] (s ++ ',' :: u) = .ok [s, u] := by
  rw [split_sep (by decide) (hs.uncut.passes ',' [] (by decide)), hu.split_eq]
  rfl

/-- what stands before a suffix is a single type: were it a union, the text would be cut -/
theorem IsUnion.before_suffix (hs : IsUnion h rel n u t) (htight : Tight (u ++ "[]".toList))
    (hone : split '|' [] (u ++ "[]".toList) = .ok [u ++ "[]".toList]) :
    ∃ v w, u = v ++ w ∧ Blank w ∧ IsSingle h rel n v t := by
  cases hs with
  | one hs =>
    obtain @⟨_, w, v, w', _, hw, hv, hw'⟩ := hs
    cases w with
    | nil => exact ⟨v, w', rfl, hw', hv⟩
    | cons c w =>
      have hc : isBlank c = false := htight.1
      rw [hw c List.mem_cons_self] at hc
      cases hc
  | @several _ _ ps hps htwo _ =>
    rw [split_append fun stack => .items (Or.inl rfl)] at hone
    match ps with
    | p :: q :: ps =>
      rw [split_parts hps (List.cons_ne_nil _ _)] at hone
      exact absurd (List.cons.inj (Except.ok.inj hone)).2 (appendLast_ne_nil _ _)

end

/-! ## one level -/

/-- a type one level down, if one more level may be opened -/
def Nested (h : Hierarchy) (rel : String → Ty → Prop) (n : Nat) (s : List Char) (t : Ty) : Prop :=
  ∃ m, n = m + 1 ∧ IsUnion h rel m s t

section

variable {h : Hierarchy} {r : Option Resolver} {n : Nat} {s : List Char} {t : Ty}

theorem means_of_isSingle
    (ih : ∀ s t, Nested h (Resolves h r) n s t → Means h r (Hint.read n s) t)
    (hs : IsSingle h (Resolves h r) n s t) : Means h r (ofSingle (Hint.read n) s) t := by
  cases hs with
  | group hs =>
    rw [ofSingle_group hs.uncut.balanced]
    exact ih _ _ ⟨_, rfl, hs⟩
  | primitive hp =>
    rw [ofSingle_primitive hp]
    exact means_primitive_iff.mpr rfl
  | @suffix _ u w t hs hw =>
    have hpart : IsUnion h (Resolves h r) _ (u ++ w) t := .one (.intro .nil hs hw)
    rw [ofSingle_suffix hpart.trim_ne_nil]
    exact means_items_iff.mpr ⟨t, ih _ _ ⟨_, rfl, hpart⟩, rfl⟩
  | array =>
    rw [ofSingle_array]
    exact means_items_iff.mpr ⟨.mixed, means_primitive_iff.mpr rfl, rfl⟩
  | items hs =>
    rw [ofSingle_arguments, ofArguments_one hs.split_eq hs.trim_ne_nil]
    exact means_items_iff.mpr ⟨_, means_read_trim.mpr (ih _ _ ⟨_, rfl, hs⟩), rfl⟩
  | entries hs hu =>
    rw [ofSingle_arguments,
      ofArguments_two (hs.split_entries hu) hs.trim_ne_nil hu.trim_ne_nil]
    exact means_array_iff.mpr ⟨_, _, means_read_trim.mpr (ih _ _ ⟨_, rfl, hs⟩),
      means_read_trim.mpr (ih _ _ ⟨_, rfl, hu⟩), rfl⟩
  | relative hs htight hprim harray ht =>
    rw [ofSingle_name hs.unmarked hprim harray, ofName_relative hs]
    refine means_named_iff.mpr ((namedType_relative_iff ?_).mpr ht)
    rw [String.toList_ofList]
    exact hs.head?_ne
  | @absolute _ u _ hs htight ht =>
    have hunmarked : Unmarked (Name.separator :: u) :=
      List.forall_mem_cons.mpr ⟨by decide, hs.unmarked⟩
    have hprim : ∀ p, ¬ Primitive.Called p (Name.separator :: u) :=
      fun p hp => hp.text.2.2.1 List.mem_cons_self
    rw [ofSingle_name hunmarked hprim (by simp [Name.separator]), ofName_absolute hs]
    exact means_named_iff.mpr (namedType_absolute_iff.mpr ht)

theorem of_means_ofName (ht : Means h r (ofName s) t) :
    (Name.IsPath s ∧ Resolves h r (String.ofList s) t) ∨
      ∃ u, s = Name.separator :: u ∧ Name.IsPath u ∧ Refers h (String.ofList u) t := by
  cases s with
  | nil => exact absurd ht not_means_malformed
  | cons c u =>
    by_cases hc : c = Name.separator
    · subst hc
      by_cases hu : Name.isValid u = true
      · have hu := Name.isValid_iff.mp hu
        rw [ofName_absolute hu] at ht
        exact Or.inr ⟨u, rfl, hu, namedType_absolute_iff.mp (means_named_iff.mp ht)⟩
      · simp only [ofName, if_true, if_neg hu] at ht
        exact absurd ht not_means_malformed
    · by_cases hu : Name.isValid (c :: u) = true
      · have hu := Name.isValid_iff.mp hu
        rw [ofName_relative hu] at ht
        refine Or.inl ⟨hu, (namedType_relative_iff ?_).mp (means_named_iff.mp ht)⟩
        rw [String.toList_ofList]
        exact hu.head?_ne
      · simp only [ofName, if_neg hc, if_neg hu] at ht
        exact absurd ht not_means_malformed

theorem isSingle_of_means_arguments {text u : List Char}
    (ih : ∀ s t, Means h r (Hint.read n s) t → Nested h (Resolves h r) n s t)
    (ht : Means h r (ofArguments (Hint.read n) text u) t) :
    IsSingle h (Resolves h r) n ("array".toList ++ '<' :: (u ++ ['>'])) t := by
  rw [ofArguments] at ht
  split at ht
  · exact absurd ht not_means_malformed
  · rename_i q hparts
    obtain ⟨i, hi, rfl⟩ := means_items_iff.mp ht
    obtain ⟨ps, hsplit, e, -⟩ := parts_eq_ok_iff.mp hparts
    obtain ⟨p, rfl, rfl⟩ := List.map_eq_singleton_iff.mp e
    rw [(split_pieces hsplit).1, List.intercalate_singleton]
    obtain ⟨m, rfl, hp⟩ := ih p i (means_read_trim.mp hi)
    exact .items hp
  · rename_i x y hparts
    obtain ⟨k, i, hk, hi, rfl⟩ := means_array_iff.mp ht
    obtain ⟨ps, hsplit, e, -⟩ := parts_eq_ok_iff.mp hparts
    match ps, e with
    | [p, q], rfl =>
      rw [(split_pieces hsplit).1, List.intercalate_cons_cons, List.intercalate_singleton]
      obtain ⟨m, rfl, hp⟩ := ih p k (means_read_trim.mp hk)
      obtain ⟨m', e, hq⟩ := ih q i (means_read_trim.mp hi)
      cases e
      rw [List.append_assoc p, List.singleton_append]
      exact .entries hp hq
  · exact absurd ht not_means_malformed

theorem isSingle_of_means
    (ih : ∀ s t, Means h r (Hint.read n s) t → Nested h (Resolves h r) n s t)
    (htight : Tight s) (hone : split '|' [] s = .ok [s])
    (ht : Means h r (ofSingle (Hint.read n) s) t) : IsSingle h (Resolves h r) n s t := by
  -- the cases are the forms in the order in which they are tried
  cases hin : inner? s with
  | some u =>
    obtain ⟨rfl, hb⟩ := inner?_eq_some_iff.mp hin
    rw [ofSingle_group hb] at ht
    obtain ⟨m, rfl, hu⟩ := ih u t ht
    exact .group hu
  | none =>
    rw [ofSingle, hin] at ht
    cases hprim : Primitive.ofName? (String.ofList s) with
    | some p =>
      rw [hprim] at ht
      rw [means_primitive_iff.mp ht]
      exact .primitive (Primitive.ofName?_eq_some_iff.mp hprim)
    | none =>
      rw [hprim] at ht
      cases hitem : item? s with
      | some u =>
        rw [hitem] at ht
        obtain rfl := item?_eq_some_iff.mp hitem
        by_cases hempty : (trim u).isEmpty = true
        · simp only [hempty, if_true] at ht
          exact absurd ht not_means_malformed
        · simp only [hempty] at ht
          obtain ⟨i, hi, rfl⟩ := means_items_iff.mp ht
          obtain ⟨m, rfl, hu⟩ := ih u i hi
          -- only here does it matter that `s` is one part without blanks around it
          obtain ⟨v, w, rfl, hw, hv⟩ := hu.before_suffix htight hone
          exact .suffix hv hw
      | none =>
        rw [hitem] at ht
        by_cases harray : s = "array".toList
        · rw [if_pos harray] at ht
          obtain ⟨i, hi, rfl⟩ := means_items_iff.mp ht
          rw [harray, means_primitive_iff.mp hi]
          exact .array
        · rw [if_neg harray] at ht
          cases hargs : arguments? s with
          | some u =>
            rw [hargs] at ht
            rw [arguments?_eq_some_iff.mp hargs]
            exact isSingle_of_means_arguments ih ht
          | none =>
            rw [hargs] at ht
            rcases of_means_ofName ht with ⟨hs, ht⟩ | ⟨u, rfl, hu, ht⟩
            · exact .relative hs htight (Primitive.ofName?_eq_none_iff.mp hprim) harray ht
            · exact .absolute hu htight ht

/-! ## all levels -/

theorem isPart_iff_means
    (hread : ∀ s t, Means h r (Hint.read n s) t ↔ Nested h (Resolves h r) n s t)
    (hone : split '|' [] s = .ok [s]) :
    IsPart h (Resolves h r) n s t ↔ Means h r (ofSingle (Hint.read n) (trim s)) t := by
  constructor
  · rintro ⟨hw, hs, hw'⟩
    rw [trim_surround hw hw', trim_of_tight hs.ne_nil_and_tight.2]
    exact means_of_isSingle (fun u t => (hread u t).mpr) hs
  · intro ht
    obtain ⟨w, w', hw, hw', e⟩ := exists_trim s
    have hs := isSingle_of_means (fun u t => (hread u t).mp) (tight_trim s)
      (split_trim (by decide) hone) ht
    rw [← e]
    exact .intro hw hs hw'

theorem means_read_of_isUnion
    (hread : ∀ s t, Means h r (Hint.read n s) t ↔ Nested h (Resolves h r) n s t)
    (hs : IsUnion h (Resolves h r) n s t) : Means h r (Hint.read (n + 1) s) t := by
  cases hs with
  | one hs =>
    rw [read_of_one hs.split_eq hs.trim_ne_nil]
    exact (isPart_iff_means hread hs.split_eq).mp hs
  | @several _ _ ps hps htwo ht =>
    have hne : ps ≠ [] := by
      rintro rfl
      exact absurd htwo (by decide)
    have hsplit := split_parts hps hne
    have htrim : ∀ p ∈ ps.map Prod.fst, trim p ≠ [] := by
      intro p hp
      obtain ⟨q, hq, rfl⟩ := List.mem_map.mp hp
      exact (hps q hq).trim_ne_nil
    rw [read_of_several hsplit (by rw [List.length_map]; exact htwo) htrim]
    refine means_union_iff.mpr ⟨ps.map Prod.snd, ?_, ht⟩
    rw [List.map_map, List.forall₂_map_left_iff, List.forall₂_map_right_iff, List.forall₂_same]
    intro p hp
    exact (isPart_iff_means hread (hps p hp).split_eq).mp (hps p hp)

theorem isUnion_of_means_read
    (hread : ∀ s t, Means h r (Hint.read n s) t ↔ Nested h (Resolves h r) n s t)
    (ht : Means h r (Hint.read (n + 1) s) t) : IsUnion h (Resolves h r) n s t := by
  cases hparts : parts '|' s with
  | error flaw =>
    rw [Hint.read, hparts] at ht
    exact absurd ht not_means_malformed
  | ok qs =>
    obtain ⟨ps, hsplit, rfl, hne⟩ := parts_eq_ok_iff.mp hparts
    obtain ⟨hcat, hpieces⟩ := split_pieces hsplit
    have hne : ∀ p ∈ ps, trim p ≠ [] := fun p hp => hne _ (List.mem_map_of_mem hp)
    match ps with
    | [] => exact absurd rfl (split_ne_nil hsplit)
    | [p] =>
      rw [List.intercalate_singleton] at hcat
      subst hcat
      rw [read_of_one hsplit (hne s List.mem_cons_self)] at ht
      exact .one ((isPart_iff_means hread hsplit).mpr ht)
    | p :: q :: ps =>
      rw [read_of_several hsplit (by simp) hne] at ht
      obtain ⟨ts, hts, ht⟩ := means_union_iff.mp ht
      rw [List.forall₂_map_left_iff] at hts
      obtain ⟨hlen, hzip⟩ := List.forall₂_iff_zip.mp hts
      have hfst : ((p :: q :: ps).zip ts).map Prod.fst = p :: q :: ps :=
        List.map_fst_zip hlen.le
      have hsnd : ((p :: q :: ps).zip ts).map Prod.snd = ts := List.map_snd_zip hlen.ge
      rw [hcat, ← hfst]
      refine .several (fun x hx => ?_) ?_ (by rw [hsnd]; exact ht)
      · have hone := hpieces x.1 (List.of_mem_zip hx).1
        exact (isPart_iff_means hread hone).mpr (hzip hx)
      · rw [List.length_zip, ← hlen]
        simp

theorem means_read_iff (h : Hierarchy) (r : Option Resolver) (n : Nat) : ∀ s t,
    Means h r (Hint.read n s) t ↔ Nested h (Resolves h r) n s t := by
  induction n with
  | zero =>
    intro s t
    refine iff_of_false not_means_malformed ?_
    rintro ⟨m, e, -⟩
    cases e
  | succ n ih =>
    intro s t
    constructor
    · intro ht
      exact ⟨n, rfl, isUnion_of_means_read ih ht⟩
    · rintro ⟨m, e, hs⟩
      cases e
      exact means_read_of_isUnion ih hs

theorem ofText_eq_ok_iff {text : String} :
    (Ty.ofText h r text).result = .ok t ↔
      IsUnion h (Resolves h r) nestingLimit text.toList t := by
  have hread := means_read_iff h r (nestingLimit + 1) text.toList t
  refine hread.trans ⟨?_, fun hs => ⟨_, rfl, hs⟩⟩
  rintro ⟨m, e, hs⟩
  cases e
  exact hs

end

end TypeHint
