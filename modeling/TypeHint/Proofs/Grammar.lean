import TypeHint.Proofs.Names
import TypeHint.Proofs.Parts
import TypeHint.Proofs.Pieces

/-!
# The grammar of type hints

What a text denotes, without a reader:

    union  := part ('|' part)*
    part   := blanks single blanks
    single := '(' union ')'  |  primitive  |  single blanks '[]'
            | 'array'  |  'array<' union '>'  |  'array<' union ',' union '>'
            | relative  |  '\' path
    path   := identifier ('\' identifier)*

A `primitive` is the name or an alias of a primitive type, and a `relative` name is a path that is
neither that nor `array`.  Blanks around a single type are not part of it, although an identifier
may hold blanks outside ASCII.

* `IsUnion h rel n s t`    `s` denotes `t`, with groups and arrays nested at most `n` levels deep
* `IsSingle`, `IsPart`     the same for the other two rules
* `Uncut seps s`           the brackets of `s` are closed, and outside them `s` holds none of `seps`
* `IsSingle.uncut`, `IsUnion.uncut`   texts of the grammar are such texts

What a relative name denotes depends on the resolver and is left open as `rel`.
-/

namespace TypeHint

open Hint Text

/-! ## names -/

/-- `s` is the name or an alias of `p` -/
def Primitive.Called (p : Primitive) (s : List Char) : Prop :=
  String.ofList s = p.name ∨ (String.ofList s, p) ∈ Primitive.aliases

/-- identifiers joined by the namespace separator -/
def Name.IsPath (s : List Char) : Prop :=
  ∃ ids : List (List Char), ids ≠ [] ∧ (∀ i ∈ ids, Name.isIdentifier i = true) ∧
    s = [Name.separator].intercalate ids

/-- the class or interface that a full name denotes; an interface is looked for first -/
inductive Refers (h : Hierarchy) (n : String) : Ty → Prop
  | iface (hi : h.isInterface n = true) : Refers h n (.iface n)
  | cls (hno : h.isInterface n = false) (hc : h.isClass n = true) : Refers h n (.cls n)

/-- what a relative name denotes: a resolver expands it, and without one it is a full name -/
def Resolves (h : Hierarchy) : Option Resolver → String → Ty → Prop
  | none, n, t => Refers h n t
  | some resolve, n, t => ∃ full, (resolve n).result = .ok full ∧ Refers h (Name.strip full) t

/-! ## the rules -/

mutual

/-- a single type, in which groups and arrays are nested at most `n` levels deep -/
inductive IsSingle (h : Hierarchy) (rel : String → Ty → Prop) : Nat → List Char → Ty → Prop
  | group {n s t} (hs : IsUnion h rel n s t) : IsSingle h rel (n + 1) ('(' :: (s ++ [')'])) t
  | primitive {n s p} (hp : Primitive.Called p s) : IsSingle h rel n s (.primitive p)
  | suffix {n s w t} (hs : IsSingle h rel n s t) (hw : Blank w) :
    IsSingle h rel (n + 1) (s ++ w ++ "[]".toList) (.arrayOf t)
  | array {n} : IsSingle h rel n "array".toList (.arrayOf .mixed)
  | items {n s t} (hs : IsUnion h rel n s t) :
    IsSingle h rel (n + 1) ("array".toList ++ '<' :: (s ++ ['>'])) (.arrayOf t)
  | entries {n s u k i} (hs : IsUnion h rel n s k) (hu : IsUnion h rel n u i) :
    IsSingle h rel (n + 1) ("array".toList ++ '<' :: ((s ++ ',' :: u) ++ ['>'])) (.array k i)
  | relative {n s t} (hs : Name.IsPath s) (htight : Tight s) (hprim : ∀ p, ¬ Primitive.Called p s)
    (harray : s ≠ "array".toList) (ht : rel (String.ofList s) t) : IsSingle h rel n s t
  | absolute {n s t} (hs : Name.IsPath s) (htight : Tight (Name.separator :: s))
    (ht : Refers h (String.ofList s) t) : IsSingle h rel n (Name.separator :: s) t

/-- a single type with blanks around it -/
inductive IsPart (h : Hierarchy) (rel : String → Ty → Prop) : Nat → List Char → Ty → Prop
  | intro {n w s w' t} (hw : Blank w) (hs : IsSingle h rel n s t) (hw' : Blank w') :
    IsPart h rel n (w ++ s ++ w') t

/-- one part, or several that are united -/
inductive IsUnion (h : Hierarchy) (rel : String → Ty → Prop) : Nat → List Char → Ty → Prop
  | one {n s t} (hs : IsPart h rel n s t) : IsUnion h rel n s t
  | several {n t} {ps : List (List Char × Ty)} (hps : ∀ p ∈ ps, IsPart h rel n p.1 p.2)
    (htwo : 2 ≤ ps.length) (ht : (Ty.unite h (ps.map Prod.snd)).result = .ok t) :
    IsUnion h rel n (['|'].intercalate (ps.map Prod.fst)) t

end

section

variable {h : Hierarchy} {rel : String → Ty → Prop} {r : Option Resolver} {n : Nat}
  {s u w : List Char} {seps : List Char} {c : Char} {t : Ty} {p : Primitive}

/-! ## what names denote -/

theorem Primitive.ofName?_eq_some_iff :
    Primitive.ofName? (String.ofList s) = some p ↔ p.Called s := by
  constructor
  · intro hp
    obtain ⟨before, after, e, -⟩ := List.lookup_eq_some_iff.mp hp
    have hmem : (String.ofList s, p) ∈ Primitive.all.map (fun p => (p.name, p)) ++ aliases := by
      rw [e]
      exact List.mem_append_right _ List.mem_cons_self
    rcases List.mem_append.mp hmem with hmem | hmem
    · obtain ⟨q, -, e⟩ := List.mem_map.mp hmem
      obtain ⟨hname, rfl⟩ := Prod.mk.inj e
      exact Or.inl hname.symm
    · exact Or.inr hmem
  · rintro (e | hmem)
    · rw [e]
      exact Primitive.ofName?_name p
    · generalize String.ofList s = a at hmem
      have hall : ∀ e ∈ aliases, Primitive.ofName? e.1 = some e.2 := by decide
      exact hall (a, p) hmem

theorem Primitive.ofName?_eq_none_iff :
    Primitive.ofName? (String.ofList s) = none ↔ ∀ p, ¬ Primitive.Called p s := by
  rw [Option.eq_none_iff_forall_ne_some]
  exact forall_congr' fun p => not_congr Primitive.ofName?_eq_some_iff

theorem Primitive.Called.text (hp : p.Called s) :
    s ≠ [] ∧ s ≠ "array".toList ∧ Name.separator ∉ s ∧ Unmarked s ∧ Tight s := by
  rw [← String.toList_ofList (l := s)]
  rcases hp with e | hmem
  · rw [e]
    cases p <;> decide
  · have hall : ∀ e ∈ aliases, e.1.toList ≠ [] ∧ e.1.toList ≠ "array".toList ∧
        Name.separator ∉ e.1.toList ∧ Unmarked e.1.toList ∧ Tight e.1.toList := by decide
    exact hall _ hmem

theorem separator_notMem_of_isIdentifier (hs : Name.isIdentifier s = true) :
    Name.separator ∉ s := by
  intro hmem
  have hc := continuesIdentifier_of_mem hs hmem
  revert hc
  decide

theorem Name.isValid_iff : Name.isValid s = true ↔ Name.IsPath s := by
  rw [Name.isValid, pieces_eq_splitOn, List.all_eq_true]
  constructor
  · intro hids
    exact ⟨_, List.splitOnP_ne_nil _ _, hids, (List.intercalate_splitOn _).symm⟩
  · rintro ⟨ids, hne, hids, rfl⟩
    rw [List.splitOn_intercalate _ (fun i hi => separator_notMem_of_isIdentifier (hids i hi)) hne]
    exact hids

theorem Name.IsPath.unmarked (hs : Name.IsPath s) : Unmarked s :=
  unmarked_of_isValid (Name.isValid_iff.mpr hs)

theorem Name.IsPath.head? (hs : Name.IsPath s) :
    ∃ c, s.head? = some c ∧ Name.startsIdentifier c = true := by
  obtain ⟨ids, hne, hids, rfl⟩ := hs
  cases ids with
  | nil => exact absurd rfl hne
  | cons i ids =>
    have hi := hids i List.mem_cons_self
    cases i with
    | nil => cases hi
    | cons c i =>
      refine ⟨c, ?_, (Bool.and_eq_true_iff.mp hi).1⟩
      cases ids with
      | nil => rw [List.intercalate_singleton]; rfl
      | cons j ids => rw [List.intercalate_cons_cons]; rfl

theorem Name.IsPath.ne_nil (hs : Name.IsPath s) : s ≠ [] := by
  rintro rfl
  obtain ⟨c, hc, -⟩ := hs.head?
  cases hc

theorem Name.IsPath.head?_ne (hs : Name.IsPath s) : s.head? ≠ some Name.separator := by
  obtain ⟨c, hc, hstart⟩ := hs.head?
  rw [hc]
  rintro ⟨rfl⟩
  exact absurd hstart (by decide)

theorem lookUp_eq_ok_iff {name : String} : lookUp h name = .ok t ↔ Refers h name t := by
  rw [lookUp]
  constructor
  · intro ht
    split at ht
    · rename_i hi
      cases ht
      exact .iface hi
    · rename_i hi
      split at ht
      · rename_i hc
        cases ht
        exact .cls (Bool.eq_false_iff.mpr hi) hc
      · cases ht
  · intro ht
    cases ht with
    | iface hi => rw [if_pos hi]
    | cls hno hc => rw [if_neg (Bool.eq_false_iff.mp hno), if_pos hc]

theorem namedType_eq_ok_iff {name : String} : (namedType h r name).result = .ok t ↔
    ∃ full, (expandName r name).result = .ok full ∧ Refers h full t := by
  unfold namedType
  simp [bind_eq_ok, lookUp_eq_ok_iff]

theorem namedType_relative_iff {name : String} (hs : name.toList.head? ≠ some Name.separator) :
    (namedType h r name).result = .ok t ↔ Resolves h r name t := by
  rw [namedType_eq_ok_iff]
  unfold expandName
  rw [if_neg hs]
  cases r with
  | none => simp [Resolves]
  | some resolve =>
    simp only [Resolves, Traced.result_bind, Traced.result_mapError, bind_eq_ok, mapError_eq_ok]
    simp

theorem namedType_absolute_iff :
    (namedType h r (String.ofList (Name.separator :: s))).result = .ok t ↔
      Refers h (String.ofList s) t := by
  have hs : (String.ofList (Name.separator :: s)).toList = Name.separator :: s :=
    String.toList_ofList
  rw [namedType_eq_ok_iff]
  unfold expandName
  rw [hs, List.head?_cons, if_pos rfl]
  simp

/-! ## closed texts -/

theorem Text.Blank.unmarked (hw : Blank w) : Unmarked w := by
  intro c hc hm
  have hall : (marks.all fun c => !isBlank c) = true := by decide
  have hno := List.all_eq_true.mp hall c hm
  rw [hw c hc] at hno
  cases hno

/-- the brackets of `s` are closed, and outside them `s` holds none of the characters `seps` -/
structure Uncut (seps s : List Char) : Prop where
  passes : ∀ sep stack, (stack = [] → sep ∈ seps) → Passes sep stack s
  balances : ∀ depth rest, balanced depth (s ++ rest) = balanced depth rest

namespace Uncut

theorem nil (seps : List Char) : Uncut seps [] :=
  ⟨fun sep stack _ => .nil sep stack, fun _ _ => rfl⟩

theorem append (hs : Uncut seps s) (hu : Uncut seps u) : Uncut seps (s ++ u) := by
  refine ⟨fun sep stack hsep => (hs.passes sep stack hsep).append (hu.passes sep stack hsep), ?_⟩
  intro depth rest
  rw [List.append_assoc, hs.balances, hu.balances]

theorem mono {seps' : List Char} (hsub : seps' ⊆ seps) (hs : Uncut seps s) : Uncut seps' s :=
  ⟨fun sep stack hsep => hs.passes sep stack fun e => hsub (hsep e), hs.balances⟩

theorem char (hb : c ∉ brackets) (hc : c ∉ seps) : Uncut seps [c] := by
  constructor
  · intro sep stack hsep
    exact .char hb fun e hstack => hc (e ▸ hsep hstack)
  · intro depth rest
    have hopen : c ≠ '(' := fun e => hb (e ▸ by decide)
    have hclose : c ≠ ')' := fun e => hb (e ▸ by decide)
    show balanced depth (c :: rest) = _
    rw [balanced.eq_def]
    exact (if_neg hopen).trans (if_neg hclose)

theorem unmarked (hseps : seps ⊆ marks) (hs : Unmarked s) : Uncut seps s := by
  induction s with
  | nil => exact .nil seps
  | cons c s ih =>
    have hno := hs c List.mem_cons_self
    have hc : Uncut seps [c] := char (fun hb => hno (List.mem_append_left _ hb)) (mt (@hseps c) hno)
    exact hc.append (ih fun d hd => hs d (List.mem_cons_of_mem _ hd))

theorem items : Uncut ['|', ','] "[]".toList :=
  (char (by decide) (by decide)).append (char (by decide) (by decide))

theorem angle {seps' : List Char} (hs : Uncut seps' s) : Uncut seps ('<' :: (s ++ ['>'])) := by
  constructor
  · intro sep stack _
    exact .angle (hs.passes sep _ fun e => absurd e (List.cons_ne_nil _ _))
  · intro depth rest
    show balanced depth ((s ++ ['>']) ++ rest) = _
    rw [List.append_assoc, hs.balances]
    rfl

theorem group {seps' : List Char} (hs : Uncut seps' s) : Uncut seps ('(' :: (s ++ [')'])) := by
  constructor
  · intro sep stack _
    exact .group (hs.passes sep _ fun e => absurd e (List.cons_ne_nil _ _))
  · intro depth rest
    show balanced (depth + 1) ((s ++ [')']) ++ rest) = _
    rw [List.append_assoc, hs.balances]
    rfl

theorem intercalate (hc : Uncut seps [c]) {ss : List (List Char)} (hss : ∀ s ∈ ss, Uncut seps s) :
    Uncut seps ([c].intercalate ss) := by
  induction ss with
  | nil => exact .nil seps
  | cons s ss ih =>
    have hs := hss s List.mem_cons_self
    cases ss with
    | nil =>
      rw [List.intercalate_singleton]
      exact hs
    | cons u us =>
      rw [List.intercalate_cons_cons]
      exact (hs.append hc).append (ih fun v hv => hss v (List.mem_cons_of_mem _ hv))

theorem balanced (hs : Uncut seps s) : Hint.balanced 0 s = true := by
  have hb := hs.balances 0 []
  rw [List.append_nil] at hb
  exact hb

end Uncut

/-! ## texts of the grammar -/

theorem tight_of_ends {d : Char} (hc : isBlank c = false) (hd : isBlank d = false) :
    Tight (c :: (s ++ [d])) := by
  refine ⟨hc, ?_⟩
  rw [← List.cons_append, List.getLast?_concat]
  exact hd

theorem getLast?_arguments : ("array".toList ++ '<' :: (s ++ ['>'])).getLast? = some '>' := by
  rw [← List.cons_append, ← List.append_assoc, List.getLast?_concat]

theorem tight_arguments : Tight ("array".toList ++ '<' :: (s ++ ['>'])) := by
  refine ⟨rfl, ?_⟩
  rw [getLast?_arguments]
  rfl

theorem IsSingle.ne_nil_and_tight : ∀ {n s t}, IsSingle h rel n s t → s ≠ [] ∧ Tight s
  | _, _, _, .group _ => ⟨List.cons_ne_nil _ _, tight_of_ends (by decide) (by decide)⟩
  | _, _, _, .primitive hp => ⟨hp.text.1, hp.text.2.2.2.2⟩
  | _, _, _, .suffix hs _ => by
    obtain ⟨hne, htight⟩ := hs.ne_nil_and_tight
    refine ⟨by simp, ?_, ?_⟩
    · rw [List.append_assoc, List.head?_append_of_ne_nil _ hne]
      exact htight.1
    · rw [List.getLast?_append]
      rfl
  | _, _, _, .array => by decide
  | _, _, _, .items _ => ⟨List.cons_ne_nil _ _, tight_arguments⟩
  | _, _, _, .entries _ _ => ⟨List.cons_ne_nil _ _, tight_arguments⟩
  | _, _, _, .relative hs htight _ _ _ => ⟨hs.ne_nil, htight⟩
  | _, _, _, .absolute _ htight _ => ⟨List.cons_ne_nil _ _, htight⟩

mutual

theorem IsSingle.uncut : ∀ {n s t}, IsSingle h rel n s t → Uncut ['|', ','] s
  | _, _, _, .group hs => .group hs.uncut
  | _, _, _, .primitive hp => .unmarked (by decide) hp.text.2.2.2.1
  | _, _, _, .suffix hs hw =>
    (hs.uncut.append (.unmarked (by decide) hw.unmarked)).append .items
  | _, _, _, .array => .unmarked (by decide) (by decide)
  | _, _, _, .items hs =>
    (Uncut.unmarked (by decide) (by decide)).append (.angle hs.uncut)
  | _, _, _, .entries hs hu =>
    (Uncut.unmarked (by decide) (by decide)).append
      (.angle ((hs.uncut.mono (List.nil_subset _)).append
        ((Uncut.char (by decide) List.not_mem_nil).append (hu.uncut.mono (List.nil_subset _)))))
  | _, _, _, .relative hs _ _ _ _ => .unmarked (by decide) hs.unmarked
  | _, _, _, .absolute hs _ _ =>
    (Uncut.char (by decide) (by decide)).append (.unmarked (by decide) hs.unmarked)

theorem IsPart.uncut : ∀ {n s t}, IsPart h rel n s t → Uncut ['|', ','] s
  | _, _, _, .intro hw hs hw' =>
    ((Uncut.unmarked (by decide) hw.unmarked).append hs.uncut).append
      (.unmarked (by decide) hw'.unmarked)

/-- a union is cut only between its parts -/
theorem IsUnion.uncut : ∀ {n s t}, IsUnion h rel n s t → Uncut [','] s
  | _, _, _, .one hs => hs.uncut.mono (by decide)
  | _, _, _, .several hps _ _ => by
    refine .intercalate (.char (by decide) (by decide)) fun s hs => ?_
    obtain ⟨p, hp, rfl⟩ := List.mem_map.mp hs
    exact (hps p hp).uncut.mono (by decide)

end

theorem IsPart.split_eq (hs : IsPart h rel n s t) : split '|' [] s = .ok [s] :=
  split_of_passes (hs.uncut.passes '|' [] (by decide))

theorem IsUnion.split_eq (hs : IsUnion h rel n s t) : split ',' [] s = .ok [s] :=
  split_of_passes (hs.uncut.passes ',' [] (by decide))

end

end TypeHint
