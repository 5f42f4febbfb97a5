import TypeHint.Proofs.LoadedNames
import TypeHint.Proofs.Registration

/-!
# Relative names in a declaration

A relative name is cut at its first separator.  The first segment is looked up among the imports of
the declaration, in whatever case its letters are written, and what comes after it is kept.  A name
whose first segment is no alias belongs to the namespace of the declaration.

* `Name.Cut`                   a name up to its first separator, and from there on
* `Symbol.Imports`             a target is imported under an alias
* `Symbol.Expansion`           the full name that is meant, by the imports and the declared name
* `Symbol.resolver_cut`        the resolver cuts a name, and fails if there is no first segment
* `Symbol.expansion_expand`    what it answers is the full name that is meant
* `Expansion.absolute_iff`     that name starts with a separator only after an alias of the root
-/

namespace TypeHint

open Text

/-! ## texts -/

namespace Text

theorem head?_append {s u : String} (hs : s ≠ "") : (s ++ u).toList.head? = s.toList.head? := by
  rw [String.toList_append]
  exact List.head?_append_of_ne_nil _ fun hnil => hs (String.toList_eq_nil_iff.mp hnil)

theorem foldCase_eq_empty_iff {s : String} : foldCase s = "" ↔ s = "" := by
  rw [foldCase, String.ofList_eq_empty_iff, List.map_eq_nil_iff, String.toList_eq_nil_iff]

end Text

/-! ## segments of a name -/

namespace Name

theorem toLower_eq_separator {c : Char} : c.toLower = separator ↔ c = separator := by
  unfold Char.toLower
  split
  · -- the separator stands between the capital letters and the small ones
    rw [Char.ext_iff, Char.ext_iff, separator]
    grind
  · rfl

theorem separator_mem_foldCase (s : String) :
    separator ∈ (foldCase s).toList ↔ separator ∈ s.toList := by
  rw [foldCase, String.toList_ofList, List.mem_map]
  simp only [toLower_eq_separator, exists_eq_right]

/-- `first` is the name up to its first separator, and `rest` is what comes from there on -/
structure Cut (name first rest : String) : Prop where
  text : name = first ++ rest
  first : separator ∉ first.toList
  rest : rest = "" ∨ rest.toList.head? = some separator

variable {name first first' rest rest' : String}

theorem exists_cut (name : String) : ∃ first rest, Cut name first rest := by
  refine ⟨.ofList (name.toList.takeWhile (· != separator)),
    .ofList (name.toList.dropWhile (· != separator)), ?_, ?_, ?_⟩
  · rw [← String.ofList_append, List.takeWhile_append_dropWhile, String.ofList_toList]
  · rw [String.toList_ofList]
    intro hmem
    have hne := List.mem_takeWhile_imp hmem
    exact bne_iff_ne.mp hne rfl
  · have hhead := List.head?_dropWhile_not (· != separator) name.toList
    cases hdrop : name.toList.dropWhile (· != separator) with
    | nil => exact Or.inl rfl
    | cons c cs =>
      rw [hdrop] at hhead
      have hc : c = separator := bne_eq_false_iff_eq.mp hhead
      rw [hc, String.toList_ofList]
      exact Or.inr rfl

namespace Cut

theorem toList_eq (hc : Cut name first rest) : name.toList = first.toList ++ rest.toList := by
  rw [hc.text, String.toList_append]

theorem takeWhile_eq (hc : Cut name first rest) :
    name.toList.takeWhile (· != separator) = first.toList := by
  have hfirst : ∀ c ∈ first.toList, (c != separator) = true := fun c hmem =>
    bne_iff_ne.mpr (ne_of_mem_of_not_mem hmem hc.first)
  have hrest : rest.toList.takeWhile (· != separator) = [] := by
    rcases hc.rest with rfl | hhead
    · rfl
    · obtain ⟨cs, hcs⟩ := List.head?_eq_some_iff.mp hhead
      rw [hcs, List.takeWhile_cons_of_neg (by simp)]
  rw [hc.toList_eq, List.takeWhile_append_of_pos hfirst, hrest, List.append_nil]

theorem dropWhile_eq (hc : Cut name first rest) :
    name.toList.dropWhile (· != separator) = rest.toList := by
  have hname := List.takeWhile_append_dropWhile (p := (· != separator)) (l := name.toList)
  rw [hc.takeWhile_eq] at hname
  exact List.append_cancel_left (hname.trans hc.toList_eq)

theorem unique (hc : Cut name first rest) (hc' : Cut name first' rest') :
    first = first' ∧ rest = rest' := by
  rw [← String.toList_inj, ← String.toList_inj, ← hc.takeWhile_eq, ← hc.dropWhile_eq]
  exact ⟨hc'.takeWhile_eq, hc'.dropWhile_eq⟩

theorem head?_first_ne (hc : Cut name first rest) : first.toList.head? ≠ some separator :=
  fun hhead => hc.first (List.mem_of_head? hhead)

theorem first_eq_empty_iff (hc : Cut name first rest) :
    first = "" ↔ name = "" ∨ name.toList.head? = some separator := by
  constructor
  · rintro rfl
    rw [hc.text, String.empty_append]
    exact hc.rest
  · intro hname
    by_contra hne
    rcases hname with hname | hhead
    · rw [hc.text, String.append_eq_empty_iff] at hname
      exact hne hname.1
    · rw [hc.text, head?_append hne] at hhead
      exact hc.head?_first_ne hhead

theorem respelled (hc : Cut name first rest) (hfold : foldCase first' = foldCase first) :
    Cut (first' ++ rest) first' rest where
  text := rfl
  first := by
    rw [← separator_mem_foldCase, hfold, separator_mem_foldCase]
    exact hc.first
  rest := hc.rest

end Cut

theorem strip_eq_empty_iff : strip name = "" ↔ ∀ c ∈ name.toList, c = separator := by
  rw [strip, stripLeading, String.ofList_eq_empty_iff, List.dropWhile_eq_nil_iff]
  simp only [beq_iff_eq]

theorem head?_strip_ne (name : String) : (strip name).toList.head? ≠ some separator := by
  intro hhead
  have hnot := List.head?_dropWhile_not (· == separator) name.toList
  rw [strip, stripLeading, String.toList_ofList] at hhead
  rw [hhead] at hnot
  exact beq_eq_false_iff_ne.mp hnot rfl

/-- a name without a separator has no namespace; another ends with what follows its last one -/
theorem namespaceOf_cases (name : String) :
    (separator ∉ name.toList ∧ namespaceOf name = "") ∨
    ∃ own, separator ∉ own.toList ∧
      name = namespaceOf name ++ String.singleton separator ++ own := by
  -- read backwards, the own name is the first segment
  obtain ⟨last, before, hc⟩ := exists_cut (String.ofList name.toList.reverse)
  have hname : name.toList = before.toList.reverse ++ last.toList.reverse := by
    rw [← List.reverse_append, ← hc.toList_eq, String.toList_ofList, List.reverse_reverse]
  have hspace : namespaceOf name = String.ofList (before.toList.drop 1).reverse := by
    rw [← hc.dropWhile_eq, String.toList_ofList, namespaceOf]
  have hlast : separator ∉ last.toList.reverse := mt List.mem_reverse.mp hc.first
  rcases hc.rest with rfl | hhead
  · exact Or.inl ⟨hname ▸ hlast, hspace⟩
  · obtain ⟨cs, hcs⟩ := List.head?_eq_some_iff.mp hhead
    refine Or.inr ⟨String.ofList last.toList.reverse, by rwa [String.toList_ofList], ?_⟩
    rw [hspace, ← String.toList_inj, hname, hcs]
    simp

end Name

/-! ## full names -/

namespace Symbol

/-- `target` is imported under the alias `first`, whatever the case of its letters -/
def Imports (s : Symbol) (first target : String) : Prop :=
  ∃ i ∈ s.imports, foldCase i.1 = foldCase first ∧ i.2 = target

/-- the full name that is meant in `s` by a name with this first segment and this rest -/
inductive Expansion (s : Symbol) (first rest : String) : String → Prop
  | imported {target : String} (himports : s.Imports first target) :
    Expansion s first rest (Name.strip target ++ rest)
  | global (hno : ∀ target, ¬ s.Imports first target)
    (hname : Name.separator ∉ (Name.strip s.name).toList) : Expansion s first rest (first ++ rest)
  | placed {space own : String} (hno : ∀ target, ¬ s.Imports first target)
    (hown : Name.separator ∉ own.toList)
    (hname : Name.strip s.name = space ++ String.singleton Name.separator ++ own) :
    Expansion s first rest (space ++ String.singleton Name.separator ++ first ++ rest)

variable {s : Symbol} {short first first' rest target target' full : String}

namespace Imports

theorem respelled (h : s.Imports first target) (hfold : foldCase first' = foldCase first) :
    s.Imports first' target := by
  obtain ⟨i, hi, hi', rfl⟩ := h
  exact ⟨i, hi, hi'.trans hfold.symm, rfl⟩

theorem target_unique (hd : s.DistinctAliases) (h : s.Imports first target)
    (h' : s.Imports first target') : target = target' := by
  obtain ⟨i, hi, hfold, rfl⟩ := h
  obtain ⟨j, hj, hfold', rfl⟩ := h'
  rw [List.inj_on_of_nodup_map hd hi hj (hfold.trans hfold'.symm)]

end Imports

theorem aliases_normal (s : Symbol) : s.normal.aliases = s.aliases := by cases s <;> rfl

theorem lookup_aliases_iff (hd : s.DistinctAliases) :
    s.aliases.lookup (foldCase first) = some full ↔
      ∃ target, s.Imports first target ∧ Name.strip target = full := by
  rw [lookup_eq_some_iff_mem hd.nodup_aliases, aliases, List.mem_map]
  simp only [Imports, Prod.mk.injEq]
  constructor
  · rintro ⟨i, hi, hfold, htarget⟩
    exact ⟨i.2, ⟨i, hi, hfold, rfl⟩, htarget⟩
  · rintro ⟨_, ⟨i, hi, hfold, rfl⟩, htarget⟩
    exact ⟨i, hi, hfold, htarget⟩

theorem expand_imported (hd : s.DistinctAliases) (h : s.Imports first target) (rest : String) :
    s.normal.expand first rest = Name.strip target ++ rest := by
  have hlookup := (lookup_aliases_iff hd).mpr ⟨target, h, rfl⟩
  unfold expand
  rw [aliases_normal, hlookup]

theorem expansion_expand (hd : s.DistinctAliases) (first rest : String) :
    s.Expansion first rest (s.normal.expand first rest) := by
  by_cases h : ∃ target, s.Imports first target
  · obtain ⟨target, htarget⟩ := h
    rw [expand_imported hd htarget]
    exact .imported htarget
  · have hno := not_exists.mp h
    have hlookup : s.aliases.lookup (foldCase first) = none := by
      refine Option.eq_none_iff_forall_ne_some.mpr fun full hfull => ?_
      obtain ⟨target, htarget, -⟩ := (lookup_aliases_iff hd).mp hfull
      exact hno target htarget
    unfold expand
    rw [aliases_normal, hlookup, name_normal]
    rcases Name.namespaceOf_cases (Name.strip s.name) with ⟨hname, hspace⟩ | ⟨own, hown, hname⟩
    · simp only [hspace, if_pos]
      exact .global hno hname
    · have hspace : Name.namespaceOf (Name.strip s.name) ≠ "" := by
        intro hspace
        refine Name.head?_strip_ne s.name ?_
        rw [hname, hspace]
        simp
      simp only [if_neg hspace]
      exact .placed hno hown hname

theorem resolver_cut (hc : Name.Cut short first rest) : (s.resolver short).result =
    if first = "" then .error s!"`{short}` does not start with an identifier"
    else .ok (s.expand first rest) := by
  unfold resolver
  simp only [hc.takeWhile_eq, hc.dropWhile_eq, String.ofList_toList]
  by_cases hfirst : first = ""
  · simp [hfirst]
  · rw [if_neg hfirst, if_neg (by simpa using hfirst)]
    rfl

namespace Expansion

theorem ends (h : s.Expansion first rest full) : ∃ before, full = before ++ rest := by
  cases h <;> exact ⟨_, rfl⟩

/-- an alias of the root leaves the next separator in front; any other target, a namespace and the
first segment itself are not empty and start with another character -/
theorem absolute_iff (hd : s.DistinctAliases) (hc : Name.Cut short first rest) (hfirst : first ≠ "")
    (h : s.Expansion first rest full) : full.toList.head? = some Name.separator ↔
      rest ≠ "" ∧ ∃ target, s.Imports first target ∧ ∀ c ∈ target.toList, c = Name.separator := by
  have hroot_of_no (hno : ∀ target, ¬ s.Imports first target) : ¬ (rest ≠ "" ∧
      ∃ target, s.Imports first target ∧ ∀ c ∈ target.toList, c = Name.separator) :=
    fun ⟨_, target, htarget, _⟩ => hno target htarget
  cases h with
  | @imported target htarget =>
    by_cases hroot : ∀ c ∈ target.toList, c = Name.separator
    · rw [Name.strip_eq_empty_iff.mpr hroot, String.empty_append]
      refine ⟨fun hhead => ⟨?_, target, htarget, hroot⟩, fun h => hc.rest.resolve_left h.1⟩
      rintro rfl
      cases hhead
    · rw [head?_append (mt Name.strip_eq_empty_iff.mp hroot)]
      refine iff_of_false (Name.head?_strip_ne target) ?_
      rintro ⟨-, target', htarget', hroot'⟩
      exact hroot (htarget.target_unique hd htarget' ▸ hroot')
  | global hno =>
    rw [head?_append hfirst]
    exact iff_of_false hc.head?_first_ne (hroot_of_no hno)
  | @placed space own hno _ hname =>
    have hstrip := Name.head?_strip_ne s.name
    have hspace : space ≠ "" := by
      rintro rfl
      exact hstrip (by rw [hname]; simp)
    rw [hname, String.append_assoc, head?_append hspace] at hstrip
    rw [String.append_assoc, String.append_assoc, head?_append hspace]
    exact iff_of_false hstrip (hroot_of_no hno)

end Expansion

end Symbol

/-- **A resolver expands the first segment of a name.**  The declaration is in its normal form, as a
table holds it.  The resolver fails exactly on the empty name and on those that start with a
separator, and says so.  On any other name it answers with the full name that is meant: an alias may
be written in any case, and what comes after the first segment is kept.  The answer starts with a
separator if and only if something comes after an alias whose target is made of separators alone. -/
theorem resolver_expands_first_segment (s : Symbol) (hd : s.DistinctAliases) (short : String) :
    let answer := fun name => (s.normal.resolver name).result
    (∀ e, answer short = .error e ↔
      (short = "" ∨ short.toList.head? = some Name.separator) ∧
        e = s!"`{short}` does not start with an identifier") ∧
    (short ≠ "" → short.toList.head? ≠ some Name.separator →
      ∃ first rest full, Name.Cut short first rest ∧ answer short = .ok full ∧
        s.Expansion first rest full ∧
        (∀ target first', s.Imports first target → foldCase first' = foldCase first →
          answer (first' ++ rest) = .ok full) ∧
        (∃ before, full = before ++ rest) ∧
        (full.toList.head? = some Name.separator ↔ rest ≠ "" ∧
          ∃ target, s.Imports first target ∧ ∀ c ∈ target.toList, c = Name.separator)) := by
  intro answer
  obtain ⟨first, rest, hc⟩ := Name.exists_cut short
  have hanswer : ∀ {name first}, Name.Cut name first rest → first ≠ "" →
      answer name = .ok (s.normal.expand first rest) := fun hcut hfirst =>
    (Symbol.resolver_cut hcut).trans (if_neg hfirst)
  refine ⟨fun e => ?_, fun hne hhead => ?_⟩
  · rw [← hc.first_eq_empty_iff]
    by_cases hfirst : first = ""
    · rw [show answer short = _ from (Symbol.resolver_cut hc).trans (if_pos hfirst)]
      simp [hfirst, eq_comm]
    · rw [hanswer hc hfirst]
      simp [hfirst]
  · have hfirst : first ≠ "" := fun hempty => (hc.first_eq_empty_iff.mp hempty).elim hne hhead
    have hfull := Symbol.expansion_expand hd first rest
    refine ⟨first, rest, _, hc, hanswer hc hfirst, hfull, ?_, hfull.ends,
      hfull.absolute_iff hd hc hfirst⟩
    intro target first' htarget hfold
    have hfirst' : first' ≠ "" := by
      rwa [Ne, ← foldCase_eq_empty_iff, hfold, foldCase_eq_empty_iff]
    rw [hanswer (hc.respelled hfold) hfirst', Symbol.expand_imported hd htarget,
      Symbol.expand_imported hd (htarget.respelled hfold)]

/-- an alias in every spelling, between a declared name and a target that are both absolute -/
theorem resolver_expands_first_segment_of_alias :
    let s := Symbol.order "\\App\\Order" [("Ware", "\\Shop\\Item"), ("Root", "\\")]
    let answer := fun name => (s.normal.resolver name).result
    s.DistinctAliases ∧
    answer "\\Ware" = .error "`\\Ware` does not start with an identifier" ∧
    answer "WARE\\Tax" = .ok "Shop\\Item\\Tax" ∧
    (∀ first, foldCase first = "ware" → answer (first ++ "\\Tax") = .ok "Shop\\Item\\Tax") ∧
    ¬ ∃ target, s.Imports "WARE" target ∧ ∀ c ∈ target.toList, c = Name.separator := by
  intro s answer
  have hd : s.DistinctAliases := by
    unfold Symbol.DistinctAliases
    decide
  have hcut : Name.Cut "WARE\\Tax" "WARE" "\\Tax" := ⟨by decide, by decide, .inr (by decide)⟩
  have hanswer : answer "WARE\\Tax" = .ok "Shop\\Item\\Tax" := by decide +kernel
  obtain ⟨hfails, -⟩ := resolver_expands_first_segment s hd "\\Ware"
  obtain ⟨-, hanswers⟩ := resolver_expands_first_segment s hd "WARE\\Tax"
  obtain ⟨first, rest, full, hc, hfull, -, hcase, -, habsolute⟩ := hanswers (by decide) (by decide)
  obtain ⟨rfl, rfl⟩ := hc.unique hcut
  obtain rfl : full = "Shop\\Item\\Tax" := Except.ok.inj (hfull.symm.trans hanswer)
  refine ⟨hd, (hfails _).mpr ⟨.inr (by decide), by decide⟩, hanswer, fun first hfirst => ?_, ?_⟩
  · exact hcase "\\Shop\\Item" first ⟨("Ware", _), by decide, by decide, rfl⟩ hfirst
  · exact fun hroot => absurd (habsolute.mpr ⟨by decide, hroot⟩) (by decide)

def Symbol.rooted : Symbol := .ofClass ⟨"App\\User", none, [], false, [("Root", "\\")], [], []⟩

def Table.rooted : Table := ⟨[Symbol.rooted.normal], by decide⟩

/-- a declaration with an alias of the root is loaded, and a name that starts with this alias is
expanded to an absolute one -/
theorem root_alias_answer_absolute :
    (Table.ofText ("\x7b\"classes\":[\x7b\"name\":\"App\\\\User\"," ++
      "\"imports\":\x7b\"Root\":\"\\\\\"\x7d\x7d]\x7d")).result = .ok Table.rooted ∧
    Table.rooted.context "App\\User" = .ok Symbol.rooted.normal ∧
    Symbol.rooted.DistinctAliases ∧
    (Symbol.rooted.normal.resolver "Root\\Post").result = .ok "\\Post" ∧
    "\\Post".toList.head? = some Name.separator := by
  refine ⟨Table.eq_ok_of_symbols (by decide +kernel), by decide +kernel, ?_, by decide +kernel,
    by decide⟩
  unfold Symbol.DistinctAliases
  decide

end TypeHint
