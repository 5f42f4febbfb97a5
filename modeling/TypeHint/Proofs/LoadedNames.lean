import TypeHint.Proofs.Respelling
import TypeHint.Symbol.Manifest

/-!
# Names in a loaded table

Loading a manifest checks that names are distinct, that supertypes exist and that no type is its own
ancestor.  It does not check what a name looks like, so a class may have a name that the grammar of
hints reads as something else, and even one that is the name of another type.

* `Spelled s n`              `s` is the readable name `n`, or a longer text
* `IsUnion.spelled`          a text spells every class and interface of the type that it denotes
* `Refers.ofText_name_iff`   a class or interface is read from its name exactly if that is readable
* `exists_namesake`          a well-formed name that is not plain is the name of another type
-/

namespace TypeHint

open Hint Text

/-! ## what a text spells -/

def Spelled (s : List Char) (n : String) : Prop :=
  (Name.Readable n ∧ n.toList = s) ∨ n.toList.length < s.length

section

variable {h : Hierarchy} {t a b : Ty} {n : String} {s u : List Char} {e : Bool}

theorem Spelled.mono (hn : Spelled s n) (hs : s <:+: u) : Spelled u n := by
  have hle := hs.length_le
  rcases hn with ⟨hread, e⟩ | hlt
  · rcases Nat.lt_or_eq_of_le hle with hlt | heq
    · rw [← e] at hlt
      exact Or.inr hlt
    · exact Or.inl ⟨hread, e.trans (hs.eq_of_length heq)⟩
  · exact Or.inr (hlt.trans_le hle)

theorem Refers.objectName?_eq (ht : Refers h n t) : t.objectName? = some n := by
  cases ht <;> rfl

theorem Refers.members_eq (ht : Refers h n t) : t.members = [t] := by
  cases ht <;> rfl

theorem Refers.spelled (ht : Refers h n t) (hn : Spelled s n) :
    ∀ m ∈ t.members, ∀ name, m.objectName? = some name → Spelled s name := by
  intro m hm name hname
  rw [ht.members_eq, List.mem_singleton] at hm
  rw [hm, ht.objectName?_eq, Option.some.injEq] at hname
  exact hname ▸ hn

-- The statement is about members, since several parts may be united to a single class.
mutual

theorem IsSingle.spelled : ∀ {k s t}, IsSingle h (Refers h) k s t →
    ∀ m ∈ t.members, ∀ n, m.objectName? = some n → Spelled s n
  | _, _, _, @IsSingle.group _ _ _ s _ hs => by
    intro m hm n hn
    have hin : s <:+: ['('] ++ s ++ [')'] := List.infix_append _ _ _
    exact (hs.spelled m hm n hn).mono hin
  | _, _, _, .primitive _ | _, _, _, .suffix _ _ | _, _, _, .array | _, _, _, .items _
  | _, _, _, .entries _ _ => by
    intro m hm n hn
    rw [List.mem_singleton.mp hm] at hn
    cases hn
  | _, _, _, .relative hs htight hprim harray ht => by
    refine ht.spelled (Or.inl ⟨Name.readable_iff.mpr ?_, String.toList_ofList⟩)
    rw [String.toList_ofList]
    exact ⟨hs, htight, hprim, harray⟩
  | _, _, _, .absolute _ _ ht => by
    refine ht.spelled (Or.inr ?_)
    rw [String.toList_ofList, List.length_cons]
    exact Nat.lt_succ_self _

theorem IsPart.spelled : ∀ {k s t}, IsPart h (Refers h) k s t →
    ∀ m ∈ t.members, ∀ n, m.objectName? = some n → Spelled s n
  | _, _, _, .intro _ hs _ => fun m hm n hn =>
    (hs.spelled m hm n hn).mono (List.infix_append _ _ _)

theorem IsUnion.spelled : ∀ {k s t}, IsUnion h (Refers h) k s t →
    ∀ m ∈ t.members, ∀ n, m.objectName? = some n → Spelled s n
  | _, _, _, .one hs => hs.spelled
  | _, _, _, .several hps _ ht => by
    intro m hm n hn
    obtain ⟨a, ha, hma⟩ := exists_of_mem_unite (concrete_of_mem_parts (r := none) hps) ht hm
    obtain ⟨p, hp, rfl⟩ := List.mem_map.mp ha
    exact ((hps p hp).spelled m hma n hn).mono (infix_intercalate (List.mem_map_of_mem hp))

end

theorem Refers.ofText_name_iff (ht : Refers h n t) :
    (Ty.ofText h none n).result = .ok t ↔ Name.Readable n := by
  rw [ofText_eq_ok_iff]
  constructor
  · intro hs
    have hself : t ∈ t.members := by
      rw [ht.members_eq]
      exact List.mem_singleton_self t
    rcases IsUnion.spelled hs t hself n ht.objectName?_eq with ⟨hread, -⟩ | hlt
    · exact hread
    · exact absurd hlt (Nat.lt_irrefl _)
  · intro hread
    exact .one (ht.isSingle hread).isPart

/-! ## types of one name -/

theorem Refers.built (ht : Refers h n t) : Built h t :=
  .classify (v := .object n) (lookUp_eq_ok_iff.mpr ht)

theorem Refers.name_eq (ht : Refers h n t) : t.name = n := by
  cases ht <;> rfl

theorem Refers.isObject (ht : Refers h n t) : t.isObject = true :=
  Ty.isObject_of_objectName? ht.objectName?_eq

theorem exists_namesake (h : Hierarchy) (hvalid : Name.isValid n.toList = true)
    (hn : ¬ Name.Plain n) :
    ∃ b, Built h b ∧ b.hasGeneric = false ∧ b.isObject = false ∧ b.name = n := by
  by_cases harray : n = "array"
  · exact ⟨.arrayOf .mixed, .classify (v := .array []) rfl, rfl, rfl, harray.symm⟩
  · by_cases hprim : ∃ p : Primitive, n = p.name
    · obtain ⟨p, rfl⟩ := hprim
      have hp : IsSingle h (Resolves h none) nestingLimit p.name.toList (.primitive p) :=
        .primitive (Or.inl String.ofList_toList)
      exact ⟨.primitive p, .ofText (ofText_eq_ok_iff.mpr (.one hp.isPart)), rfl, rfl, rfl⟩
    · exact absurd ⟨hvalid, fun p _ e => hprim ⟨p, e⟩, harray⟩ hn

theorem equal_iff_name (hga : a.hasGeneric = false) (hgb : b.hasGeneric = false)
    (he : equal h a b = .ok e) : e = true ↔ a.name = b.name := by
  unfold equal settle at he
  obtain ⟨p, -, he⟩ := bind_eq_ok.mp he
  simp only [hga, hgb, Bool.false_or] at he
  split at he
  · rename_i hsame
    cases he
    rw [beq_iff_eq.mp hsame, beq_iff_eq]
  · cases he

/-- types of one name that can be compared accept each other -/
theorem fits_of_equal (hga : a.hasGeneric = false) (hgb : b.hasGeneric = false)
    (hname : a.name = b.name) (he : equal h a b = .ok e) : fits h a b = true := by
  have hagree : (fits h a b && fits h b a) = e :=
    agrees_settle ((assignable_agrees h a b).both (assignable_agrees h b a)) e he
  rw [(equal_iff_name hga hgb he).mpr hname, Bool.and_eq_true] at hagree
  exact hagree.1

end

/-! ## loaded tables -/

namespace Table

variable {t : Table} {n : String}

theorem check_of_ofManifest {m : Manifest} (hload : (ofManifest m).result = .ok t) :
    t.check = .ok () := by
  simp only [ofManifest, Traced.result_bind, bind_eq_ok] at hload
  obtain ⟨t₁, -, t₂, -, u, hcheck, v, -, e⟩ := hload
  cases e
  exact hcheck

theorem check_of_ofText {s : String} (hload : (ofText s).result = .ok t) : t.check = .ok () := by
  rw [ofText, Traced.result_bind] at hload
  obtain ⟨m, -, hload⟩ := bind_eq_ok.mp hload
  exact check_of_ofManifest hload

theorem refers_of_isClass (hn : t.isClass n = true) : Refers t.hierarchy n (.cls n) :=
  .cls (not_isInterface_of_isClass hn) hn

theorem refers_of_isInterface (hn : t.isInterface n = true) : Refers t.hierarchy n (.iface n) :=
  .iface hn

theorem exists_refers (hn : n ∈ t.names) : ∃ a, Refers t.hierarchy n a := by
  obtain ⟨s, hs⟩ := Option.isSome_iff_exists.mp (find?_isSome_iff.mpr hn)
  cases s with
  | ofClass c =>
    refine ⟨_, refers_of_isClass ?_⟩
    rw [isClass, findClass?, hs]
    rfl
  | ofInterface i =>
    refine ⟨_, refers_of_isInterface ?_⟩
    rw [isInterface, hs]
    rfl

/-- in a table with a name that is well-formed and not plain, two types of one name cannot be
compared -/
theorem exists_incomparable (hvalid : ∀ n ∈ t.names, Name.isValid n.toList = true)
    (hplain : ¬ t.Plain) :
    ∃ a b, Built t.hierarchy a ∧ Built t.hierarchy b ∧ a.hasGeneric = false ∧
      b.hasGeneric = false ∧ a ≠ b ∧ a.name = b.name ∧ ∀ e, equal t.hierarchy a b ≠ .ok e := by
  unfold Plain at hplain
  obtain ⟨n, hn, hbad⟩ : ∃ n ∈ t.names, ¬ Name.Plain n := by
    by_contra hno
    exact hplain fun n hn => by_contra fun hbad => hno ⟨n, hn, hbad⟩
  obtain ⟨a, ha⟩ := exists_refers hn
  obtain ⟨b, hb, hgb, hob, hnb⟩ := exists_namesake t.hierarchy (hvalid n hn) hbad
  have hga : a.hasGeneric = false := ha.concrete.noGeneric
  have hname : a.name = b.name := ha.name_eq.trans hnb.symm
  refine ⟨a, b, ha.built, hb, hga, hgb, ?_, hname, ?_⟩
  · rintro rfl
    rw [ha.isObject] at hob
    cases hob
  · intro e he
    have hobj := isObject_of_fits t.lawful ha.isObject (fits_of_equal hga hgb hname he)
    rw [hob] at hobj
    cases hobj

end Table

/-- **What a loaded table can name.**  In a table loaded from a manifest, a class or an interface is
read from its name exactly if the name is readable.  If all names are well-formed, then types
without generic parameters have names of their own exactly if every name is plain, and any two of
them can be compared exactly in that case. -/
theorem loaded_names_iff (s : String) (t : Table) (hload : (Table.ofText s).result = .ok t) :
    (∀ n, t.isClass n = true →
      ((Ty.ofText t.hierarchy none n).result = .ok (.cls n) ↔ Name.Readable n)) ∧
    (∀ n, t.isInterface n = true →
      ((Ty.ofText t.hierarchy none n).result = .ok (.iface n) ↔ Name.Readable n)) ∧
    ((∀ n ∈ t.names, Name.isValid n.toList = true) →
      ((∀ a b, Built t.hierarchy a → Built t.hierarchy b → a.hasGeneric = false →
          b.hasGeneric = false → a.name = b.name → a = b) ↔ t.Plain) ∧
      ((∀ a b, Built t.hierarchy a → Built t.hierarchy b → a.hasGeneric = false →
          b.hasGeneric = false → ∃ e, equal t.hierarchy a b = .ok e) ↔ t.Plain)) := by
  have hcheck := Table.check_of_ofText hload
  refine ⟨fun n hn => (Table.refers_of_isClass hn).ofText_name_iff,
    fun n hn => (Table.refers_of_isInterface hn).ofText_name_iff, fun hvalid => ⟨?_, ?_⟩⟩
  · constructor
    · intro hinj
      by_contra hplain
      obtain ⟨a, b, ha, hb, hga, hgb, hne, hname, -⟩ := Table.exists_incomparable hvalid hplain
      exact hne (hinj a b ha hb hga hgb hname)
    · intro hplain a b ha hb hga hgb hname
      exact name_injective t.lawful hplain.hierarchy ⟨ha.wellFormed, hga⟩ ⟨hb.wellFormed, hgb⟩ hname
  · constructor
    · intro hall
      by_contra hplain
      obtain ⟨a, b, ha, hb, hga, hgb, -, -, hno⟩ := Table.exists_incomparable hvalid hplain
      obtain ⟨e, he⟩ := hall a b ha hb hga hgb
      exact hno e he
    · intro hplain a b ha hb hga hgb
      exact ⟨_, equal_eq_ok (Table.ordinary hcheck hplain) ⟨ha.wellFormed, hga⟩
        ⟨hb.wellFormed, hgb⟩⟩

namespace Table

theorem eq_ok_of_symbols {r : Except SymbolError Table} {t : Table}
    (hr : r.map symbols = .ok t.symbols) : r = .ok t := by
  cases r with
  | error e => cases hr
  | ok u =>
    obtain ⟨us, hus⟩ := u
    obtain ⟨ts, hts⟩ := t
    cases hr
    rfl

/-- an interface in a namespace, and a class that is named like an alias -/
def aliased : Table where
  symbols := [.ofInterface ⟨"App\\Shape", [], [], []⟩,
    .ofClass ⟨"int", none, [], false, [], [], []⟩]
  nodup := by decide

/-- a class that is named like a primitive type -/
def reserved : Table where
  symbols := [.ofClass ⟨"integer", none, [], false, [], [], []⟩]
  nodup := by decide

end Table

/-- an alias is not readable, so it is not read as the class of that name; but it is plain, since
the primitive type has another name -/
theorem loaded_names_iff_of_alias :
    (Ty.ofText Table.aliased.hierarchy none "App\\Shape").result = .ok (.iface "App\\Shape") ∧
    (Ty.ofText Table.aliased.hierarchy none "int").result ≠ .ok (.cls "int") ∧
    ∃ e, equal Table.aliased.hierarchy (.cls "int") (.primitive .integer) = .ok e := by
  have hload : (Table.ofText
      "\x7b\"classes\":[[\"\\\\int\"]],\"interfaces\":[[\"App\\\\Shape\"]]\x7d").result =
        .ok Table.aliased := Table.eq_ok_of_symbols (by decide +kernel)
  have hint : Built Table.aliased.hierarchy (.cls "int") :=
    .classOfText (show (Ty.classOfText _ "\\int").result = _ by decide +kernel)
  have hinteger : Built Table.aliased.hierarchy (.primitive .integer) :=
    .ofText (show (Ty.ofText _ none "int").result = _ by decide +kernel)
  obtain ⟨hcls, hiface, hnames⟩ := loaded_names_iff _ _ hload
  refine ⟨(hiface _ (by decide)).mpr (by decide), ?_, ?_⟩
  · exact fun hread => absurd ((hcls _ (by decide)).mp hread) (by decide)
  · exact (hnames (by decide)).2.mpr (by decide) _ _ hint hinteger rfl rfl

/-- A class that is named like a primitive type is loaded.  Its name is read as the primitive type,
the absolute name is read as the class, and the two have one name and cannot be compared. -/
theorem loaded_name_read_as_primitive :
    (Table.ofText "\x7b\"classes\":[\x7b\"name\":\"integer\"\x7d]\x7d").result =
      .ok Table.reserved ∧
    Table.reserved.isClass "integer" = true ∧
    (Ty.ofText Table.reserved.hierarchy none "integer").result = .ok (.primitive .integer) ∧
    (Ty.ofText Table.reserved.hierarchy none "\\integer").result = .ok (.cls "integer") ∧
    equal Table.reserved.hierarchy (.cls "integer") (.primitive .integer) =
      .error ⟨"integer", "integer", false, true⟩ :=
  ⟨Table.eq_ok_of_symbols (by decide +kernel), by decide, by decide +kernel, by decide +kernel,
    by decide +kernel⟩

end TypeHint
