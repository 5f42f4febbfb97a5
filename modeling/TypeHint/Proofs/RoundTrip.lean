import TypeHint.Proofs.Join
import TypeHint.Proofs.Reading

/-!
# Reading the name of a type

A name is printed without regard to how deep it may be nested, and read with a limit.  `Ty.nesting`
is the number of levels that the name of a type takes, so it decides between the two outcomes:

* `isUnion_name`     with that many levels the name denotes the type
* `tooDeep_read`     with fewer levels reading meets the limit, and nothing else is wrong before it
-/

namespace TypeHint

open Hint Text

/-! ## names that can be read back -/

/-- a plain name that is no alias and has no blank at either end -/
structure Name.Readable (n : String) : Prop where
  plain : Name.Plain n
  ne_alias : ∀ a ∈ Primitive.aliases, n ≠ a.1
  tight : Tight n.toList

instance (n : String) : Decidable (Name.Readable n) :=
  decidable_of_iff (Name.Plain n ∧ (∀ a ∈ Primitive.aliases, n ≠ a.1) ∧ Tight n.toList)
    ⟨fun ⟨hp, ha, ht⟩ => ⟨hp, ha, ht⟩, fun ⟨hp, ha, ht⟩ => ⟨hp, ha, ht⟩⟩

def Hierarchy.Readable (h : Hierarchy) : Prop :=
  ∀ n, h.isClass n = true ∨ h.isInterface n = true → Name.Readable n

def Table.Readable (t : Table) : Prop := ∀ n ∈ t.names, Name.Readable n

instance (t : Table) : Decidable t.Readable :=
  inferInstanceAs (Decidable (∀ n ∈ t.names, Name.Readable n))

theorem Table.Readable.plain {t : Table} (ht : t.Readable) : t.Plain :=
  fun n hn => (ht n hn).plain

theorem Table.Readable.hierarchy {t : Table} (ht : t.Readable) : t.hierarchy.Readable :=
  fun n hn => ht n (Table.mem_names hn)

/-! ## levels of a name -/

namespace Ty

mutual

/-- the levels of groups and arrays in the name of a type -/
def nesting : Ty → Nat
  | .primitive _ | .cls _ | .iface _ | .generic .. => 0
  | .array k i =>
    if k ≠ .mixed then 1 + max (nesting k) (nesting i)
    else if i = .mixed then 0
    else if i.kind = .union then 2 + nesting i
    else 1 + nesting i
  | .union ms => maxNesting ms

def maxNesting : List Ty → Nat
  | [] => 0
  | t :: ts => max (nesting t) (maxNesting ts)

end

mutual

def rename (f : String → String) : Ty → Ty
  | .primitive p => .primitive p
  | .array k i => .array (rename f k) (rename f i)
  | .cls n => .cls (f n)
  | .iface n => .iface (f n)
  | .union ms => .union (renameAll f ms)
  | .generic n d => .generic n (rename f d)

def renameAll (f : String → String) : List Ty → List Ty
  | [] => []
  | t :: ts => rename f t :: renameAll f ts

end

/-- the name of a type with the separator before each class and interface name -/
def absoluteName (t : Ty) : String :=
  (t.rename fun n => String.ofList (Name.separator :: n.toList)).name

section

variable {f : String → String} {t m : Ty} {n : Nat}

theorem le_maxNesting {ms : List Ty} (hm : m ∈ ms) : m.nesting ≤ maxNesting ms := by
  induction ms with
  | nil => cases hm
  | cons x ms ih =>
    rw [maxNesting]
    rcases List.mem_cons.mp hm with rfl | hm
    · omega
    · have := ih hm
      omega

theorem exists_of_lt_maxNesting {ms : List Ty} (hn : n < maxNesting ms) :
    ∃ m ∈ ms, n < m.nesting := by
  induction ms with
  | nil => cases hn
  | cons x ms ih =>
    rw [maxNesting] at hn
    by_cases hx : n < x.nesting
    · exact ⟨x, List.mem_cons_self, hx⟩
    · obtain ⟨m, hm, hlt⟩ := ih (by omega)
      exact ⟨m, List.mem_cons_of_mem _ hm, hlt⟩

theorem exists_member_of_lt_nesting (hn : n < t.nesting) : ∃ m ∈ t.members, n < m.nesting := by
  cases t with
  | union ms =>
    rw [nesting] at hn
    exact exists_of_lt_maxNesting hn
  | primitive _ | array _ _ | cls _ | iface _ | generic _ _ => exact ⟨_, List.mem_cons_self, hn⟩

theorem renameAll_eq (f : String → String) (ts : List Ty) : renameAll f ts = ts.map (rename f) := by
  induction ts with
  | nil => rfl
  | cons t ts ih => rw [renameAll, ih, List.map_cons]

mutual

theorem rename_id : ∀ t : Ty, t.rename id = t
  | .primitive _ | .cls _ | .iface _ => rfl
  | .array k i => by rw [rename, rename_id k, rename_id i]
  | .union ms => by rw [rename, renameAll_id ms]
  | .generic n d => by rw [rename, rename_id d]

theorem renameAll_id : ∀ ts : List Ty, renameAll id ts = ts
  | [] => rfl
  | t :: ts => by rw [renameAll, rename_id t, renameAll_id ts]

end

theorem kind_rename : (t.rename f).kind = t.kind := by
  cases t <;> rfl

theorem rename_eq_mixed_iff : t.rename f = .mixed ↔ t = .mixed := by
  cases t <;> simp [rename, mixed]

theorem members_rename : (t.rename f).members = t.members.map (rename f) := by
  cases t with
  | union ms =>
    rw [rename, renameAll_eq]
    rfl
  | primitive _ | array _ _ | cls _ | iface _ | generic _ _ => rfl

end

end Ty

/-! ## enough levels -/

/-- spelled by `f`, every registered name denotes its class or interface -/
def Spells (h : Hierarchy) (rel : String → Ty → Prop) (f : String → String) : Prop :=
  ∀ name t n, Refers h name t → IsSingle h rel n (f name).toList t

section

variable {h : Hierarchy} {rel : String → Ty → Prop} {r : Option Resolver} {f : String → String}
  {t m k i : Ty} {n : Nat}

theorem Refers.readable {name : String} (hr : h.Readable) (ht : Refers h name t) :
    Name.Readable name := by
  cases ht with
  | iface hi => exact hr name (Or.inr hi)
  | cls _ hc => exact hr name (Or.inl hc)

theorem Name.readable_iff {name : String} : Name.Readable name ↔
    Name.IsPath name.toList ∧ Tight name.toList ∧ (∀ p, ¬ Primitive.Called p name.toList) ∧
      name.toList ≠ "array".toList := by
  simp only [Primitive.Called, String.ofList_toList]
  constructor
  · intro hr
    refine ⟨Name.isValid_iff.mp hr.plain.valid, hr.tight, ?_, fun e => ?_⟩
    · rintro p (e | hmem)
      · exact hr.plain.ne_primitive p p.mem_all e
      · exact hr.ne_alias _ hmem rfl
    · exact hr.plain.ne_array (String.toList_inj.mp e)
  · rintro ⟨hpath, htight, hprim, harray⟩
    refine ⟨⟨Name.isValid_iff.mpr hpath, fun p _ e => hprim p (Or.inl e), ?_⟩, ?_, htight⟩
    · exact fun e => harray (congrArg String.toList e)
    · rintro ⟨name, p⟩ hmem rfl
      exact hprim p (Or.inr hmem)

theorem Refers.isSingle {name : String} (hname : Name.Readable name) (ht : Refers h name t) :
    IsSingle h (Resolves h none) n name.toList t := by
  obtain ⟨hpath, htight, hprim, harray⟩ := Name.readable_iff.mp hname
  refine .relative hpath htight hprim harray ?_
  rw [String.ofList_toList]
  exact ht

theorem spells_id (hr : h.Readable) : Spells h (Resolves h none) id :=
  fun _ _ _ ht => ht.isSingle (ht.readable hr)

theorem spells_absolute (hr : h.Readable) :
    Spells h (Resolves h r) fun n => String.ofList (Name.separator :: n.toList) := by
  intro name t n ht
  have hname := ht.readable hr
  have hpath := Name.isValid_iff.mp hname.plain.valid
  have htight : Tight (Name.separator :: name.toList) := by
    refine ⟨rfl, ?_⟩
    rw [List.getLast?_cons_of_ne_nil hpath.ne_nil]
    exact hname.tight.2
  rw [String.toList_ofList]
  refine .absolute hpath htight ?_
  rw [String.ofList_toList]
  exact ht

theorem IsSingle.isPart {s : List Char} (hs : IsSingle h rel n s t) : IsPart h rel n s t := by
  have hpart : IsPart h rel n ([] ++ s ++ []) t := .intro .nil hs .nil
  rw [List.append_nil] at hpart
  exact hpart

theorem isSingle_array_name (hn : (Ty.array k i).nesting ≤ n)
    (hk : ∀ n, k.nesting ≤ n → IsUnion h rel n (k.rename f).name.toList k)
    (hi : ∀ n, i.nesting ≤ n → IsUnion h rel n (i.rename f).name.toList i)
    (hs : i.kind ≠ .union → ∀ n, i.nesting ≤ n → IsSingle h rel n (i.rename f).name.toList i) :
    IsSingle h rel n ((Ty.array k i).rename f).name.toList (.array k i) := by
  rw [Ty.nesting] at hn
  rw [Ty.rename]
  cases arrayText (k.rename f) (i.rename f) with
  | keyed hkey e =>
    rw [if_pos (mt Ty.rename_eq_mixed_iff.mpr hkey)] at hn
    obtain ⟨m, rfl⟩ : ∃ m, n = m + 1 := ⟨n - 1, by omega⟩
    rw [e]
    exact .entries (hk m (by omega)) (hi m (by omega))
  | bare hkey hitem e =>
    rw [e, Ty.rename_eq_mixed_iff.mp hkey, Ty.rename_eq_mixed_iff.mp hitem]
    exact .array
  | grouped hkey hitem hu e =>
    obtain rfl := Ty.rename_eq_mixed_iff.mp hkey
    rw [Ty.kind_rename] at hu
    rw [if_neg (not_not_intro rfl), if_neg (mt Ty.rename_eq_mixed_iff.mpr hitem), if_pos hu] at hn
    obtain ⟨m, rfl⟩ : ∃ m, n = m + 1 + 1 := ⟨n - 2, by omega⟩
    rw [e, ← List.append_nil ('(' :: _)]
    exact .suffix (.group (hi m (by omega))) .nil
  | listed hkey hitem hu e =>
    obtain rfl := Ty.rename_eq_mixed_iff.mp hkey
    rw [Ty.kind_rename] at hu
    rw [if_neg (not_not_intro rfl), if_neg (mt Ty.rename_eq_mixed_iff.mpr hitem), if_neg hu] at hn
    obtain ⟨m, rfl⟩ : ∃ m, n = m + 1 := ⟨n - 1, by omega⟩
    rw [e, ← List.append_nil (i.rename f).name.toList]
    exact .suffix (hs hu m (by omega)) .nil

/-- the name of a union lists the names of its members, and uniting these gives it back -/
theorem isUnion_members_name (ho : h.Ordinary) (ht : Concrete h t) (hu : t.kind = .union)
    (hs : ∀ m ∈ t.members, IsSingle h rel n (m.rename f).name.toList m) :
    IsUnion h rel n (t.rename f).name.toList t := by
  have hcat : (t.rename f).name.toList = ['|'].intercalate
      ((t.members.map fun m => ((m.rename f).name.toList, m)).map Prod.fst) := by
    rw [name_toList, Ty.members_rename, List.map_map, List.map_map]
    rfl
  rw [hcat]
  refine .several ?_ ?_ ?_
  · intro p hp
    obtain ⟨m, hm, rfl⟩ := List.mem_map.mp hp
    exact (hs m hm).isPart
  · rw [List.length_map]
    exact ht.wellFormed.two_le_members hu
  · have hmembers : (t.members.map fun m => ((m.rename f).name.toList, m)).map Prod.snd =
        t.members := by
      rw [List.map_map]
      exact List.map_id _
    rw [hmembers]
    exact unite_members ho ht

/-- with as many levels as it takes, the name of a type denotes it; if it is no union, as a single
type -/
theorem denotes_name (ho : h.Ordinary) (hf : Spells h rel f) (ht : WellFormed h t)
    (hg : t.hasGeneric = false) : ∀ n, t.nesting ≤ n →
    IsUnion h rel n (t.rename f).name.toList t ∧
      (t.kind ≠ .union → IsSingle h rel n (t.rename f).name.toList t) := by
  have hflat : ∀ {n t}, IsSingle h rel n (t.rename f).name.toList t →
      IsUnion h rel n (t.rename f).name.toList t ∧
        (t.kind ≠ .union → IsSingle h rel n (t.rename f).name.toList t) :=
    fun hs => ⟨.one hs.isPart, fun _ => hs⟩
  induction ht with
  | primitive p =>
    intro n _
    refine hflat (.primitive (Or.inl ?_))
    exact String.ofList_toList
  | cls hn =>
    intro n _
    exact hflat (hf _ _ n (.cls (ho.lawful.disjoint hn) hn))
  | iface hn =>
    intro n _
    exact hflat (hf _ _ n (.iface hn))
  | array hk hi ihk ihi =>
    intro n hn
    obtain ⟨hgk, hgi⟩ := Bool.or_eq_false_iff.mp hg
    exact hflat (isSingle_array_name hn (fun m hm => (ihk hgk m hm).1)
      (fun m hm => (ihi hgi m hm).1) fun hu m hm => (ihi hgi m hm).2 hu)
  | @union ms hms hc ih =>
    intro n hn
    refine ⟨isUnion_members_name ho ⟨.union hms hc, hg⟩ rfl fun m hm => ?_, absurd rfl⟩
    rw [Ty.hasGeneric, Ty.anyHasGeneric_eq, List.any_eq_false] at hg
    have hle : m.nesting ≤ n := le_trans (Ty.le_maxNesting hm) hn
    exact (ih m hm (Bool.eq_false_iff.mpr (hg m hm)) n hle).2 (hc.flat m hm)
  | generic hd ihd => cases hg

theorem isUnion_name (ho : h.Ordinary) (hr : h.Readable) (ht : Concrete h t)
    (hn : t.nesting ≤ n) : IsUnion h (Resolves h none) n t.name.toList t := by
  have hs := (denotes_name ho (spells_id hr) ht.wellFormed ht.noGeneric n hn).1
  rw [Ty.rename_id] at hs
  exact hs

theorem isSingle_name (ho : h.Ordinary) (hr : h.Readable) (ht : Concrete h t)
    (hu : t.kind ≠ .union) (hn : t.nesting ≤ n) :
    IsSingle h (Resolves h none) n t.name.toList t := by
  have hs := (denotes_name ho (spells_id hr) ht.wellFormed ht.noGeneric n hn).2 hu
  rw [Ty.rename_id] at hs
  exact hs

/-! ## too few levels -/

/-- giving the hint a meaning meets the limit on nesting before any other failure -/
def TooDeep (h : Hierarchy) (r : Option Resolver) (hint : Hint) : Prop :=
  ∃ text, (hint.meaning h r).result = .error (.malformed text .tooDeep)

theorem TooDeep.key {key item : Hint} (hk : TooDeep h r key) : TooDeep h r (.array key item) := by
  obtain ⟨text, e⟩ := hk
  refine ⟨text, ?_⟩
  rw [meaning, Traced.result_bind, e]
  rfl

theorem TooDeep.item {key item : Hint} (hk : Means h r key k) (hi : TooDeep h r item) :
    TooDeep h r (.array key item) := by
  obtain ⟨text, e⟩ := hi
  refine ⟨text, ?_⟩
  rw [Means] at hk
  simp only [meaning, Traced.result_bind, hk, e]
  rfl

theorem tooDeep_meanings {hints : List Hint}
    (hall : ∀ x ∈ hints, (∃ t, Means h r x t) ∨ TooDeep h r x) (hex : ∃ x ∈ hints, TooDeep h r x) :
    ∃ text, (meanings h r hints).result = .error (.malformed text .tooDeep) := by
  induction hints with
  | nil =>
    obtain ⟨x, hx, -⟩ := hex
    cases hx
  | cons hint hints ih =>
    by_cases hd : TooDeep h r hint
    · obtain ⟨text, e⟩ := hd
      refine ⟨text, ?_⟩
      rw [meanings, Traced.result_bind, e]
      rfl
    · obtain ⟨t, ht⟩ := (hall hint List.mem_cons_self).resolve_right hd
      obtain ⟨x, hx, hxd⟩ := hex
      have hmem : x ∈ hints := (List.mem_cons.mp hx).resolve_left fun e => hd (e ▸ hxd)
      obtain ⟨text, e⟩ := ih (fun y hy => hall y (List.mem_cons_of_mem _ hy)) ⟨x, hmem, hxd⟩
      refine ⟨text, ?_⟩
      rw [Means] at ht
      simp only [meanings, Traced.result_bind, ht, e]
      rfl

theorem TooDeep.union {hints : List Hint}
    (hall : ∀ x ∈ hints, (∃ t, Means h r x t) ∨ TooDeep h r x) (hex : ∃ x ∈ hints, TooDeep h r x) :
    TooDeep h r (.union hints) := by
  obtain ⟨text, e⟩ := tooDeep_meanings hall hex
  refine ⟨text, ?_⟩
  rw [meaning, Traced.result_bind, e]
  rfl

theorem TooDeep.read_trim {s : List Char} (hs : TooDeep h r (Hint.read n s)) :
    TooDeep h r (Hint.read n (trim s)) := by
  rcases Hint.read_trim n s with e | ⟨flaw, e, e'⟩
  · rw [e]
    exact hs
  · rw [e'] at hs
    rw [e]
    obtain ⟨text, hs⟩ := hs
    rw [meaning] at hs
    cases hs
    exact ⟨_, rfl⟩

theorem Ty.nesting_of_isLeaf (ht : t.isLeaf = true) : t.nesting = 0 := by
  cases t with
  | primitive _ | cls _ | iface _ => rfl
  | array | union | generic => cases ht

theorem tooDeep_array (ho : h.Ordinary) (hr : h.Readable) (ht : Concrete h (.array k i))
    (ih : ∀ m ≤ n, ∀ t, Concrete h t → m ≤ t.nesting → TooDeep h none (Hint.read m t.name.toList))
    (hn : n < (Ty.array k i).nesting) :
    TooDeep h none (ofSingle (Hint.read n) (Ty.array k i).name.toList) := by
  have hmixed : Means h none (.primitive .mixed) .mixed := means_primitive_iff.mpr rfl
  have hui := isUnion_name ho hr ht.item (le_max_right k.nesting i.nesting)
  rw [Ty.nesting] at hn
  cases arrayText k i with
  | keyed hkey e =>
    rw [if_pos hkey] at hn
    have huk := isUnion_name ho hr ht.key (le_max_left k.nesting i.nesting)
    rw [e, ofSingle_arguments,
      ofArguments_two (huk.split_entries hui) huk.trim_ne_nil hui.trim_ne_nil]
    by_cases hk : n ≤ k.nesting
    · exact (ih n le_rfl k ht.key hk).read_trim.key
    · -- the key is read first, and without a failure
      obtain ⟨m, rfl⟩ : ∃ m, n = m + 1 := ⟨n - 1, by omega⟩
      have hkm : Means h none (Hint.read (m + 1) k.name.toList) k :=
        (means_read_iff h none (m + 1) _ _).mpr ⟨m, rfl, isUnion_name ho hr ht.key (by omega)⟩
      exact .item (means_read_trim.mpr hkm) (ih _ le_rfl i ht.item (by omega)).read_trim
  | bare hkey hitem e =>
    rw [if_neg (not_not_intro hkey), if_pos hitem] at hn
    omega
  | grouped hkey hitem hu e =>
    rw [if_neg (not_not_intro hkey), if_neg hitem, if_pos hu] at hn
    have hgroup := IsSingle.group hui
    have hpart := hgroup.isPart
    rw [e, ofSingle_suffix hpart.trim_ne_nil]
    refine .item hmixed ?_
    -- the suffix takes one level and the group another
    cases n with
    | zero => exact ⟨_, rfl⟩
    | succ n =>
      rw [read_of_one hpart.split_eq hpart.trim_ne_nil,
        trim_of_tight hgroup.ne_nil_and_tight.2, ofSingle_group hui.uncut.balanced]
      exact ih n (by omega) i ht.item (by omega)
  | listed hkey hitem hu e =>
    rw [if_neg (not_not_intro hkey), if_neg hitem, if_neg hu] at hn
    rw [e, ofSingle_suffix hui.trim_ne_nil]
    exact .item hmixed (ih n le_rfl i ht.item (by omega))

theorem tooDeep_single (ho : h.Ordinary) (hr : h.Readable) (ht : Concrete h t)
    (hu : t.kind ≠ .union)
    (ih : ∀ m ≤ n, ∀ t, Concrete h t → m ≤ t.nesting → TooDeep h none (Hint.read m t.name.toList))
    (hn : n < t.nesting) : TooDeep h none (ofSingle (Hint.read n) t.name.toList) := by
  rcases ht.leaf_or_array hu with hleaf | ⟨k, i, rfl⟩
  · rw [Ty.nesting_of_isLeaf hleaf] at hn
    omega
  · exact tooDeep_array ho hr ht ih hn

theorem trim_name (ho : h.Ordinary) (hr : h.Readable) (ht : Concrete h t) (hu : t.kind ≠ .union) :
    trim t.name.toList = t.name.toList :=
  trim_of_tight (isSingle_name ho hr ht hu le_rfl).ne_nil_and_tight.2

/-- the members before the first that is nested too deep are read without a failure -/
theorem tooDeep_union (ho : h.Ordinary) (hr : h.Readable) (ht : Concrete h t)
    (hu : t.kind = .union)
    (hdeep : ∀ m ∈ t.members, n < m.nesting → TooDeep h none (ofSingle (Hint.read n) m.name.toList))
    (hn : n < t.nesting) : TooDeep h none (Hint.read (n + 1) t.name.toList) := by
  have hne : ∀ p ∈ t.members.map fun m => m.name.toList, trim p ≠ [] := by
    intro p hp
    obtain ⟨m, hm, rfl⟩ := List.mem_map.mp hp
    exact (isUnion_name ho hr (ht.of_mem_members hm) le_rfl).trim_ne_nil
  have htwo : 2 ≤ (t.members.map fun m => m.name.toList).length := by
    rw [List.length_map]
    exact ht.wellFormed.two_le_members hu
  have hhints : (t.members.map fun m => m.name.toList).map
      (fun p => ofSingle (Hint.read n) (trim p)) =
        t.members.map fun m => ofSingle (Hint.read n) m.name.toList := by
    rw [List.map_map]
    apply List.map_congr_left
    intro m hm
    rw [Function.comp_apply, trim_name ho hr (ht.of_mem_members hm) (ht.kind_of_mem_members hm)]
  rw [read_of_several (split_name ho.plain ht) htwo hne, hhints]
  apply TooDeep.union
  · intro x hx
    obtain ⟨m, hm, rfl⟩ := List.mem_map.mp hx
    by_cases hlt : n < m.nesting
    · exact Or.inr (hdeep m hm hlt)
    · have hs := isSingle_name ho hr (ht.of_mem_members hm) (ht.kind_of_mem_members hm)
        (not_lt.mp hlt)
      exact Or.inl ⟨m, means_of_isSingle (fun u t => (means_read_iff h none n u t).mpr) hs⟩
  · obtain ⟨m, hm, hlt⟩ := Ty.exists_member_of_lt_nesting hn
    exact ⟨_, List.mem_map_of_mem hm, hdeep m hm hlt⟩

/-- with fewer levels than it takes, reading the name of a type meets the limit -/
theorem tooDeep_read (ho : h.Ordinary) (hr : h.Readable) (n : Nat) : ∀ t, Concrete h t →
    n ≤ t.nesting → TooDeep h none (Hint.read n t.name.toList) := by
  induction n using Nat.strong_induction_on with
  | _ n ih =>
    intro t ht hn
    cases n with
    | zero => exact ⟨_, rfl⟩
    | succ n =>
      have ih : ∀ m ≤ n, ∀ t, Concrete h t → m ≤ t.nesting →
          TooDeep h none (Hint.read m t.name.toList) := fun m hm => ih m (by omega)
      by_cases hu : t.kind = .union
      · refine tooDeep_union ho hr ht hu (fun m hm hlt => ?_) hn
        exact tooDeep_single ho hr (ht.of_mem_members hm) (ht.kind_of_mem_members hm) ih hlt
      · have hpart := (isSingle_name ho hr ht hu le_rfl).isPart
        rw [read_of_one hpart.split_eq hpart.trim_ne_nil, trim_name ho hr ht hu]
        exact tooDeep_single ho hr ht hu ih hn

end

/-- **Names are read back.**  In a checked table with readable names, the name of a type without
generic parameters is read as that type, and so is its absolute name under every resolver, if the
name takes at most 64 levels.  If it takes more, it is refused for its nesting. -/
theorem ofText_name (t : Table) (hcheck : t.check = .ok ()) (hread : t.Readable) (a : Ty)
    (ha : Built t.hierarchy a) (hg : a.hasGeneric = false) :
    (a.nesting ≤ 64 → (Ty.ofText t.hierarchy none a.name).result = .ok a ∧
      ∀ r, (Ty.ofText t.hierarchy r a.absoluteName).result = .ok a) ∧
    (64 < a.nesting → ∃ text flaw,
      (Ty.ofText t.hierarchy none a.name).result = .error (.malformed text flaw) ∧
        flaw.message = "type nesting too deep") := by
  have ho := Table.ordinary hcheck hread.plain
  have hr := hread.hierarchy
  have hc : Concrete t.hierarchy a := ⟨ha.wellFormed, hg⟩
  constructor
  · intro hn
    refine ⟨ofText_eq_ok_iff.mpr (isUnion_name ho hr hc hn), fun r => ofText_eq_ok_iff.mpr ?_⟩
    exact (denotes_name ho (spells_absolute hr) hc.wellFormed hc.noGeneric 64 hn).1
  · intro hn
    obtain ⟨text, e⟩ := tooDeep_read ho hr 65 a hc hn
    exact ⟨text, .tooDeep, e, rfl⟩

/-- a keyed array of a group of three levels, and an array of arrays that is nested one level too
deep -/
theorem ofText_name_of_group_and_limit :
    (∀ r, (Ty.ofText Table.handlers.hierarchy r "array<integer,(\\Base|null)[]>").result =
      .ok (.array (.primitive .integer) (.arrayOf (.union [.cls "Base", .null])))) ∧
    ∃ text flaw, (Ty.ofText Table.handlers.hierarchy none
        (Ty.arrayOf^[65] (.cls "Leaf")).name).result = .error (.malformed text flaw) ∧
      flaw.message = "type nesting too deep" := by
  have hgroup : Built Table.handlers.hierarchy
      (.array (.primitive .integer) (.arrayOf (.union [.cls "Base", .null]))) :=
    .ofText (show (Ty.ofText _ none "array<int, (null|Leaf|Base)[]>").result = _ by decide +kernel)
  have hleaf : Built Table.handlers.hierarchy (.cls "Leaf") :=
    .classOfText (show (Ty.classOfText _ "Leaf").result = _ by decide +kernel)
  have hdeep : Built Table.handlers.hierarchy (Ty.arrayOf^[65] (.cls "Leaf")) :=
    Function.Iterate.rec _ hleaf (fun _ => .arrayOf) 65
  constructor
  · intro r
    exact ((ofText_name Table.handlers (by decide) (by decide) _ hgroup (by decide)).1
      (by decide)).2 r
  · exact (ofText_name Table.handlers (by decide) (by decide) _ hdeep (by decide)).2 (by decide)

end TypeHint
