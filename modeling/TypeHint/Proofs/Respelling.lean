import TypeHint.Proofs.RoundTrip

/-!
# The name of a type that was read

A text may write an array as `array<V>`.  Its name is `V[]`, and if `V` is a union there is a group
around it, which is a level of its own.  So the name of a type may take more levels than the text
from which the type was read, and a text within the limit may have a name beyond it.

* `IsUnion.concrete`      a text denotes a well-formed type without generic parameters
* `IsUnion.nesting_le`    the name of that type takes at most twice the levels of the text
* `IsSingle.suffixes`     a text followed by suffixes, one level for each
-/

namespace TypeHint

open Hint Text

/-! ## levels of a type -/

namespace Ty

variable {t m : Ty} {n : Nat}

theorem nesting_array_le (k i : Ty) : (Ty.array k i).nesting ≤ 2 + max k.nesting i.nesting := by
  rw [nesting]
  split
  · omega
  · split
    · omega
    · split <;> omega

theorem nesting_le_of_mem_members (hm : m ∈ t.members) : m.nesting ≤ t.nesting := by
  cases t with
  | union ms => exact le_maxNesting hm
  | primitive _ | array _ _ | cls _ | iface _ | generic _ _ =>
    exact Nat.le_of_eq (congrArg nesting (List.mem_singleton.mp hm))

theorem nesting_le_of_members (hall : ∀ m ∈ t.members, m.nesting ≤ n) : t.nesting ≤ n := by
  by_contra hlt
  obtain ⟨m, hm, hnm⟩ := exists_member_of_lt_nesting (not_le.mp hlt)
  have := hall m hm
  omega

end Ty

section

variable {h : Hierarchy} {rel : String → Ty → Prop} {r : Option Resolver} {t k i : Ty} {n : Nat}
  {s : List Char} {name : String}

/-- a union takes as many levels as one of its parts -/
theorem nesting_unite_le {ts : List Ty} (hts : ∀ a ∈ ts, Concrete h a)
    (hn : ∀ a ∈ ts, a.nesting ≤ n) (ht : (Ty.unite h ts).result = .ok t) : t.nesting ≤ n := by
  refine Ty.nesting_le_of_members fun m hm => ?_
  obtain ⟨a, ha, hma⟩ := exists_of_mem_unite hts ht hm
  exact (Ty.nesting_le_of_mem_members hma).trans (hn a ha)

/-! ## the types of texts -/

theorem Refers.concrete (ht : Refers h name t) : Concrete h t := by
  cases ht with
  | iface hi => exact ⟨.iface hi, rfl⟩
  | cls _ hc => exact ⟨.cls hc, rfl⟩

theorem Refers.nesting_eq (ht : Refers h name t) : t.nesting = 0 := by
  cases ht <;> rfl

theorem Resolves.refers (ht : Resolves h r name t) : ∃ full, Refers h full t := by
  cases r with
  | none => exact ⟨name, ht⟩
  | some resolve =>
    obtain ⟨full, -, ht⟩ := ht
    exact ⟨_, ht⟩

theorem Concrete.array (hk : Concrete h k) (hi : Concrete h i) : Concrete h (.array k i) := by
  refine ⟨.array hk.wellFormed hi.wellFormed, ?_⟩
  rw [Ty.hasGeneric, hk.noGeneric, hi.noGeneric]
  rfl

theorem concrete_mixed : Concrete h .mixed := ⟨.primitive .mixed, rfl⟩

mutual

theorem IsSingle.concrete : ∀ {n s t}, IsSingle h (Resolves h r) n s t → Concrete h t
  | _, _, _, .group hs => hs.concrete
  | _, _, _, .primitive _ => ⟨.primitive _, rfl⟩
  | _, _, _, .suffix hs _ => concrete_mixed.array hs.concrete
  | _, _, _, .array => concrete_mixed.array concrete_mixed
  | _, _, _, .items hs => concrete_mixed.array hs.concrete
  | _, _, _, .entries hs hu => hs.concrete.array hu.concrete
  | _, _, _, .relative _ _ _ _ ht => by
    obtain ⟨full, ht⟩ := ht.refers
    exact ht.concrete
  | _, _, _, .absolute _ _ ht => ht.concrete

theorem IsPart.concrete : ∀ {n s t}, IsPart h (Resolves h r) n s t → Concrete h t
  | _, _, _, .intro _ hs _ => hs.concrete

theorem IsUnion.concrete : ∀ {n s t}, IsUnion h (Resolves h r) n s t → Concrete h t
  | _, _, _, .one hs => hs.concrete
  | _, _, _, .several hps _ ht => by
    refine concrete_unite (fun a ha => ?_) ht
    obtain ⟨p, hp, rfl⟩ := List.mem_map.mp ha
    exact (hps p hp).concrete

end

theorem concrete_of_mem_parts {ps : List (List Char × Ty)}
    (hps : ∀ p ∈ ps, IsPart h (Resolves h r) n p.1 p.2) : ∀ a ∈ ps.map Prod.snd, Concrete h a := by
  intro a ha
  obtain ⟨p, hp, rfl⟩ := List.mem_map.mp ha
  exact (hps p hp).concrete

mutual

theorem IsSingle.nesting_le : ∀ {n s t}, IsSingle h (Resolves h r) n s t → t.nesting ≤ 2 * n
  | _, _, _, .group hs => by
    have := hs.nesting_le
    omega
  | _, _, _, .primitive _ => Nat.zero_le _
  | _, _, _, @IsSingle.suffix _ _ _ _ _ t hs _ => by
    have hle := hs.nesting_le
    have harray : (Ty.arrayOf t).nesting ≤ 2 + max 0 t.nesting := Ty.nesting_array_le .mixed t
    omega
  | _, _, _, .array => Nat.zero_le _
  | _, _, _, @IsSingle.items _ _ _ _ t hs => by
    have hle := hs.nesting_le
    have harray : (Ty.arrayOf t).nesting ≤ 2 + max 0 t.nesting := Ty.nesting_array_le .mixed t
    omega
  | _, _, _, @IsSingle.entries _ _ _ _ _ k i hs hu => by
    have hkey := hs.nesting_le
    have hitem := hu.nesting_le
    have harray := Ty.nesting_array_le k i
    omega
  | _, _, _, .relative _ _ _ _ ht => by
    obtain ⟨full, ht⟩ := ht.refers
    rw [ht.nesting_eq]
    exact Nat.zero_le _
  | _, _, _, .absolute _ _ ht => by
    rw [ht.nesting_eq]
    exact Nat.zero_le _

theorem IsPart.nesting_le : ∀ {n s t}, IsPart h (Resolves h r) n s t → t.nesting ≤ 2 * n
  | _, _, _, .intro _ hs _ => hs.nesting_le

/-- a level of a text is at most two levels of a name: a suffix and a group -/
theorem IsUnion.nesting_le : ∀ {n s t}, IsUnion h (Resolves h r) n s t → t.nesting ≤ 2 * n
  | _, _, _, .one hs => hs.nesting_le
  | _, _, _, .several hps _ ht => by
    refine nesting_unite_le (concrete_of_mem_parts hps) (fun a ha => ?_) ht
    obtain ⟨p, hp, rfl⟩ := List.mem_map.mp ha
    exact (hps p hp).nesting_le

end

theorem IsSingle.suffixes (hs : IsSingle h rel n s t) (k : Nat) :
    IsSingle h rel (n + k) (s ++ (List.replicate k "[]".toList).flatten) (Ty.arrayOf^[k] t) := by
  induction k with
  | zero => simpa using hs
  | succ k ih =>
    have hstep := ih.suffix .nil
    rw [List.replicate_succ', List.flatten_append, List.flatten_singleton,
      Function.iterate_succ_apply', ← List.append_assoc]
    rw [List.append_nil] at hstep
    exact hstep

end

/-! ## names of types that were read -/

/-- **The name of a type that was read.**  In a checked table with readable names, let a text denote
a type.  The name of the type is read as that type exactly if it takes at most 64 levels; if it
takes more, it is refused for its nesting.  The name takes at most twice the levels of the text, so
it is read back whenever the text takes at most 32. -/
theorem ofText_name_iff_nesting (t : Table) (hcheck : t.check = .ok ()) (hread : t.Readable)
    (s : String) (a : Ty) (hs : (Ty.ofText t.hierarchy none s).result = .ok a) :
    ((Ty.ofText t.hierarchy none a.name).result = .ok a ↔ a.nesting ≤ 64) ∧
    (64 < a.nesting → ∃ text flaw,
      (Ty.ofText t.hierarchy none a.name).result = .error (.malformed text flaw) ∧
        flaw.message = "type nesting too deep") ∧
    ∀ n, IsUnion t.hierarchy (Refers t.hierarchy) n s.toList a → a.nesting ≤ 2 * n := by
  have ho := Table.ordinary hcheck hread.plain
  have hr := hread.hierarchy
  have hc : Concrete t.hierarchy a := IsUnion.concrete (r := none) (ofText_eq_ok_iff.mp hs)
  have hdeep : 64 < a.nesting → ∃ text,
      (Ty.ofText t.hierarchy none a.name).result = .error (.malformed text .tooDeep) :=
    tooDeep_read ho hr 65 a hc
  refine ⟨⟨fun hok => ?_, fun hn => ?_⟩, fun hn => ?_, fun n hu => ?_⟩
  · by_contra hn
    obtain ⟨text, e⟩ := hdeep (not_le.mp hn)
    rw [hok] at e
    cases e
  · exact ofText_eq_ok_iff.mpr (isUnion_name ho hr hc hn)
  · obtain ⟨text, e⟩ := hdeep hn
    exact ⟨text, .tooDeep, e, rfl⟩
  · exact IsUnion.nesting_le (r := none) hu

/-- an array of a union is written with two levels and named with three -/
theorem ofText_name_iff_nesting_of_group :
    (Ty.ofText Table.handlers.hierarchy none "array<int, array<null|Base>>").result =
      .ok (.array (.primitive .integer) (.arrayOf (.union [.cls "Base", .null]))) ∧
    (Ty.array (.primitive .integer) (.arrayOf (.union [.cls "Base", .null]))).nesting = 3 ∧
    (Ty.ofText Table.handlers.hierarchy none "array<integer,(Base|null)[]>").result =
      .ok (.array (.primitive .integer) (.arrayOf (.union [.cls "Base", .null]))) := by
  have hs : (Ty.ofText Table.handlers.hierarchy none "array<int, array<null|Base>>").result =
      .ok (.array (.primitive .integer) (.arrayOf (.union [.cls "Base", .null]))) := by
    decide +kernel
  refine ⟨hs, by decide, ?_⟩
  exact (ofText_name_iff_nesting Table.handlers (by decide) (by decide) _ _ hs).1.mpr (by decide)

/-- at the limit: an array of a union with suffixes, in all 64 levels, is read, and the group in its
name is one level more, so the name is refused -/
theorem ofText_name_refused_at_limit :
    Table.empty.check = .ok () ∧ Table.empty.Readable ∧
    (Ty.ofText Table.empty.hierarchy none
        ("array<int|null>" ++ String.join (List.replicate 63 "[]"))).result =
      .ok (Ty.arrayOf^[64] (.union [.primitive .integer, .null])) ∧
    ∃ text, (Ty.ofText Table.empty.hierarchy none
        (Ty.arrayOf^[64] (.union [.primitive .integer, .null])).name).result =
      .error (.malformed text .tooDeep) := by
  have hcheck : Table.empty.check = .ok () := by decide
  have hread : Table.empty.Readable := by decide
  have hunion : IsUnion Table.empty.hierarchy (Resolves Table.empty.hierarchy none) 0
      "int|null".toList (.union [.primitive .integer, .null]) := by
    have hint : IsSingle Table.empty.hierarchy (Resolves Table.empty.hierarchy none) 0
        "int".toList (.primitive .integer) := .primitive (Or.inr (by decide))
    have hnull : IsSingle Table.empty.hierarchy (Resolves Table.empty.hierarchy none) 0
        "null".toList .null := .primitive (Or.inl (by decide))
    have hparts : ∀ p ∈ [("int".toList, Ty.primitive .integer), ("null".toList, Ty.null)],
        IsPart Table.empty.hierarchy (Resolves Table.empty.hierarchy none) 0 p.1 p.2 := by
      simp only [List.forall_mem_cons]
      exact ⟨hint.isPart, hnull.isPart, nofun⟩
    exact .several hparts le_rfl (by decide +kernel)
  have htext : ("array<int|null>" ++ String.join (List.replicate 63 "[]")).toList =
      ("array".toList ++ '<' :: ("int|null".toList ++ ['>'])) ++
        (List.replicate 63 "[]".toList).flatten := by
    rw [String.toList_append, String.toList_join, List.flatMap_def, List.map_replicate]
    rfl
  have hs : (Ty.ofText Table.empty.hierarchy none
      ("array<int|null>" ++ String.join (List.replicate 63 "[]"))).result =
        .ok (Ty.arrayOf^[64] (.union [.primitive .integer, .null])) := by
    rw [ofText_eq_ok_iff, htext]
    exact .one ((IsSingle.items hunion).suffixes 63).isPart
  refine ⟨hcheck, hread, hs, ?_⟩
  refine tooDeep_read (Table.ordinary hcheck hread.plain) hread.hierarchy 65 _ ?_ (by decide)
  exact IsUnion.concrete (r := none) (ofText_eq_ok_iff.mp hs)

end TypeHint
