import TypeHint.Proofs.Join

/-!
# What a union accepts of what it was built from

The members of a union accept the members of its parts, one by one (`spans_of_mem_unite`).  Whether
the union accepts a whole part is another question, and only a part that is a union itself makes a
difference: if a single member is left to stand for all, it must accept that union as one type.

* `mixed` accepts it, and so does `object`, since all members are objects;
* a class, an interface and `callable` accept no union;
* any other type accepts nothing but itself, so it was never left alone with two members.

* `fits_of_mem_members`   a type accepts what one of its members accepts
* `fits_iff_of_spans`     where all members are accepted, this decides about the whole
-/

namespace TypeHint

open TypeHint.Union

variable {h : Hierarchy} {a m u x : Ty}

/-! ## members -/

theorem fits_of_mem_members (hm : m.kind ≠ .union) (hx : x ∈ u.members)
    (hxm : fits h x m = true) : fits h u m = true := by
  by_cases hu : u.kind = .union
  · cases u with
    | union ms =>
      refine fits_union_iff.mpr fun y hy => ?_
      rw [Ty.members_of_kind_ne_union hm, List.mem_singleton] at hy
      rw [hy]
      exact ⟨x, hx, hxm⟩
    | primitive _ | array _ _ | cls _ | iface _ | generic _ _ => cases hu
  · rw [Ty.members_of_kind_ne_union hu, List.mem_singleton] at hx
    rw [← hx]
    exact hxm

theorem Spans.fits_member (ha : Concrete h a) (hs : Spans h u a) (hm : m ∈ a.members) :
    fits h u m = true := by
  obtain ⟨x, hx, hxm⟩ := hs m hm
  exact fits_of_mem_members (ha.kind_of_mem_members hm) hx hxm

theorem Concrete.exists_member_ne (ha : Concrete h a) (hu : a.kind = .union) (x : Ty) :
    ∃ m ∈ a.members, m ≠ x := by
  by_contra hno
  have hall : ∀ m ∈ a.members, m = x := fun m hm => by_contra fun hne => hno ⟨m, hm, hne⟩
  have hrep : a.members = List.replicate a.members.length x := List.eq_replicate_of_mem hall
  have hnodup := ha.wellFormed.members_nodup
  rw [hrep, List.nodup_replicate] at hnodup
  have htwo := ha.wellFormed.two_le_members hu
  omega

/-! ## one type for all members -/

theorem eq_of_array_fits {k i : Ty} (ho : h.Ordinary) (hu : Concrete h (.array k i))
    (hm : Concrete h m) (hf : fits h (.array k i) m = true) : m = .array k i := by
  cases fits_iff.mp hf with
  | array hi hi' hk hk' =>
    exact fits_antisymm ho hm hu (fits_iff.mpr (.array hi' hi hk' hk)) hf

theorem isObject_of_object_fits (hm : m.kind ≠ .union) (hne : m ≠ .primitive .object)
    (hf : fits h (.primitive .object) m = true) : m.isObject = true := by
  cases fits_iff.mp hf with
  | same => exact absurd rfl hne
  | object hobj =>
    rw [Ty.members_of_kind_ne_union hm] at hobj
    exact hobj m List.mem_cons_self

/-- if `object` accepts every member of a union, none of them is `object` itself: it would accept
the others -/
theorem fits_object_of_spans (ha : Concrete h a) (hu : a.kind = .union)
    (hs : Spans h (.primitive .object) a) : fits h (.primitive .object) a = true := by
  refine fits_iff.mpr (.object fun m hm => ?_)
  refine isObject_of_object_fits (ha.kind_of_mem_members hm) ?_ (hs.fits_member ha hm)
  rintro rfl
  obtain ⟨x, hx, hne⟩ := ha.exists_member_ne hu (.primitive .object)
  exact hne (ha.wellFormed.eq_of_fits hm hx (hs.fits_member ha hx)).symm

theorem not_fits_union (hu : u.isObject = true ∨ u = .primitive .callable) (ha : a.kind = .union) :
    fits h u a ≠ true := by
  intro hf
  rcases hu with hu | rfl
  · cases fits_iff.mp hf with
    | cls | iface | implements => cases ha
    | same | mixed | object | callable | array | union => cases hu
  · cases fits_iff.mp hf with
    | same => cases ha
    | callable hn =>
      cases a with
      | union => cases hn
      | primitive | array | cls | iface | generic => cases ha

/-- a type that is no union but accepts all members of one is `mixed`, `object`, `callable`, a class
or an interface: two members are too many for a type that accepts only itself -/
theorem fits_or_of_spans (ho : h.Ordinary) (hu : Concrete h u) (ha : Concrete h a)
    (hau : a.kind = .union) (hs : Spans h u a) :
    fits h u a = true ∨ u.isObject = true ∨ u = .primitive .callable := by
  have hrigid : (∀ m ∈ a.members, fits h u m = true → m = u) → False := by
    intro hall
    obtain ⟨m, hm, hne⟩ := ha.exists_member_ne hau u
    exact hne (hall m hm (hs.fits_member ha hm))
  cases u with
  | union ms => exact Or.inl (fits_union_iff.mpr hs)
  | cls n | iface n => exact Or.inr (Or.inl rfl)
  | generic n d => cases hu.noGeneric
  | array k i =>
    refine (hrigid fun m hm hf => ?_).elim
    exact eq_of_array_fits ho hu (ha.of_mem_members hm) hf
  | primitive p =>
    cases p with
    | mixed => exact Or.inl (fits_iff.mpr (.mixed a))
    | object => exact Or.inl (fits_object_of_spans ha hau hs)
    | callable => exact Or.inr (Or.inr rfl)
    | integer | float | string | boolean | resource | null =>
      refine (hrigid fun m hm hf => ?_).elim
      cases fits_iff.mp hf with
      | same => rfl

/-- where all members are accepted, the whole is accepted, unless it is a union and a class, an
interface or `callable` stands for all -/
theorem fits_iff_of_spans (ho : h.Ordinary) (hu : Concrete h u) (ha : Concrete h a)
    (hs : Spans h u a) : fits h u a = true ↔
      ¬ (a.kind = .union ∧ (u.isObject = true ∨ u = .primitive .callable)) := by
  by_cases hau : a.kind = .union
  · constructor
    · rintro hf ⟨-, hobj⟩
      exact not_fits_union hobj hau hf
    · intro hno
      exact (fits_or_of_spans ho hu ha hau hs).resolve_right fun hobj => hno ⟨hau, hobj⟩
  · have hmem : a ∈ a.members := by
      rw [Ty.members_of_kind_ne_union hau]
      exact List.mem_cons_self
    exact iff_of_true (hs.fits_member ha hmem) fun hno => hau hno.1

/-! ## parts of a union -/

/-- **What a union accepts of its parts.**  In a checked table with plain names, types without
generic parameters can always be united.  The union accepts every member of every part.  It accepts
every part as a whole too, except for a part that is a union where the result is a class, an
interface or `callable`. -/
theorem assignable_unite_iff (t : Table) (hcheck : t.check = .ok ()) (hplain : t.Plain)
    (ts : List Ty) (hne : ts ≠ []) (hts : ∀ a ∈ ts, Built t.hierarchy a)
    (hg : ∀ a ∈ ts, a.hasGeneric = false) :
    ∃ u, (Ty.unite t.hierarchy ts).result = .ok u ∧ ∀ a ∈ ts,
      (∀ m ∈ a.members, assignable t.hierarchy u m = .ok true) ∧
      ∃ r, assignable t.hierarchy u a = .ok r ∧
        (r = true ↔ ¬ (a.kind = .union ∧ (u.isObject = true ∨ u = .primitive .callable))) := by
  have ho := Table.ordinary hcheck hplain
  have hconc : ∀ a ∈ ts, Concrete t.hierarchy a := fun a ha => ⟨(hts a ha).wellFormed, hg a ha⟩
  obtain ⟨u, hu⟩ := exists_unite ho hconc hne
  have hcu := concrete_unite hconc hu
  refine ⟨u, hu, fun a ha => ⟨fun m hm => ?_, fits t.hierarchy u a, ?_, ?_⟩⟩
  · have hs := spans_of_mem_unite ho hconc hu ha
    rw [assignable_eq_ok ho u m hcu ((hconc a ha).of_mem_members hm),
      hs.fits_member (hconc a ha) hm]
  · exact assignable_eq_ok ho u a hcu (hconc a ha)
  · exact fits_iff_of_spans ho hcu (hconc a ha) (spans_of_mem_unite ho hconc hu ha)

def Table.shapes : Table where
  symbols := [.ofInterface ⟨"Shape", [], [], []⟩,
    .ofClass ⟨"Circle", none, ["Shape"], false, [], [], []⟩,
    .ofClass ⟨"Square", none, ["Shape"], false, [], [], []⟩]
  nodup := by decide

/-- the interface stands for both classes, and `null` keeps the result a union, which accepts the
union that it was built from -/
theorem assignable_unite_iff_of_nullable :
    (Ty.unite Table.shapes.hierarchy
        [.union [.cls "Circle", .cls "Square", .null], .iface "Shape"]).result =
      .ok (.union [.iface "Shape", .null]) ∧
    assignable Table.shapes.hierarchy (.union [.iface "Shape", .null]) (.cls "Square") = .ok true ∧
    assignable Table.shapes.hierarchy (.union [.iface "Shape", .null])
      (.union [.cls "Circle", .cls "Square", .null]) = .ok true := by
  have hts : ∀ a ∈ [Ty.union [.cls "Circle", .cls "Square", .null], .iface "Shape"],
      Built Table.shapes.hierarchy a := by
    simp only [List.forall_mem_cons]
    refine ⟨.ofText (show (Ty.ofText _ none "Square|null|Circle").result = _ by decide +kernel),
      .interfaceOfText (show (Ty.interfaceOfText _ "Shape").result = _ by decide +kernel), ?_⟩
    exact nofun
  have hunite : (Ty.unite Table.shapes.hierarchy
      [.union [.cls "Circle", .cls "Square", .null], .iface "Shape"]).result =
        .ok (.union [.iface "Shape", .null]) := by decide +kernel
  obtain ⟨u, hu, hall⟩ := assignable_unite_iff Table.shapes (by decide) (by decide) _
    (List.cons_ne_nil _ _) hts (by decide)
  rw [hunite] at hu
  cases hu
  obtain ⟨hmembers, r, hr, hiff⟩ := hall _ List.mem_cons_self
  refine ⟨hunite, hmembers _ (by simp [Ty.members]), ?_⟩
  rw [hr, hiff.mpr (by simp [Ty.isObject])]

/-- without `null` the interface is left alone, and it accepts each class but not their union -/
theorem not_assignable_unite_of_classes :
    Table.shapes.check = .ok () ∧ Table.shapes.Plain ∧
    (∀ a ∈ [Ty.union [.cls "Circle", .cls "Square"], .iface "Shape"],
      Built Table.shapes.hierarchy a ∧ a.hasGeneric = false) ∧
    (Ty.unite Table.shapes.hierarchy
        [.union [.cls "Circle", .cls "Square"], .iface "Shape"]).result = .ok (.iface "Shape") ∧
    assignable Table.shapes.hierarchy (.iface "Shape") (.union [.cls "Circle", .cls "Square"]) =
      .ok false := by
  refine ⟨by decide, by decide, ?_, by decide +kernel, by decide +kernel⟩
  simp only [List.forall_mem_cons]
  refine ⟨⟨.ofText (show (Ty.ofText _ none "Square|Circle").result = _ by decide +kernel), rfl⟩,
    ⟨.interfaceOfText (show (Ty.interfaceOfText _ "Shape").result = _ by decide +kernel), rfl⟩, ?_⟩
  exact nofun

end TypeHint
