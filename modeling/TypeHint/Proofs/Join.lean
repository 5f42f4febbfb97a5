import TypeHint.Proofs.ByteOrder
import TypeHint.Proofs.UnionMeaning

/-!
# The union of types is their join

The reduction goes once over the sorted candidates, and drops and evicts on the way.  What it leaves
can be said without it, in two ways:

* `mem_members_iff`      the members of a union are the maximal ones among all members
* `unite_eq_ok_iff_join` a union is the least type whose members accept the members of all its parts

The order for the second is `Spans`, member by member.  Assignability itself will not do: a class
accepts two classes below it, but it does not accept their union.  `Spans` has all the laws of an
order (`Spans.antisymm`), so a join is unique, and every law of unions is a law of joins.
-/

namespace TypeHint

open TypeHint.Union

variable {h : Hierarchy} {ts : List Ty} {a b c m t u x : Ty}

/-! ## the order of joins -/

theorem Concrete.fits_self (ht : Concrete h t) : fits h t t = true :=
  (fits_self_iff ht.wellFormed).mpr ht.noGeneric

theorem Spans.refl (ht : Concrete h t) : Spans h t t :=
  fun m hm => ⟨m, hm, (ht.of_mem_members hm).fits_self⟩

theorem Spans.trans (hl : h.Lawful) (ha : Concrete h a) (hb : Concrete h b) (hc : Concrete h c)
    (hab : Spans h a b) (hbc : Spans h b c) : Spans h a c := by
  intro m hm
  obtain ⟨x, hx, hxm⟩ := hbc m hm
  obtain ⟨y, hy, hyx⟩ := hab x hx
  have hym := fits_trans hl (ha.of_mem_members hy).wellFormed (hb.of_mem_members hx).wellFormed
    (hc.of_mem_members hm).wellFormed hyx hxm
  exact ⟨y, hy, hym⟩

theorem Spans.antisymm (ho : h.Ordinary) (ha : Concrete h a) (hb : Concrete h b)
    (hab : Spans h a b) (hba : Spans h b a) : a = b := by
  have hsub : ∀ {a b}, Concrete h a → Concrete h b → Spans h a b → Spans h b a →
      a.members ⊆ b.members := by
    intro a b ha hb hab hba
    apply members_subset ho.lawful ha.wellFormed hb.wellFormed ?_ hab hba
    intro m hm x hx hmx hxm
    exact fits_antisymm ho (ha.of_mem_members hm) (hb.of_mem_members hx) hmx hxm
  have heq := members_eq_of_subset ho ha hb (hsub ha hb hab hba) (hsub hb ha hba hab)
  exact ha.wellFormed.eq_of_members hb.wellFormed heq

/-! ## what a union consists of -/

theorem members_ofMembers {ms : List Ty} (hflat : ∀ m ∈ ms, m.kind ≠ .union) :
    (ofMembers ms).members = ms := by
  match ms with
  | [] => rfl
  | [t] => exact Ty.members_of_kind_ne_union (hflat t List.mem_cons_self)
  | _ :: _ :: _ => rfl

theorem reduce_members (hts : ∀ t ∈ ts, Concrete h t) (hu : (Ty.unite h ts).result = .ok u) :
    (reduce h [] (candidates ts)).result = .ok u.members := by
  have hne : ts ≠ [] := by rintro rfl; cases hu
  obtain ⟨out, hr, rfl⟩ := (unite_eq_ok_iff hne).mp hu
  have hkept := reduce_kept (.nil h) hr
  rw [members_ofMembers, hr]
  intro m hm
  exact (wellFormed_of_mem_candidates (fun t ht => (hts t ht).wellFormed)
    (hkept.sublist.subset hm)).2

theorem exists_unite (ho : h.Ordinary) (hts : ∀ t ∈ ts, Concrete h t) (hne : ts ≠ []) :
    ∃ u, (Ty.unite h ts).result = .ok u := by
  have hnil : ∀ k ∈ ([] : List Ty), Concrete h k := fun k hk => (by cases hk)
  have hred := reduce_eq_ok ho hnil (concrete_of_mem_candidates hts)
  exact ⟨_, (unite_eq_ok_iff hne).mpr ⟨_, hred, rfl⟩⟩

theorem exists_of_mem_unite (hts : ∀ t ∈ ts, Concrete h t) (hu : (Ty.unite h ts).result = .ok u)
    (hm : m ∈ u.members) : ∃ a ∈ ts, m ∈ a.members := by
  have hkept := reduce_kept (.nil h) (reduce_members hts hu)
  exact exists_of_mem_candidates (hkept.sublist.subset hm)

theorem concrete_unite (hts : ∀ t ∈ ts, Concrete h t) (hu : (Ty.unite h ts).result = .ok u) :
    Concrete h u := by
  have hwf : WellFormed h u := unite_wellFormed (fun t ht => (hts t ht).wellFormed) hu
  have hmem : ∀ m ∈ u.members, m.hasGeneric = false := by
    intro m hm
    obtain ⟨a, ha, hma⟩ := exists_of_mem_unite hts hu hm
    exact Ty.hasGeneric_of_mem_members (hts a ha).noGeneric hma
  refine ⟨hwf, ?_⟩
  cases u with
  | union ms =>
    rw [Ty.hasGeneric, Ty.anyHasGeneric_eq, List.any_eq_false]
    intro m hm
    rw [hmem m hm]
    exact Bool.false_ne_true
  | primitive _ | array _ _ | cls _ | iface _ | generic _ _ => exact hmem _ List.mem_cons_self

theorem spans_of_mem_unite (ho : h.Ordinary) (hts : ∀ t ∈ ts, Concrete h t)
    (hu : (Ty.unite h ts).result = .ok u) (ha : a ∈ ts) : Spans h u a := by
  intro m hm
  have hnil : ∀ k ∈ ([] : List Ty), Concrete h k := fun k hk => (by cases hk)
  have hcand := concrete_of_mem_candidates hts
  have hmc := mem_candidates ho hts ha hm
  have hout : (candidates ts).foldl (addMember h) [] = u.members := by
    have hred := reduce_eq_ok ho hnil hcand
    rw [reduce_members hts hu] at hred
    exact (Except.ok.inj hred).symm
  rw [← hout]
  exact reduce_covers ho.lawful hnil hcand (hcand m hmc) (Or.inr hmc)

/-! ## maximal members -/

/-- a member is left if nothing else among all members accepts it -/
theorem mem_members_iff (ho : h.Ordinary) (hts : ∀ t ∈ ts, Concrete h t)
    (hu : (Ty.unite h ts).result = .ok u) : m ∈ u.members ↔
      m ∈ ts.flatMap Ty.members ∧ ∀ x ∈ ts.flatMap Ty.members, fits h x m = true → x = m := by
  have hcu := concrete_unite hts hu
  have hcf : ∀ x ∈ ts.flatMap Ty.members, Concrete h x := by
    intro x hx
    obtain ⟨a, ha, hxa⟩ := List.mem_flatMap.mp hx
    exact (hts a ha).of_mem_members hxa
  have hcover : ∀ x ∈ ts.flatMap Ty.members, ∃ k ∈ u.members, fits h k x = true := by
    intro x hx
    obtain ⟨a, ha, hxa⟩ := List.mem_flatMap.mp hx
    exact spans_of_mem_unite ho hts hu ha x hxa
  constructor
  · intro hm
    have hmf := List.mem_flatMap.mpr (exists_of_mem_unite hts hu hm)
    refine ⟨hmf, fun x hx hxm => ?_⟩
    -- `x` is accepted by some `k` that is left, so `k` accepts `m` too, and `k` is `m`
    obtain ⟨k, hk, hkx⟩ := hcover x hx
    have hkm := fits_trans ho.lawful (hcu.of_mem_members hk).wellFormed (hcf x hx).wellFormed
      (hcu.of_mem_members hm).wellFormed hkx hxm
    rw [hcu.wellFormed.eq_of_fits hk hm hkm] at hkx
    exact fits_antisymm ho (hcf x hx) (hcf m hmf) hxm hkx
  · rintro ⟨hmf, hmax⟩
    obtain ⟨k, hk, hkm⟩ := hcover m hmf
    have hkf := List.mem_flatMap.mpr (exists_of_mem_unite hts hu hk)
    rw [← hmax k hkf hkm]
    exact hk

/-- the members of a type strictly ascend: first what is not primitive, `null` last, and the bytes
of the names decide within each rank -/
theorem members_ascending (ho : h.Ordinary) (ht : Concrete h t) : t.members.Pairwise fun a b =>
    rank a < rank b ∨ rank a = rank b ∧ utf8 a.name < utf8 b.name := by
  have hboth := ht.wellFormed.members_sorted.and ht.wellFormed.members_nodup
  apply hboth.imp_of_mem
  rintro a b ha hb ⟨hab, hne⟩
  rcases before_eq_false_iff.mp hab with hrank | ⟨hrank, hname⟩
  · exact Or.inl hrank
  · have hdiff : a.name ≠ b.name := fun e =>
      hne ((name_eq_iff ho (ht.of_mem_members ha) (ht.of_mem_members hb)).mp e)
    exact Or.inr ⟨hrank, utf8_lt_iff.mpr (Std.lt_of_le_of_ne hname hdiff)⟩

/-- **A union is the normal form of its parts.**  In a checked table with plain names, types without
generic parameters can always be united.  The members of the union are those among all members of
the parts that no other one accepts, each once, in strictly ascending order. -/
theorem members_unite_normal (t : Table) (hcheck : t.check = .ok ()) (hplain : t.Plain)
    (ts : List Ty) (hne : ts ≠ []) (hts : ∀ a ∈ ts, Built t.hierarchy a)
    (hg : ∀ a ∈ ts, a.hasGeneric = false) :
    ∃ u, (Ty.unite t.hierarchy ts).result = .ok u ∧
      (∀ m, m ∈ u.members ↔ m ∈ ts.flatMap Ty.members ∧
        ∀ x ∈ ts.flatMap Ty.members, x ≠ m → assignable t.hierarchy x m = .ok false) ∧
      u.members.Nodup ∧
      u.members.Pairwise fun a b =>
        rank a < rank b ∨ rank a = rank b ∧ utf8 a.name < utf8 b.name := by
  have ho := Table.ordinary hcheck hplain
  have hconc : ∀ a ∈ ts, Concrete t.hierarchy a := fun a ha => ⟨(hts a ha).wellFormed, hg a ha⟩
  obtain ⟨u, hu⟩ := exists_unite ho hconc hne
  have hcu := concrete_unite hconc hu
  refine ⟨u, hu, fun m => ?_, hcu.wellFormed.members_nodup, members_ascending ho hcu⟩
  rw [mem_members_iff ho hconc hu]
  apply and_congr_right
  intro hm
  have hcf : ∀ x ∈ ts.flatMap Ty.members, Concrete t.hierarchy x := by
    intro x hx
    obtain ⟨a, ha, hxa⟩ := List.mem_flatMap.mp hx
    exact (hconc a ha).of_mem_members hxa
  apply forall₂_congr
  intro x hx
  rw [assignable_eq_ok ho x m (hcf x hx) (hcf m hm)]
  cases fits t.hierarchy x m <;> simp

/-- of a class, the class above it, the interface above both, and unions that repeat them, only the
interface is left, in front of the primitive types -/
theorem members_unite_normal_of_chain :
    ∃ u, (Ty.unite Table.handlers.hierarchy [.union [.cls "Base", .primitive .string, .null],
        .cls "Leaf", .null, .iface "Handler"]).result = .ok u ∧
      u.members = [.iface "Handler", .primitive .string, .null] ∧ u.members.Nodup := by
  have hts : ∀ a ∈ [Ty.union [.cls "Base", .primitive .string, .null], .cls "Leaf", .null,
      .iface "Handler"], Built Table.handlers.hierarchy a := by
    simp only [List.forall_mem_cons]
    refine ⟨.ofText (show (Ty.ofText _ none "null|Leaf|string|Base").result = _ by decide +kernel),
      .classOfText (show (Ty.classOfText _ "Leaf").result = _ by decide +kernel),
      .classify (show classify _ .null = _ by rfl),
      .interfaceOfText (show (Ty.interfaceOfText _ "Handler").result = _ by decide +kernel), ?_⟩
    exact fun a ha => (by cases ha)
  obtain ⟨u, hu, -, hnodup, -⟩ := members_unite_normal Table.handlers (by decide) (by decide) _
    (List.cons_ne_nil _ _) hts (by decide)
  have hres : (Ty.unite Table.handlers.hierarchy [.union [.cls "Base", .primitive .string, .null],
      .cls "Leaf", .null, .iface "Handler"]).result =
        .ok (.union [.iface "Handler", .primitive .string, .null]) := by decide +kernel
  refine ⟨u, hu, ?_, hnodup⟩
  rw [hres] at hu
  cases hu
  rfl

/-! ## joins -/

/-- what accepts a union member by member is what accepts all its parts -/
theorem spans_unite_iff (ho : h.Ordinary) (hts : ∀ t ∈ ts, Concrete h t)
    (hu : (Ty.unite h ts).result = .ok u) (ht : Concrete h t) :
    Spans h t u ↔ ∀ a ∈ ts, Spans h t a := by
  constructor
  · intro htu a ha
    exact htu.trans ho.lawful ht (concrete_unite hts hu) (hts a ha)
      (spans_of_mem_unite ho hts hu ha)
  · intro hall m hm
    obtain ⟨a, ha, hma⟩ := exists_of_mem_unite hts hu hm
    exact hall a ha m hma

/-- the union is the join of its parts, and nothing else is -/
theorem unite_eq_ok_iff_join (ho : h.Ordinary) (hts : ∀ t ∈ ts, Concrete h t) (hne : ts ≠ []) :
    (Ty.unite h ts).result = .ok u ↔
      Concrete h u ∧ ∀ t, Concrete h t → (Spans h t u ↔ ∀ a ∈ ts, Spans h t a) := by
  constructor
  · intro hu
    exact ⟨concrete_unite hts hu, fun t ht => spans_unite_iff ho hts hu ht⟩
  · rintro ⟨hcu, hjoin⟩
    obtain ⟨w, hw⟩ := exists_unite ho hts hne
    have hcw := concrete_unite hts hw
    have huw : Spans h u w :=
      (spans_unite_iff ho hts hw hcu).mpr ((hjoin u hcu).mp (.refl hcu))
    have hwu : Spans h w u :=
      (hjoin w hcw).mpr ((spans_unite_iff ho hts hw hcw).mp (.refl hcw))
    rw [Spans.antisymm ho hcu hcw huw hwu]
    exact hw

theorem unite_members (ho : h.Ordinary) (ht : Concrete h t) :
    (Ty.unite h t.members).result = .ok t := by
  have hts : ∀ m ∈ t.members, Concrete h m := fun m hm => ht.of_mem_members hm
  apply (unite_eq_ok_iff_join ho hts ht.wellFormed.members_ne_nil).mpr
  refine ⟨ht, fun s _ => ?_⟩
  constructor
  · intro hst m hm x hx
    rw [Ty.members_of_kind_ne_union (ht.kind_of_mem_members hm), List.mem_singleton] at hx
    rw [hx]
    exact hst m hm
  · intro hall m hm
    apply hall m hm m
    rw [Ty.members_of_kind_ne_union (ht.kind_of_mem_members hm)]
    exact List.mem_cons_self

/-- uniting with a union is uniting with its parts; how often and in which order they come makes no
difference -/
theorem unite_nested (ho : h.Ordinary) (xs ys zs ws : List Ty) (hys : ys ≠ [])
    (hconc : ∀ a ∈ xs ++ ys ++ zs, Concrete h a) (hws : ∀ a, a ∈ ws ↔ a ∈ xs ++ ys ++ zs)
    (hu : (Ty.unite h ys).result = .ok u) :
    ∃ v, (Ty.unite h (xs ++ [u] ++ zs)).result = .ok v ∧ (Ty.unite h ws).result = .ok v := by
  simp only [List.mem_append] at hconc hws
  have hcy : ∀ a ∈ ys, Concrete h a := fun a ha => hconc a (Or.inl (Or.inr ha))
  have hcn : ∀ a ∈ xs ++ [u] ++ zs, Concrete h a := by
    intro a ha
    simp only [List.mem_append, List.mem_singleton] at ha
    rcases ha with (ha | rfl) | ha
    · exact hconc a (Or.inl (Or.inl ha))
    · exact concrete_unite hcy hu
    · exact hconc a (Or.inr ha)
  have hcw : ∀ a ∈ ws, Concrete h a := fun a ha => hconc a ((hws a).mp ha)
  have hwne : ws ≠ [] := by
    obtain ⟨y, hy⟩ := List.exists_mem_of_ne_nil ys hys
    exact List.ne_nil_of_mem ((hws y).mpr (Or.inl (Or.inr hy)))
  obtain ⟨v, hv⟩ := exists_unite ho hcn (by simp)
  refine ⟨v, hv, (unite_eq_ok_iff_join ho hcw hwne).mpr ⟨concrete_unite hcn hv, fun t ht => ?_⟩⟩
  -- both sides ask `t` to accept all of `xs`, `ys` and `zs`
  rw [spans_unite_iff ho hcn hv ht]
  simp only [hws, List.mem_append, List.mem_singleton, or_imp, forall_and, forall_eq]
  rw [spans_unite_iff ho hcy hu ht]

theorem unite_assoc (ho : h.Ordinary) (ha : Concrete h a) (hb : Concrete h b) (hc : Concrete h c) :
    ∃ ab bc v, (Ty.unite h [a, b]).result = .ok ab ∧ (Ty.unite h [b, c]).result = .ok bc ∧
      (Ty.unite h [ab, c]).result = .ok v ∧ (Ty.unite h [a, bc]).result = .ok v := by
  have hab : ∀ x ∈ [a, b], Concrete h x := by simp [ha, hb]
  have hbc : ∀ x ∈ [b, c], Concrete h x := by simp [hb, hc]
  have habc : ∀ x ∈ [a, b, c], Concrete h x := by simp [ha, hb, hc]
  obtain ⟨u, hu⟩ := exists_unite ho hab (List.cons_ne_nil _ _)
  obtain ⟨w, hw⟩ := exists_unite ho hbc (List.cons_ne_nil _ _)
  obtain ⟨v, hv, hleft⟩ := unite_nested ho [] [a, b] [c] [a, b, c] (List.cons_ne_nil _ _) habc
    (fun _ => Iff.rfl) hu
  obtain ⟨v', hv', hright⟩ := unite_nested ho [a] [b, c] [] [a, b, c] (List.cons_ne_nil _ _) habc
    (fun _ => Iff.rfl) hw
  rw [hleft] at hright
  cases hright
  exact ⟨u, w, v, hu, hw, hv, hv'⟩

theorem unite_comm (ho : h.Ordinary) (ha : Concrete h a) (hb : Concrete h b) :
    ∃ v, (Ty.unite h [a, b]).result = .ok v ∧ (Ty.unite h [b, a]).result = .ok v := by
  have hab : ∀ x ∈ [a, b], Concrete h x := by simp [ha, hb]
  have hba : ∀ x ∈ [b, a], Concrete h x := by simp [ha, hb]
  obtain ⟨v, hv⟩ := exists_unite ho hab (List.cons_ne_nil _ _)
  refine ⟨v, hv, (unite_eq_ok_iff_join ho hba (List.cons_ne_nil _ _)).mpr ?_⟩
  refine ⟨concrete_unite hab hv, fun t ht => ?_⟩
  rw [spans_unite_iff ho hab hv ht]
  simp [and_comm]

theorem unite_self (ho : h.Ordinary) (ha : Concrete h a) : (Ty.unite h [a, a]).result = .ok a := by
  have haa : ∀ x ∈ [a, a], Concrete h x := by simp [ha]
  apply (unite_eq_ok_iff_join ho haa (List.cons_ne_nil _ _)).mpr
  exact ⟨ha, fun t _ => by simp⟩

theorem orNull_orNull (ho : h.Ordinary) (ha : Concrete h a) :
    ∃ u, (Ty.orNull h a).result = .ok u ∧ (Ty.orNull h u).result = .ok u := by
  have hconc : ∀ x ∈ [a, .null], Concrete h x := by
    simp only [List.forall_mem_cons]
    exact ⟨ha, ⟨.primitive .null, rfl⟩, fun x hx => (by cases hx)⟩
  obtain ⟨u, hu⟩ := exists_unite ho hconc (List.cons_ne_nil _ _)
  obtain ⟨v, hv, hflat⟩ := unite_nested ho [] [a, .null] [.null] [a, .null] (List.cons_ne_nil _ _)
    (by simpa using hconc) (by simp) hu
  rw [hu] at hflat
  cases hflat
  exact ⟨u, hu, hv⟩

/-- **Unions form a semilattice.**  In a checked table with plain names, take types without generic
parameters.  A union may be united in the place of its parts, in any order and with any of them
repeated, and the result is the same type.  So uniting is associative, commutative and idempotent,
and allowing null twice is allowing it once. -/
theorem unite_semilattice (t : Table) (hcheck : t.check = .ok ()) (hplain : t.Plain) :
    (∀ xs ys zs ws : List Ty, ys ≠ [] →
      (∀ a ∈ xs ++ ys ++ zs, Built t.hierarchy a ∧ a.hasGeneric = false) →
      (∀ a, a ∈ ws ↔ a ∈ xs ++ ys ++ zs) →
      ∃ u v, (Ty.unite t.hierarchy ys).result = .ok u ∧
        (Ty.unite t.hierarchy (xs ++ [u] ++ zs)).result = .ok v ∧
        (Ty.unite t.hierarchy ws).result = .ok v) ∧
    ∀ a b c : Ty, (∀ x ∈ [a, b, c], Built t.hierarchy x ∧ x.hasGeneric = false) →
      (∃ ab bc v, (Ty.unite t.hierarchy [a, b]).result = .ok ab ∧
        (Ty.unite t.hierarchy [b, c]).result = .ok bc ∧
        (Ty.unite t.hierarchy [ab, c]).result = .ok v ∧
        (Ty.unite t.hierarchy [a, bc]).result = .ok v) ∧
      (∃ v, (Ty.unite t.hierarchy [a, b]).result = .ok v ∧
        (Ty.unite t.hierarchy [b, a]).result = .ok v) ∧
      (Ty.unite t.hierarchy [a, a]).result = .ok a ∧
      ∃ u, (Ty.orNull t.hierarchy a).result = .ok u ∧ (Ty.orNull t.hierarchy u).result = .ok u := by
  have ho := Table.ordinary hcheck hplain
  have hconc : ∀ {ts : List Ty}, (∀ a ∈ ts, Built t.hierarchy a ∧ a.hasGeneric = false) →
      ∀ a ∈ ts, Concrete t.hierarchy a :=
    fun hts a ha => ⟨(hts a ha).1.wellFormed, (hts a ha).2⟩
  constructor
  · intro xs ys zs ws hys hall hws
    have hcys : ∀ a ∈ ys, Concrete t.hierarchy a := fun a ha => hconc hall a (by simp [ha])
    obtain ⟨u, hu⟩ := exists_unite ho hcys hys
    obtain ⟨v, hv, hvw⟩ := unite_nested ho xs ys zs ws hys (hconc hall) hws hu
    exact ⟨u, v, hu, hv, hvw⟩
  · intro a b c hall
    have ha := hconc hall a (by simp)
    have hb := hconc hall b (by simp)
    have hc := hconc hall c (by simp)
    exact ⟨unite_assoc ho ha hb hc, unite_comm ho ha hb, unite_self ho ha, orNull_orNull ho ha⟩

/-- the inner union has dropped `Leaf`, which the flat one sees, and the flat one repeats it -/
theorem unite_semilattice_of_dropped :
    ∃ u v, (Ty.unite Table.handlers.hierarchy [.cls "Leaf", .cls "Base"]).result = .ok u ∧
      (Ty.unite Table.handlers.hierarchy ([.null] ++ [u] ++ [.primitive .string])).result = .ok v ∧
      (Ty.unite Table.handlers.hierarchy
        [.primitive .string, .cls "Leaf", .null, .cls "Base", .cls "Leaf"]).result = .ok v := by
  obtain ⟨hnested, -⟩ := unite_semilattice Table.handlers (by decide) (by decide)
  apply hnested [.null] [.cls "Leaf", .cls "Base"] [.primitive .string] _ (List.cons_ne_nil _ _)
  · have hleaf : Built Table.handlers.hierarchy (.cls "Leaf") :=
      .classOfText (show (Ty.classOfText _ "Leaf").result = _ by decide +kernel)
    have hbase : Built Table.handlers.hierarchy (.cls "Base") :=
      .classOfText (show (Ty.classOfText _ "Base").result = _ by decide +kernel)
    have hnull : Built Table.handlers.hierarchy (.primitive .null) :=
      .classify (show classify _ .null = _ by rfl)
    have hstring : Built Table.handlers.hierarchy (.primitive .string) :=
      .classify (show classify _ (.text "") = _ by rfl)
    simp [hleaf, hbase, hnull, hstring, Ty.null, Ty.hasGeneric]
  · intro a
    simp only [List.cons_append, List.nil_append, List.mem_cons, List.not_mem_nil, or_false]
    tauto

end TypeHint
