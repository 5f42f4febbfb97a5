import TypeHint.Proofs.Equality
import TypeHint.Proofs.ValueSoundness

/-!
# A canonical union has the values of its parts

Members are removed in three ways: one that repeats kind and name of another is never looked at, one
that a kept member accepts is dropped, and a kept member that a later one accepts gives way to it.
The last may happen again and again, so what is carried through the reduction is that every
candidate so far is kept or covered by some kept member.

* `keep_eq_ok`      a step always has an answer, and this is what it keeps
* `Held.step`       one step leaves what was kept or covered kept or covered
* `reduce_holds`    so a whole reduction keeps or covers every candidate
* `reduce_covers`   and covers it if no generic parameter occurs
-/

namespace TypeHint

namespace Union

variable {h : Hierarchy} {c d : Ty} {kept cs ts : List Ty}

/-! ## answers of the reduction -/

theorem ask_eq_fits (ho : h.Ordinary) {t : Ty} (ht : WellFormed h t) (hc : WellFormed h c) :
    (ask h t c).result = .ok (fits h t c) :=
  ask_eq_ok.mpr (assignable_eq_fits ho t c ht hc)

theorem covered_eq_ok (ho : h.Ordinary) (hc : WellFormed h c) (hts : ∀ t ∈ ts, WellFormed h t) :
    (covered h c ts).result = .ok (ts.any fun t => fits h t c) := by
  induction ts with
  | nil => rfl
  | cons t ts ih =>
    rw [covered_cons, ask_eq_fits ho (hts t List.mem_cons_self) hc,
      ih fun u hu => hts u (List.mem_cons_of_mem _ hu), List.any_cons]
    cases fits h t c <;> rfl

theorem uncovered_eq_ok (ho : h.Ordinary) (hc : WellFormed h c) (hts : ∀ t ∈ ts, WellFormed h t) :
    (uncovered h c ts).result = .ok (ts.filter fun t => !fits h c t) := by
  induction ts with
  | nil => rfl
  | cons t ts ih =>
    rw [uncovered_cons, ask_eq_fits ho hc (hts t List.mem_cons_self),
      ih fun u hu => hts u (List.mem_cons_of_mem _ hu), List.filter_cons]
    cases fits h c t <;> rfl

/-- the members that are left after a candidate -/
def addMember (h : Hierarchy) (kept : List Ty) (c : Ty) : List Ty :=
  if kept.any fun k => fits h k c then kept else (kept.filter fun k => !fits h c k) ++ [c]

theorem keep_eq_ok (ho : h.Ordinary) (hk : ∀ k ∈ kept, WellFormed h k) (hc : WellFormed h c) :
    (keep h kept c).result = .ok (addMember h kept c) := by
  rw [keep, Traced.result_bind, covered_eq_ok ho hc hk, addMember]
  cases kept.any fun k => fits h k c with
  | true => rfl
  | false =>
    refine (Traced.result_bind _ _).trans ?_
    rw [uncovered_eq_ok ho hc hk]
    rfl

theorem wellFormed_of_mem_addMember (hk : ∀ k ∈ kept, WellFormed h k) (hc : WellFormed h c) :
    ∀ k ∈ addMember h kept c, WellFormed h k := by
  intro k hmem
  rw [addMember] at hmem
  split at hmem
  · exact hk k hmem
  · rcases List.mem_append.mp hmem with hmem | hmem
    · exact hk k (List.mem_filter.mp hmem).1
    · rw [List.mem_singleton.mp hmem]
      exact hc

theorem reduce_eq_foldl (ho : h.Ordinary) (hk : ∀ k ∈ kept, WellFormed h k)
    (hcs : ∀ c ∈ cs, WellFormed h c) :
    (reduce h kept cs).result = .ok (cs.foldl (addMember h) kept) := by
  induction cs generalizing kept with
  | nil => rfl
  | cons c cs ih =>
    have hc := hcs c List.mem_cons_self
    rw [reduce_cons, keep_eq_ok ho hk hc, List.foldl_cons]
    exact ih (wellFormed_of_mem_addMember hk hc) fun d hd => hcs d (List.mem_cons_of_mem _ hd)

theorem reduce_eq_ok (ho : h.Ordinary) (hk : ∀ k ∈ kept, Concrete h k)
    (hcs : ∀ c ∈ cs, Concrete h c) :
    (reduce h kept cs).result = .ok (cs.foldl (addMember h) kept) :=
  reduce_eq_foldl ho (fun k hmem => (hk k hmem).wellFormed) fun c hc => (hcs c hc).wellFormed

/-! ## nothing is lost -/

def Covered (h : Hierarchy) (kept : List Ty) (c : Ty) : Prop := ∃ k ∈ kept, fits h k c = true

theorem Covered.step (hl : h.Lawful) (hk : ∀ k ∈ kept, WellFormed h k) (hc : WellFormed h c)
    (hd : WellFormed h d) (hcov : Covered h kept d) : Covered h (addMember h kept c) d := by
  obtain ⟨k, hmem, hkd⟩ := hcov
  rw [addMember]
  split
  · exact ⟨k, hmem, hkd⟩
  · by_cases hck : fits h c k = true
    · -- `k` gives way to `c`, and `c` accepts what `k` accepted
      exact ⟨c, by simp, fits_trans hl hc (hk k hmem) hd hck hkd⟩
    · exact ⟨k, List.mem_append_left _ (List.mem_filter.mpr ⟨hmem, by simp [hck]⟩), hkd⟩

/-- `c` is kept, or some kept member accepts it; a member with a generic parameter does not accept
itself, so the one does not follow from the other -/
def Held (h : Hierarchy) (kept : List Ty) (c : Ty) : Prop := c ∈ kept ∨ Covered h kept c

theorem held_addMember_self : Held h (addMember h kept c) c := by
  rw [addMember]
  split
  · rename_i hany
    exact .inr (List.any_eq_true.mp hany)
  · exact .inl (by simp)

theorem Held.step (hl : h.Lawful) (hk : ∀ k ∈ kept, WellFormed h k) (hc : WellFormed h c)
    (hd : WellFormed h d) (hheld : Held h kept d) : Held h (addMember h kept c) d := by
  rcases hheld with hmem | hcov
  · rw [addMember]
    split
    · exact .inl hmem
    · by_cases hcd : fits h c d = true
      · exact .inr ⟨c, by simp, hcd⟩
      · exact .inl (List.mem_append_left _ (List.mem_filter.mpr ⟨hmem, by simp [hcd]⟩))
  · exact .inr (hcov.step hl hk hc hd)

theorem reduce_holds (hl : h.Lawful) (hk : ∀ k ∈ kept, WellFormed h k)
    (hcs : ∀ c ∈ cs, WellFormed h c) (hd : WellFormed h d) (hheld : Held h kept d ∨ d ∈ cs) :
    Held h (cs.foldl (addMember h) kept) d := by
  induction cs generalizing kept with
  | nil => exact hheld.resolve_right List.not_mem_nil
  | cons c cs ih =>
    have hc := hcs c List.mem_cons_self
    refine ih (wellFormed_of_mem_addMember hk hc) (fun e he => hcs e (List.mem_cons_of_mem _ he)) ?_
    rcases hheld with hheld | hmem
    · exact Or.inl (hheld.step hl hk hc hd)
    · rcases List.mem_cons.mp hmem with rfl | hmem
      · exact Or.inl held_addMember_self
      · exact Or.inr hmem

theorem reduce_covers (hl : h.Lawful) (hk : ∀ k ∈ kept, Concrete h k)
    (hcs : ∀ c ∈ cs, Concrete h c) (hd : Concrete h d) (hcov : Covered h kept d ∨ d ∈ cs) :
    Covered h (cs.foldl (addMember h) kept) d := by
  rcases reduce_holds hl (fun k hmem => (hk k hmem).wellFormed) (fun c hc => (hcs c hc).wellFormed)
    hd.wellFormed (hcov.imp_left .inr) with hmem | hcov
  · exact ⟨d, hmem, (fits_self_iff hd.wellFormed).mpr hd.noGeneric⟩
  · exact hcov

end Union

open TypeHint.Union

section

variable {h : Hierarchy} {ts out : List Ty} {m t : Ty} {v : Value}

theorem concrete_of_mem_candidates (hts : ∀ t ∈ ts, Concrete h t) :
    ∀ c ∈ candidates ts, Concrete h c := by
  intro c hc
  obtain ⟨t, ht, hm⟩ := exists_of_mem_candidates hc
  exact (hts t ht).of_mem_members hm

/-- every member is a candidate: what shares kind and name with it is the member itself -/
theorem mem_candidates (ho : h.Ordinary) (hts : ∀ t ∈ ts, Concrete h t) (ht : t ∈ ts)
    (hm : m ∈ t.members) : m ∈ candidates ts := by
  obtain ⟨c, hc, -, hname⟩ := exists_mem_candidates ht hm
  rw [← (name_eq_iff ho (concrete_of_mem_candidates hts c hc) ((hts t ht).of_mem_members hm)).mp
    hname]
  exact hc

theorem accepts_ofMembers_iff :
    accepts h (ofMembers out) v = true ↔ ∃ k ∈ out, accepts h k v = true := by
  match out with
  | [] => exact accepts_union_iff
  | [t] =>
    constructor
    · exact fun hv => ⟨t, List.mem_cons_self, hv⟩
    · rintro ⟨k, hk, hv⟩
      rw [← List.mem_singleton.mp hk]
      exact hv
  | _ :: _ :: _ => exact accepts_union_iff

end

/-- **A canonical union has the values of its parts.**  In a checked table with plain names, types
without generic parameters can always be united, and a value belongs to their union exactly if it
belongs to one of them. -/
theorem accepts_unite_iff (t : Table) (hcheck : t.check = .ok ()) (hplain : t.Plain)
    (ts : List Ty) (hne : ts ≠ []) (hts : ∀ a ∈ ts, Built t.hierarchy a)
    (hg : ∀ a ∈ ts, a.hasGeneric = false) :
    ∃ u, (Ty.unite t.hierarchy ts).result = .ok u ∧
      ∀ v, accepts t.hierarchy u v = true ↔ ∃ a ∈ ts, accepts t.hierarchy a v = true := by
  have ho := Table.ordinary hcheck hplain
  have hconc : ∀ a ∈ ts, Concrete t.hierarchy a := fun a ha => ⟨(hts a ha).wellFormed, hg a ha⟩
  have hcand := concrete_of_mem_candidates hconc
  have hnil : ∀ k ∈ ([] : List Ty), Concrete t.hierarchy k := fun k hk => (by cases hk)
  have hred := reduce_eq_ok ho hnil hcand
  refine ⟨_, (unite_eq_ok_iff hne).mpr ⟨_, hred, rfl⟩, fun v => ?_⟩
  rw [accepts_ofMembers_iff]
  constructor
  · rintro ⟨k, hk, hv⟩
    have hkc := (reduce_kept (.nil _) hred).sublist.subset hk
    obtain ⟨a, ha, hka⟩ := exists_of_mem_candidates hkc
    exact ⟨a, ha, accepts_iff_members.mpr ⟨k, hka, hv⟩⟩
  · rintro ⟨a, ha, hv⟩
    obtain ⟨m, hm, hmv⟩ := accepts_iff_members.mp hv
    have hmc := mem_candidates ho hconc ha hm
    obtain ⟨k, hk, hkm⟩ := reduce_covers ho.lawful hnil hcand (hcand m hmc) (Or.inr hmc)
    exact ⟨k, hk, accepts_of_fits ho.lawful k m v hkm hmv⟩

/-- `Base` gives way to `Handler`, `Leaf` is dropped, and `Handler` gives way to `object`, which is
left alone -/
theorem accepts_unite_iff_of_evictions :
    (Ty.unite Table.handlers.hierarchy
        [.cls "Leaf", .primitive .object, .cls "Base", .iface "Handler"]).result =
      .ok (.primitive .object) ∧
    ∀ v, accepts Table.handlers.hierarchy (.primitive .object) v = true ↔
      ∃ a ∈ [Ty.cls "Leaf", .primitive .object, .cls "Base", .iface "Handler"],
        accepts Table.handlers.hierarchy a v = true := by
  have hts : ∀ a ∈ [Ty.cls "Leaf", .primitive .object, .cls "Base", .iface "Handler"],
      Built Table.handlers.hierarchy a := by
    simp only [List.forall_mem_cons]
    refine ⟨.classOfText (show (Ty.classOfText _ "Leaf").result = _ by decide +kernel),
      .ofText (show (Ty.ofText _ none "object").result = _ by decide +kernel),
      .classOfText (show (Ty.classOfText _ "Base").result = _ by decide +kernel),
      .interfaceOfText (show (Ty.interfaceOfText _ "Handler").result = _ by decide +kernel), ?_⟩
    exact fun a ha => (by cases ha)
  have hunite : (Ty.unite Table.handlers.hierarchy
      [.cls "Leaf", .primitive .object, .cls "Base", .iface "Handler"]).result =
        .ok (.primitive .object) := by decide +kernel
  obtain ⟨u, hu, hval⟩ := accepts_unite_iff Table.handlers (by decide) (by decide)
    [.cls "Leaf", .primitive .object, .cls "Base", .iface "Handler"] (List.cons_ne_nil _ _) hts
    (by decide)
  rw [hunite] at hu
  cases hu
  exact ⟨hunite, hval⟩

end TypeHint
