import TypeHint.Proofs.Answers
import TypeHint.Proofs.Fits
import TypeHint.Proofs.Order
import TypeHint.Value.Check

/-!
# Canonical unions and the types built from them

Every union is made by `Ty.unite`, so every union has the same form: two or more members that are
not unions themselves, in order, no two with the same kind and name, none of which accepts another.

* `Union.keep_cases`        what one step of the reduction does
* `Union.reduce_kept`       what a whole reduction leaves
* `Union.Canonical h ms`    the form of a member list
* `WellFormed h t`          every union in `t` is canonical, every name in it is registered
* `Built h t`               `t` is the result of some sequence of operations
* `Built.wellFormed`        so every type that can be built is well-formed
-/

namespace TypeHint

namespace Union

variable {h : Hierarchy} {a b c : Ty} {kept out ts : List Ty}

/-! ## order of members -/

theorem before_eq_false_iff :
    before b a = false ↔ rank a < rank b ∨ rank a = rank b ∧ a.name ≤ b.name := by
  have hrank : before b a = false ↔ ¬ rank b < rank a ∧ (rank b = rank a → ¬ b.name < a.name) := by
    simp [before, imp_iff_not_or]
  rw [hrank, String.not_lt]
  constructor
  · rintro ⟨hlt, hname⟩
    by_cases e : rank a = rank b
    · exact Or.inr ⟨e, hname e.symm⟩
    · exact Or.inl (by omega)
  · rintro (hlt | ⟨e, hname⟩)
    · exact ⟨by omega, fun e => absurd hlt (by omega)⟩
    · exact ⟨by omega, fun _ => hname⟩

theorem before_total (a b : Ty) : before b a = false ∨ before a b = false := by
  rw [before_eq_false_iff, before_eq_false_iff]
  rcases Nat.lt_trichotomy (rank a) (rank b) with hr | hr | hr
  · exact Or.inl (Or.inl hr)
  · rcases String.le_total a.name b.name with hn | hn
    · exact Or.inl (Or.inr ⟨hr, hn⟩)
    · exact Or.inr (Or.inr ⟨hr.symm, hn⟩)
  · exact Or.inr (Or.inl hr)

theorem before_trans (a b c : Ty) (hab : before b a = false) (hbc : before c b = false) :
    before c a = false := by
  rw [before_eq_false_iff] at *
  rcases hab with hab | ⟨eab, nab⟩
  · exact Or.inl (by omega)
  · rcases hbc with hbc | ⟨ebc, nbc⟩
    · exact Or.inl (by omega)
    · exact Or.inr ⟨eab.trans ebc, String.le_trans nab nbc⟩

theorem name_eq_of_before (hab : before b a = false) (hba : before a b = false) :
    a.name = b.name := by
  rw [before_eq_false_iff] at *
  rcases hab with hab | ⟨eab, nab⟩
  · rcases hba with hba | ⟨eba, -⟩ <;> omega
  · rcases hba with hba | ⟨-, nba⟩
    · omega
    · exact String.le_antisymm nab nba

/-! ## candidates -/

theorem exists_of_mem_candidates (hc : c ∈ candidates ts) : ∃ t ∈ ts, c ∈ t.members := by
  rw [candidates, mem_sortBy] at hc
  exact List.mem_flatMap.mp ((freshBy_sublist _ _ _).subset hc)

theorem exists_mem_candidates {t m : Ty} (ht : t ∈ ts) (hm : m ∈ t.members) :
    ∃ c ∈ candidates ts, c.kind = m.kind ∧ c.name = m.name := by
  obtain ⟨c, hc, e⟩ : ∃ c ∈ freshBy (fun t => (t.kind, t.name)) [] (ts.flatMap Ty.members),
      (c.kind, c.name) = (m.kind, m.name) :=
    exists_mem_freshBy (List.mem_flatMap.mpr ⟨t, ht, hm⟩) List.not_mem_nil
  exact ⟨c, mem_sortBy.mpr hc, Prod.mk.inj e⟩

theorem candidates_sorted (ts : List Ty) :
    (candidates ts).Pairwise (fun a b => before b a = false) :=
  sortBy_pairwise before_total before_trans _

theorem candidates_distinct (ts : List Ty) :
    (candidates ts).Pairwise (fun a b => (a.kind, a.name) ≠ (b.kind, b.name)) :=
  ((sortBy_perm _ _).pairwise_iff fun hab => hab.symm).mpr (freshBy_pairwise _ _ _)

/-! ## one step of the reduction -/

theorem ask_eq_ok {p : Bool} : (ask h a c).result = .ok p ↔ assignable h a c = .ok p := by
  show (assignable h a c).mapError _ = .ok p ↔ _
  cases assignable h a c with
  | error e => exact ⟨fun h => (by cases h), fun h => (by cases h)⟩
  | ok q =>
    exact ⟨fun e => congrArg _ (Except.ok.inj e), fun e => congrArg _ (Except.ok.inj e)⟩

theorem covered_cons (c a : Ty) (ts : List Ty) : (covered h c (a :: ts)).result =
    (ask h a c).result >>= fun p => if p then .ok true else (covered h c ts).result := by
  rw [covered, Traced.result_bind]
  congr 1
  funext p
  cases p <;> rfl

theorem uncovered_cons (c a : Ty) (ts : List Ty) : (uncovered h c (a :: ts)).result =
    (ask h c a).result >>= fun p => if p then (uncovered h c ts).result
      else (uncovered h c ts).result >>= fun us => .ok (a :: us) := by
  rw [uncovered, Traced.result_bind]
  congr 1
  funext p
  cases p with
  | true => rfl
  | false => exact Traced.result_bind _ _

theorem exists_of_covered (hc : (covered h c ts).result = .ok true) :
    ∃ t ∈ ts, assignable h t c = .ok true := by
  induction ts with
  | nil => cases hc
  | cons t ts ih =>
    rw [covered_cons] at hc
    obtain ⟨p, hp, hc⟩ := bind_eq_ok.mp hc
    cases p with
    | true => exact ⟨t, List.mem_cons_self, ask_eq_ok.mp hp⟩
    | false =>
      obtain ⟨u, hu, huc⟩ := ih hc
      exact ⟨u, List.mem_cons_of_mem _ hu, huc⟩

theorem forall_of_not_covered (hc : (covered h c ts).result = .ok false) :
    ∀ t ∈ ts, assignable h t c = .ok false := by
  induction ts with
  | nil => intro t ht; cases ht
  | cons t ts ih =>
    rw [covered_cons] at hc
    obtain ⟨p, hp, hc⟩ := bind_eq_ok.mp hc
    cases p with
    | true => cases hc
    | false =>
      intro u hu
      rcases List.mem_cons.mp hu with rfl | hu
      · exact ask_eq_ok.mp hp
      · exact ih hc u hu

theorem uncovered_spec {us : List Ty} (hu : (uncovered h c ts).result = .ok us) :
    us.Sublist ts ∧ (∀ t ∈ us, assignable h c t = .ok false) ∧
      ∀ t ∈ ts, t ∈ us ∨ assignable h c t = .ok true := by
  induction ts generalizing us with
  | nil =>
    cases hu
    exact ⟨.slnil, fun t ht => (by cases ht), fun t ht => (by cases ht)⟩
  | cons t ts ih =>
    rw [uncovered_cons] at hu
    obtain ⟨p, hp, hu⟩ := bind_eq_ok.mp hu
    have hp := ask_eq_ok.mp hp
    cases p with
    | true =>
      obtain ⟨hs, hf, hall⟩ := ih hu
      refine ⟨hs.cons t, hf, fun u hu => ?_⟩
      rcases List.mem_cons.mp hu with rfl | hu
      · exact Or.inr hp
      · exact hall u hu
    | false =>
      obtain ⟨vs, hv, e⟩ := bind_eq_ok.mp hu
      cases e
      obtain ⟨hs, hf, hall⟩ := ih hv
      refine ⟨hs.cons_cons t, fun u hu => ?_, fun u hu => ?_⟩
      · rcases List.mem_cons.mp hu with rfl | hu
        · exact hp
        · exact hf u hu
      · rcases List.mem_cons.mp hu with rfl | hu
        · exact Or.inl List.mem_cons_self
        · exact (hall u hu).imp_left (List.mem_cons_of_mem _)

def Apart (h : Hierarchy) (a b : Ty) : Prop :=
  assignable h a b = .ok false ∧ assignable h b a = .ok false

/-- a candidate is dropped because a member accepts it, or it is added and takes the place of the
members that it accepts -/
theorem keep_cases (hk : (keep h kept c).result = .ok out) :
    (out = kept ∧ ∃ k ∈ kept, assignable h k c = .ok true) ∨
      ∃ us, out = us ++ [c] ∧ us.Sublist kept ∧ (∀ u ∈ us, Apart h u c) ∧
        ∀ k ∈ kept, k ∈ us ∨ assignable h c k = .ok true := by
  rw [keep, Traced.result_bind] at hk
  obtain ⟨p, hp, hk⟩ := bind_eq_ok.mp hk
  cases p with
  | true =>
    cases hk
    exact Or.inl ⟨rfl, exists_of_covered hp⟩
  | false =>
    obtain ⟨us, hu, e⟩ := bind_eq_ok.mp ((Traced.result_bind _ _).symm.trans hk)
    cases e
    obtain ⟨hs, hf, hall⟩ := uncovered_spec hu
    have hno := forall_of_not_covered hp
    exact Or.inr ⟨us, rfl, hs, fun u hu => ⟨hno u (hs.subset hu), hf u hu⟩, hall⟩

/-! ## a whole reduction -/

/-- `kept` is what is left of the candidates `seen` -/
structure Kept (h : Hierarchy) (seen kept : List Ty) : Prop where
  sublist : kept.Sublist seen
  apart : kept.Pairwise (Apart h)
  ne_nil : seen ≠ [] → kept ≠ []

theorem Kept.nil (h : Hierarchy) : Kept h [] [] := ⟨.slnil, .nil, id⟩

theorem Kept.keep {seen : List Ty} (H : Kept h seen kept) (hk : (keep h kept c).result = .ok out) :
    Kept h (seen ++ [c]) out := by
  rcases keep_cases hk with ⟨rfl, k, hmem, -⟩ | ⟨us, rfl, hs, hap, -⟩
  · exact ⟨H.sublist.trans (List.sublist_append_left _ _), H.apart,
      fun _ => List.ne_nil_of_mem hmem⟩
  · refine ⟨(hs.trans H.sublist).append (.refl _), ?_, fun _ => by simp⟩
    refine List.pairwise_append.mpr ⟨H.apart.sublist hs, List.pairwise_singleton _ _, ?_⟩
    intro u hu d hd
    rw [List.mem_singleton.mp hd]
    exact hap u hu

theorem reduce_cons (kept : List Ty) (c : Ty) (cs : List Ty) : (reduce h kept (c :: cs)).result =
    (keep h kept c).result >>= fun k => (reduce h k cs).result :=
  Traced.result_bind _ _

theorem reduce_kept {seen cs : List Ty} (H : Kept h seen kept)
    (hr : (reduce h kept cs).result = .ok out) : Kept h (seen ++ cs) out := by
  induction cs generalizing seen kept with
  | nil =>
    cases hr
    rw [List.append_nil]
    exact H
  | cons c cs ih =>
    rw [reduce_cons] at hr
    obtain ⟨k, hk, hr⟩ := bind_eq_ok.mp hr
    rw [List.append_cons]
    exact ih (H.keep hk) hr

structure Canonical (h : Hierarchy) (ms : List Ty) : Prop where
  two_le : 2 ≤ ms.length
  flat : ∀ m ∈ ms, m.kind ≠ .union
  sorted : ms.Pairwise fun a b => before b a = false
  distinct : ms.Pairwise fun a b => (a.kind, a.name) ≠ (b.kind, b.name)
  apart : ms.Pairwise (Apart h)

end Union

open TypeHint.Union

/-! ## well-formed types -/

/-- every union is canonical, and every class and interface is registered as such -/
inductive WellFormed (h : Hierarchy) : Ty → Prop
  | primitive (p : Primitive) : WellFormed h (.primitive p)
  | array {k i : Ty} (hk : WellFormed h k) (hi : WellFormed h i) : WellFormed h (.array k i)
  | cls {n : String} (hn : h.isClass n = true) : WellFormed h (.cls n)
  | iface {n : String} (hn : h.isInterface n = true) : WellFormed h (.iface n)
  | union {ms : List Ty} (hms : ∀ m ∈ ms, WellFormed h m) (hc : Canonical h ms) :
    WellFormed h (.union ms)
  | generic {n : String} {d : Ty} (hd : WellFormed h d) : WellFormed h (.generic n d)

namespace WellFormed

variable {h : Hierarchy} {t m : Ty}

theorem of_mem_members (ht : WellFormed h t) (hm : m ∈ t.members) :
    WellFormed h m ∧ m.kind ≠ .union := by
  cases ht with
  | union hms hc => exact ⟨hms m hm, hc.flat m hm⟩
  | primitive p => rw [List.mem_singleton.mp hm]; exact ⟨.primitive p, nofun⟩
  | array hk hi => rw [List.mem_singleton.mp hm]; exact ⟨.array hk hi, nofun⟩
  | cls hn => rw [List.mem_singleton.mp hm]; exact ⟨.cls hn, nofun⟩
  | iface hn => rw [List.mem_singleton.mp hm]; exact ⟨.iface hn, nofun⟩
  | generic hd => rw [List.mem_singleton.mp hm]; exact ⟨.generic hd, nofun⟩

theorem members_ne_nil (ht : WellFormed h t) : t.members ≠ [] := by
  cases ht with
  | union hms hc => exact List.ne_nil_of_length_pos (Nat.lt_of_lt_of_le Nat.two_pos hc.two_le)
  | primitive | array | cls | iface | generic => exact List.cons_ne_nil _ _

end WellFormed

section

variable {h : Hierarchy} {ts out : List Ty} {t u : Ty}

theorem wellFormed_of_mem_candidates (hts : ∀ t ∈ ts, WellFormed h t) {c : Ty}
    (hc : c ∈ candidates ts) : WellFormed h c ∧ c.kind ≠ .union := by
  obtain ⟨t, ht, hm⟩ := exists_of_mem_candidates hc
  exact (hts t ht).of_mem_members hm

theorem candidates_ne_nil (hts : ∀ t ∈ ts, WellFormed h t) (hne : ts ≠ []) :
    candidates ts ≠ [] := by
  obtain ⟨t, ht⟩ := List.exists_mem_of_ne_nil ts hne
  obtain ⟨m, hm⟩ := List.exists_mem_of_ne_nil _ (hts t ht).members_ne_nil
  obtain ⟨c, hc, -⟩ := exists_mem_candidates ht hm
  exact List.ne_nil_of_mem hc

/-- the type with the members `ms`: itself if there is only one -/
def ofMembers : List Ty → Ty
  | [t] => t
  | ms => .union ms

theorem collapse_result (ms : List Ty) : (collapse ms).result = .ok (ofMembers ms) := by
  match ms with
  | [] => rfl
  | [t] => rfl
  | _ :: _ :: _ => rfl

theorem unite_cons (t : Ty) (ts : List Ty) : (Ty.unite h (t :: ts)).result =
    (reduce h [] (candidates (t :: ts))).result >>= fun out => (collapse out).result :=
  Traced.result_bind _ _

theorem unite_eq_ok_iff (hne : ts ≠ []) : (Ty.unite h ts).result = .ok u ↔
    ∃ out, (reduce h [] (candidates ts)).result = .ok out ∧ ofMembers out = u := by
  cases ts with
  | nil => exact absurd rfl hne
  | cons t ts =>
    rw [unite_cons, bind_eq_ok]
    simp only [collapse_result, Except.ok.injEq]

theorem Union.Kept.canonical (hts : ∀ t ∈ ts, WellFormed h t)
    (hk : Kept h (candidates ts) out) (hlen : 2 ≤ out.length) : Canonical h out where
  two_le := hlen
  flat _ hm := (wellFormed_of_mem_candidates hts (hk.sublist.subset hm)).2
  sorted := (candidates_sorted ts).sublist hk.sublist
  distinct := (candidates_distinct ts).sublist hk.sublist
  apart := hk.apart

theorem unite_wellFormed (hts : ∀ t ∈ ts, WellFormed h t)
    (hu : (Ty.unite h ts).result = .ok u) : WellFormed h u := by
  have hne : ts ≠ [] := by rintro rfl; cases hu
  obtain ⟨out, hr, rfl⟩ := (unite_eq_ok_iff hne).mp hu
  have hk : Kept h (candidates ts) out := reduce_kept (.nil h) hr
  have hwf : ∀ m ∈ out, WellFormed h m := fun m hm =>
    (wellFormed_of_mem_candidates hts (hk.sublist.subset hm)).1
  match out, hk, hwf with
  | [], hk, _ => exact absurd rfl (hk.ne_nil (candidates_ne_nil hts hne))
  | [t], _, hwf => exact hwf t List.mem_cons_self
  | _ :: _ :: _, hk, hwf => exact .union hwf (hk.canonical hts (by simp))

end

/-! ## types that can be built -/

section

variable {h : Hierarchy} {r : Option Resolver} {t u : Ty} {name text : String}

theorem lookUp_wellFormed (ht : lookUp h name = .ok t) : WellFormed h t := by
  unfold lookUp at ht
  split at ht
  · cases ht
    exact .iface ‹_›
  · split at ht
    · cases ht
      exact .cls ‹_›
    · cases ht

theorem namedType_wellFormed (ht : (namedType h r text).result = .ok t) : WellFormed h t := by
  unfold namedType at ht
  simp only [Traced.result_bind, bind_eq_ok, Traced.result_ofExcept] at ht
  obtain ⟨_, _, u, hu, _, _, e⟩ := ht
  cases e
  exact lookUp_wellFormed hu

mutual

theorem meaning_wellFormed : ∀ (hint : Hint) {t : Ty},
    (hint.meaning h r).result = .ok t → WellFormed h t
  | .primitive p, t, ht => by
    cases ht
    exact .primitive p
  | .named text, t, ht => namedType_wellFormed ht
  | .array key item, t, ht => by
    rw [Hint.meaning] at ht
    simp only [Traced.result_bind, bind_eq_ok] at ht
    obtain ⟨k, hk, i, hi, e⟩ := ht
    cases e
    exact .array (meaning_wellFormed key hk) (meaning_wellFormed item hi)
  | .union parts, t, ht => by
    rw [Hint.meaning, Traced.result_bind] at ht
    obtain ⟨ts, hts, hu⟩ := bind_eq_ok.mp ht
    exact unite_wellFormed (meanings_wellFormed parts hts) hu
  | .malformed text flaw, t, ht => by cases ht

theorem meanings_wellFormed : ∀ (hints : List Hint) {ts : List Ty},
    (Hint.meanings h r hints).result = .ok ts → ∀ t ∈ ts, WellFormed h t
  | [], ts, hts => by
    cases hts
    intro t ht
    cases ht
  | hint :: hints, ts, hts => by
    rw [Hint.meanings] at hts
    simp only [Traced.result_bind, bind_eq_ok] at hts
    obtain ⟨t, ht, us, hus, e⟩ := hts
    cases e
    intro u hu
    rcases List.mem_cons.mp hu with rfl | hu
    · exact meaning_wellFormed hint ht
    · exact meanings_wellFormed hints hus u hu

end

theorem ofTextWhere_eq_ok {accepts : Ty → Bool} {refusal : String → HintError}
    (ht : (Ty.ofTextWhere h accepts refusal text).result = .ok t) :
    (Ty.ofText h none text).result = .ok t := by
  rw [Ty.ofTextWhere, Traced.result_bind] at ht
  obtain ⟨u, hu, e⟩ := bind_eq_ok.mp ht
  split at e
  · cases e
    exact hu
  · cases e

theorem classify_wellFormed {v : Value} (ht : classify h v = .ok t) : WellFormed h t := by
  cases v with
  | object c => exact lookUp_wellFormed ht
  | closure =>
    rw [classify] at ht
    split at ht
    · cases ht
      exact .cls ‹_›
    · cases ht
      exact .primitive .callable
  | array entries => cases ht; exact .array (.primitive .mixed) (.primitive .mixed)
  | null => cases ht; exact .primitive .null
  | bool b => cases ht; exact .primitive .boolean
  | int i => cases ht; exact .primitive .integer
  | float x => cases ht; exact .primitive .float
  | text s => cases ht; exact .primitive .string
  | resource id => cases ht; exact .primitive .resource

/-- the types that some sequence of operations over a hierarchy results in -/
inductive Built (h : Hierarchy) : Ty → Prop
  | ofText {resolver : Option Resolver} {text : String} {t : Ty}
    (ht : (Ty.ofText h resolver text).result = .ok t) : Built h t
  | objectOfText {text : String} {t : Ty} (ht : (Ty.objectOfText h text).result = .ok t) :
    Built h t
  | classOfText {text : String} {t : Ty} (ht : (Ty.classOfText h text).result = .ok t) : Built h t
  | interfaceOfText {text : String} {t : Ty} (ht : (Ty.interfaceOfText h text).result = .ok t) :
    Built h t
  | array {key item : Ty} (hk : Built h key) (hi : Built h item) : Built h (.array key item)
  | arrayOf {item : Ty} (hi : Built h item) : Built h (.arrayOf item)
  | generic {name : String} {declaring : Ty} (hd : Built h declaring) :
    Built h (.generic name declaring)
  | unite {ts : List Ty} {t : Ty} (hts : ∀ t ∈ ts, Built h t)
    (ht : (Ty.unite h ts).result = .ok t) : Built h t
  | orNull {t u : Ty} (ht : Built h t) (hu : (Ty.orNull h t).result = .ok u) : Built h u
  | classify {v : Value} {t : Ty} (ht : TypeHint.classify h v = .ok t) : Built h t

theorem Built.wellFormed (hb : Built h t) : WellFormed h t := by
  induction hb with
  | ofText ht => exact meaning_wellFormed _ ht
  | objectOfText ht => exact meaning_wellFormed _ (ofTextWhere_eq_ok ht)
  | classOfText ht => exact meaning_wellFormed _ (ofTextWhere_eq_ok ht)
  | interfaceOfText ht => exact meaning_wellFormed _ (ofTextWhere_eq_ok ht)
  | array _ _ ihk ihi => exact .array ihk ihi
  | arrayOf _ ihi => exact .array (.primitive .mixed) ihi
  | generic _ ihd => exact .generic ihd
  | unite _ ht ih => exact unite_wellFormed ih ht
  | orNull _ hu ih =>
    refine unite_wellFormed (fun t ht => ?_) hu
    rcases List.mem_cons.mp ht with rfl | ht
    · exact ih
    · rw [List.mem_singleton.mp ht]
      exact .primitive .null
  | classify ht => exact classify_wellFormed ht

end

end TypeHint
