import TypeHint.Proofs.MemberTypes
import TypeHint.Proofs.Overriding
import TypeHint.Proofs.ValueSoundness

/-!
# A growing table keeps its answers

Registration adds symbols and takes none away, in every run.  A new symbol may fill in a supertype
that was missing in the middle of many chains, close a cycle or declare the call method.  Types that
were built before are not built anew, so that their unions may no longer be canonical.  Still no
answer is taken back: the algebra asks the hierarchy for what holds and never for what does not.

* `Hierarchy.Le h u`         whatever `h` says of names, `u` says too
* `Table.le_of_subset`       a table with more symbols says no less
* `fits_mono`, `accepts_mono`   so a type that fits goes on fitting, and a value that is accepted
                             goes on being accepted
* `growth_keeps_answers`     what this means for the questions of the algebra over a run
-/

namespace TypeHint

/-! ## more symbols -/

/-- whatever `h` says of names, `u` says too -/
structure Hierarchy.Le (h u : Hierarchy) : Prop where
  isBelow : ∀ {a b}, h.isBelow a b = true → u.isBelow a b = true
  implements : ∀ {c i}, h.implements c i = true → u.implements c i = true
  isCallable : ∀ {n}, h.isCallable n = true → u.isCallable n = true

namespace Table

variable {t u : Table} {a b n : String}

section

variable (hsub : t.symbols ⊆ u.symbols)
include hsub

theorem names_mono : t.names ⊆ u.names := List.map_subset _ hsub

theorem isClass_mono (hn : t.isClass n = true) : u.isClass n = true := by
  rw [isClass_iff, List.mem_map] at *
  obtain ⟨c, hc, hname⟩ := hn
  exact ⟨c, mem_classes.mpr (hsub (mem_classes.mp hc)), hname⟩

theorem isInterface_mono (hn : t.isInterface n = true) : u.isInterface n = true := by
  rw [isInterface_iff, List.mem_map] at *
  obtain ⟨i, hi, hname⟩ := hn
  exact ⟨i, mem_interfaces.mpr (hsub (mem_interfaces.mp hi)), hname⟩

theorem step_mono (h : t.Step a b) : u.Step a b := by
  rw [step_iff] at *
  obtain ⟨s, hs, hname, hb⟩ := h
  exact ⟨s, hsub hs, hname, hb⟩

theorem reaches_mono (h : t.Reaches a b) : u.Reaches a b :=
  Relation.TransGen.mono (fun _ _ => step_mono hsub) a b h

theorem isBelow_mono (h : t.isBelow a b = true) : u.isBelow a b = true := by
  rw [isBelow_iff] at *
  exact ⟨h.1, reaches_mono hsub h.2⟩

theorem isCallable_mono (h : t.isCallable n = true) : u.isCallable n = true := by
  rw [isCallable_iff] at *
  obtain ⟨hn, d, hd, m, hm, hname⟩ := h
  obtain ⟨howner, hdecl⟩ := mem_declaredMethods.mp hm
  refine ⟨names_mono hsub hn, d, hd.imp_right (reaches_mono hsub), m, ?_, hname⟩
  exact mem_declaredMethods.mpr ⟨hsub howner, hdecl⟩

theorem le_of_subset : t.hierarchy.Le u.hierarchy where
  isBelow := isBelow_mono hsub
  implements := by
    intro c i h
    obtain ⟨hc, hi, hbelow⟩ := t.lawful.implements_iff.mp h
    exact u.lawful.implements_iff.mpr
      ⟨isClass_mono hsub hc, isInterface_mono hsub hi, isBelow_mono hsub hbelow⟩
  isCallable := isCallable_mono hsub

end

end Table

theorem Session.symbols_subset_run (s : Session) (actions : List Action) :
    s.table.symbols ⊆ (s.run actions).table.symbols := by
  induction actions generalizing s with
  | nil => exact List.Subset.refl _
  | cons a actions ih =>
    exact List.Subset.trans (Entry.symbols_subset ⟨s, a⟩) (ih (a.perform s).2)

/-! ## answers that stay -/

section

variable {h u : Hierarchy} {t c : Ty} {v : Value} {n : String}

theorem Hierarchy.Le.instanceOf (hle : h.Le u) {a b : String} (hab : h.instanceOf a b = true) :
    u.instanceOf a b = true := by
  rw [instanceOf_iff] at *
  exact hab.imp_right hle.isBelow

theorem covers_mono (hle : h.Le u) {p : Primitive} (hp : p.covers h c = true) :
    p.covers u c = true := by
  cases covers_iff.mp hp with
  | same p => exact covers_iff.mpr (.same p)
  | mixed c => exact covers_iff.mpr (.mixed c)
  | object hc => exact covers_iff.mpr (.object hc)
  | callable hc hn => exact covers_iff.mpr (.callable hc (hle.isCallable hn))

/-- both sides of an array are asked for in both directions, so they stay too -/
theorem fits_mono (hle : h.Le u) (t c : Ty) : fits h t c = true → fits u t c = true := by
  fun_induction fits h t c with
  | case1 p c =>
    intro hf
    rw [fits]
    exact covers_mono hle hf
  | case2 k i k' i' ihi ihi' ihk ihk' =>
    intro hf
    simp only [Bool.and_eq_true] at hf
    exact fits_iff.mpr (.array (ihi hf.1.1) (ihi' hf.1.2) (ihk hf.2.1) (ihk' hf.2.2))
  | case3 n m =>
    intro hf
    exact fits_iff.mpr (.cls (hle.instanceOf hf))
  | case4 n m =>
    intro hf
    exact fits_iff.mpr (.iface (hle.instanceOf hf))
  | case5 n m =>
    intro hf
    exact fits_iff.mpr (.implements (hle.implements hf))
  | case6 ts cs ih =>
    intro hf
    have hf : fits h (.union ts) (.union cs) = true := by rw [fits]; exact hf
    refine fits_union_iff.mpr fun c hc => ?_
    obtain ⟨t, ht, htc⟩ := fits_union_iff.mp hf c hc
    exact ⟨t, ht, ih c hc t ht htc⟩
  | case7 ts c hc ih =>
    intro hf
    rw [List.any_map, List.any_eq_true] at hf
    obtain ⟨t, ht, htc⟩ := hf
    rw [fits_union_left u ts hc, List.any_eq_true]
    exact ⟨t, ht, ih t ht htc⟩
  | case8 => intro hf; cases hf

theorem isInstance_mono (hle : h.Le u) (hv : isInstance h n v = true) :
    isInstance u n v = true := by
  cases v with
  | object c | closure => exact hle.instanceOf hv
  | null | bool _ | int _ | float _ | text _ | array _ | resource _ => cases hv

theorem admits_mono (hle : h.Le u) {p : Primitive} (hv : p.admits h v = true) :
    p.admits u v = true := by
  cases v with
  | object c =>
    cases p with
    | callable => exact hle.isCallable hv
    | mixed | object => rfl
    | integer | float | string | boolean | resource | null => cases hv
  | null | bool _ | int _ | float _ | text _ | array _ | resource _ | closure =>
    cases p <;> exact hv

mutual

theorem accepts_mono (hle : h.Le u) : ∀ (t : Ty) {v : Value}, accepts h t v = true →
    accepts u t v = true
  | .primitive _, _, hv => admits_mono hle hv
  | .array k i, _, hv => by
    obtain ⟨entries, rfl, hall⟩ := accepts_array_iff.mp hv
    refine accepts_array_iff.mpr ⟨entries, rfl, fun e he => ?_⟩
    exact ⟨accepts_mono hle i (hall e he).1, accepts_mono hle k (hall e he).2⟩
  | .cls _, _, hv => isInstance_mono hle hv
  | .iface _, _, hv => isInstance_mono hle hv
  | .union ms, _, hv => someAccepts_mono hle ms hv
  | .generic _ _, _, hv => by cases hv

theorem someAccepts_mono (hle : h.Le u) : ∀ (ts : List Ty) {v : Value},
    someAccepts h ts v = true → someAccepts u ts v = true
  | [], _, hv => by cases hv
  | t :: ts, _, hv => by
    rw [someAccepts, Bool.or_eq_true] at *
    exact hv.imp (accepts_mono hle t) (someAccepts_mono hle ts)

end

theorem equal_agrees (h : Hierarchy) (a b : Ty) :
    Verdict.Agrees (equal h a b) (fits h a b && fits h b a) :=
  agrees_settle ((assignable_agrees h a b).both (assignable_agrees h b a))

theorem Verdict.Agrees.ne_false {w : Verdict} (hw : Agrees w true) : w ≠ .ok false :=
  fun e => Bool.false_ne_true (hw false e).symm

end

def Table.unfinished : Table where
  symbols := [.ofClass ⟨"Leaf", some "Base", [], false, [], [], []⟩,
    .ofClass ⟨"Base", some "Root", [], false, [], [], []⟩]
  nodup := by decide

/-- registers the missing class, which closes a cycle, and in vain an interface of a name that is
taken -/
def Action.closeCycle : List Action :=
  [.register (.ofInterface ⟨"\\Base", [], [], []⟩),
    .register (.ofClass ⟨"Root", some "\\Leaf", [], false, [], [⟨"__invoke", [], none⟩], []⟩)]

/-- **No answer is taken back.**  Whatever a table holds, and whatever is registered later, in vain
or not: types that could be assigned, and types that were equal, are not refused afterwards, and with
the comparison of names left out they are accepted; and a value of a type stays one. -/
theorem growth_keeps_answers (s : Session) (actions : List Action) :
    let before := s.table.hierarchy
    let after := (s.run actions).table.hierarchy
    (∀ target candidate, assignable before target candidate = .ok true →
      assignable after target candidate ≠ .ok false ∧ fits after target candidate = true) ∧
    (∀ a b, equal before a b = .ok true →
      equal after a b ≠ .ok false ∧ fits after a b = true ∧ fits after b a = true) ∧
    ∀ target v, accepts before target v = true → accepts after target v = true := by
  intro before after
  have hle : before.Le after := Table.le_of_subset (s.symbols_subset_run actions)
  refine ⟨?_, ?_, fun target v => accepts_mono hle target⟩
  · intro target candidate ha
    have hf := fits_mono hle _ _ (assignable_agrees before target candidate true ha)
    have hagree := assignable_agrees after target candidate
    rw [hf] at hagree
    exact ⟨hagree.ne_false, hf⟩
  · intro a b he
    obtain ⟨hab, hba⟩ := Bool.and_eq_true_iff.mp (equal_agrees before a b true he)
    have hfab := fits_mono hle _ _ hab
    have hfba := fits_mono hle _ _ hba
    have hagree := equal_agrees after a b
    rw [hfab, hfba] at hagree
    exact ⟨hagree.ne_false, hfab, hfba⟩

/-- The missing class closes a cycle, so that the items of the first array come to accept those of
the second and the other way round.  What could be assigned still fits, but the names of the items
differ and the question ends in a contradiction.  An object that was accepted still is. -/
theorem growth_keeps_answers_of_cycle :
    let s := Session.ofTable Table.unfinished
    let after := (s.run Action.closeCycle).table.hierarchy
    let lists := Ty.union [.arrayOf (.cls "Base"), .arrayOf (.cls "Leaf")]
    (Built s.table.hierarchy lists ∧
      assignable s.table.hierarchy lists (.arrayOf (.cls "Leaf")) = .ok true ∧
      fits after lists (.arrayOf (.cls "Leaf")) = true ∧
      assignable after lists (.arrayOf (.cls "Leaf")) = .error ⟨"Base", "Leaf", true, false⟩) ∧
    (equal s.table.hierarchy lists lists = .ok true ∧ equal after lists lists ≠ .ok false) ∧
    accepts s.table.hierarchy (.union [.cls "Base", .null]) (.object "Leaf") = true ∧
    accepts after (.union [.cls "Base", .null]) (.object "Leaf") = true := by
  intro s after lists
  obtain ⟨hassignable, hequal, haccepts⟩ := growth_keeps_answers s Action.closeCycle
  have hbuilt : Built s.table.hierarchy lists :=
    .ofText (show (Ty.ofText _ none "Leaf[]|Base[]").result = _ by decide +kernel)
  have ha : assignable s.table.hierarchy lists (.arrayOf (.cls "Leaf")) = .ok true := by
    decide +kernel
  have he : equal s.table.hierarchy lists lists = .ok true := by decide +kernel
  have hv : accepts s.table.hierarchy (.union [.cls "Base", .null]) (.object "Leaf") = true := by
    decide
  refine ⟨⟨hbuilt, ha, (hassignable _ _ ha).2, by decide +kernel⟩, ⟨he, (hequal _ _ he).1⟩, hv, ?_⟩
  exact haccepts _ _ hv

end TypeHint
