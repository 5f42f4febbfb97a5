import TypeHint.Proofs.MemberTypes
import TypeHint.Proofs.Validity

/-!
# What a table shows of its symbols

A question to a table looks symbols up by their names.  Of a symbol it sees the outline, which is the
declaration without its imports, and how relative names resolve there; together they are the face of
the symbol.  Tables that show the same faces cannot be told apart, in whatever order they hold their
symbols and in whatever order a symbol holds its imports.

* `Symbol.Alike`              equal but for the order of the imports
* `Table.SameOutlines`        the same outline under every name: one order of names, one check
* `Table.SameFaces`           the same face under every name: the same members
* `Session.Alike.transcript`  no run of questions and registrations tells two sessions apart
-/

namespace TypeHint

open Text

/-! ## symbols -/

def Class.outline (c : Class) : Class := { c with imports := [] }

def Interface.outline (i : Interface) : Interface := { i with imports := [] }

namespace Symbol

def outline : Symbol → Symbol
  | ofClass c => ofClass c.outline
  | ofInterface i => ofInterface i.outline

structure Alike (s u : Symbol) : Prop where
  outline : s.outline = u.outline
  imports : s.imports.Perm u.imports

/-- no two aliases differ only in case -/
def DistinctAliases (s : Symbol) : Prop := (s.imports.map (foldCase ·.1)).Nodup

/-- what is seen of a symbol: its outline, and how names resolve in it -/
def face (s : Symbol) : Symbol × Resolver := (s.outline, s.resolver)

variable {s u : Symbol}

@[simp] theorem outline_outline (s : Symbol) : s.outline.outline = s.outline := by cases s <;> rfl

@[simp] theorem name_outline (s : Symbol) : s.outline.name = s.name := by cases s <;> rfl

@[simp] theorem supertypes_outline (s : Symbol) : s.outline.supertypes = s.supertypes := by
  cases s <;> rfl

@[simp] theorem methods_outline (s : Symbol) : s.outline.methods = s.methods := by cases s <;> rfl

@[simp] theorem properties_outline (s : Symbol) : s.outline.properties = s.properties := by
  cases s <;> rfl

theorem class?_outline (s : Symbol) : s.outline.class? = s.class?.map Class.outline := by
  cases s <;> rfl

theorem interface?_outline (s : Symbol) :
    s.outline.interface? = s.interface?.map Interface.outline := by
  cases s <;> rfl

theorem name_eq_of_outline (h : s.outline = u.outline) : s.name = u.name := by
  rw [← name_outline, h, name_outline]

theorem name_eq_of_face (h : s.face = u.face) : s.name = u.name :=
  name_eq_of_outline (congrArg Prod.fst h)

theorem DistinctAliases.nodup_aliases (hd : s.DistinctAliases) : (s.aliases.map Prod.fst).Nodup := by
  unfold aliases
  rw [List.map_map]
  exact hd

theorem Alike.resolver (h : s.Alike u) (hd : s.DistinctAliases) : s.resolver = u.resolver := by
  have hname : s.name = u.name := name_eq_of_outline h.outline
  have hlookup : ∀ k, s.aliases.lookup k = u.aliases.lookup k :=
    lookup_perm hd.nodup_aliases (h.imports.map _)
  funext short
  simp only [Symbol.resolver, expand, hlookup, hname, h.imports.length_eq]

theorem Alike.face (h : s.Alike u) (hd : s.DistinctAliases) : s.face = u.face :=
  Prod.ext h.outline (h.resolver hd)

end Symbol

def Member.face {α : Type} (m : Member α) : (Symbol × Resolver) × α := (m.owner.face, m.decl)

namespace Table

variable {t u : Table} {n : String}

/-! ## tables with the same outlines -/

def SameOutlines (t u : Table) : Prop :=
  ∀ n, (t.find? n).map Symbol.outline = (u.find? n).map Symbol.outline

theorem findClass?_outline (t : Table) (n : String) : (t.findClass? n).map Class.outline =
    ((t.find? n).map Symbol.outline).bind Symbol.class? := by
  unfold findClass?
  cases t.find? n with
  | none => rfl
  | some s => exact (Symbol.class?_outline s).symm

theorem findInterface?_outline (t : Table) (n : String) :
    ((t.find? n).bind Symbol.interface?).map Interface.outline =
      ((t.find? n).map Symbol.outline).bind Symbol.interface? := by
  cases t.find? n with
  | none => rfl
  | some s => exact (Symbol.interface?_outline s).symm

theorem parents_outline (t : Table) (n : String) :
    t.parents n = ((t.find? n).map Symbol.outline).elim [] Symbol.supertypes := by
  unfold parents
  cases t.find? n with
  | none => rfl
  | some s => exact (Symbol.supertypes_outline s).symm

theorem getClass_eq (t : Table) (n : String) :
    t.getClass n = (t.findClass? n).elim (.error (.notRegistered n)) .ok := by
  unfold getClass
  cases t.findClass? n <;> rfl

theorem finds_congr (hparents : t.parents = u.parents) (target : String)
    (seen queue : List String) : t.finds target seen queue = u.finds target seen queue := by
  fun_induction finds t target seen queue with
  | case1 => rw [finds]
  | case2 => rw [finds, if_pos rfl]
  | case3 seen next queue hne hold ih => rw [finds, if_neg hne, if_pos hold, ih]
  | case4 seen next queue hne hnew ih => rw [finds, if_neg hne, if_neg hnew, ih, hparents]

theorem collect_congr (hparents : t.parents = u.parents) (name : String)
    (seen queue : List String) : t.collect name seen queue = u.collect name seen queue := by
  fun_induction collect t name seen queue with
  | case1 => rw [collect]
  | case2 seen next queue hold ih => rw [collect, if_pos hold, ih]
  | case3 seen next queue hnew ih => rw [collect, if_neg hnew, ih, hparents]

namespace SameOutlines

variable (ho : t.SameOutlines u)
include ho

theorem findClass? (n : String) :
    (t.findClass? n).map Class.outline = (u.findClass? n).map Class.outline := by
  rw [findClass?_outline, ho n, ← findClass?_outline]

theorem isSome_find? (n : String) : (t.find? n).isSome = (u.find? n).isSome := by
  rw [← Option.isSome_map, ho n, Option.isSome_map]

theorem mem_names (n : String) : n ∈ t.names ↔ n ∈ u.names := by
  rw [← find?_isSome_iff, ← find?_isSome_iff, ho.isSome_find?]

theorem isClass : t.isClass = u.isClass := by
  funext n
  unfold Table.isClass
  rw [← Option.isSome_map, ho.findClass?, Option.isSome_map]

theorem isInterface : t.isInterface = u.isInterface := by
  funext n
  unfold Table.isInterface
  rw [← Option.isSome_map, findInterface?_outline, ho n, ← findInterface?_outline,
    Option.isSome_map]

theorem parents : t.parents = u.parents := by
  funext n
  rw [parents_outline, ho n, ← parents_outline]

theorem hasAncestor : t.hasAncestor = u.hasAncestor := by
  funext a b
  unfold Table.hasAncestor
  rw [finds_congr ho.parents, ho.parents]

theorem properAncestors : t.properAncestors = u.properAncestors := by
  funext n
  unfold Table.properAncestors
  rw [collect_congr ho.parents, ho.parents]

theorem isBelow : t.isBelow = u.isBelow := by
  funext a b
  unfold Table.isBelow
  rw [ho.hasAncestor]

theorem implements : t.implements = u.implements := by
  funext c i
  unfold Table.implements
  rw [ho.isClass, ho.isInterface, ho.isBelow]

theorem getClass (n : String) :
    (t.getClass n).map Class.outline = (u.getClass n).map Class.outline := by
  rw [getClass_eq, getClass_eq]
  exact found_congr (ho.findClass? n)

theorem isAbstract : t.isAbstract = u.isAbstract := by
  funext n
  have h := congrArg (Option.any Class.isAbstract) (ho.findClass? n)
  rwa [Option.any_map, Option.any_map] at h

theorem parent (n : String) : t.parent n = u.parent n := by
  refine bind_congr_of_map id (ho.getClass n) fun {c d} h => ?_
  have hparent : c.outline.parent = d.outline.parent := congrArg Class.parent h
  exact congrArg Except.ok hparent

theorem interfacesOf (n : String) : t.interfacesOf n = u.interfacesOf n := by
  unfold Table.interfacesOf
  rw [ho.properAncestors, ho.isInterface]
  exact bind_congr_of_map id (ho.getClass n) fun _ => rfl

theorem searchOrder (n : String) : t.searchOrder n = u.searchOrder n := by
  unfold Table.searchOrder
  rw [ho.isSome_find?, ho.properAncestors]

end SameOutlines

def outline (t : Table) : Table where
  symbols := t.symbols.map Symbol.outline
  nodup := by
    rw [List.map_map, show Symbol.name ∘ Symbol.outline = Symbol.name from
      funext Symbol.name_outline]
    exact t.nodup

theorem find?_outline (t : Table) (n : String) :
    t.outline.find? n = (t.find? n).map Symbol.outline := by
  unfold find? outline
  rw [List.find?_map]
  congr 2
  funext s
  exact congrArg (· == n) s.name_outline

theorem sameOutlines_outline (t : Table) : t.outline.SameOutlines t := by
  intro n
  rw [find?_outline]
  cases t.find? n <;> simp

theorem mem_outline {s : Symbol} :
    s ∈ t.outline.symbols ↔ ∃ n, (t.find? n).map Symbol.outline = some s := by
  constructor
  · intro hs
    obtain ⟨x, hx, rfl⟩ := List.mem_map.mp hs
    exact ⟨x.name, by rw [find?_eq_some_iff.mpr ⟨hx, rfl⟩]; rfl⟩
  · rintro ⟨n, hn⟩
    obtain ⟨x, hx, rfl⟩ := Option.map_eq_some_iff.mp hn
    exact List.mem_map_of_mem (find?_eq_some_iff.mp hx).1

section

variable {α β : Type} {lt : α → α → Bool} {lt' : β → β → Bool} {f : α → β}
  (hf : ∀ x y, lt' (f x) (f y) = lt x y)
include hf

theorem insertBy_map (x : α) (xs : List α) :
    insertBy lt' (f x) (xs.map f) = (insertBy lt x xs).map f := by
  induction xs with
  | nil => rfl
  | cons y ys ih =>
    simp only [List.map_cons, insertBy, hf]
    split
    · rw [List.map_cons, ih]
    · rfl

theorem sortBy_map (xs : List α) : sortBy lt' (xs.map f) = (sortBy lt xs).map f := by
  induction xs with
  | nil => rfl
  | cons x xs ih =>
    show insertBy lt' (f x) (sortBy lt' (xs.map f)) = _
    rw [ih, insertBy_map hf]
    rfl

end

theorem classes_outline (t : Table) : t.outline.classes = t.classes.map Class.outline := by
  simp only [classes, outline, List.filterMap_map, List.map_filterMap]
  congr 1
  funext s
  exact s.class?_outline

theorem interfaces_outline (t : Table) :
    t.outline.interfaces = t.interfaces.map Interface.outline := by
  simp only [interfaces, outline, List.filterMap_map, List.map_filterMap]
  congr 1
  funext s
  exact s.interface?_outline

theorem names_outline (t : Table) : t.outline.names = t.names := by
  simp only [names, outline, List.map_map]
  congr 1
  funext s
  exact s.name_outline

theorem faults_outline (t : Table) : t.outline.faults = t.faults := by
  have ho := t.sameOutlines_outline
  have hclass : ∀ c : Class, t.outline.classFaults c.outline = t.classFaults c := by
    intro c
    unfold classFaults
    rw [ho.isClass, ho.isInterface]
    rfl
  have hiface : ∀ i : Interface, t.outline.interfaceFaults i.outline = t.interfaceFaults i := by
    intro i
    unfold interfaceFaults
    rw [ho.isInterface]
    rfl
  have hsort : sortBy (byName Class.name) (t.classes.map Class.outline) =
      (sortBy (byName Class.name) t.classes).map Class.outline :=
    sortBy_map (fun _ _ => rfl) _
  have hsort' : sortBy (byName Interface.name) (t.interfaces.map Interface.outline) =
      (sortBy (byName Interface.name) t.interfaces).map Interface.outline :=
    sortBy_map (fun _ _ => rfl) _
  simp only [faults, classes_outline, interfaces_outline, names_outline, ho.hasAncestor,
    hsort, hsort', List.flatMap_map, hclass, hiface]

theorem check_outline (t : Table) : t.outline.check = t.check := by
  unfold check
  rw [faults_outline]

theorem SameOutlines.check (ho : t.SameOutlines u) : t.check = u.check := by
  rw [← check_outline t, ← check_outline u]
  refine check_congr fun s => ?_
  simp only [mem_outline, ho _]

/-! ## tables with the same faces -/

def SameFaces (t u : Table) : Prop :=
  ∀ n, (t.find? n).map Symbol.face = (u.find? n).map Symbol.face

section

variable {α β κ : Type}

theorem freshBy_map [DecidableEq κ] (key : β → κ) (f : α → β) (seen : List κ) (xs : List α) :
    freshBy key seen (xs.map f) = (freshBy (key ∘ f) seen xs).map f := by
  induction xs generalizing seen with
  | nil => rfl
  | cons x xs ih =>
    simp only [List.map_cons, freshBy, Function.comp_apply]
    split
    · exact ih seen
    · rw [List.map_cons, ih]

theorem declared_face (found : Option Symbol) {declared : Symbol → List α}
    (hd : ∀ s, declared s.outline = declared s) :
    (found.elim [] fun s => (declared s).map (Member.mk s)).map Member.face =
      (found.map Symbol.face).elim [] fun f => (declared f.1).map (f, ·) := by
  cases found with
  | none => rfl
  | some s =>
    show ((declared s).map (Member.mk s)).map Member.face = (declared s.outline).map (s.face, ·)
    rw [hd, List.map_map]
    rfl

theorem context_eq (t : Table) (n : String) : t.context n =
    (t.find? (Name.strip n)).elim (.error (.notRegistered (Name.strip n))) .ok := by
  unfold context
  cases t.find? (Name.strip n) <;> rfl

theorem method_eq (t : Table) (n name : String) : t.method n name =
    (t.searchOrder n).bind fun ns => ((ns.flatMap t.declaredMethods).find?
      (foldCase ·.decl.name == foldCase name)).elim (.error (.noMember n name)) .ok := by
  unfold method
  refine congrArg (Except.bind _) (funext fun ns => ?_)
  dsimp only
  cases List.find? _ (ns.flatMap t.declaredMethods) <;> rfl

theorem property_eq (t : Table) (n name : String) : t.property n name =
    (t.properties n).bind fun ps => (ps.find? (·.decl.bareName == stripLeading sigil name)).elim
      (.error (.noMember n (String.singleton sigil ++ stripLeading sigil name))) .ok := by
  unfold property
  refine congrArg (Except.bind _) (funext fun ps => ?_)
  cases List.find? _ ps <;> rfl

end

namespace SameFaces

variable (hf : t.SameFaces u)
include hf

theorem outlines : t.SameOutlines u := by
  intro n
  have h := congrArg (Option.map Prod.fst) (hf n)
  rwa [Option.map_map, Option.map_map] at h

theorem declaredMethods (ns : List String) :
    (ns.flatMap t.declaredMethods).map Member.face =
      (ns.flatMap u.declaredMethods).map Member.face := by
  simp only [List.map_flatMap, Table.declaredMethods, declared_face _ Symbol.methods_outline, hf _]

theorem declaredProperties (ns : List String) :
    (ns.flatMap t.declaredProperties).map Member.face =
      (ns.flatMap u.declaredProperties).map Member.face := by
  simp only [List.map_flatMap, Table.declaredProperties,
    declared_face _ Symbol.properties_outline, hf _]

theorem resolver (n : String) :
    (t.context n).map Symbol.resolver = (u.context n).map Symbol.resolver := by
  have h := congrArg (Option.map Prod.snd) (hf (Name.strip n))
  rw [Option.map_map, Option.map_map] at h
  rw [context_eq, context_eq]
  exact found_congr h

theorem methods (n : String) :
    (t.methods n).map (List.map Member.face) = (u.methods n).map (List.map Member.face) := by
  unfold Table.methods
  rw [hf.outlines.searchOrder]
  cases u.searchOrder n with
  | error e => rfl
  | ok ns =>
    have h := congrArg (freshBy (fun f => foldCase f.2.name) []) (hf.declaredMethods ns)
    rw [freshBy_map, freshBy_map] at h
    exact congrArg Except.ok h

theorem method (n name : String) :
    (t.method n name).map Member.face = (u.method n name).map Member.face := by
  rw [method_eq, method_eq, hf.outlines.searchOrder]
  cases u.searchOrder n with
  | error e => rfl
  | ok ns =>
    have h := congrArg (List.find? fun f => foldCase f.2.name == foldCase name)
      (hf.declaredMethods ns)
    rw [List.find?_map, List.find?_map] at h
    exact found_congr h

theorem properties (n : String) :
    (t.properties n).map (List.map Member.face) = (u.properties n).map (List.map Member.face) := by
  unfold Table.properties
  rw [hf.outlines.searchOrder]
  refine bind_congr_of_map _ (hf.outlines.getClass n) fun _ => ?_
  cases u.searchOrder n with
  | error e => rfl
  | ok ns =>
    have h := congrArg (freshBy (fun f => f.2.bareName) []) (hf.declaredProperties ns)
    rw [freshBy_map, freshBy_map] at h
    exact congrArg Except.ok h

theorem property (n name : String) :
    (t.property n name).map Member.face = (u.property n name).map Member.face := by
  rw [property_eq, property_eq]
  refine bind_congr_of_map _ (hf.properties n) fun h => ?_
  have hfind := congrArg (List.find? fun f => f.2.bareName == stripLeading sigil name) h
  rw [List.find?_map, List.find?_map] at hfind
  exact found_congr hfind

theorem isCallable : t.isCallable = u.isCallable := by
  funext n
  unfold Table.isCallable
  rw [← isOk_map, hf.method, isOk_map]

theorem hierarchy : t.hierarchy = u.hierarchy := by
  have ho := hf.outlines
  simp only [Table.hierarchy, ho.isClass, ho.isInterface, ho.isBelow, ho.implements, hf.isCallable]

end SameFaces

/-- every question to one table is answered by the other alike; a member counts for what is seen of
it -/
structure SameAnswers (t u : Table) : Prop where
  check : t.check = u.check
  hierarchy : t.hierarchy = u.hierarchy
  resolver : ∀ n, (t.context n).map Symbol.resolver = (u.context n).map Symbol.resolver
  isAbstract : ∀ n, t.isAbstract n = u.isAbstract n
  parent : ∀ n, t.parent n = u.parent n
  interfacesOf : ∀ n, t.interfacesOf n = u.interfacesOf n
  methods : ∀ n, (t.methods n).map (List.map Member.face) = (u.methods n).map (List.map Member.face)
  method : ∀ n name, (t.method n name).map Member.face = (u.method n name).map Member.face
  properties : ∀ n,
    (t.properties n).map (List.map Member.face) = (u.properties n).map (List.map Member.face)
  property : ∀ n name, (t.property n name).map Member.face = (u.property n name).map Member.face

theorem SameFaces.answers (hf : t.SameFaces u) : t.SameAnswers u where
  check := hf.outlines.check
  hierarchy := hf.hierarchy
  resolver := hf.resolver
  isAbstract := congrFun hf.outlines.isAbstract
  parent := hf.outlines.parent
  interfacesOf := hf.outlines.interfacesOf
  methods := hf.methods
  method := hf.method
  properties := hf.properties
  property := hf.property

theorem SameFaces.register (hf : t.SameFaces u) (s : Symbol) :
    (∃ e, t.register s = .error e ∧ u.register s = .error e) ∨
      ∃ t' u', t.register s = .ok t' ∧ u.register s = .ok u' ∧ t'.SameFaces u' := by
  unfold Table.register
  dsimp only
  by_cases hs : s.normal.name ∈ t.names
  · rw [dif_pos hs, dif_pos ((hf.outlines.mem_names _).mp hs)]
    exact .inl ⟨_, rfl, rfl⟩
  · rw [dif_neg hs, dif_neg (mt (hf.outlines.mem_names _).mpr hs)]
    refine .inr ⟨_, _, rfl, rfl, fun n => ?_⟩
    unfold Table.find?
    rw [List.find?_append, List.find?_append, Option.map_or, Option.map_or]
    exact congrArg (Option.or · _) (hf n)

end Table

/-! ## sessions -/

namespace Session

variable {α β : Type} {s u : Session} {h : Hierarchy}

/-- the tables show the same faces, and the same types are known -/
structure Alike (s u : Session) : Prop where
  table : s.table.SameFaces u.table
  types : s.types = u.types

theorem Alike.record (hs : s.Alike u) (es es' : List Event) : (s.record es).Alike (u.record es') where
  table := by
    rw [record_table, record_table]
    exact hs.table
  types := by rw [record_types, record_types, hs.types]

/-- a step that answers alike in sessions that are alike, and leaves them alike -/
def Blind (x : SessionM α) : Prop :=
  ∀ ⦃s u : Session⦄, s.Alike u → (x s).1 = (x u).1 ∧ (x s).2.Alike (x u).2

theorem blind_pure (a : α) : Blind (pure a) := fun _ _ hs => ⟨rfl, hs⟩

theorem blind_ofExcept (r : Except SymbolError α) : Blind (ofExcept r) := by
  intro s u hs
  rw [ofExcept_apply, ofExcept_apply]
  exact ⟨rfl, hs⟩

theorem Blind.bind {x : SessionM α} {f : α → SessionM β} (hx : Blind x) (hf : ∀ a, Blind (f a)) :
    Blind (x >>= f) := by
  intro s u hs
  obtain ⟨hanswer, hleft⟩ := hx hs
  rw [bind_apply, bind_apply]
  generalize x s = left at *
  generalize x u = right at *
  obtain ⟨r, s'⟩ := left
  obtain ⟨r', u'⟩ := right
  cases hanswer
  cases r with
  | error e => exact ⟨rfl, hleft⟩
  | ok a => exact hf a hleft

theorem blind_readDoc (key : Documented) (label : String) (text : Option String) :
    Blind (readDoc key label text) := by
  intro s u hs
  obtain ⟨s', _, hs', hgrows, htypes, -⟩ := readDoc_effect key label text s
  obtain ⟨u', _, hu', hgrows', htypes', -⟩ := readDoc_effect key label text u
  rw [hs', hu']
  exact ⟨rfl, ⟨hgrows.table ▸ hgrows'.table ▸ hs.table, by rw [htypes, htypes', hs.types]⟩⟩

theorem blind_slotType (slot : Slot) (owner : Symbol) (text : String) :
    Blind (slotType h slot owner text) := by
  intro s u hs
  rw [slotType_apply, slotType_apply, hs.types]
  cases u.types.lookup slot with
  | some ty => exact ⟨rfl, hs⟩
  | none =>
    dsimp only
    cases (Ty.ofText h (some owner.resolver) text).result with
    | error e => exact ⟨rfl, hs.record _ _⟩
    | ok ty => exact ⟨rfl, ⟨((hs.record _ _).record _ _).table, rfl⟩⟩

/-- a question begins with the look-up of a member, of which the rest sees the face -/
theorem blind_lookup (f : Table → Except SymbolError (Member α)) {k : Member α → SessionM β}
    (hf : ∀ {t u : Table}, t.SameFaces u → (f t).map Member.face = (f u).map Member.face)
    (hface : ∀ (d : α) {o o' : Symbol}, o.face = o'.face → k ⟨o, d⟩ = k ⟨o', d⟩)
    (hk : ∀ m, Blind (k m)) :
    Blind (do
      let m ← Session.ofExcept (f (← get).table)
      k m) := by
  intro s u hs
  have hm := hf hs.table
  rw [lookup_bind_apply, lookup_bind_apply]
  cases es : f s.table <;> cases eu : f u.table <;> rw [es, eu] at hm
  case error.error =>
    cases hm
    exact ⟨rfl, hs⟩
  case ok.ok m m' =>
    obtain ⟨o, d⟩ := m
    obtain ⟨o', d'⟩ := m'
    obtain ⟨ho, rfl⟩ := Prod.mk.inj (Except.ok.inj hm)
    dsimp only
    rw [hface d ho]
    exact hk _ hs
  all_goals cases hm

theorem slotType_face {o o' : Symbol} (ho : o.face = o'.face) (slot : Slot) (text : String) :
    slotType h slot o text = slotType h slot o' text := by
  have hresolver : o.resolver = o'.resolver := congrArg Prod.snd ho
  unfold slotType
  rw [Symbol.name_eq_of_face ho, hresolver]

theorem blind_visit (p : Place) : Blind (p.visit h) := by
  unfold Place.visit
  refine (blind_readDoc _ _ _).bind fun _ => ?_
  cases p.text with
  | none => exact blind_pure _
  | some text => exact (blind_slotType _ _ _).bind fun _ => blind_pure _

theorem blind_ask (q : Question) : Blind (q.ask h) := by
  cases q with
  | parameter type method name =>
    refine blind_lookup (·.method type method) (·.method type method) (fun d o o' ho => ?_)
      fun m => ?_
    · simp only [parameterType, Member.parameter, methodDoc, parameterSlot,
        Symbol.name_eq_of_face ho, slotType_face ho]
    · refine .bind ?_ fun _ => blind_pure _
      exact (blind_ofExcept _).bind fun _ => (blind_readDoc _ _ _).bind fun _ =>
        (blind_slotType _ _ _).bind fun _ => blind_pure _
  | parameterAt type method index =>
    refine blind_lookup (·.method type method) (·.method type method) (fun d o o' ho => ?_)
      fun m => ?_
    · simp only [methodDoc, reportParameter, parameterSlot, Symbol.name_eq_of_face ho,
        slotType_face ho]
    · cases m.decl.parameterNames[index]? with
      | none => exact blind_pure _
      | some name =>
        dsimp only
        rw [visit_parameter]
        exact blind_visit _
  | result type method =>
    refine blind_lookup (·.method type method) (·.method type method) (fun d o o' ho => ?_)
      fun m => ?_
    · simp only [methodDoc, reportResult, Symbol.name_eq_of_face ho, slotType_face ho]
    · rw [visit_result]
      exact blind_visit _
  | property type name =>
    refine blind_lookup (·.property type name) (·.property type name) (fun d o o' ho => ?_)
      fun p => ?_
    · simp only [propertyDoc, reportProperty, Symbol.name_eq_of_face ho, slotType_face ho]
    · rw [visit_property]
      exact blind_visit _

/-! ## runs -/

namespace Alike

variable (hs : s.Alike u)
include hs

theorem perform (a : Action) :
    (a.perform s).1 = (a.perform u).1 ∧ (a.perform s).2.Alike (a.perform u).2 := by
  cases a with
  | register symbol =>
    rw [Action.perform_register, Action.perform_register]
    obtain ⟨e, ht, hu⟩ | ⟨t', u', ht, hu, hf⟩ := hs.table.register symbol
    · rw [ht, hu]
      exact ⟨rfl, hs⟩
    · rw [ht, hu]
      exact ⟨rfl, ⟨hf, (hs.record _ _).types⟩⟩
  | check =>
    rw [Action.perform_check, Action.perform_check, hs.table.outlines.check]
    exact ⟨rfl, hs⟩
  | ask system q =>
    rw [Action.perform_ask, Action.perform_ask, hs.table.hierarchy]
    exact blind_ask q hs

/-- whatever is done next, the answers are the same -/
theorem transcript (actions : List Action) :
    (s.transcript actions).map Entry.answer = (u.transcript actions).map Entry.answer := by
  induction actions generalizing s u with
  | nil => rfl
  | cons a actions ih =>
    obtain ⟨hanswer, hleft⟩ := hs.perform a
    exact congrArg₂ List.cons hanswer (ih hleft)

end Alike

end Session

end TypeHint
