import TypeHint.Proofs.DecimalKeys

/-!
# JSON objects become ordered maps

A conversion can fail at one kind of place only: an object with the field `$class` beside other
fields, or with something else than text in it.  Otherwise the value has the shape of the tree, with
one entry per element or field in the same order, and no array in it has a key twice.

* `Json.Within`, `Value.Within`   a tree inside a tree, a value inside a value
* `Json.UniqueNames`              no object inside has a name twice
* `IllFormed fields`              an object that cannot be converted
* `Mirrors j v`                   `v` has the shape of `j`
* `exists_mirrors`                without ill-formed objects the conversion gives such a value
* `ofJson_fails`                  an ill-formed object anywhere makes it fail
* `Mirrors.distinct`              no array inside has a key twice
* `canonical_uniqueNames`         the trees that are converted have unique names
-/

namespace TypeHint

/-- `i` is `j`, or it stands in a part of `j` -/
inductive Json.Within (i : Json) : Json → Prop
  | here : Within i i
  | item {j : Json} {js : List Json} (hj : j ∈ js) (hi : Within i j) : Within i (.array js)
  | field {f : String × Json} {fs : List (String × Json)} (hf : f ∈ fs) (hi : Within i f.2) :
    Within i (.object fs)

inductive Value.Within (u : Value) : Value → Prop
  | here : Within u u
  | entry {e : Key × Value} {es : List (Key × Value)} (he : e ∈ es) (hu : Within u e.2) :
    Within u (.array es)

def Json.UniqueNames (j : Json) : Prop :=
  ∀ fields, (Json.object fields).Within j → (fields.map Prod.fst).Nodup

/-- an object with the field `$class` that is no instance: other fields stand beside it, or it holds
no text -/
def IllFormed (fields : List (String × Json)) : Prop :=
  ∃ c, (Value.classField, c) ∈ fields ∧ (fields.length ≠ 1 ∨ ∀ s, c ≠ .text s)

inductive Mirrors : Json → Value → Prop
  | null : Mirrors .null .null
  | bool (b : Bool) : Mirrors (.bool b) (.bool b)
  | int (i : Int) : Mirrors (.int i) (.int i)
  | float (x : Float) : Mirrors (.float x) (.float x)
  | text (s : String) : Mirrors (.text s) (.text s)
  /-- an array has the keys 0, 1, 2, … -/
  | array {items : List Json} {entries : List (Key × Value)}
    (keys : entries.map Prod.fst = (List.range items.length).map fun i => .int i)
    (values : List.Forall₂ Mirrors items (entries.map Prod.snd)) :
    Mirrors (.array items) (.array entries)
  | ofClass (name : String) :
    Mirrors (.object [(Value.classField, .text name)]) (.object (Name.strip name))
  | object {fields : List (String × Json)} {entries : List (Key × Value)}
    (noClass : Value.classField ∉ fields.map Prod.fst)
    (keys : entries.map Prod.fst = fields.map fun f => Key.ofText f.1)
    (values : List.Forall₂ Mirrors (fields.map Prod.snd) (entries.map Prod.snd)) :
    Mirrors (.object fields) (.array entries)

namespace Value

variable {j c : Json} {js : List Json} {f : String × Json} {fields : List (String × Json)}
  {v : Value}

/-! ## conversion -/

theorem ofJson_array (js : List Json) :
    ofJson (.array js) = (ofItems js).bind fun vs => .ok (.list vs) := by
  rw [ofJson]
  rfl

theorem ofJson_object (hclass : fields.lookup classField = none) :
    ofJson (.object fields) = (ofFields fields).bind fun es => .ok (.array es) := by
  rw [ofJson, hclass]
  rfl

theorem lookup_class_eq_none :
    fields.lookup classField = none ↔ classField ∉ fields.map Prod.fst := by
  rw [List.lookup_eq_none_iff, List.mem_map, not_exists]
  refine forall_congr' fun f => ?_
  rw [not_and, bne_iff_ne, ne_comm]

/-- an object whose first field `$class` holds `c` -/
theorem ofJson_object_class (hclass : fields.lookup classField = some c) :
    (∃ name, fields = [(classField, .text name)]) ∨
      IllFormed fields ∧ ∃ e, ofJson (.object fields) = .error e := by
  have hmem : (classField, c) ∈ fields := by
    obtain ⟨l₁, l₂, rfl, -⟩ := List.lookup_eq_some_iff.mp hclass
    exact List.mem_append_cons_self
  by_cases hlength : fields.length = 1
  case neg =>
    refine .inr ⟨⟨c, hmem, .inl hlength⟩, .mixedClass, ?_⟩
    rw [ofJson, hclass]
    exact if_pos hlength
  case pos =>
    obtain ⟨f, rfl⟩ := List.length_eq_one_iff.mp hlength
    obtain rfl := List.mem_singleton.mp hmem
    cases c with
    | text name => exact .inl ⟨name, rfl⟩
    | _ => exact .inr ⟨⟨_, hmem, .inr fun s => Json.noConfusion⟩, .classNotText, rfl⟩

/-- the entries of a list: the keys 0, 1, 2, … and the items -/
theorem list_eq (vs : List Value) : ∃ entries, Value.list vs = .array entries ∧
    entries.map Prod.fst = (List.range vs.length).map (fun i : Nat => Key.int i) ∧
    entries.map Prod.snd = vs := by
  refine ⟨_, rfl, List.ext_getElem ?_ ?_, List.ext_getElem ?_ ?_⟩ <;> simp

mutual

theorem exists_mirrors (j : Json)
    (hj : ∀ fields, (Json.object fields).Within j → ¬ IllFormed fields) :
    ∃ v, ofJson j = .ok v ∧ Mirrors j v := by
  cases j with
  | null => exact ⟨.null, rfl, .null⟩
  | bool b => exact ⟨.bool b, rfl, .bool b⟩
  | int i => exact ⟨.int i, rfl, .int i⟩
  | float x => exact ⟨.float x, rfl, .float x⟩
  | text s => exact ⟨.text s, rfl, .text s⟩
  | array js =>
    obtain ⟨vs, hvs, hmirror⟩ :=
      exists_mirrors_items js fun j hjs fields hf => hj fields (.item hjs hf)
    obtain ⟨entries, hlist, hkeys, hvalues⟩ := list_eq vs
    refine ⟨.array entries, ?_, .array ?_ ?_⟩
    · rw [ofJson_array, hvs, ← hlist]
      rfl
    · rw [hkeys, hmirror.length_eq]
    · rwa [hvalues]
  | object fields =>
    cases hclass : fields.lookup classField with
    | none =>
      obtain ⟨entries, hes, hkeys, hmirror⟩ :=
        exists_mirrors_fields fields fun f hf inner hi => hj inner (.field hf hi)
      refine ⟨.array entries, ?_, .object ?_ hkeys hmirror⟩
      · rw [ofJson_object hclass, hes]
        rfl
      · exact lookup_class_eq_none.mp hclass
    | some c =>
      obtain ⟨name, rfl⟩ | ⟨hill, -⟩ := ofJson_object_class hclass
      · exact ⟨.ofClass name, rfl, .ofClass name⟩
      · exact absurd hill (hj fields .here)

theorem exists_mirrors_items (js : List Json)
    (hjs : ∀ j ∈ js, ∀ fields, (Json.object fields).Within j → ¬ IllFormed fields) :
    ∃ vs, ofItems js = .ok vs ∧ List.Forall₂ Mirrors js vs := by
  cases js with
  | nil => exact ⟨[], rfl, .nil⟩
  | cons j js =>
    rw [List.forall_mem_cons] at hjs
    obtain ⟨v, hv, hmirror⟩ := exists_mirrors j hjs.1
    obtain ⟨vs, hvs, hmirrors⟩ := exists_mirrors_items js hjs.2
    refine ⟨v :: vs, ?_, .cons hmirror hmirrors⟩
    rw [ofItems, hv, hvs]
    rfl

theorem exists_mirrors_fields (fields : List (String × Json))
    (hfs : ∀ f ∈ fields, ∀ inner, (Json.object inner).Within f.2 → ¬ IllFormed inner) :
    ∃ entries, ofFields fields = .ok entries ∧
      entries.map Prod.fst = fields.map (fun f => Key.ofText f.1) ∧
      List.Forall₂ Mirrors (fields.map Prod.snd) (entries.map Prod.snd) := by
  cases fields with
  | nil => exact ⟨[], rfl, rfl, .nil⟩
  | cons f fields =>
    rw [List.forall_mem_cons] at hfs
    obtain ⟨v, hv, hmirror⟩ := exists_mirrors f.2 hfs.1
    obtain ⟨es, hes, hkeys, hmirrors⟩ := exists_mirrors_fields fields hfs.2
    refine ⟨(.ofText f.1, v) :: es, ?_, ?_, .cons hmirror hmirrors⟩
    · rw [ofFields, hv, hes]
      rfl
    · rw [List.map_cons, List.map_cons, hkeys]

end

theorem ofItems_fails (hj : j ∈ js) (hfails : ∃ e, ofJson j = .error e) :
    ∃ e, ofItems js = .error e := by
  induction js with
  | nil => exact absurd hj List.not_mem_nil
  | cons k js ih =>
    rw [ofItems]
    cases hk : ofJson k with
    | error e => exact ⟨e, rfl⟩
    | ok v =>
      obtain rfl | hj := List.mem_cons.mp hj
      · obtain ⟨e, he⟩ := hfails
        exact absurd (hk.symm.trans he) nofun
      · obtain ⟨e, he⟩ := ih hj
        exact ⟨e, by rw [he]; rfl⟩

/-- fields are converted as the list of what they hold -/
theorem ofFields_eq (fields : List (String × Json)) : ofFields fields =
    (ofItems (fields.map Prod.snd)).map (fields.map fun f => Key.ofText f.1).zip := by
  induction fields with
  | nil => rfl
  | cons f fields ih =>
    rw [ofFields, List.map_cons, List.map_cons, ofItems, ih]
    cases ofJson f.2 with
    | error e => rfl
    | ok v => cases ofItems (fields.map Prod.snd) <;> rfl

theorem ofJson_fails (hin : (Json.object fields).Within j) (hill : IllFormed fields) :
    ∃ e, ofJson j = .error e := by
  induction hin with
  | here =>
    obtain ⟨c, hc, hwrong⟩ := hill
    cases hclass : fields.lookup classField with
    | none => exact absurd (List.mem_map_of_mem hc) (lookup_class_eq_none.mp hclass)
    | some d =>
      obtain ⟨name, rfl⟩ | ⟨-, hfails⟩ := ofJson_object_class hclass
      · obtain rfl : c = .text name := by simpa using hc
        exact absurd hwrong (by simp)
      · exact hfails
  | item hj _ ih =>
    obtain ⟨e, he⟩ := ofItems_fails hj ih
    exact ⟨e, by rw [ofJson_array, he]; rfl⟩
  | @field f outer hf _ ih =>
    cases hclass : outer.lookup classField with
    | none =>
      obtain ⟨e, he⟩ := ofItems_fails (List.mem_map_of_mem hf) ih
      exact ⟨e, by rw [ofJson_object hclass, ofFields_eq, he]; rfl⟩
    | some d =>
      obtain ⟨name, rfl⟩ | ⟨-, hfails⟩ := ofJson_object_class hclass
      -- the name of a class converts, so `f` cannot be that field
      · obtain rfl := List.mem_singleton.mp hf
        obtain ⟨e, he⟩ := ih
        exact absurd he nofun
      · exact hfails

theorem mirrors_of_ofJson_eq_ok (h : ofJson j = .ok v) : Mirrors j v := by
  obtain ⟨w, hw, hmirrors⟩ := exists_mirrors j fun fields hin hill => by
    obtain ⟨e, he⟩ := ofJson_fails hin hill
    exact absurd (h.symm.trans he) nofun
  obtain rfl : w = v := Except.ok.inj (hw.symm.trans h)
  exact hmirrors

end Value

/-! ## keys -/

section

variable {j : Json} {v : Value} {js : List Json} {vs : List Value}

theorem exists_of_mem_right {α β : Type} {R : α → β → Prop} {as : List α} {bs : List β} {b : β}
    (h : List.Forall₂ R as bs) (hb : b ∈ bs) : ∃ a ∈ as, R a b := by
  induction h with
  | nil => exact absurd hb List.not_mem_nil
  | @cons a c as bs hac _ ih =>
    obtain rfl | hb := List.mem_cons.mp hb
    · exact ⟨a, List.mem_cons_self, hac⟩
    · obtain ⟨x, hx, hxb⟩ := ih hb
      exact ⟨x, List.mem_cons_of_mem a hx, hxb⟩

theorem Mirrors.distinct {entries : List (Key × Value)} (hin : (Value.array entries).Within v)
    (h : Mirrors j v) (hj : j.UniqueNames) : (entries.map Prod.fst).Nodup := by
  induction hin generalizing j with
  | here =>
    cases h with
    | array hkeys _ =>
      rw [hkeys]
      refine List.nodup_range.map fun i k hik => ?_
      exact Int.ofNat_inj.mp (Key.int.inj hik)
    | @object fields _ _ hkeys _ =>
      have hnames : fields.map (fun f => Key.ofText f.1) =
          (fields.map Prod.fst).map Key.ofText := by
        rw [List.map_map]
        rfl
      rw [hkeys, hnames]
      exact (hj fields .here).map Key.ofText_injective
  | entry he _ ih =>
    have hvalue : _ ∈ List.map Prod.snd _ := List.mem_map_of_mem he
    cases h with
    | array _ hvalues =>
      obtain ⟨i, hi, hiv⟩ := exists_of_mem_right hvalues hvalue
      exact ih hiv fun fields hin => hj fields (.item hi hin)
    | object _ _ hvalues =>
      obtain ⟨i, hi, hiv⟩ := exists_of_mem_right hvalues hvalue
      obtain ⟨f, hf, rfl⟩ := List.mem_map.mp hi
      exact ih hiv fun fields hin => hj fields (.field hf hin)

end

/-! ## names -/

namespace Json

variable {j : Json} {name : String} {f : String × Json} {js : List Json}
  {fields : List (String × Json)}

theorem uniqueNames_array (hjs : ∀ j ∈ js, j.UniqueNames) : (Json.array js).UniqueNames := by
  intro fields hin
  cases hin with
  | item hj hi => exact hjs _ hj fields hi

theorem uniqueNames_object (hnames : (fields.map Prod.fst).Nodup)
    (hfields : ∀ f ∈ fields, f.2.UniqueNames) : (Json.object fields).UniqueNames := by
  intro inner hin
  cases hin with
  | here => exact hnames
  | field hf hi => exact hfields _ hf inner hi

/-- fields in order of their names, as they are gathered -/
structure Gathered (fields : List (String × Json)) : Prop where
  ascending : fields.Pairwise fun f g => f.1 < g.1
  uniqueNames : ∀ f ∈ fields, f.2.UniqueNames

theorem Gathered.object (h : Gathered fields) : (Json.object fields).UniqueNames := by
  refine uniqueNames_object (List.pairwise_map.mpr ?_) h.uniqueNames
  exact h.ascending.imp fun hlt heq => absurd (heq ▸ hlt) (String.lt_irrefl _)

theorem eq_or_mem_of_mem_setField (hf : f ∈ setField name j fields) :
    f = (name, j) ∨ f ∈ fields := by
  induction fields with
  | nil => exact .inl (List.mem_singleton.mp hf)
  | cons g fields ih =>
    rw [setField] at hf
    split_ifs at hf
    · exact (List.mem_cons.mp hf).imp_right (List.mem_cons_of_mem g)
    · obtain rfl | hf := List.mem_cons.mp hf
      · exact .inr List.mem_cons_self
      · exact (ih hf).imp_right (List.mem_cons_of_mem g)
    · exact List.mem_cons.mp hf

theorem setField_ascending (h : fields.Pairwise fun f g => f.1 < g.1) :
    (setField name j fields).Pairwise fun f g => f.1 < g.1 := by
  induction fields with
  | nil => exact List.pairwise_singleton ..
  | cons g fields ih =>
    rw [List.pairwise_cons] at h
    rw [setField]
    split_ifs with heq hlt
    · rw [← heq]
      exact List.pairwise_cons.mpr h
    · refine List.pairwise_cons.mpr ⟨fun f hf => ?_, ih h.2⟩
      obtain rfl | hf := eq_or_mem_of_mem_setField hf
      · exact hlt
      · exact h.1 f hf
    · have hbefore : name < g.1 := Std.lt_of_le_of_ne (Std.not_lt.mp hlt) (Ne.symm heq)
      refine List.pairwise_cons.mpr ⟨fun f hf => ?_, List.pairwise_cons.mpr h⟩
      obtain rfl | hf := List.mem_cons.mp hf
      · exact hbefore
      · exact String.lt_trans hbefore (h.1 f hf)

theorem Gathered.setField (h : Gathered fields) (hj : j.UniqueNames) :
    Gathered (Json.setField name j fields) := by
  refine ⟨setField_ascending h.ascending, fun f hf => ?_⟩
  obtain rfl | hf := eq_or_mem_of_mem_setField hf
  · exact hj
  · exact h.uniqueNames f hf

mutual

theorem canonical_uniqueNames (j : Json) : j.canonical.UniqueNames := by
  cases j with
  | array js =>
    rw [canonical]
    exact uniqueNames_array (canonicalItems_uniqueNames js)
  | object fields =>
    rw [canonical]
    exact (canonicalFields_gathered fields ⟨.nil, nofun⟩).object
  | _ => exact fun fields hin => nomatch hin

theorem canonicalItems_uniqueNames (js : List Json) : ∀ j ∈ canonicalItems js, j.UniqueNames := by
  cases js with
  | nil => exact nofun
  | cons j js =>
    rw [canonicalItems, List.forall_mem_cons]
    exact ⟨canonical_uniqueNames j, canonicalItems_uniqueNames js⟩

theorem canonicalFields_gathered (fields : List (String × Json)) {ordered : List (String × Json)}
    (h : Gathered ordered) : Gathered (canonicalFields ordered fields) := by
  cases fields with
  | nil => exact h
  | cons f fields =>
    rw [canonicalFields]
    exact canonicalFields_gathered fields (h.setField (canonical_uniqueNames f.2))

end

end Json

/-- **Objects become ordered maps.**  A field name is an integer key if it is the canonical text of
a 64-bit integer, and else the text itself; so different names have different keys.  A tree whose
objects have no name twice, as every tree that is read has, is converted unless some object in it
has the field `$class` beside other fields or with something else than text.  The value then has one
entry per element and field, in the same order, and no array in it has a key twice. -/
theorem ofJson_gives_ordered_maps :
    (∀ s i, Key.ofText s = .int i ↔ IsDecimal s.toList i ∧ InInt64 i) ∧
    (∀ s u, Key.ofText s = .text u ↔ u = s ∧ ∀ i, IsDecimal s.toList i → ¬ InInt64 i) ∧
    Function.Injective Key.ofText ∧
    (∀ j : Json, j.canonical.UniqueNames) ∧
    ∀ j : Json, j.UniqueNames →
      ((∃ e, Value.ofJson j = .error e) ↔
        ∃ fields, (Json.object fields).Within j ∧ IllFormed fields) ∧
      ∀ v, Value.ofJson j = .ok v → Mirrors j v ∧
        ∀ entries, (Value.array entries).Within v → (entries.map Prod.fst).Nodup := by
  refine ⟨fun s i => Key.ofText_eq_int_iff, fun s u => Key.ofText_eq_text_iff,
    Key.ofText_injective, Json.canonical_uniqueNames, fun j hj => ⟨⟨fun hfails => ?_, ?_⟩, ?_⟩⟩
  · by_contra hall
    push Not at hall
    obtain ⟨v, hv, -⟩ := Value.exists_mirrors j hall
    obtain ⟨e, he⟩ := hfails
    exact absurd (hv.symm.trans he) nofun
  · rintro ⟨fields, hin, hill⟩
    exact Value.ofJson_fails hin hill
  · intro v hv
    have hmirrors := Value.mirrors_of_ofJson_eq_ok hv
    exact ⟨hmirrors, fun entries hin => hmirrors.distinct hin hj⟩

/-- names that look like numbers, with a list and an instance between them -/
def numberedFields : List (String × Json) :=
  [("+5", .object [("$class", .text "\\Box")]), ("-9223372036854775808", .null), ("05", .bool true),
    ("5", .array [.null, .object [("-0", .null), ("-1", .null), ("0", .null)]]),
    ("9223372036854775808", .null)]

/-- an instance with a field too many, as the second item of a list -/
def mixedItem : Json := .array [.null, .object [("$class", .text "Box"), ("0", .null)]]

/-- Three of the names are canonical texts of 64-bit integers, and the mixed object makes the list
around it fail.  The names are in order in both trees, so they are their own canonical form. -/
theorem ofJson_gives_ordered_maps_of_numbered :
    Value.ofJson (.object numberedFields) = .ok (.array
      [(.text "+5", .object "Box"), (.int (-9223372036854775808), .null), (.text "05", .bool true),
        (.int 5, .array [(.int 0, .null),
          (.int 1, .array [(.text "-0", .null), (.int (-1), .null), (.int 0, .null)])]),
        (.text "9223372036854775808", .null)]) ∧
    (∀ v, Value.ofJson (.object numberedFields) = .ok v →
      ∀ entries, (Value.array entries).Within v → (entries.map Prod.fst).Nodup) ∧
    ∃ e, Value.ofJson mixedItem = .error e := by
  have hnumbered : (Json.object numberedFields).UniqueNames :=
    Json.canonical_uniqueNames (.object numberedFields)
  have hmixed : mixedItem.UniqueNames := Json.canonical_uniqueNames mixedItem
  refine ⟨rfl, fun v hv => ?_, ?_⟩
  · exact ((ofJson_gives_ordered_maps.2.2.2.2 _ hnumbered).2 v hv).2
  · rw [(ofJson_gives_ordered_maps.2.2.2.2 _ hmixed).1]
    refine ⟨_, .item (List.mem_cons_of_mem _ List.mem_cons_self) .here, ?_⟩
    exact ⟨.text "Box", List.mem_cons_self, .inl (by decide)⟩

end TypeHint
