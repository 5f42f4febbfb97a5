import TypeHint.Proofs.LoadedNames
import TypeHint.Proofs.Subtypes

/-!
# Texts that denote no type

A text outside the grammar is never read as a type.  In a checked table with plain names it is
refused: it is malformed, or it names an unknown type.  Members are united on the way, part by part,
and over other hierarchies the comparison of two of them may end in a contradiction before the flaw
of the text is met.

* `Obstacle h e`             what may stop the reading of a text
* `stops_read`               nothing else does, at any level
* `ofText_iff_isUnion`       texts of the grammar are read, all others end at an obstacle
-/

namespace TypeHint

open Hint TypeHint.Union

/-! ## obstacles -/

namespace FailsOnly

theorem result_bind {ε α β : Type} {E : ε → Prop} {x : Traced ε α} {f : α → Traced ε β}
    (hx : FailsOnly E x.result) (hf : ∀ a, x.result = .ok a → FailsOnly E (f a).result) :
    FailsOnly E (x >>= f).result := by
  rw [Traced.result_bind]
  exact hx.bind hf

variable {E : Contradiction → Prop} {v w : Verdict} {vs : List Verdict}

theorem both (hv : FailsOnly E v) (hw : FailsOnly E w) : FailsOnly E (Verdict.both v w) := by
  refine hv.bind fun b _ => ?_
  cases b with
  | false => exact .ok false
  | true => exact hw

theorem any (hvs : ∀ v ∈ vs, FailsOnly E v) : FailsOnly E (Verdict.any vs) := by
  induction vs with
  | nil => exact .ok false
  | cons v vs ih =>
    refine (hvs v List.mem_cons_self).bind fun b _ => ?_
    cases b with
    | false => exact ih fun w hw => hvs w (List.mem_cons_of_mem _ hw)
    | true => exact .ok true

theorem all (hvs : ∀ v ∈ vs, FailsOnly E v) : FailsOnly E (Verdict.all vs) := by
  induction vs with
  | nil => exact .ok true
  | cons v vs ih =>
    refine (hvs v List.mem_cons_self).bind fun b _ => ?_
    cases b with
    | false => exact .ok false
    | true => exact ih fun w hw => hvs w (List.mem_cons_of_mem _ hw)

end FailsOnly

/-- what stops the reading of a text: a flaw, an unknown name, or two types over the hierarchy whose
assignability and whose names do not agree -/
inductive Obstacle (h : Hierarchy) : HintError → Prop
  | malformed (text : String) (flaw : Flaw) : Obstacle h (.malformed text flaw)
  | unknownName (name : String) : Obstacle h (.unknownName name)
  | clash {a b : Ty} {c : Contradiction} : WellFormed h a → WellFormed h b →
      equal h a b = .error c → Obstacle h (.contradiction c)

section

variable {h : Hierarchy} {a b c t : Ty} {kept ts cs : List Ty}

/-- over an ordinary hierarchy no two types clash -/
theorem Obstacle.cases_of_ordinary {e : HintError} (ho : h.Ordinary) (he : Obstacle h e) :
    (∃ text flaw, e = .malformed text flaw) ∨ ∃ name, e = .unknownName name := by
  cases he with
  | malformed text flaw => exact Or.inl ⟨text, flaw, rfl⟩
  | unknownName name => exact Or.inr ⟨name, rfl⟩
  | clash ha hb hab =>
    rw [equal_eq_fits ho ha hb] at hab
    cases hab

theorem failsOnly_assignable (t c : Ty) (ht : WellFormed h t) (hc : WellFormed h c) :
    FailsOnly (fun e => Obstacle h (.contradiction e)) (assignable h t c) := by
  fun_induction assignable h t c with
  | case1 | case3 | case4 | case5 | case8 => exact .ok _
  | case2 k i k' i' =>
    cases ht with | array hk hi =>
    cases hc with | array hk' hi' =>
    exact .both (fun _ he => .clash hi hi' he) (fun _ he => .clash hk hk' he)
  | case6 ts cs ih =>
    refine .all fun v hv => ?_
    obtain ⟨c, hcs, rfl⟩ := List.mem_map.mp hv
    refine .any fun w hw => ?_
    obtain ⟨t, hts, rfl⟩ := List.mem_map.mp hw
    exact ih c hcs t hts (ht.of_mem_members hts).1 (hc.of_mem_members hcs).1
  | case7 ts c hno ih =>
    refine .any fun v hv => ?_
    obtain ⟨t, hts, rfl⟩ := List.mem_map.mp hv
    exact ih t hts (ht.of_mem_members hts).1 hc

/-! ## uniting members -/

theorem failsOnly_ask (ht : WellFormed h t) (hc : WellFormed h c) :
    FailsOnly (Obstacle h) (ask h t c).result :=
  (failsOnly_assignable t c ht hc).mapError

theorem failsOnly_covered (hc : WellFormed h c) (hts : ∀ t ∈ ts, WellFormed h t) :
    FailsOnly (Obstacle h) (covered h c ts).result := by
  induction ts with
  | nil => exact .ok false
  | cons t ts ih =>
    rw [covered_cons]
    refine (failsOnly_ask (hts t List.mem_cons_self) hc).bind fun p _ => ?_
    cases p with
    | false => exact ih fun u hu => hts u (List.mem_cons_of_mem _ hu)
    | true => exact .ok true

theorem failsOnly_uncovered (hc : WellFormed h c) (hts : ∀ t ∈ ts, WellFormed h t) :
    FailsOnly (Obstacle h) (uncovered h c ts).result := by
  induction ts with
  | nil => exact .ok []
  | cons t ts ih =>
    have hrest := ih fun u hu => hts u (List.mem_cons_of_mem _ hu)
    rw [uncovered_cons]
    refine (failsOnly_ask hc (hts t List.mem_cons_self)).bind fun p _ => ?_
    cases p with
    | false => exact hrest.bind fun us _ => .ok (t :: us)
    | true => exact hrest

theorem failsOnly_keep (hkept : ∀ k ∈ kept, WellFormed h k) (hc : WellFormed h c) :
    FailsOnly (Obstacle h) (keep h kept c).result := by
  refine (failsOnly_covered hc hkept).result_bind fun p _ => ?_
  cases p with
  | false => exact (failsOnly_uncovered hc hkept).result_bind fun us _ => .ok (us ++ [c])
  | true => exact .ok kept

theorem failsOnly_reduce (hkept : ∀ k ∈ kept, WellFormed h k) (hcs : ∀ c ∈ cs, WellFormed h c) :
    FailsOnly (Obstacle h) (reduce h kept cs).result := by
  induction cs generalizing kept with
  | nil => exact .ok kept
  | cons c cs ih =>
    have hc := hcs c List.mem_cons_self
    rw [reduce_cons]
    refine (failsOnly_keep hkept hc).bind fun out hout => ih ?_ ?_
    · rcases keep_cases hout with ⟨rfl, -⟩ | ⟨us, rfl, hsub, -⟩
      · exact hkept
      · intro k hk
        rcases List.mem_append.mp hk with hk | hk
        · exact hkept k (hsub.subset hk)
        · exact List.mem_singleton.mp hk ▸ hc
    · exact fun d hd => hcs d (List.mem_cons_of_mem _ hd)

theorem failsOnly_unite (hne : ts ≠ []) (hts : ∀ t ∈ ts, WellFormed h t) :
    FailsOnly (Obstacle h) (Ty.unite h ts).result := by
  cases ts with
  | nil => exact absurd rfl hne
  | cons t ts =>
    rw [unite_cons]
    refine FailsOnly.bind (failsOnly_reduce (fun k hk => by cases hk) fun c hc => ?_) ?_
    · exact (wellFormed_of_mem_candidates hts hc).1
    · intro out _
      rw [collapse_result]
      exact .ok _

end

/-! ## reading a text -/

/-- the reading of the hint is stopped by obstacles only -/
def Stops (h : Hierarchy) (hint : Hint) : Prop :=
  FailsOnly (Obstacle h) (hint.meaning h none).result

section

variable {h : Hierarchy} {read : List Char → Hint} {key item : Hint} {ps : List Hint}

theorem stops_malformed (text : String) (flaw : Flaw) : Stops h (.malformed text flaw) := by
  rw [Stops, meaning]
  exact .error (.malformed text flaw)

theorem stops_primitive (p : Primitive) : Stops h (.primitive p) := by
  rw [Stops, meaning]
  exact .ok _

theorem failsOnly_lookUp (name : String) : FailsOnly (Obstacle h) (lookUp h name) := by
  unfold lookUp
  split
  · exact .ok _
  · split
    · exact .ok _
    · exact .error (.unknownName name)

theorem stops_named (text : String) : Stops h (.named text) := by
  rw [Stops, meaning, namedType]
  refine FailsOnly.result_bind ?_ fun name _ => ?_
  · unfold expandName
    split <;> exact .ok _
  · refine FailsOnly.result_bind ?_ fun t _ => .ok t
    exact failsOnly_lookUp name

theorem stops_array (hkey : Stops h key) (hitem : Stops h item) : Stops h (.array key item) := by
  rw [Stops, meaning]
  refine FailsOnly.result_bind hkey fun k _ => ?_
  exact FailsOnly.result_bind hitem fun i _ => .ok (Ty.array k i)

theorem failsOnly_meanings (hps : ∀ p ∈ ps, Stops h p) :
    FailsOnly (Obstacle h) (meanings h none ps).result := by
  induction ps with
  | nil =>
    rw [meanings]
    exact .ok []
  | cons p ps ih =>
    have hrest := ih fun q hq => hps q (List.mem_cons_of_mem _ hq)
    rw [meanings]
    refine FailsOnly.result_bind (hps p List.mem_cons_self) fun t _ => ?_
    exact hrest.result_bind fun ts _ => .ok (t :: ts)

theorem stops_union (hne : ps ≠ []) (hps : ∀ p ∈ ps, Stops h p) : Stops h (.union ps) := by
  rw [Stops, meaning]
  refine (failsOnly_meanings hps).result_bind fun ts hts => ?_
  refine failsOnly_unite ?_ (meanings_wellFormed ps hts)
  rintro rfl
  cases meanings_eq_ok_iff.mp hts
  exact hne rfl

theorem stops_ofName (text : List Char) : Stops h (ofName text) := by
  rcases ofName_eq text with e | e
  · exact e ▸ stops_named _
  · exact e ▸ stops_malformed _ _

variable (hread : ∀ s, Stops h (read s))
include hread

theorem stops_ofArguments (text args : List Char) : Stops h (ofArguments read text args) := by
  unfold ofArguments
  split
  · exact stops_malformed _ _
  · exact stops_array (stops_primitive _) (hread _)
  · exact stops_array (hread _) (hread _)
  · exact stops_malformed _ _

theorem stops_ofSingle (text : List Char) : Stops h (ofSingle read text) := by
  unfold ofSingle
  split
  · exact hread _
  · split
    · exact stops_primitive _
    · split
      · split
        · exact stops_malformed _ _
        · exact stops_array (stops_primitive _) (hread _)
      · split
        · exact stops_array (stops_primitive _) (stops_primitive _)
        · split
          · exact stops_ofArguments hread _ _
          · exact stops_ofName _

end

theorem stops_read (h : Hierarchy) (n : Nat) (s : List Char) : Stops h (Hint.read n s) := by
  induction n generalizing s with
  | zero => exact stops_malformed _ _
  | succ n ih =>
    rw [Hint.read]
    split
    · exact stops_malformed _ _
    · exact stops_ofSingle ih _
    · rename_i ps _ hps
      refine stops_union ?_ fun p hp => ?_
      · obtain ⟨qs, hqs, rfl, -⟩ := parts_eq_ok_iff.mp hps
        simpa using split_ne_nil hqs
      · obtain ⟨q, -, rfl⟩ := List.mem_map.mp hp
        exact stops_ofSingle ih q

theorem exists_obstacle {h : Hierarchy} {text : String}
    (hno : ∀ t, ¬ IsUnion h (Refers h) 64 text.toList t) :
    ∃ e, (Ty.ofText h none text).result = .error e ∧ Obstacle h e := by
  cases hres : (Ty.ofText h none text).result with
  | error e => exact ⟨e, rfl, stops_read h _ _ e hres⟩
  | ok t => exact absurd (ofText_eq_ok_iff.mp hres) (hno t)

/-- **Reading accepts exactly the grammar.**  Over every hierarchy a text is read as a type if and
only if it denotes that type with at most 64 nested levels, and a text that denotes no type ends at
an obstacle.  In a checked table with plain names that is an error about the text: it is malformed
or names an unknown type. -/
theorem ofText_iff_isUnion (h : Hierarchy) (text : String) :
    (∀ t, (Ty.ofText h none text).result = .ok t ↔ IsUnion h (Refers h) 64 text.toList t) ∧
    ((∀ t, ¬ IsUnion h (Refers h) 64 text.toList t) →
      ∃ e, (Ty.ofText h none text).result = .error e ∧ Obstacle h e) ∧
    ∀ table : Table, table.check = .ok () → table.Plain → h = table.hierarchy →
      (∀ t, ¬ IsUnion h (Refers h) 64 text.toList t) →
        (∃ part flaw, (Ty.ofText h none text).result = .error (.malformed part flaw)) ∨
        ∃ name, (Ty.ofText h none text).result = .error (.unknownName name) := by
  refine ⟨fun t => ofText_eq_ok_iff, exists_obstacle, ?_⟩
  rintro table hcheck hplain rfl hno
  obtain ⟨e, he, hobstacle⟩ := exists_obstacle hno
  have hrefused := hobstacle.cases_of_ordinary (Table.ordinary hcheck hplain)
  rcases hrefused with ⟨part, flaw, rfl⟩ | ⟨name, rfl⟩
  · exact Or.inl ⟨part, flaw, he⟩
  · exact Or.inr ⟨name, he⟩

/-- A group of parts with blanks around them is a type.  Two groups in a row are none, although each
parenthesis is closed and the text begins and ends with one, and are refused. -/
theorem ofText_iff_isUnion_of_groups :
    IsUnion Table.handlers.hierarchy (Refers Table.handlers.hierarchy) 64
        "array< int , ( Leaf | null ) [] >".toList
        (.array (.primitive .integer) (.arrayOf (.union [.cls "Leaf", .null]))) ∧
    Table.handlers.check = .ok () ∧ Table.handlers.Plain ∧
    (∀ t, ¬ IsUnion Table.handlers.hierarchy (Refers Table.handlers.hierarchy) 64
      "(Base)(Leaf)".toList t) ∧
    ((∃ part flaw, (Ty.ofText Table.handlers.hierarchy none "(Base)(Leaf)").result =
        .error (.malformed part flaw)) ∨
      ∃ name, (Ty.ofText Table.handlers.hierarchy none "(Base)(Leaf)").result =
        .error (.unknownName name)) := by
  obtain ⟨hgroup, -⟩ := ofText_iff_isUnion Table.handlers.hierarchy
    "array< int , ( Leaf | null ) [] >"
  obtain ⟨htwo, -, hrefused⟩ := ofText_iff_isUnion Table.handlers.hierarchy "(Base)(Leaf)"
  have hcheck : Table.handlers.check = .ok () := by decide
  have hplain : Table.handlers.Plain := by decide
  have hresult : (Ty.ofText Table.handlers.hierarchy none "(Base)(Leaf)").result =
    .error (.malformed "(Base)(Leaf)" .invalidName) := by decide +kernel
  have hno : ∀ t, ¬ IsUnion Table.handlers.hierarchy (Refers Table.handlers.hierarchy) 64
      "(Base)(Leaf)".toList t := by
    intro t ht
    rw [(htwo t).mpr ht] at hresult
    cases hresult
  exact ⟨(hgroup _).mp (by decide +kernel), hcheck, hplain, hno,
    hrefused Table.handlers hcheck hplain rfl hno⟩

/-- the second part of both texts is no type, but the parts of the group before it clash: over a
loaded table with a class that is named like a primitive type, and over two classes each of which is
the parent of the other -/
theorem clash_before_flaw :
    ((Table.ofText "\x7b\"classes\":[\x7b\"name\":\"integer\"\x7d]\x7d").result =
        .ok Table.reserved ∧ Table.reserved.check = .ok () ∧
      (∀ t, ¬ IsUnion Table.reserved.hierarchy (Refers Table.reserved.hierarchy) 64
        "(array<string,\\integer>|array<int,integer>)|$".toList t) ∧
      (Ty.ofText Table.reserved.hierarchy none
        "(array<string,\\integer>|array<int,integer>)|$").result =
          .error (.contradiction ⟨"integer", "integer", false, true⟩)) ∧
    (∀ t, ¬ IsUnion Table.ring.hierarchy (Refers Table.ring.hierarchy) 64
      "(Left[]|Right[])|$".toList t) ∧
    (Ty.ofText Table.ring.hierarchy none "(Left[]|Right[])|$").result =
      .error (.contradiction ⟨"Left", "Right", true, false⟩) := by
  have hreserved : (Ty.ofText Table.reserved.hierarchy none
      "(array<string,\\integer>|array<int,integer>)|$").result =
        .error (.contradiction ⟨"integer", "integer", false, true⟩) := by decide +kernel
  have hring : (Ty.ofText Table.ring.hierarchy none "(Left[]|Right[])|$").result =
      .error (.contradiction ⟨"Left", "Right", true, false⟩) := by decide +kernel
  refine ⟨⟨Table.eq_ok_of_symbols (by decide +kernel), by decide, fun t ht => ?_, hreserved⟩,
    fun t ht => ?_, hring⟩
  · rw [ofText_eq_ok_iff.mpr ht] at hreserved
    cases hreserved
  · rw [ofText_eq_ok_iff.mpr ht] at hring
    cases hring

end TypeHint
