import TypeHint.Proofs.Decoration
import TypeHint.Proofs.Order
import TypeHint.Proofs.TagText

/-!
# What a comment says of its tags

The lines of a comment make up a sequence of tags, and what the comment says is a summary of it.  Of
the `@param` tags the first with a name has the place and the last has the word; of the others the
first with a type counts.  So tags that are not well-formed have no effect, wherever they stand.

* `DocComment.TagSequence ls texts`   the texts of the tags in the lines of a comment
* `DocComment.Picked R xs ys`         what a relation makes of the elements of a list, in order
* `DocComment.Summary ps rs vs d`     `d` summarizes tags of the three kinds
* `Summary.addTag`                    what one more tag does to a summary
* `ofText_summarizes_tags`            a comment summarizes its tags
-/

namespace TypeHint

namespace DocComment

open Text

/-! ## the sequence of tags -/

/-- a line that begins a tag, and the lines up to the next one -/
structure Block where
  first : List Char
  others : List (List Char)
  begins : first.head? = some '@'
  goesOn : ∀ l ∈ others, l.head? ≠ some '@'

def Block.lines (b : Block) : List (List Char) := b.first :: b.others

/-- lines with text are joined by single spaces -/
def Block.text (b : Block) : List Char :=
  b.first ++ (b.others.filter fun l => !l.isEmpty).flatMap (' ' :: ·)

/-- the texts of the tags, one for each line that begins with `@` -/
def TagSequence (ls texts : List (List Char)) : Prop :=
  ∃ (front : List (List Char)) (blocks : List Block),
    ls = front ++ blocks.flatMap Block.lines ∧ (∀ l ∈ front, l.head? ≠ some '@') ∧
      texts = blocks.map Block.text

variable {ls texts front : List (List Char)} {l : List Char}

theorem joinLines_cons (l : List Char) (ls : List (List Char)) :
    joinLines (l :: ls) = l ++ ls.flatMap (' ' :: ·) := by
  induction ls generalizing l with
  | nil => simp [joinLines]
  | cons m ls ih =>
    have hm : joinLines (m :: ls) = m ++ ls.flatMap (' ' :: ·) := ih m
    rw [joinLines, List.intercalate_cons_cons, ← joinLines, hm, List.flatMap_cons]
    simp

theorem gather_append (hfront : ∀ l ∈ front, l.head? ≠ some '@') (hls : (gather ls).1 = []) :
    gather (front ++ ls) = (front.filter fun l => !l.isEmpty, (gather ls).2) := by
  induction front with
  | nil => exact Prod.ext hls rfl
  | cons l front ih =>
    rw [List.forall_mem_cons] at hfront
    rw [List.cons_append, gather, ih hfront.2, not_startsTag hfront.1]
    cases l with
    | nil => rfl
    | cons c l => rfl

theorem gather_blocks (blocks : List Block) :
    gather (blocks.flatMap Block.lines) = ([], blocks.map Block.text) := by
  induction blocks with
  | nil => rfl
  | cons b blocks ih =>
    have hothers := gather_append b.goesOn (congrArg Prod.fst ih)
    have hbegins : startsTag b.first = true := beq_iff_eq.mpr b.begins
    rw [List.flatMap_cons, Block.lines, List.cons_append, gather, hothers, ih, hbegins]
    exact congrArg (fun text => ([], text :: blocks.map Block.text)) (joinLines_cons _ _)

theorem exists_blocks (ls : List (List Char)) : ∃ (front : List (List Char)) (blocks : List Block),
    ls = front ++ blocks.flatMap Block.lines ∧ ∀ l ∈ front, l.head? ≠ some '@' := by
  induction ls with
  | nil => exact ⟨[], [], rfl, by simp⟩
  | cons l ls ih =>
    obtain ⟨front, blocks, rfl, hfront⟩ := ih
    by_cases hl : l.head? = some '@'
    · exact ⟨[], ⟨l, front, hl, hfront⟩ :: blocks, rfl, by simp⟩
    · exact ⟨l :: front, blocks, rfl, List.forall_mem_cons.mpr ⟨hl, hfront⟩⟩

theorem tagSequence_iff : TagSequence ls texts ↔ texts = tagTexts ls := by
  have hgather : ∀ {front : List (List Char)} {blocks : List Block},
      (∀ l ∈ front, l.head? ≠ some '@') →
        tagTexts (front ++ blocks.flatMap Block.lines) = blocks.map Block.text := by
    intro front blocks hfront
    rw [tagTexts, gather_append hfront (congrArg Prod.fst (gather_blocks blocks)), gather_blocks]
  constructor
  · rintro ⟨front, blocks, rfl, hfront, rfl⟩
    exact (hgather hfront).symm
  · rintro rfl
    obtain ⟨front, blocks, rfl, hfront⟩ := exists_blocks ls
    exact ⟨front, blocks, rfl, hfront, hgather hfront⟩

theorem exists_of_mem_tagTexts {text : List Char} (ht : text ∈ tagTexts ls) :
    ∃ s, text = '@' :: s := by
  obtain ⟨front, blocks, -, -, htexts⟩ := tagSequence_iff.mpr (rfl : tagTexts ls = tagTexts ls)
  rw [htexts] at ht
  obtain ⟨b, -, rfl⟩ := List.mem_map.mp ht
  obtain ⟨s, hs⟩ := List.head?_eq_some_iff.mp b.begins
  exact ⟨_, by rw [Block.text, hs]; rfl⟩

/-! ## tags of one kind -/

/-- the values of the elements that have one, in order -/
inductive Picked {α β : Type} (R : α → β → Prop) : List α → List β → Prop
  | nil : Picked R [] []
  | take {x : α} {y : β} {xs : List α} {ys : List β} (hy : R x y) (hs : Picked R xs ys) :
    Picked R (x :: xs) (y :: ys)
  | skip {x : α} {xs : List α} {ys : List β} (hno : ∀ y, ¬ R x y) (hs : Picked R xs ys) :
    Picked R (x :: xs) ys

theorem picked_filterMap {α β : Type} {R : α → β → Prop} {f : α → Option β} {xs : List α}
    (hf : ∀ x ∈ xs, ∀ y, R x y ↔ f x = some y) : Picked R xs (xs.filterMap f) := by
  induction xs with
  | nil => exact .nil
  | cons x xs ih =>
    rw [List.forall_mem_cons] at hf
    cases hx : f x with
    | none =>
      rw [List.filterMap_cons_none hx]
      exact .skip (fun y hy => by simp [(hf.1 y).mp hy] at hx) (ih hf.2)
    | some y =>
      rw [List.filterMap_cons_some hx]
      exact .take ((hf.1 y).mpr hx) (ih hf.2)

theorem Picked.exists_of_mem {α β : Type} {R : α → β → Prop} {xs : List α} {ys : List β} {y : β}
    (h : Picked R xs ys) (hy : y ∈ ys) : ∃ x ∈ xs, R x y := by
  induction h with
  | nil => cases hy
  | take hxy _ ih =>
    rcases List.mem_cons.mp hy with rfl | hy
    · exact ⟨_, List.mem_cons_self, hxy⟩
    · obtain ⟨x, hx, hxy⟩ := ih hy
      exact ⟨x, List.mem_cons_of_mem _ hx, hxy⟩
  | skip _ _ ih =>
    obtain ⟨x, hx, hxy⟩ := ih hy
    exact ⟨x, List.mem_cons_of_mem _ hx, hxy⟩

def Tag.param? : Tag → Option ParamTag
  | .param p => some p
  | _ => none

def Tag.result? : Tag → Option TypeTag
  | .result t => t
  | _ => none

def Tag.var? : Tag → Option TypeTag
  | .var t => t
  | _ => none

theorem picked_params (ls : List (List Char)) : Picked IsParam (tagTexts ls)
    ((tagTexts ls).filterMap fun text => (Tag.ofText text).param?) := by
  refine picked_filterMap fun text ht p => ?_
  obtain ⟨s, rfl⟩ := exists_of_mem_tagTexts ht
  rw [← ofText_eq_param_iff]
  cases Tag.ofText ('@' :: s) <;> simp [Tag.param?]

theorem picked_results (ls : List (List Char)) : Picked (IsTyped "return") (tagTexts ls)
    ((tagTexts ls).filterMap fun text => (Tag.ofText text).result?) := by
  refine picked_filterMap fun text ht t => ?_
  obtain ⟨s, rfl⟩ := exists_of_mem_tagTexts ht
  rw [← ofText_eq_result_iff]
  cases Tag.ofText ('@' :: s) <;> simp [Tag.result?]

theorem picked_vars (ls : List (List Char)) : Picked (IsTyped "var") (tagTexts ls)
    ((tagTexts ls).filterMap fun text => (Tag.ofText text).var?) := by
  refine picked_filterMap fun text ht t => ?_
  obtain ⟨s, rfl⟩ := exists_of_mem_tagTexts ht
  rw [← ofText_eq_var_iff]
  cases Tag.ofText ('@' :: s) <;> simp [Tag.var?]

/-! ## the list of parameters -/

variable {p q : ParamTag} {ps qs : List ParamTag}

theorem mem_setParam_self (p : ParamTag) (qs : List ParamTag) : p ∈ setParam p qs := by
  induction qs with
  | nil => exact List.mem_singleton_self p
  | cons q qs ih =>
    rw [setParam]
    split
    · exact List.mem_cons_self
    · exact List.mem_cons_of_mem _ ih

theorem names_setParam (p : ParamTag) (qs : List ParamTag) : (setParam p qs).map (·.name) =
    qs.map (·.name) ++ if p.name ∈ qs.map (·.name) then [] else [p.name] := by
  induction qs with
  | nil => rfl
  | cons q qs ih =>
    rw [setParam]
    by_cases hq : q.name = p.name
    · simp [hq]
    · have hne : p.name ≠ q.name := fun e => hq e.symm
      rw [if_neg hq, List.map_cons, ih, List.map_cons, List.cons_append]
      simp [hne]

theorem nodup_eraseDups (xs : List String) : xs.eraseDups.Nodup := by
  have h : xs.eraseDups = freshBy id [] xs := (freshBy_nil_eq id xs).symm
  rw [h]
  exact freshBy_pairwise id [] xs

theorem eraseDups_concat (xs : List String) (x : String) :
    (xs ++ [x]).eraseDups = xs.eraseDups ++ if x ∈ xs.eraseDups then [] else [x] := by
  rw [List.eraseDups_append]
  by_cases hx : x ∈ xs <;> simp [List.removeAll, List.mem_eraseDups, List.eraseDups_cons, hx]

/-! ## summaries -/

/-- `p` is the last of its name -/
def IsLast (p : ParamTag) (ps : List ParamTag) : Prop :=
  ∃ front back, ps = front ++ p :: back ∧ ∀ q ∈ back, q.name ≠ p.name

/-- what a comment says of its `@param` tags `ps`, `@return` tags `rs` and `@var` tags `vs` -/
structure Summary (ps : List ParamTag) (rs vs : List TypeTag) (d : DocComment) : Prop where
  /-- in order of the first tag of each name -/
  names_eq : d.params.map (·.name) = (ps.map (·.name)).eraseDups
  /-- with the contents of the last tag of that name -/
  last : ∀ p ∈ d.params, IsLast p ps
  result_eq : d.result = rs.head?
  var_eq : d.var = vs.head?

variable {rs vs : List TypeTag} {d : DocComment}

theorem Summary.nodup (h : Summary ps rs vs d) : (d.params.map (·.name)).Nodup :=
  h.names_eq ▸ nodup_eraseDups _

theorem Summary.setParam (h : Summary ps rs vs d) (p : ParamTag) :
    Summary (ps ++ [p]) rs vs ⟨d.description, setParam p d.params, d.result, d.var⟩ := by
  have hnames : (DocComment.setParam p d.params).map (·.name) =
      ((ps ++ [p]).map (·.name)).eraseDups := by
    rw [names_setParam, h.names_eq, List.map_append, List.map_singleton, eraseDups_concat]
  refine ⟨hnames, fun q hq => ?_, h.result_eq, h.var_eq⟩
  by_cases hqp : q = p
  · exact ⟨ps, [], by rw [hqp], by simp⟩
  · obtain ⟨front, back, rfl, hback⟩ := h.last q ((mem_setParam hq).resolve_left hqp)
    refine ⟨front, back ++ [p], by simp, fun r hr => ?_⟩
    rcases List.mem_append.mp hr with hr | hr
    · exact hback r hr
    · -- `p` is in the list too, and no two entries have the same name
      rw [List.mem_singleton.mp hr]
      intro hname
      have hnodup : ((DocComment.setParam p d.params).map (·.name)).Nodup :=
        hnames ▸ nodup_eraseDups _
      exact hqp (List.inj_on_of_nodup_map hnodup hq (mem_setParam_self p d.params) hname.symm)

theorem or_head?_append {α : Type} (xs : List α) (x : Option α) :
    (xs ++ x.toList).head? = xs.head?.or x := by
  rw [List.head?_append]
  cases x <;> rfl

theorem Summary.addTag (h : Summary ps rs vs d) (tag : Tag) :
    Summary (ps ++ tag.param?.toList) (rs ++ tag.result?.toList) (vs ++ tag.var?.toList)
      (addTag d tag) := by
  cases tag with
  | param p =>
    simp only [Tag.param?, Tag.result?, Tag.var?, Option.toList_none, List.append_nil]
    exact h.setParam p
  | result t =>
    simp only [Tag.param?, Tag.result?, Tag.var?, Option.toList_none, List.append_nil]
    refine ⟨h.names_eq, h.last, ?_, h.var_eq⟩
    rw [or_head?_append, ← h.result_eq]
    rfl
  | var t =>
    simp only [Tag.param?, Tag.result?, Tag.var?, Option.toList_none, List.append_nil]
    refine ⟨h.names_eq, h.last, h.result_eq, ?_⟩
    rw [or_head?_append, ← h.var_eq]
    rfl
  | unnamedParam _ | other _ =>
    simp only [Tag.param?, Tag.result?, Tag.var?, Option.toList_none, List.append_nil]
    exact h

theorem summary_foldl (tags : List Tag) (description : String) :
    Summary (tags.filterMap Tag.param?) (tags.filterMap Tag.result?) (tags.filterMap Tag.var?)
      (tags.foldl DocComment.addTag ⟨description, [], none, none⟩) := by
  induction tags using List.reverseRecOn with
  | nil => exact ⟨rfl, by simp, rfl, rfl⟩
  | append_singleton tags tag ih =>
    have hone : ∀ {β : Type} (f : Tag → Option β),
        (tags ++ [tag]).filterMap f = tags.filterMap f ++ (f tag).toList := by
      intro β f
      rw [List.filterMap_append]
      cases h : f tag <;> simp [h]
    rw [List.foldl_concat, hone, hone, hone]
    exact ih.addTag tag

theorem addTag_of_not_wellFormed {text : List Char} (htext : text.head? = some '@')
    (hparam : ∀ p, ¬ IsParam text p) (hresult : ∀ t, ¬ IsTyped "return" text t)
    (hvar : ∀ t, ¬ IsTyped "var" text t) (d : DocComment) : addTag d (Tag.ofText text) = d := by
  obtain ⟨s, rfl⟩ := List.head?_eq_some_iff.mp htext
  cases e : Tag.ofText ('@' :: s) with
  | param p => exact absurd (ofText_eq_param_iff.mp e) (hparam p)
  | result t =>
    cases t with
    | none => simp [addTag]
    | some t => exact absurd (ofText_eq_result_iff.mp e) (hresult t)
  | var t =>
    cases t with
    | none => simp [addTag]
    | some t => exact absurd (ofText_eq_var_iff.mp e) (hvar t)
  | unnamedParam _ | other _ => rfl

/-! ## looking up a parameter -/

theorem find?_eq_some_of_nodup {n : String} (hnodup : (ps.map (·.name)).Nodup) :
    ps.find? (·.name == n) = some p ↔ p ∈ ps ∧ p.name = n := by
  constructor
  · intro h
    exact ⟨List.mem_of_find?_eq_some h, by simpa using List.find?_some h⟩
  · rintro ⟨hp, rfl⟩
    cases h : ps.find? (·.name == p.name) with
    | none => simpa using List.find?_eq_none.mp h p hp
    | some q =>
      have hname : q.name = p.name := by simpa using List.find?_some h
      rw [List.inj_on_of_nodup_map hnodup (List.mem_of_find?_eq_some h) hp hname]

theorem find?_bare {n : String} (hn : n.toList.head? ≠ some '$') (d : DocComment) :
    d.find? n = d.params.find? (·.name == n) ∧
      d.find? ("$" ++ n) = d.params.find? (·.name == n) := by
  have hprefix : ¬ ['$'] <+: n.toList := by
    rintro ⟨u, hu⟩
    exact hn (hu ▸ rfl)
  have hdollar : ("$" ++ n).toList = ['$'] ++ n.toList := by simp
  constructor
  · rw [find?, dropFront_of_not_prefix hprefix, String.ofList_toList]
  · rw [find?, hdollar, dropFront_append, String.ofList_toList]

theorem IsParam.wellFormed {text : List Char} (h : IsParam text p) :
    p.name ≠ "" ∧ Solid p.name.toList ∧ p.type ≠ "" := by
  cases h with
  | untyped hcall htype hvar =>
    exact ⟨by simpa using hvar.1, hvar.2.1, by rw [htype]; decide⟩
  | typed hcall hs htype hvar =>
    refine ⟨by simpa using hvar.1, hvar.2.1, fun hempty => hs ?_⟩
    -- without a type the variable comes first
    obtain ⟨⟨w, hw, rfl, -⟩, -⟩ := htype
    rw [hempty] at hcall ⊢
    cases w with
    | nil => exact hvar.head?
    | cons c w => exact absurd (hcall.head?_rest.symm.trans (hw c List.mem_cons_self)) nofun

/-- a comment with tags that repeat each other and tags that are not well-formed -/
def repeated : String :=
  "\n".intercalate ["/** @param int $a one", " * @param int", " * @param $b",
    " * @param string $a two", " * @return", " * @return int the", " * sum */"]

end DocComment

open DocComment Text

/-- **A comment summarizes its tags.**  The tags begin at the lines with `@` in front.  The
parameters have distinct names without blanks, and types; they stand in the order of the first
well-formed `@param` tags of their names and say what the last ones say.  The result and the
variable are those of the first `@return` and `@var` tags with a type.  Other tags change nothing.
A parameter whose name does not begin with `$` is found by its name, with or without a `$` in
front. -/
theorem ofText_summarizes_tags (comment : String) :
    (∃ texts ps rs vs, TagSequence (lines comment) texts ∧ Picked IsParam texts ps ∧
      Picked (IsTyped "return") texts rs ∧ Picked (IsTyped "var") texts vs ∧
      Summary ps rs vs (DocComment.ofText comment)) ∧
    (((DocComment.ofText comment).params.map (·.name)).Nodup ∧
      ∀ p ∈ (DocComment.ofText comment).params,
        p.name ≠ "" ∧ Solid p.name.toList ∧ p.type ≠ "") ∧
    (∀ text, text.head? = some '@' → (∀ p, ¬ IsParam text p) →
      (∀ t, ¬ IsTyped "return" text t) → (∀ t, ¬ IsTyped "var" text t) →
      ∀ d, addTag d (Tag.ofText text) = d) ∧
    ∀ n : String, n.toList.head? ≠ some '$' → ∀ p,
      ((DocComment.ofText comment).find? n = some p ↔
        p ∈ (DocComment.ofText comment).params ∧ p.name = n) ∧
      ((DocComment.ofText comment).find? ("$" ++ n) = some p ↔
        p ∈ (DocComment.ofText comment).params ∧ p.name = n) := by
  have hsummary : Summary
      ((tagTexts (lines comment)).filterMap fun text => (Tag.ofText text).param?)
      ((tagTexts (lines comment)).filterMap fun text => (Tag.ofText text).result?)
      ((tagTexts (lines comment)).filterMap fun text => (Tag.ofText text).var?)
      (DocComment.ofText comment) := by
    have h := summary_foldl (tags comment) (String.ofList (descriptionOf (lines comment)))
    simp only [tags, List.filterMap_map] at h
    exact h
  have hparams := picked_params (lines comment)
  refine ⟨⟨_, _, _, _, tagSequence_iff.mpr rfl, hparams, picked_results _, picked_vars _, hsummary⟩,
    ⟨hsummary.nodup, fun p hp => ?_⟩, ?_, fun n hn p => ?_⟩
  · obtain ⟨front, back, hsplit, -⟩ := hsummary.last p hp
    obtain ⟨text, -, htext⟩ := hparams.exists_of_mem (hsplit ▸ by simp : p ∈ _)
    exact htext.wellFormed
  · exact fun text htext hp hr hv => addTag_of_not_wellFormed htext hp hr hv
  · obtain ⟨hbare, hdollar⟩ := find?_bare hn (DocComment.ofText comment)
    rw [hbare, hdollar, find?_eq_some_of_nodup hsummary.nodup]
    exact ⟨Iff.rfl, Iff.rfl⟩

/-- the second tag for `a` takes the place of the first, in front of `b`; a tag that names no
variable stands between them, and the first `@return` tag has no type -/
theorem ofText_summarizes_tags_of_repeated :
    DocComment.ofText repeated =
      ⟨"", [⟨"a", "string", "two"⟩, ⟨"b", "mixed", ""⟩], some ⟨"int", "the sum"⟩, none⟩ ∧
    (DocComment.ofText repeated).find? "$a" = some ⟨"a", "string", "two"⟩ ∧
    ∀ d, addTag d (Tag.ofText ('@' :: "param int".toList)) = d := by
  have hvalue : DocComment.ofText repeated =
      ⟨"", [⟨"a", "string", "two"⟩, ⟨"b", "mixed", ""⟩], some ⟨"int", "the sum"⟩, none⟩ := by
    decide +kernel
  have htag : Tag.ofText ('@' :: "param int".toList) = .unnamedParam "@param int" := by rfl
  obtain ⟨-, -, hnone, hfind⟩ := ofText_summarizes_tags repeated
  refine ⟨hvalue, (hfind "a" (by decide) _).2.mpr ⟨by simp [hvalue], rfl⟩,
    hnone _ rfl (fun p hp => ?_) (fun t ht => ?_) fun t ht => ?_⟩
  · cases htag.symm.trans (ofText_eq_param_iff.mpr hp)
  · cases htag.symm.trans (ofText_eq_result_iff.mpr ht)
  · cases htag.symm.trans (ofText_eq_var_iff.mpr ht)

end TypeHint
