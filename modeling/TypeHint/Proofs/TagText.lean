import TypeHint.DocComment
import TypeHint.Proofs.Blank

/-!
# The grammar of tags

A tag is read by two scanners: a word ends at the first blank, a type at the first blank outside
brackets.  Here the texts of tags are described without them, by where their parts and the blanks
between the parts stand.

* `Text.Cut s part rest`        `s` is `part`, blanks and `rest`
* `DocComment.IsType s t rest`  `s` is a type, blanks and `rest`
* `DocComment.IsParam text p`   the text of a `@param` tag
* `DocComment.IsTyped n text t` the text of a `@return` or `@var` tag
* `ofText_eq_param_iff`, `ofText_eq_result_iff`, `ofText_eq_var_iff`   the scanners read these texts
* `tag_text_kept`               so nothing but blanks is lost
-/

namespace TypeHint

namespace Text

variable {s u w part rest word : List Char}

/-! ## parts of a text -/

/-- no blank anywhere -/
def Solid (s : List Char) : Prop := ∀ c ∈ s, isBlank c = false

instance (s : List Char) : Decidable (Solid s) :=
  decidable_of_iff ((s.all fun c => !isBlank c) = true) (by simp [Solid])

def deblank (s : List Char) : List Char := s.filter fun c => !isBlank c

theorem deblank_append (s u : List Char) : deblank (s ++ u) = deblank s ++ deblank u :=
  List.filter_append ..

theorem deblank_of_blank (hw : Blank w) : deblank w = [] :=
  List.filter_eq_nil_iff.mpr fun c hc => by simp [hw c hc]

theorem deblank_of_solid (hs : Solid s) : deblank s = s :=
  List.filter_eq_self.mpr fun c hc => by simp [hs c hc]

/-- the text is a part, blanks and a rest without a blank in front; the part ends at a blank or at
the end of the text -/
def Cut (s part rest : List Char) : Prop :=
  ∃ w, Blank w ∧ s = part ++ (w ++ rest) ∧ rest.head?.any isBlank = false ∧ (w = [] → rest = [])

theorem Cut.deblank_eq (h : Cut s part rest) : deblank s = deblank part ++ deblank rest := by
  obtain ⟨w, hw, rfl, -, -⟩ := h
  rw [deblank_append, deblank_append, deblank_of_blank hw, List.nil_append]

/-- where a text ends or goes on with a blank -/
def AtBreak (u : List Char) : Prop := u = [] ∨ u.head?.any isBlank = true

/-- the rest is what trimming leaves of everything behind the part -/
theorem cut_iff : Cut s part rest ↔ ∃ u, s = part ++ u ∧ AtBreak u ∧ rest = trimStart u := by
  constructor
  · rintro ⟨w, hw, rfl, hrest, hend⟩
    refine ⟨w ++ rest, rfl, ?_, by rw [trimStart_append hw, trimStart_of_head hrest]⟩
    cases w with
    | nil => exact Or.inl (by rw [hend rfl]; rfl)
    | cons c w => exact Or.inr (hw c List.mem_cons_self)
  · rintro ⟨u, rfl, hbreak, rfl⟩
    obtain ⟨w, hw, hu⟩ := exists_trimStart u
    refine ⟨w, hw, by rw [hu], head?_trimStart u, ?_⟩
    rintro rfl
    rw [List.nil_append] at hu
    rcases hbreak with rfl | hblank
    · rfl
    · have hhead := head?_trimStart u
      rw [hu, hblank] at hhead
      cases hhead

theorem Cut.space (part : List Char) (hrest : rest.head?.any isBlank = false) :
    Cut (part ++ ' ' :: rest) part rest :=
  ⟨[' '], by decide, rfl, hrest, fun h => absurd h (List.cons_ne_nil _ _)⟩

/-! ## words -/

theorem takeWhile_word (hword : Solid word) (hu : AtBreak u) :
    (word ++ u).takeWhile (fun c => !isBlank c) = word ∧
      (word ++ u).dropWhile (fun c => !isBlank c) = u := by
  have hall : ∀ c ∈ word, (!isBlank c) = true := fun c hc => by rw [hword c hc]; rfl
  rw [List.takeWhile_append_of_pos hall, List.dropWhile_append_of_pos hall]
  rcases hu with rfl | hblank
  · exact ⟨List.append_nil _, rfl⟩
  · cases u with
    | nil => cases hblank
    | cons c u =>
      have hc : isBlank c = true := hblank
      simp [hc]

theorem atBreak_dropWhile (s : List Char) : AtBreak (s.dropWhile fun c => !isBlank c) := by
  have hhead := List.head?_dropWhile_not (fun c => !isBlank c) s
  cases e : s.dropWhile fun c => !isBlank c with
  | nil => exact Or.inl rfl
  | cons c u =>
    rw [e] at hhead
    exact Or.inr (by simpa using hhead)

/-- the first word of a text, blanks in front of it left aside -/
theorem firstWord_eq_iff (hne : word ≠ []) : firstWord s = (word, rest) ↔
    Solid word ∧ ∃ w u, Blank w ∧ s = w ++ u ∧ Cut u word rest := by
  constructor
  · intro h
    obtain ⟨rfl, rfl⟩ := Prod.mk.inj h
    obtain ⟨w, hw, hs⟩ := exists_trimStart s
    refine ⟨fun c hc => by simpa using List.mem_takeWhile_imp hc, w, trimStart s, hw, hs.symm, ?_⟩
    exact cut_iff.mpr ⟨_, List.takeWhile_append_dropWhile.symm, atBreak_dropWhile _, rfl⟩
  · rintro ⟨hword, w, u, hw, rfl, hcut⟩
    obtain ⟨v, rfl, hbreak, rfl⟩ := cut_iff.mp hcut
    have hhead : (word ++ v).head?.any isBlank = false := by
      obtain ⟨c, word, rfl⟩ := List.exists_cons_of_ne_nil hne
      exact hword c List.mem_cons_self
    obtain ⟨htake, hdrop⟩ := takeWhile_word hword hbreak
    rw [firstWord, trimStart_append hw, trimStart_of_head hhead]
    exact Prod.ext htake (congrArg trimStart hdrop)

theorem head?_firstWord (s : List Char) : (firstWord s).2.head?.any isBlank = false :=
  head?_trimStart _

end Text

namespace DocComment

open Text

variable {s t text rest name : List Char} {d : Nat} {c : Char} {p : ParamTag} {tag : TypeTag}

/-! ## types -/

/-- the number of open brackets after a character; a bracket that closes nothing is ignored -/
def nest (depth : Nat) (c : Char) : Nat :=
  if c = '<' ∨ c = '(' then depth + 1 else if c = '>' ∨ c = ')' then depth - 1 else depth

def depthAfter (depth : Nat) (s : List Char) : Nat := s.foldl nest depth

/-- every blank stands inside brackets, where `depth` of them are open in front of the text -/
def Enclosed (depth : Nat) (t : List Char) : Prop :=
  ∀ a c b, t = a ++ c :: b → isBlank c = true → 0 < depthAfter depth a

/-- the text starts with a type, which ends at the first blank outside brackets -/
def IsType (s t rest : List Char) : Prop :=
  Cut s t rest ∧ Enclosed 0 t ∧ (depthAfter 0 t = 0 ∨ t = s)

theorem enclosed_nil : Enclosed d [] := fun a c b h => by simp at h

theorem enclosed_cons :
    Enclosed d (c :: t) ↔ (isBlank c = true → 0 < d) ∧ Enclosed (nest d c) t := by
  constructor
  · intro h
    exact ⟨h [] c t rfl, fun a e b heq => h (c :: a) e b (by rw [heq]; rfl)⟩
  · rintro ⟨hc, ht⟩ a e b heq he
    cases a with
    | nil =>
      obtain ⟨rfl, -⟩ := List.cons.inj heq
      exact hc he
    | cons x a =>
      obtain ⟨rfl, hrest⟩ := List.cons.inj heq
      exact ht a e b hrest he

theorem cutType_cons (d : Nat) (c : Char) (s : List Char) : cutType d (c :: s) =
    if isBlank c = true ∧ d = 0 then ([], c :: s)
    else (c :: (cutType (nest d c) s).1, (cutType (nest d c) s).2) := by
  rw [cutType, nest]
  by_cases hopen : c = '<' ∨ c = '('
  · have hsolid : isBlank c = false := by rcases hopen with rfl | rfl <;> decide
    simp [hopen, hsolid]
  · by_cases hclose : c = '>' ∨ c = ')'
    · have hsolid : isBlank c = false := by rcases hclose with rfl | rfl <;> decide
      simp [hopen, hclose, hsolid]
    · simp [hopen, hclose]

theorem cutType_spec (d : Nat) (s : List Char) :
    (cutType d s).1 ++ (cutType d s).2 = s ∧ Enclosed d (cutType d s).1 ∧
      ((cutType d s).2 = [] ∨
        (cutType d s).2.head?.any isBlank = true ∧ depthAfter d (cutType d s).1 = 0) := by
  induction s generalizing d with
  | nil => exact ⟨rfl, enclosed_nil, Or.inl rfl⟩
  | cons c s ih =>
    rw [cutType_cons]
    split
    · rename_i hstop
      exact ⟨rfl, enclosed_nil, Or.inr hstop⟩
    · rename_i hgo
      obtain ⟨happ, henc, hend⟩ := ih (nest d c)
      refine ⟨congrArg (c :: ·) happ, enclosed_cons.mpr ⟨fun hc => ?_, henc⟩, hend⟩
      exact Nat.pos_of_ne_zero fun h => hgo ⟨hc, h⟩

/-- the scanner takes no less than a type that the text starts with -/
theorem cutType_append (henc : Enclosed d t)
    (hend : rest = [] ∨ rest.head?.any isBlank = true ∧ depthAfter d t = 0) :
    cutType d (t ++ rest) = (t, rest) := by
  induction t generalizing d with
  | nil =>
    cases rest with
    | nil => rfl
    | cons c rest =>
      have hstop : isBlank c = true ∧ d = 0 := hend.resolve_left (List.cons_ne_nil _ _)
      rw [List.nil_append, cutType_cons, if_pos hstop]
  | cons c t ih =>
    obtain ⟨hc, ht⟩ := enclosed_cons.mp henc
    have hgo : ¬ (isBlank c = true ∧ d = 0) := fun h => Nat.lt_irrefl 0 (h.2 ▸ hc h.1)
    rw [List.cons_append, cutType_cons, if_neg hgo, ih ht hend]

theorem firstType_eq_iff (hs : s.head?.any isBlank = false) :
    firstType s = (t, rest) ↔ IsType s t rest := by
  have hfirst : firstType s = ((cutType 0 s).1, trimStart (cutType 0 s).2) := by
    rw [firstType, trimStart_of_head hs]
  rw [hfirst]
  constructor
  · intro h
    obtain ⟨rfl, rfl⟩ := Prod.mk.inj h
    obtain ⟨happ, henc, hend⟩ := cutType_spec 0 s
    refine ⟨cut_iff.mpr ⟨_, happ.symm, hend.imp_right And.left, rfl⟩, henc, ?_⟩
    refine hend.symm.imp And.right fun hnil => ?_
    rwa [hnil, List.append_nil] at happ
  · rintro ⟨hcut, henc, hend⟩
    obtain ⟨u, rfl, hbreak, rfl⟩ := cut_iff.mp hcut
    have hstop : u = [] ∨ u.head?.any isBlank = true ∧ depthAfter 0 t = 0 := by
      rcases hbreak with hnil | hblank
      · exact Or.inl hnil
      · refine hend.symm.imp (fun h => ?_) fun h => ⟨hblank, h⟩
        exact List.append_right_eq_self.mp h.symm
    rw [cutType_append henc hstop]

theorem typeTag?_eq_some_iff (hs : s.head?.any isBlank = false) : typeTag? s = some tag ↔
    tag.type ≠ "" ∧ IsType s tag.type.toList tag.description.toList := by
  rw [← firstType_eq_iff hs, typeTag?]
  obtain ⟨type, description⟩ := tag
  rcases firstType s with ⟨t, rest⟩
  simp only [Option.ite_none_left_eq_some, Option.some.injEq, TypeTag.mk.injEq, List.isEmpty_iff,
    Prod.mk.injEq]
  constructor
  · rintro ⟨hne, rfl, rfl⟩
    simpa using hne
  · rintro ⟨hne, rfl, rfl⟩
    simpa using hne

/-! ## variables -/

def IsVariable (s name rest : List Char) : Prop :=
  name ≠ [] ∧ Solid name ∧ Cut s ('$' :: name) rest

theorem IsVariable.head? (h : IsVariable s name rest) : s.head? = some '$' := by
  obtain ⟨-, -, w, -, rfl, -⟩ := h
  rfl

theorem isVariable_iff (hs : s.head?.any isBlank = false) :
    IsVariable s name rest ↔ name ≠ [] ∧ firstWord s = ('$' :: name, rest) := by
  rw [firstWord_eq_iff (List.cons_ne_nil _ _)]
  constructor
  · rintro ⟨hne, hsolid, hcut⟩
    exact ⟨hne, List.forall_mem_cons.mpr ⟨by decide, hsolid⟩, [], s, .nil, rfl, hcut⟩
  · rintro ⟨hne, hsolid, w, u, hw, rfl, hcut⟩
    refine ⟨hne, fun c hc => hsolid c (List.mem_cons_of_mem _ hc), ?_⟩
    cases w with
    | nil => exact hcut
    | cons c w =>
      have hc : isBlank c = true := hw c List.mem_cons_self
      exact absurd (hs.symm.trans hc) Bool.false_ne_true

theorem IsType.head?_rest (h : IsType s t rest) : rest.head?.any isBlank = false := by
  obtain ⟨⟨w, -, -, hrest, -⟩, -⟩ := h
  exact hrest

def readVariable (type rest : List Char) : Option ParamTag :=
  match (firstWord rest).1 with
  | '$' :: c :: name =>
    some ⟨String.ofList (c :: name), String.ofList type, String.ofList (firstWord rest).2⟩
  | _ => none

theorem param?_eq (s : List Char) : param? s =
    if s.head? = some '$' then readVariable "mixed".toList s
    else readVariable (firstType s).1 (firstType s).2 := by
  rw [param?]
  by_cases hs : s.head? = some '$'
  · simp only [if_pos hs]
    rfl
  · simp only [if_neg hs]
    rfl

theorem readVariable_eq_some_iff (hrest : rest.head?.any isBlank = false) :
    readVariable t rest = some p ↔
      p.type.toList = t ∧ IsVariable rest p.name.toList p.description.toList := by
  obtain ⟨name, type, description⟩ := p
  rw [isVariable_iff hrest, readVariable, Prod.ext_iff]
  split
  · rename_i c name' hword
    rw [hword]
    simp only [Option.some.injEq, ParamTag.mk.injEq, List.cons.injEq, true_and]
    constructor
    · rintro ⟨rfl, rfl, rfl⟩
      simp
    · rintro ⟨rfl, -, hname, hdescription⟩
      simp [hname, hdescription]
  · rename_i hno
    refine iff_of_false nofun ?_
    rintro ⟨-, hne, hword, -⟩
    obtain ⟨c, name', hname⟩ := List.exists_cons_of_ne_nil hne
    rw [hname] at hword
    exact hno c name' hword

/-- a variable, after a type unless the text starts with the variable -/
theorem param?_eq_some_iff (hs : s.head?.any isBlank = false) : param? s = some p ↔
    (p.type = "mixed" ∧ IsVariable s p.name.toList p.description.toList) ∨
      (s.head? ≠ some '$' ∧ ∃ rest, IsType s p.type.toList rest ∧
        IsVariable rest p.name.toList p.description.toList) := by
  rw [param?_eq]
  by_cases hhead : s.head? = some '$'
  · rw [if_pos hhead, readVariable_eq_some_iff hs, String.toList_inj]
    simp [hhead]
  · have hrest : (firstType s).2.head?.any isBlank = false := head?_trimStart _
    rw [if_neg hhead, readVariable_eq_some_iff hrest]
    constructor
    · rintro ⟨htype, hvar⟩
      exact Or.inr ⟨hhead, _, (firstType_eq_iff hs).mp (Prod.ext htype.symm rfl), hvar⟩
    · rintro (⟨-, hvar⟩ | ⟨-, rest, htype, hvar⟩)
      · exact absurd hvar.head? hhead
      · rw [(firstType_eq_iff hs).mpr htype]
        exact ⟨rfl, hvar⟩

/-! ## tags -/

def Called (name : String) (text rest : List Char) : Prop :=
  ∃ w u, Blank w ∧ text = '@' :: (w ++ u) ∧ Cut u name.toList rest

inductive IsParam (text : List Char) (p : ParamTag) : Prop
  | typed {s rest : List Char} (hcall : Called "param" text s) (hs : s.head? ≠ some '$')
    (htype : IsType s p.type.toList rest)
    (hvar : IsVariable rest p.name.toList p.description.toList)
  | untyped {s : List Char} (hcall : Called "param" text s) (htype : p.type = "mixed")
    (hvar : IsVariable s p.name.toList p.description.toList)

def IsTyped (name : String) (text : List Char) (tag : TypeTag) : Prop :=
  ∃ s, Called name text s ∧ tag.type ≠ "" ∧ IsType s tag.type.toList tag.description.toList

theorem called_iff {name : String} (hne : name.toList ≠ []) (hsolid : Solid name.toList) :
    Called name ('@' :: s) rest ↔ firstWord s = (name.toList, rest) := by
  rw [firstWord_eq_iff hne]
  constructor
  · rintro ⟨w, u, hw, heq, hcut⟩
    exact ⟨hsolid, w, u, hw, (List.cons.inj heq).2, hcut⟩
  · rintro ⟨-, w, u, hw, rfl, hcut⟩
    exact ⟨w, u, hw, rfl, hcut⟩

theorem isParam_iff : IsParam ('@' :: s) p ↔
    (firstWord s).1 = "param".toList ∧ param? (firstWord s).2 = some p := by
  have hcalled : ∀ {u}, Called "param" ('@' :: s) u ↔ firstWord s = ("param".toList, u) :=
    called_iff (by decide) (by decide)
  rw [param?_eq_some_iff (head?_firstWord s)]
  constructor
  · rintro (⟨hcall, hs, htype, hvar⟩ | ⟨hcall, htype, hvar⟩)
    · rw [hcalled.mp hcall]
      exact ⟨rfl, Or.inr ⟨hs, _, htype, hvar⟩⟩
    · rw [hcalled.mp hcall]
      exact ⟨rfl, Or.inl ⟨htype, hvar⟩⟩
  · rintro ⟨hname, ⟨htype, hvar⟩ | ⟨hs, rest, htype, hvar⟩⟩
    · exact .untyped (hcalled.mpr (Prod.ext hname rfl)) htype hvar
    · exact .typed (hcalled.mpr (Prod.ext hname rfl)) hs htype hvar

theorem isTyped_iff {name : String} (hne : name.toList ≠ []) (hsolid : Solid name.toList) :
    IsTyped name ('@' :: s) tag ↔
      (firstWord s).1 = name.toList ∧ typeTag? (firstWord s).2 = some tag := by
  rw [typeTag?_eq_some_iff (head?_firstWord s)]
  constructor
  · rintro ⟨u, hcall, htag⟩
    rw [(called_iff hne hsolid).mp hcall]
    exact ⟨rfl, htag⟩
  · rintro ⟨hname, htag⟩
    exact ⟨_, (called_iff hne hsolid).mpr (Prod.ext hname rfl), htag⟩

theorem ofText_eq (s : List Char) : Tag.ofText ('@' :: s) =
    if (firstWord s).1 = "param".toList then
      match param? (firstWord s).2 with
      | some p => .param p
      | none => .unnamedParam (String.ofList ('@' :: s))
    else if (firstWord s).1 = "return".toList then .result (typeTag? (firstWord s).2)
    else if (firstWord s).1 = "var".toList then .var (typeTag? (firstWord s).2)
    else .other (String.ofList (firstWord s).1) := rfl

theorem ofText_eq_param_iff : Tag.ofText ('@' :: s) = .param p ↔ IsParam ('@' :: s) p := by
  rw [isParam_iff, ofText_eq]
  by_cases hname : (firstWord s).1 = "param".toList
  · rw [if_pos hname]
    cases param? (firstWord s).2 with
    | none => simp
    | some q => simp [hname]
  · rw [if_neg hname]
    refine iff_of_false (fun h => ?_) fun h => hname h.1
    split at h
    · cases h
    · split at h <;> cases h

theorem ofText_eq_result_iff :
    Tag.ofText ('@' :: s) = .result (some tag) ↔ IsTyped "return" ('@' :: s) tag := by
  rw [isTyped_iff (by decide) (by decide), ofText_eq]
  by_cases hname : (firstWord s).1 = "return".toList
  · have hparam : (firstWord s).1 ≠ "param".toList := by rw [hname]; decide
    rw [if_neg hparam, if_pos hname, Tag.result.injEq]
    simp [hname]
  · refine iff_of_false (fun h => ?_) fun h => hname h.1
    rw [if_neg hname] at h
    split at h
    · split at h <;> cases h
    · split at h <;> cases h

theorem ofText_eq_var_iff :
    Tag.ofText ('@' :: s) = .var (some tag) ↔ IsTyped "var" ('@' :: s) tag := by
  rw [isTyped_iff (by decide) (by decide), ofText_eq]
  by_cases hname : (firstWord s).1 = "var".toList
  · have hparam : (firstWord s).1 ≠ "param".toList := by rw [hname]; decide
    have hreturn : (firstWord s).1 ≠ "return".toList := by rw [hname]; decide
    rw [if_neg hparam, if_neg hreturn, if_pos hname, Tag.var.injEq]
    simp [hname]
  · refine iff_of_false (fun h => ?_) fun h => hname h.1
    rw [if_neg hname] at h
    split at h
    · split at h <;> cases h
    · split at h <;> cases h

theorem Called.space (name : String) (hrest : rest.head?.any isBlank = false) :
    Called name ('@' :: (name.toList ++ ' ' :: rest)) rest :=
  ⟨[], _, .nil, rfl, .space _ hrest⟩

/-! ## tags without their blanks -/

theorem Called.deblank_eq {name : String} (h : Called name text rest)
    (hsolid : Solid name.toList) : deblank text = '@' :: (name.toList ++ deblank rest) := by
  obtain ⟨w, u, hw, rfl, hcut⟩ := h
  rw [show '@' :: (w ++ u) = ['@'] ++ (w ++ u) from rfl, deblank_append, deblank_append,
    deblank_of_blank hw, hcut.deblank_eq, deblank_of_solid hsolid]
  rfl

theorem Called.head?_rest {name : String} (h : Called name text rest) :
    rest.head?.any isBlank = false := by
  obtain ⟨w, u, -, -, v, -, -, hrest, -⟩ := h
  exact hrest

theorem IsVariable.deblank_eq (h : IsVariable s name rest) :
    deblank s = '$' :: (name ++ deblank rest) := by
  obtain ⟨-, hsolid, hcut⟩ := h
  have hdollar : Solid ('$' :: name) := List.forall_mem_cons.mpr ⟨by decide, hsolid⟩
  rw [hcut.deblank_eq, deblank_of_solid hdollar]
  rfl

theorem head?_deblank (hs : s.head?.any isBlank = false) : (deblank s).head? = s.head? := by
  cases s with
  | nil => rfl
  | cons c s =>
    have hc : isBlank c = false := hs
    simp [deblank, hc]

/-- the text of a tag and what is recorded of it, both without blanks; a type that is left out is
not in the text -/
def SpellsParam (text : List Char) (p : ParamTag) : Prop :=
  if "@param$".toList <+: deblank text then
    p.type = "mixed" ∧
      deblank text = "@param$".toList ++ p.name.toList ++ deblank p.description.toList
  else deblank text = "@param".toList ++ deblank p.type.toList ++
    '$' :: (p.name.toList ++ deblank p.description.toList)

def SpellsTyped (name : String) (text : List Char) (tag : TypeTag) : Prop :=
  deblank text = '@' :: name.toList ++ deblank tag.type.toList ++ deblank tag.description.toList

theorem IsParam.spells (h : IsParam text p) : SpellsParam text p := by
  have homitted : ∀ {s}, Called "param" text s →
      ("@param$".toList <+: deblank text ↔ s.head? = some '$') := by
    intro s hcall
    rw [hcall.deblank_eq (by decide), ← head?_deblank hcall.head?_rest]
    cases deblank s with
    | nil => decide
    | cons c s => simp [List.cons_prefix_cons, eq_comm]
  unfold SpellsParam
  cases h with
  | typed hcall hs htype hvar =>
    rw [if_neg (mt (homitted hcall).mp hs), hcall.deblank_eq (by decide), htype.1.deblank_eq,
      hvar.deblank_eq]
    simp
  | untyped hcall htype hvar =>
    rw [if_pos ((homitted hcall).mpr hvar.head?), hcall.deblank_eq (by decide), hvar.deblank_eq]
    exact ⟨htype, by simp⟩

theorem IsTyped.spells {name : String} (hsolid : Solid name.toList) (h : IsTyped name text tag) :
    SpellsTyped name text tag := by
  obtain ⟨s, hcall, -, htype⟩ := h
  rw [SpellsTyped, hcall.deblank_eq hsolid, htype.1.deblank_eq]
  simp

/-! ## types with balanced brackets -/

def openings (s : List Char) : Nat := s.countP fun c => c = '<' ∨ c = '('

def closings (s : List Char) : Nat := s.countP fun c => c = '>' ∨ c = ')'

/-- brackets are balanced, and blanks stand only inside them; angle and round brackets are counted
together -/
structure Balanced (t : List Char) : Prop where
  closings_le : ∀ i < t.length, closings (t.take i) ≤ openings (t.take i)
  closings_eq : closings t = openings t
  blanks_inside : ∀ i (hi : i < t.length), isBlank t[i] = true →
    closings (t.take i) < openings (t.take i)

instance (t : List Char) : Decidable (Balanced t) :=
  decidable_of_iff ((∀ i < t.length, closings (t.take i) ≤ openings (t.take i)) ∧
      closings t = openings t ∧ ∀ i (hi : i < t.length), isBlank t[i] = true →
        closings (t.take i) < openings (t.take i))
    ⟨fun ⟨hle, heq, hin⟩ => ⟨hle, heq, hin⟩, fun ⟨hle, heq, hin⟩ => ⟨hle, heq, hin⟩⟩

/-- the depth that the scanner counts, as long as nothing is closed that is not open -/
theorem depthAfter_add_closings (hs : ∀ i ≤ s.length, closings (s.take i) ≤ openings (s.take i)) :
    depthAfter 0 s + closings s = openings s := by
  induction s using List.reverseRecOn with
  | nil => rfl
  | append_singleton s c ih =>
    have hbefore : depthAfter 0 s + closings s = openings s := by
      refine ih fun i hi => ?_
      have h := hs i (by rw [List.length_append]; omega)
      rwa [List.take_append_of_le_length hi] at h
    have hlast : closings (s ++ [c]) ≤ openings (s ++ [c]) := by
      have h := hs _ le_rfl
      rwa [List.take_length] at h
    have hnest : depthAfter 0 (s ++ [c]) = nest (depthAfter 0 s) c := List.foldl_concat ..
    rw [hnest, nest]
    simp only [openings, closings, List.countP_append, List.countP_singleton,
      decide_eq_true_iff] at hbefore hlast ⊢
    by_cases hopen : c = '<' ∨ c = '('
    · have hclose : ¬ (c = '>' ∨ c = ')') := by rcases hopen with rfl | rfl <;> decide
      rw [if_pos hopen, if_neg hclose, if_pos hopen]
      omega
    · by_cases hclose : c = '>' ∨ c = ')'
      · rw [if_neg hopen, if_pos hclose] at hlast ⊢
        rw [if_pos hclose, if_neg hopen]
        omega
      · rw [if_neg hopen, if_neg hclose, if_neg hclose, if_neg hopen]
        omega

theorem Balanced.depthAfter_take (ht : Balanced t) (i : Nat) :
    depthAfter 0 (t.take i) + closings (t.take i) = openings (t.take i) := by
  refine depthAfter_add_closings fun j hj => ?_
  rw [List.take_take]
  rcases Nat.lt_or_ge (min j i) t.length with hlt | hge
  · exact ht.closings_le _ hlt
  · rw [List.take_of_length_le hge]
    exact ht.closings_eq.le

theorem Balanced.depthAfter_eq (ht : Balanced t) : depthAfter 0 t = 0 := by
  have h := ht.depthAfter_take t.length
  rw [List.take_length, ht.closings_eq] at h
  omega

theorem Balanced.enclosed (ht : Balanced t) : Enclosed 0 t := by
  rintro a c b rfl hc
  have htake : (a ++ c :: b).take a.length = a := List.take_left
  have hdepth := ht.depthAfter_take a.length
  have hinside := ht.blanks_inside a.length (by simp) (by simpa using hc)
  rw [htake] at hdepth hinside
  omega

theorem Balanced.head? (ht : Balanced t) : t.head?.any isBlank = false := by
  cases t with
  | nil => rfl
  | cons c t =>
    have hc := (enclosed_cons.mp ht.enclosed).1
    exact Bool.eq_false_iff.mpr fun h => Nat.lt_irrefl 0 (hc h)

theorem Balanced.isType (ht : Balanced t) (hrest : rest.head?.any isBlank = false) :
    IsType (t ++ ' ' :: rest) t rest :=
  ⟨.space t hrest, ht.enclosed, Or.inl ht.depthAfter_eq⟩

theorem isTyped_of_balanced (name : String) (hne : tag.type ≠ "") (ht : Balanced tag.type.toList)
    (hrest : tag.description.toList.head?.any isBlank = false) :
    IsTyped name ('@' :: (name.toList ++ ' ' :: (tag.type.toList ++ ' ' :: tag.description.toList)))
      tag := by
  have hstart : (tag.type.toList ++ ' ' :: tag.description.toList).head?.any isBlank = false := by
    rw [List.head?_append_of_ne_nil _ (by simpa using hne)]
    exact ht.head?
  exact ⟨_, .space name hstart, hne, ht.isType hrest⟩

theorem isParam_of_balanced (hne : p.type ≠ "") (hdollar : p.type.toList.head? ≠ some '$')
    (ht : Balanced p.type.toList) (hname : p.name ≠ "") (hsolid : Solid p.name.toList)
    (hrest : p.description.toList.head?.any isBlank = false) :
    IsParam ('@' :: ("param".toList ++ ' ' :: (p.type.toList ++ ' ' :: ('$' :: p.name.toList ++
      ' ' :: p.description.toList)))) p := by
  have hhead : ∀ u, (p.type.toList ++ ' ' :: u).head? = p.type.toList.head? :=
    fun u => List.head?_append_of_ne_nil _ (by simpa using hne)
  have hstart : ∀ u, (p.type.toList ++ ' ' :: u).head?.any isBlank = false := fun u => by
    rw [hhead]
    exact ht.head?
  exact .typed (.space "param" (hstart _)) ((hhead _).trans_ne hdollar) (ht.isType rfl)
    ⟨by simpa using hname, hsolid, .space ('$' :: p.name.toList) hrest⟩

/-! ## recording a tag -/

theorem mem_setParam {q : ParamTag} {ps : List ParamTag} (hq : q ∈ setParam p ps) :
    q = p ∨ q ∈ ps := by
  induction ps with
  | nil => exact Or.inl (List.mem_singleton.mp hq)
  | cons r rs ih =>
    rw [setParam] at hq
    split at hq
    · exact (List.mem_cons.mp hq).imp_right (List.mem_cons_of_mem _)
    · rcases List.mem_cons.mp hq with rfl | hq
      · exact Or.inr List.mem_cons_self
      · exact (ih hq).imp_right (List.mem_cons_of_mem _)

theorem addTag_spells (d : DocComment) (s : List Char) :
    (∀ p ∈ (addTag d (Tag.ofText ('@' :: s))).params, p ∈ d.params ∨ SpellsParam ('@' :: s) p) ∧
    (∀ tag, (addTag d (Tag.ofText ('@' :: s))).result = some tag →
      d.result = some tag ∨ SpellsTyped "return" ('@' :: s) tag) ∧
    ∀ tag, (addTag d (Tag.ofText ('@' :: s))).var = some tag →
      d.var = some tag ∨ SpellsTyped "var" ('@' :: s) tag := by
  cases e : Tag.ofText ('@' :: s) with
  | param p =>
    refine ⟨fun q hq => ?_, fun _ => Or.inl, fun _ => Or.inl⟩
    rcases mem_setParam hq with rfl | hq
    · exact Or.inr (ofText_eq_param_iff.mp e).spells
    · exact Or.inl hq
  | result t =>
    refine ⟨fun _ => Or.inl, fun tag htag => ?_, fun _ => Or.inl⟩
    rcases Option.or_eq_some_iff.mp htag with hold | ⟨-, rfl⟩
    · exact Or.inl hold
    · exact Or.inr ((ofText_eq_result_iff.mp e).spells (by decide))
  | var t =>
    refine ⟨fun _ => Or.inl, fun _ => Or.inl, fun tag htag => ?_⟩
    rcases Option.or_eq_some_iff.mp htag with hold | ⟨-, rfl⟩
    · exact Or.inl hold
    · exact Or.inr ((ofText_eq_var_iff.mp e).spells (by decide))
  | unnamedParam _ => exact ⟨fun _ => Or.inl, fun _ => Or.inl, fun _ => Or.inl⟩
  | other _ => exact ⟨fun _ => Or.inl, fun _ => Or.inl, fun _ => Or.inl⟩

end DocComment

open DocComment Text

/-- **Tags lose no text and keep types as written.**  Whatever a tag adds to a comment spells the
text of the tag, blanks left aside.  And a tag that is written with single spaces between its parts
is recorded with exactly these parts, if the brackets of the type are balanced and blanks stand only
inside them. -/
theorem tag_text_kept :
    (∀ (d : DocComment) (s : List Char),
      (∀ p ∈ (addTag d (Tag.ofText ('@' :: s))).params,
        p ∈ d.params ∨ SpellsParam ('@' :: s) p) ∧
      (∀ tag, (addTag d (Tag.ofText ('@' :: s))).result = some tag →
        d.result = some tag ∨ SpellsTyped "return" ('@' :: s) tag) ∧
      ∀ tag, (addTag d (Tag.ofText ('@' :: s))).var = some tag →
        d.var = some tag ∨ SpellsTyped "var" ('@' :: s) tag) ∧
    ∀ type name description : String, type ≠ "" → type.toList.head? ≠ some '$' →
      Balanced type.toList → name ≠ "" → Solid name.toList →
      description.toList.head?.any isBlank = false →
      addTag .empty (Tag.ofText ("@param " ++ type ++ " $" ++ name ++ " " ++ description).toList) =
        ⟨"", [⟨name, type, description⟩], none, none⟩ ∧
      addTag .empty (Tag.ofText ("@return " ++ type ++ " " ++ description).toList) =
        ⟨"", [], some ⟨type, description⟩, none⟩ ∧
      addTag .empty (Tag.ofText ("@var " ++ type ++ " " ++ description).toList) =
        ⟨"", [], none, some ⟨type, description⟩⟩ := by
  refine ⟨addTag_spells, fun type name description hne hdollar ht hname hsolid hrest => ?_⟩
  have hparam : Tag.ofText _ = .param ⟨name, type, description⟩ :=
    ofText_eq_param_iff.mpr (isParam_of_balanced hne hdollar ht hname hsolid hrest)
  have hresult : Tag.ofText _ = .result (some ⟨type, description⟩) :=
    ofText_eq_result_iff.mpr (isTyped_of_balanced "return" hne ht hrest)
  have hvar : Tag.ofText _ = .var (some ⟨type, description⟩) :=
    ofText_eq_var_iff.mpr (isTyped_of_balanced "var" hne ht hrest)
  have eparam : ("@param " ++ type ++ " $" ++ name ++ " " ++ description).toList =
    '@' :: ("param".toList ++ ' ' :: (type.toList ++ ' ' :: ('$' :: name.toList ++
      ' ' :: description.toList))) := by simp
  have eresult : ("@return " ++ type ++ " " ++ description).toList =
    '@' :: ("return".toList ++ ' ' :: (type.toList ++ ' ' :: description.toList)) := by simp
  have evar : ("@var " ++ type ++ " " ++ description).toList =
    '@' :: ("var".toList ++ ' ' :: (type.toList ++ ' ' :: description.toList)) := by simp
  rw [eparam, eresult, evar, hparam, hresult, hvar]
  exact ⟨rfl, rfl, rfl⟩

/-- a type with blanks in brackets of both kinds, and a description that looks like a variable -/
theorem tag_text_kept_of_counts :
    Balanced "array<string, (int | null)[]>".toList ∧
    addTag .empty (Tag.ofText "@param array<string, (int | null)[]> $counts $by name".toList) =
      ⟨"", [⟨"counts", "array<string, (int | null)[]>", "$by name"⟩], none, none⟩ ∧
    SpellsParam "@param array<string, (int | null)[]> $counts $by name".toList
      ⟨"counts", "array<string, (int | null)[]>", "$by name"⟩ := by
  have hbalanced : Balanced "array<string, (int | null)[]>".toList := by decide
  obtain ⟨hspells, hverbatim⟩ := tag_text_kept
  obtain ⟨hparam, -⟩ := hverbatim "array<string, (int | null)[]>" "counts" "$by name" (by decide)
    (by decide) hbalanced (by decide) (by decide) (by decide)
  have etext : "@param " ++ "array<string, (int | null)[]>" ++ " $" ++ "counts" ++ " " ++
    "$by name" = "@param array<string, (int | null)[]> $counts $by name" := by decide
  rw [etext] at hparam
  have ehead : "@param array<string, (int | null)[]> $counts $by name".toList =
    '@' :: "param array<string, (int | null)[]> $counts $by name".toList := by decide
  refine ⟨hbalanced, hparam, ?_⟩
  obtain ⟨hnew, -⟩ := hspells .empty "param array<string, (int | null)[]> $counts $by name".toList
  rw [← ehead, hparam] at hnew
  exact (hnew _ List.mem_cons_self).resolve_left List.not_mem_nil

end TypeHint
