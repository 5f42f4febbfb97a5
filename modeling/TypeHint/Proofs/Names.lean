import TypeHint.Proofs.Ancestors
import TypeHint.Proofs.Canonical
import TypeHint.Proofs.Split

/-!
# The name of a type determines it

Names of classes and interfaces are chosen freely, so a name is read back only if they keep clear of
the marks of the grammar and of the names that mean something else (`Name.Plain`).

* `split_name`       the parts of a name between `|` are the names of the members
* `ArrayText`        the three ways in which an array is written
* `name_injective`   well-formed types without generic parameters that share a name are identical
-/

namespace TypeHint

open Hint Text

/-! ## plain names -/

/-- the characters with which the name of a type is put together -/
def marks : List Char := brackets ++ ['|', ',', '[', ']']

def Unmarked (s : List Char) : Prop := ∀ c ∈ s, c ∉ marks

instance (s : List Char) : Decidable (Unmarked s) := List.decidableBAll (· ∉ marks) s

theorem exists_mem_consPiece {c d : Char} {ps : List (List Char)} :
    (∃ p ∈ consPiece d ps, c ∈ p) ↔ c = d ∨ ∃ p ∈ ps, c ∈ p := by
  cases ps with
  | nil => simp [consPiece]
  | cons p ps => simp [consPiece, or_assoc]

theorem mem_pieces {sep c : Char} {s : List Char} (hc : c ∈ s) (hne : c ≠ sep) :
    ∃ p ∈ pieces sep s, c ∈ p := by
  induction s with
  | nil => cases hc
  | cons d s ih =>
    rw [pieces]
    split
    · rename_i hd
      have hcs : c ∈ s := (List.mem_cons.mp hc).resolve_left fun e => hne (e.trans hd)
      obtain ⟨p, hp, hcp⟩ := ih hcs
      exact ⟨p, List.mem_cons_of_mem _ hp, hcp⟩
    · exact exists_mem_consPiece.mpr ((List.mem_cons.mp hc).imp_right ih)

theorem continuesIdentifier_of_mem {p : List Char} {c : Char} (hp : Name.isIdentifier p = true)
    (hc : c ∈ p) : Name.continuesIdentifier c = true := by
  cases p with
  | nil => cases hc
  | cons d p =>
    rw [Name.isIdentifier, Bool.and_eq_true, List.all_eq_true] at hp
    rcases List.mem_cons.mp hc with rfl | hc
    · rw [Name.continuesIdentifier, hp.1, Bool.true_or]
    · exact hp.2 c hc

theorem unmarked_of_isValid {s : List Char} (hs : Name.isValid s = true) : Unmarked s := by
  intro c hc hm
  have hall : (marks.all fun c => c != Name.separator && !Name.continuesIdentifier c) = true := by
    decide
  have hout := List.all_eq_true.mp hall c hm
  rw [Bool.and_eq_true, bne_iff_ne, Bool.not_eq_true'] at hout
  obtain ⟨p, hp, hcp⟩ := mem_pieces hc hout.1
  have hin := continuesIdentifier_of_mem (List.all_eq_true.mp hs p hp) hcp
  rw [hout.2] at hin
  cases hin

/-- a well-formed name that stands for nothing but a class or an interface -/
structure Name.Plain (n : String) : Prop where
  valid : Name.isValid n.toList = true
  ne_primitive : ∀ p ∈ Primitive.all, n ≠ p.name
  ne_array : n ≠ "array"

instance (n : String) : Decidable (Name.Plain n) :=
  decidable_of_iff (Name.isValid n.toList = true ∧ (∀ p ∈ Primitive.all, n ≠ p.name) ∧ n ≠ "array")
    ⟨fun ⟨hv, hp, ha⟩ => ⟨hv, hp, ha⟩, fun ⟨hv, hp, ha⟩ => ⟨hv, hp, ha⟩⟩

def Hierarchy.Plain (h : Hierarchy) : Prop :=
  ∀ n, h.isClass n = true ∨ h.isInterface n = true → Name.Plain n

def Table.Plain (t : Table) : Prop := ∀ n ∈ t.names, Name.Plain n

instance (t : Table) : Decidable t.Plain :=
  inferInstanceAs (Decidable (∀ n ∈ t.names, Name.Plain n))

theorem Table.mem_names {t : Table} {n : String}
    (hn : t.hierarchy.isClass n = true ∨ t.hierarchy.isInterface n = true) : n ∈ t.names := by
  refine find?_isSome_iff.mp ?_
  rcases hn with hn | hn
  · exact Option.isSome_of_isSome_bind hn
  · exact Option.isSome_of_isSome_bind hn

theorem Table.Plain.hierarchy {t : Table} (ht : t.Plain) : t.hierarchy.Plain :=
  fun n hn => ht n (Table.mem_names hn)

/-! ## types without generic parameters -/

/-- a well-formed type in which no generic parameter occurs -/
structure Concrete (h : Hierarchy) (t : Ty) : Prop where
  wellFormed : WellFormed h t
  noGeneric : t.hasGeneric = false

namespace Concrete

variable {h : Hierarchy} {t m k i : Ty}

theorem of_mem_members (ht : Concrete h t) (hm : m ∈ t.members) : Concrete h m :=
  ⟨(ht.wellFormed.of_mem_members hm).1, Ty.hasGeneric_of_mem_members ht.noGeneric hm⟩

theorem kind_of_mem_members (ht : Concrete h t) (hm : m ∈ t.members) : m.kind ≠ .union :=
  (ht.wellFormed.of_mem_members hm).2

theorem key (ht : Concrete h (.array k i)) : Concrete h k := by
  obtain ⟨hw, hg⟩ := ht
  cases hw with
  | array hk hi => exact ⟨hk, (Bool.or_eq_false_iff.mp hg).1⟩

theorem item (ht : Concrete h (.array k i)) : Concrete h i := by
  obtain ⟨hw, hg⟩ := ht
  cases hw with
  | array hk hi => exact ⟨hi, (Bool.or_eq_false_iff.mp hg).2⟩

end Concrete

/-- primitive types, classes and interfaces -/
def Ty.isLeaf (t : Ty) : Bool := t.isPrimitive || t.isObject

section

variable {h : Hierarchy} {t a b k i : Ty} {sep : Char} {stack s : List Char}

theorem Concrete.leaf_or_array (ht : Concrete h t) (hu : t.kind ≠ .union) :
    t.isLeaf = true ∨ ∃ k i, t = .array k i := by
  cases t with
  | primitive _ | cls _ | iface _ => exact Or.inl rfl
  | array k i => exact Or.inr ⟨k, i, rfl⟩
  | union ms => exact absurd rfl hu
  | generic n d => cases ht.noGeneric

/-! ## texts of names -/

theorem leaf_unmarked (hp : h.Plain) (ht : WellFormed h t) (hleaf : t.isLeaf = true) :
    Unmarked t.name.toList ∧ t.name ≠ "array" := by
  cases ht with
  | primitive p => cases p <;> decide
  | cls hn =>
    have hpl := hp _ (Or.inl hn)
    exact ⟨unmarked_of_isValid hpl.valid, hpl.ne_array⟩
  | iface hn =>
    have hpl := hp _ (Or.inr hn)
    exact ⟨unmarked_of_isValid hpl.valid, hpl.ne_array⟩
  | array | union | generic => cases hleaf

/-- the ways in which an array with keys `k` and items `i` is written -/
inductive ArrayText (k i : Ty) (s : List Char) : Prop
  | keyed (hk : k ≠ .mixed)
    (e : s = "array".toList ++ '<' :: ((k.name.toList ++ ',' :: i.name.toList) ++ ['>']))
  | bare (hk : k = .mixed) (hi : i = .mixed) (e : s = "array".toList)
  | grouped (hk : k = .mixed) (hi : i ≠ .mixed) (hu : i.kind = .union)
    (e : s = '(' :: (i.name.toList ++ [')']) ++ "[]".toList)
  | listed (hk : k = .mixed) (hi : i ≠ .mixed) (hu : i.kind ≠ .union)
    (e : s = i.name.toList ++ "[]".toList)

theorem arrayText (k i : Ty) : ArrayText k i (Ty.array k i).name.toList := by
  have e : (Ty.array k i).name = Ty.arrayName k i k.name i.name := by rw [Ty.name]
  rw [e, Ty.arrayName]
  by_cases hk : k = .mixed
  · have hk' : (!k.isMixed) = false := by rw [Ty.isMixed_iff.mpr hk]; rfl
    rw [hk', if_neg Bool.false_ne_true]
    by_cases hi : i = .mixed
    · rw [if_pos (Ty.isMixed_iff.mpr hi)]
      exact .bare hk hi rfl
    · rw [if_neg (mt Ty.isMixed_iff.mp hi)]
      by_cases hu : i.kind = .union
      · rw [if_pos hu]
        exact .grouped hk hi hu (by simp)
      · rw [if_neg hu]
        exact .listed hk hi hu (by simp)
  · have hk' : (!k.isMixed) = true := by
      rw [Bool.not_eq_true', Bool.eq_false_iff]
      exact mt Ty.isMixed_iff.mp hk
    rw [if_pos hk']
    exact .keyed hk (by simp)

/-- a name is the sequence of the names of its members -/
theorem name_toList (t : Ty) :
    t.name.toList = ['|'].intercalate (t.members.map fun m => m.name.toList) := by
  cases t with
  | union ms =>
    rw [Ty.name, Ty.memberNames_eq, String.toList_intercalate, List.map_map]
    rfl
  | primitive _ | array _ _ | cls _ | iface _ | generic _ _ =>
    exact (List.intercalate_singleton ..).symm

/-! ## reading a name -/

theorem Hint.Passes.unmarked (hsep : sep ∈ marks) (hs : Unmarked s) : Passes sep stack s := by
  induction s with
  | nil => exact .nil sep stack
  | cons c s ih =>
    have hno := hs c List.mem_cons_self
    have hc : Passes sep stack [c] :=
      .char (fun hb => hno (List.mem_append_left _ hb)) fun e => absurd (e ▸ hsep) hno
    exact hc.append (ih fun d hd => hs d (List.mem_cons_of_mem _ hd))

theorem Hint.Passes.items (hsep : sep = '|' ∨ sep = ',') : Passes sep stack "[]".toList := by
  have hpass : ∀ c, c ∉ brackets → c ≠ '|' → c ≠ ',' → Passes sep stack [c] := by
    intro c hb h₁ h₂
    refine .char hb fun e => ?_
    rcases hsep with rfl | rfl
    · exact absurd e h₁
    · exact absurd e h₂
  exact (hpass '[' (by decide) (by decide) (by decide)).append
    (hpass ']' (by decide) (by decide) (by decide))

/-- the name of a type is never cut at `,`, and at `|` only the name of a union -/
theorem passes_name (hp : h.Plain) (hsep : sep = '|' ∨ sep = ',') (ht : WellFormed h t)
    (hg : t.hasGeneric = false) : ∀ stack, (sep = '|' → t.kind = .union → stack ≠ []) →
    Passes sep stack t.name.toList := by
  have hmark : sep ∈ marks := by rcases hsep with rfl | rfl <;> decide
  induction ht with
  | primitive p =>
    intro stack _
    exact .unmarked hmark (leaf_unmarked hp (.primitive p) rfl).1
  | cls hn =>
    intro stack _
    exact .unmarked hmark (leaf_unmarked hp (.cls hn) rfl).1
  | iface hn =>
    intro stack _
    exact .unmarked hmark (leaf_unmarked hp (.iface hn) rfl).1
  | @array k i hk hi ihk ihi =>
    intro stack _
    obtain ⟨hgk, hgi⟩ := Bool.or_eq_false_iff.mp hg
    have hword : Passes sep stack "array".toList := .unmarked hmark (by decide)
    cases arrayText k i with
    | keyed _ e =>
      have hcomma : Passes sep ('<' :: stack) [','] :=
        .char (by decide) fun _ => List.cons_ne_nil _ _
      have hkey := ihk hgk ('<' :: stack) fun _ _ => List.cons_ne_nil _ _
      have hitem := ihi hgi ('<' :: stack) fun _ _ => List.cons_ne_nil _ _
      rw [e]
      exact hword.append (.angle (hkey.append (hcomma.append hitem)))
    | bare _ _ e => rw [e]; exact hword
    | grouped _ _ _ e =>
      rw [e]
      exact (Passes.group (ihi hgi ('(' :: stack) fun _ _ => List.cons_ne_nil _ _)).append
        (.items hsep)
    | listed _ _ hu e =>
      rw [e]
      exact (ihi hgi stack fun _ hu' => absurd hu' hu).append (.items hsep)
  | @union ms hms hc ih =>
    intro stack hstack
    rw [Ty.hasGeneric, Ty.anyHasGeneric_eq, List.any_eq_false] at hg
    have hbar : Passes sep stack ['|'] := .char (by decide) fun e => hstack e.symm rfl
    rw [name_toList]
    refine .intercalate hbar fun s hs => ?_
    obtain ⟨m, hm, rfl⟩ := List.mem_map.mp hs
    exact ih m hm (Bool.eq_false_iff.mpr (hg m hm)) stack fun _ hu => absurd hu (hc.flat m hm)
  | generic hd ihd => cases hg

/-- the parts of a name between `|` are the names of the members -/
theorem split_name (hp : h.Plain) (ht : Concrete h t) :
    split '|' [] t.name.toList = .ok (t.members.map fun m => m.name.toList) := by
  rw [name_toList]
  refine split_intercalate (by decide) ?_ fun s hs => ?_
  · rw [Ne, List.map_eq_nil_iff]
    exact ht.wellFormed.members_ne_nil
  · obtain ⟨m, hm, rfl⟩ := List.mem_map.mp hs
    have hmc := ht.of_mem_members hm
    exact passes_name hp (Or.inl rfl) hmc.wellFormed hmc.noGeneric []
      fun _ hu => absurd hu (ht.kind_of_mem_members hm)

/-! ## equal names -/

/-- the last character of the name of an array tells how it is written -/
def ending (k i : Ty) : Char := if k ≠ .mixed then '>' else if i = .mixed then 'y' else ']'

theorem ArrayText.getLast? (hs : ArrayText k i s) : s.getLast? = some (ending k i) := by
  cases hs with
  | keyed hk e =>
    rw [e, ending, if_pos hk, List.append_cons, ← List.append_assoc, List.getLast?_concat]
  | bare hk hi e => rw [e, ending, if_neg (not_not_intro hk), if_pos hi]; rfl
  | grouped hk hi hu e =>
    rw [e, ending, if_neg (not_not_intro hk), if_neg hi, List.getLast?_append]; rfl
  | listed hk hi hu e =>
    rw [e, ending, if_neg (not_not_intro hk), if_neg hi, List.getLast?_append]; rfl

theorem getLast?_name_ne (hp : h.Plain) (ht : Concrete h t) (hu : t.kind ≠ .union) :
    t.name.toList.getLast? ≠ some ')' := by
  intro e
  rcases ht.leaf_or_array hu with hleaf | ⟨k, i, rfl⟩
  · exact (leaf_unmarked hp ht.wellFormed hleaf).1 ')' (List.mem_of_getLast? e) (by decide)
  · rw [(arrayText k i).getLast?, ending] at e
    split at e
    · exact absurd (Option.some.inj e) (by decide)
    · split at e
      · exact absurd (Option.some.inj e) (by decide)
      · exact absurd (Option.some.inj e) (by decide)

theorem ArrayText.eq_array_or_marked (hs : ArrayText k i s) :
    s = "array".toList ∨ ∃ c ∈ s, c ∈ marks := by
  cases hs with
  | keyed _ e => exact Or.inr ⟨'<', by rw [e]; simp, by decide⟩
  | bare _ _ e => exact Or.inl e
  | grouped _ _ _ e => exact Or.inr ⟨'(', by rw [e]; exact List.mem_cons_self, by decide⟩
  | listed _ _ _ e => exact Or.inr ⟨']', by rw [e]; simp, by decide⟩

theorem leaf_name_ne_array (hp : h.Plain) (ht : WellFormed h t) (hleaf : t.isLeaf = true) :
    t.name ≠ (Ty.array k i).name := by
  intro he
  obtain ⟨hno, hne⟩ := leaf_unmarked hp ht hleaf
  rcases (arrayText k i).eq_array_or_marked with e | ⟨c, hc, hm⟩
  · exact hne (he.trans (String.toList_inj.mp e))
  · rw [← he] at hc
    exact hno c hc hm

theorem Primitive.name_inj {p q : Primitive} (he : p.name = q.name) : p = q := by
  have hq := Primitive.ofName?_name q
  rw [← he, Primitive.ofName?_name] at hq
  exact Option.some.inj hq

theorem eq_of_leaf_name (hl : h.Lawful) (hp : h.Plain) (ha : WellFormed h a) (hb : WellFormed h b)
    (hla : a.isLeaf = true) (hlb : b.isLeaf = true) (he : a.name = b.name) : a = b := by
  have hdis : ∀ n, h.isClass n = true → h.isInterface n = true → False := by
    intro n hc hi
    rw [hl.disjoint hc] at hi
    cases hi
  cases ha with
  | primitive p =>
    cases hb with
    | primitive q => rw [Primitive.name_inj he]
    | cls hn => exact absurd he.symm ((hp _ (Or.inl hn)).ne_primitive p p.mem_all)
    | iface hn => exact absurd he.symm ((hp _ (Or.inr hn)).ne_primitive p p.mem_all)
    | array | union | generic => cases hlb
  | @cls n hn =>
    cases hb with
    | primitive q => exact absurd he ((hp _ (Or.inl hn)).ne_primitive q q.mem_all)
    | cls hm => exact congrArg Ty.cls he
    | @iface m hm => exact (hdis n hn ((show n = m from he) ▸ hm)).elim
    | array | union | generic => cases hlb
  | @iface n hn =>
    cases hb with
    | primitive q => exact absurd he ((hp _ (Or.inr hn)).ne_primitive q q.mem_all)
    | @cls m hm => exact (hdis n ((show n = m from he) ▸ hm) hn).elim
    | iface hm => exact congrArg Ty.iface he
    | array | union | generic => cases hlb
  | array | union | generic => cases hla

/-- key and item of a keyed array are the two parts of what stands between its brackets -/
theorem key_item_names_of_keyed {k' i' : Ty} (hp : h.Plain) (ha : Concrete h (.array k i))
    (hb : Concrete h (.array k' i'))
    (he : k.name.toList ++ ',' :: i.name.toList = k'.name.toList ++ ',' :: i'.name.toList) :
    k.name = k'.name ∧ i.name = i'.name := by
  have hpass : ∀ {t}, Concrete h t → Passes ',' [] t.name.toList := fun ht =>
    passes_name hp (Or.inr rfl) ht.wellFormed ht.noGeneric [] fun e => absurd e (by decide)
  have hsplit : ∀ {k i}, Concrete h (.array k i) →
      split ',' [] (k.name.toList ++ ',' :: i.name.toList) =
        .ok [k.name.toList, i.name.toList] := by
    intro k i ht
    rw [split_sep (by decide) (hpass ht.key), split_of_passes (hpass ht.item)]
    rfl
  have e := hsplit ha
  rw [he, hsplit hb] at e
  simp only [Except.ok.injEq, List.cons.injEq, and_true, String.toList_inj] at e
  exact ⟨e.1.symm, e.2.symm⟩

theorem key_item_names {k' i' : Ty} (hp : h.Plain) (ha : Concrete h (.array k i))
    (hb : Concrete h (.array k' i')) (he : (Ty.array k i).name = (Ty.array k' i').name) :
    k.name = k'.name ∧ i.name = i'.name := by
  have hta := arrayText k i
  have htb := arrayText k' i'
  have hend : ending k i = ending k' i' := by
    have e := hta.getLast?
    rw [he, htb.getLast?] at e
    exact (Option.some.inj e).symm
  rw [he] at hta
  -- `hend` rules out all pairs of different forms but a group against what is no group
  cases hta with
  | keyed hk e₁ =>
    cases htb with
    | keyed _ e₂ =>
      have e := List.append_cancel_left (e₁.symm.trans e₂)
      exact key_item_names_of_keyed hp ha hb (List.append_cancel_right (List.cons.inj e).2)
    | bare hk' hi' | grouped hk' hi' | listed hk' hi' => simp [ending, hk, hk', hi'] at hend
  | bare hk hi e₁ =>
    cases htb with
    | bare hk' hi' => rw [hk, hi, hk', hi']; exact ⟨rfl, rfl⟩
    | keyed hk' => simp [ending, hk, hk', hi] at hend
    | grouped hk' hi' | listed hk' hi' => simp [ending, hk, hk', hi, hi'] at hend
  | grouped hk hi hu e₁ =>
    cases htb with
    | grouped hk' _ _ e₂ =>
      have e := List.append_cancel_right (e₁.symm.trans e₂)
      rw [hk, hk']
      exact ⟨rfl, String.toList_inj.mp (List.append_cancel_right (List.cons.inj e).2)⟩
    | listed _ _ hu' e₂ =>
      have e := List.append_cancel_right (e₁.symm.trans e₂)
      refine absurd ?_ (getLast?_name_ne hp hb.item hu')
      rw [← e, ← List.cons_append, List.getLast?_concat]
    | keyed hk' => simp [ending, hk, hk', hi] at hend
    | bare hk' hi' => simp [ending, hk, hk', hi, hi'] at hend
  | listed hk hi hu e₁ =>
    cases htb with
    | listed hk' _ _ e₂ =>
      have e := List.append_cancel_right (e₁.symm.trans e₂)
      rw [hk, hk']
      exact ⟨rfl, String.toList_inj.mp e⟩
    | grouped _ _ _ e₂ =>
      have e := List.append_cancel_right (e₁.symm.trans e₂)
      refine absurd ?_ (getLast?_name_ne hp ha.item hu)
      rw [e, ← List.cons_append, List.getLast?_concat]
    | keyed hk' => simp [ending, hk, hk', hi] at hend
    | bare hk' hi' => simp [ending, hk, hk', hi, hi'] at hend

theorem WellFormed.two_le_members (ht : WellFormed h t) (hu : t.kind = .union) :
    2 ≤ t.members.length := by
  cases ht with
  | union hms hc => exact hc.two_le
  | primitive | array | cls | iface | generic => cases hu

theorem WellFormed.eq_of_members (ha : WellFormed h a) (hb : WellFormed h b)
    (e : a.members = b.members) : a = b := by
  have hone : ∀ {t : Ty}, t.kind ≠ .union → t.members.length = 1 := fun hu => by
    rw [Ty.members_of_kind_ne_union hu, List.length_singleton]
  by_cases hua : a.kind = .union
  · have h₂ := ha.two_le_members hua
    by_cases hub : b.kind = .union
    · cases a <;> cases hua
      cases b <;> cases hub
      exact congrArg Ty.union e
    · rw [e, hone hub] at h₂
      omega
  · by_cases hub : b.kind = .union
    · have h₂ := hb.two_le_members hub
      rw [← e, hone hua] at h₂
      omega
    · rw [Ty.members_of_kind_ne_union hua, Ty.members_of_kind_ne_union hub] at e
      exact List.singleton_inj.mp e

/-- one step down: what is not a union is determined by its name, if its parts are -/
theorem eq_of_name_of_flat (hl : h.Lawful) (hp : h.Plain) (ha : Concrete h a) (hb : Concrete h b)
    (hua : a.kind ≠ .union) (hub : b.kind ≠ .union)
    (ih : ∀ x y, sizeOf x < sizeOf a → Concrete h x → Concrete h y → x.name = y.name → x = y)
    (he : a.name = b.name) : a = b := by
  rcases ha.leaf_or_array hua with hla | ⟨k, i, rfl⟩
  · rcases hb.leaf_or_array hub with hlb | ⟨k', i', rfl⟩
    · exact eq_of_leaf_name hl hp ha.wellFormed hb.wellFormed hla hlb he
    · exact absurd he (leaf_name_ne_array hp ha.wellFormed hla)
  · rcases hb.leaf_or_array hub with hlb | ⟨k', i', rfl⟩
    · exact absurd he.symm (leaf_name_ne_array hp hb.wellFormed hlb)
    · obtain ⟨hek, hei⟩ := key_item_names hp ha hb he
      have hk := ih k k' (by rw [Ty.array.sizeOf_spec]; omega) ha.key hb.key hek
      have hi := ih i i' (by rw [Ty.array.sizeOf_spec]; omega) ha.item hb.item hei
      rw [hk, hi]

theorem eq_of_map_eq {α β : Type} {f : α → β} {xs ys : List α}
    (hf : ∀ x ∈ xs, ∀ y ∈ ys, f x = f y → x = y) (e : xs.map f = ys.map f) : xs = ys := by
  induction xs generalizing ys with
  | nil => exact (List.map_eq_nil_iff.mp e.symm).symm
  | cons x xs ih =>
    cases ys with
    | nil => cases e
    | cons y ys =>
      obtain ⟨hxy, hrest⟩ := List.cons.inj e
      rw [hf x List.mem_cons_self y List.mem_cons_self hxy, ih (fun u hu v hv =>
        hf u (List.mem_cons_of_mem _ hu) v (List.mem_cons_of_mem _ hv)) hrest]

theorem name_injective_of_size (hl : h.Lawful) (hp : h.Plain) (n : Nat) : ∀ a b : Ty,
    sizeOf a < n → Concrete h a → Concrete h b → a.name = b.name → a = b := by
  induction n with
  | zero => intro a b hn; omega
  | succ n ih =>
    intro a b hn ha hb he
    have hparts := split_name hp ha
    rw [he, split_name hp hb] at hparts
    -- the parts of the common name are the names of the members on both sides
    refine ha.wellFormed.eq_of_members hb.wellFormed
      (eq_of_map_eq (fun x hx y hy hxy => ?_) (Except.ok.inj hparts).symm)
    have hle := Ty.sizeOf_le_of_mem_members hx
    exact eq_of_name_of_flat hl hp (ha.of_mem_members hx) (hb.of_mem_members hy)
      (ha.kind_of_mem_members hx) (hb.kind_of_mem_members hy)
      (fun u v hu => ih u v (by omega)) (String.toList_inj.mp hxy)

theorem name_injective (hl : h.Lawful) (hp : h.Plain) (ha : Concrete h a) (hb : Concrete h b)
    (he : a.name = b.name) : a = b :=
  name_injective_of_size hl hp _ a b (Nat.lt_succ_self _) ha hb he

end

end TypeHint
