import Mathlib.Data.List.Sort
import TypeHint.Order

/-!
# Sorted lists, first occurrences and look-ups

* `sortBy_eq_insertionSort`   `sortBy lt` is insertion sort for "not after"
* `mem_sortBy`, `sortBy_pairwise`   it keeps the elements and puts them in order
* `exists_mem_freshBy`        every key that was not seen before has one element in `freshBy`
* `freshBy_pairwise`          no key has two
* `find?_freshBy`             a look-up by key finds the same as before
* `freshBy_nil_eq`            from the start, it erases duplicates
* `lookup_perm`               among distinct keys a look-up does not depend on their order
-/

namespace TypeHint

variable {α κ : Type}

/-! ## sorting -/

theorem insertBy_eq_orderedInsert (lt : α → α → Bool) (x : α) (xs : List α) :
    insertBy lt x xs = xs.orderedInsert (fun a b => lt b a = false) x := by
  induction xs with
  | nil => rfl
  | cons y ys ih =>
    rw [insertBy, List.orderedInsert_cons, ih]
    cases lt y x <;> rfl

theorem sortBy_eq_insertionSort (lt : α → α → Bool) (xs : List α) :
    sortBy lt xs = xs.insertionSort (fun a b => lt b a = false) := by
  induction xs with
  | nil => rfl
  | cons x xs ih =>
    show insertBy lt x (sortBy lt xs) = _
    rw [ih, insertBy_eq_orderedInsert]
    rfl

theorem sortBy_perm (lt : α → α → Bool) (xs : List α) : (sortBy lt xs).Perm xs := by
  rw [sortBy_eq_insertionSort]
  exact List.perm_insertionSort _ xs

@[simp] theorem mem_sortBy {lt : α → α → Bool} {x : α} {xs : List α} :
    x ∈ sortBy lt xs ↔ x ∈ xs :=
  (sortBy_perm lt xs).mem_iff

/-- if "not after" is total and transitive, no element of the sorted list comes after a later one -/
theorem sortBy_pairwise {lt : α → α → Bool} (total : ∀ a b, lt b a = false ∨ lt a b = false)
    (trans : ∀ a b c, lt b a = false → lt c b = false → lt c a = false) (xs : List α) :
    (sortBy lt xs).Pairwise (fun a b => lt b a = false) := by
  have : Std.Total (fun a b : α => lt b a = false) := ⟨total⟩
  have : IsTrans α (fun a b => lt b a = false) := ⟨trans⟩
  rw [sortBy_eq_insertionSort]
  exact List.pairwise_insertionSort _ xs

/-! ## first occurrences -/

variable [DecidableEq κ]

theorem freshBy_sublist (key : α → κ) (seen : List κ) (xs : List α) :
    (freshBy key seen xs).Sublist xs := by
  induction xs generalizing seen with
  | nil => exact .slnil
  | cons x xs ih =>
    rw [freshBy]
    split
    · exact (ih seen).cons x
    · exact (ih (key x :: seen)).cons_cons x

theorem key_notMem_of_mem_freshBy {key : α → κ} {x : α} {xs : List α} :
    ∀ {seen : List κ}, x ∈ freshBy key seen xs → key x ∉ seen := by
  induction xs with
  | nil => intro seen hx; cases hx
  | cons y ys ih =>
    intro seen hx
    rw [freshBy] at hx
    split at hx
    · exact ih hx
    · rename_i hy
      rcases List.mem_cons.mp hx with rfl | hx
      · exact hy
      · exact fun hs => ih hx (List.mem_cons_of_mem _ hs)

theorem freshBy_pairwise (key : α → κ) (seen : List κ) (xs : List α) :
    (freshBy key seen xs).Pairwise (fun a b => key a ≠ key b) := by
  induction xs generalizing seen with
  | nil => exact .nil
  | cons x xs ih =>
    rw [freshBy]
    split
    · exact ih seen
    · refine List.pairwise_cons.mpr ⟨fun y hy e => ?_, ih _⟩
      exact key_notMem_of_mem_freshBy hy (e ▸ List.mem_cons_self)

theorem exists_mem_freshBy {key : α → κ} {x : α} {xs : List α} (hx : x ∈ xs) :
    ∀ {seen : List κ}, key x ∉ seen → ∃ y ∈ freshBy key seen xs, key y = key x := by
  induction xs with
  | nil => cases hx
  | cons z zs ih =>
    intro seen hs
    rw [freshBy]
    by_cases hz : key z ∈ seen
    · rw [if_pos hz]
      rcases List.mem_cons.mp hx with rfl | hx
      · exact absurd hz hs
      · exact ih hx hs
    · rw [if_neg hz]
      by_cases e : key z = key x
      · exact ⟨z, List.mem_cons_self, e⟩
      · have hx' : x ∈ zs := (List.mem_cons.mp hx).resolve_left fun h => e (h ▸ rfl)
        have hs' : key x ∉ key z :: seen := fun h =>
          (List.mem_cons.mp h).elim (fun h => e h.symm) hs
        obtain ⟨y, hy, hk⟩ := ih hx' hs'
        exact ⟨y, List.mem_cons_of_mem _ hy, hk⟩

theorem find?_of_mem_freshBy {key : α → κ} {x : α} {xs : List α} :
    ∀ {seen : List κ}, x ∈ freshBy key seen xs → xs.find? (key · == key x) = some x := by
  induction xs with
  | nil => intro seen hx; cases hx
  | cons y ys ih =>
    intro seen hx
    have hseen := key_notMem_of_mem_freshBy hx
    rw [freshBy] at hx
    split at hx
    · rename_i hy
      have hne : key y ≠ key x := fun e => hseen (e ▸ hy)
      simpa [hne] using ih hx
    · rcases List.mem_cons.mp hx with rfl | hx
      · simp
      · have hne : key y ≠ key x := fun e =>
          key_notMem_of_mem_freshBy hx (e ▸ List.mem_cons_self)
        simpa [hne] using ih hx

theorem find?_freshBy {key : α → κ} {k : κ} {xs : List α} :
    ∀ {seen : List κ}, k ∉ seen →
      (freshBy key seen xs).find? (key · == k) = xs.find? (key · == k) := by
  induction xs with
  | nil => exact fun _ => rfl
  | cons x xs ih =>
    intro seen hk
    rw [freshBy]
    by_cases hx : key x = k
    · subst hx
      rw [if_neg hk, List.find?_cons_of_pos (by simp), List.find?_cons_of_pos (by simp)]
    · rw [List.find?_cons_of_neg (by simpa using hx)]
      split
      · exact ih hk
      · rw [List.find?_cons_of_neg (by simpa using hx)]
        exact ih fun h => (List.mem_cons.mp h).elim (fun e => hx e.symm) hk

theorem eraseDupsBy_loop_eq (key : α → κ) (xs kept : List α) :
    List.eraseDupsBy.loop (key · == key ·) xs kept =
      kept.reverse ++ freshBy key (kept.map key) xs := by
  induction xs generalizing kept with
  | nil => rw [List.eraseDupsBy.loop, freshBy, List.append_nil]
  | cons x xs ih =>
    have hany : kept.any (key x == key ·) = decide (key x ∈ kept.map key) := by
      rw [Bool.eq_iff_iff, List.any_eq_true, decide_eq_true_iff, List.mem_map]
      exact exists_congr fun y => and_congr_right fun _ => beq_iff_eq.trans eq_comm
    rw [List.eraseDupsBy.loop, freshBy, hany]
    by_cases hx : key x ∈ kept.map key
    · rw [if_pos hx, decide_eq_true hx]
      exact ih kept
    · rw [if_neg hx, decide_eq_false hx, List.append_cons, ← List.reverse_cons]
      exact ih (x :: kept)

theorem freshBy_nil_eq (key : α → κ) (xs : List α) :
    freshBy key [] xs = xs.eraseDupsBy (key · == key ·) :=
  (eraseDupsBy_loop_eq key xs []).symm

theorem mem_freshBy_id {x : κ} {seen xs : List κ} :
    x ∈ freshBy id seen xs ↔ x ∈ xs ∧ x ∉ seen := by
  constructor
  · intro hx
    exact ⟨(freshBy_sublist id seen xs).subset hx, key_notMem_of_mem_freshBy hx⟩
  · rintro ⟨hx, hs⟩
    obtain ⟨y, hy, rfl⟩ : ∃ y ∈ freshBy id seen xs, y = x := exists_mem_freshBy hx hs
    exact hy

/-! ## look-ups -/

theorem lookup_eq_some_iff_mem {l : List (κ × α)} {k : κ} {b : α}
    (hnd : (l.map Prod.fst).Nodup) : l.lookup k = some b ↔ (k, b) ∈ l := by
  induction l with
  | nil => simp
  | cons x l ih =>
    obtain ⟨a, v⟩ := x
    rw [List.map_cons, List.nodup_cons] at hnd
    rw [List.lookup_cons, List.mem_cons, Prod.mk.injEq]
    by_cases hk : k = a
    · have hout : (a, b) ∉ l := fun hmem => hnd.1 (List.mem_map.mpr ⟨_, hmem, rfl⟩)
      simp [hk, hout, eq_comm]
    · simp [hk, ih hnd.2, beq_false_of_ne hk]

theorem lookup_perm {l l' : List (κ × α)}
    (hnd : (l.map Prod.fst).Nodup) (hp : l.Perm l') (k : κ) : l.lookup k = l'.lookup k := by
  have hnd' : (l'.map Prod.fst).Nodup := (hp.map Prod.fst).nodup hnd
  ext b
  rw [lookup_eq_some_iff_mem hnd, lookup_eq_some_iff_mem hnd', hp.mem_iff]

end TypeHint
