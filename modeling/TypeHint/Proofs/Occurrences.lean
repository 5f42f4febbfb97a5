import TypeHint.Proofs.ByteOrder
import TypeHint.Proofs.Preorder

/-!
# Every type inside a type is well-formed

A union may stand deep inside a type: as the key or the item of an array, inside a member of another
union, or in the type that declares a generic parameter.  Operations never look there, so what a
union was when it was built it still is wherever it stands.

* `Ty.Occurs s t`            `s` stands somewhere in `t`
* `WellFormed.of_occurs`     what stands in a well-formed type is well-formed
* `Union.Canonical.ascending`   the order of members, in the bytes of their names
-/

namespace TypeHint

open TypeHint.Union

/-- `s` is `t`, or it stands in a part of `t` -/
inductive Ty.Occurs (s : Ty) : Ty → Prop
  | here : Occurs s s
  | key {k i : Ty} (hs : Occurs s k) : Occurs s (.array k i)
  | item {k i : Ty} (hs : Occurs s i) : Occurs s (.array k i)
  | member {ms : List Ty} {m : Ty} (hm : m ∈ ms) (hs : Occurs s m) : Occurs s (.union ms)
  | declaring {n : String} {d : Ty} (hs : Occurs s d) : Occurs s (.generic n d)

variable {h : Hierarchy} {s t : Ty} {ms : List Ty}

theorem WellFormed.of_occurs (ht : WellFormed h t) (hs : s.Occurs t) : WellFormed h s := by
  induction hs with
  | here => exact ht
  | key _ ih =>
    cases ht with
    | array hk _ => exact ih hk
  | item _ ih =>
    cases ht with
    | array _ hi => exact ih hi
  | member hm _ ih =>
    cases ht with
    | union hms _ => exact ih (hms _ hm)
  | declaring _ ih =>
    cases ht with
    | generic hd => exact ih hd

/-- first what is not primitive, `null` last, and the bytes of the names within each rank -/
theorem Union.Canonical.ascending (hc : Canonical h ms) : ms.Pairwise fun a b =>
    rank a < rank b ∨ rank a = rank b ∧ utf8 a.name ≤ utf8 b.name := by
  refine hc.sorted.imp fun {a b} hab => ?_
  rw [utf8_le_iff]
  exact before_eq_false_iff.mp hab

/-- **The invariant of every type that can be built.**  In every table and at every place inside the
type, a union has two or more members, none of them a union, in order, no two with the same kind and
name, and none of them accepts another; and every class and every interface is registered as
such. -/
theorem built_occurs_canonical (t : Table) (a : Ty) (ha : Built t.hierarchy a) :
    (∀ ms, (Ty.union ms).Occurs a →
      2 ≤ ms.length ∧ (∀ m ∈ ms, m.kind ≠ .union) ∧
      (ms.Pairwise fun x y => rank x < rank y ∨ rank x = rank y ∧ utf8 x.name ≤ utf8 y.name) ∧
      (ms.Pairwise fun x y => (x.kind, x.name) ≠ (y.kind, y.name)) ∧
      ∀ x ∈ ms, ∀ y ∈ ms, x ≠ y → assignable t.hierarchy x y = .ok false) ∧
    (∀ n, (Ty.cls n).Occurs a → t.isClass n = true) ∧
    ∀ n, (Ty.iface n).Occurs a → t.isInterface n = true := by
  have hwf := ha.wellFormed
  refine ⟨fun ms hs => ?_, fun n hs => ?_, fun n hs => ?_⟩
  · cases hwf.of_occurs hs with
    | union _ hc =>
      refine ⟨hc.two_le, hc.flat, hc.ascending, hc.distinct, ?_⟩
      intro x hx y hy hne
      exact (hc.apart_of_ne hx hy hne).1
  · cases hwf.of_occurs hs with
    | cls hn => exact hn
  · cases hwf.of_occurs hs with
    | iface hn => exact hn

/-- a generic parameter with the name of a primitive type stands beside that type, and a union from
which `Leaf` was dropped stands in the item of an array beside both -/
theorem built_occurs_canonical_of_namesake :
    (Ty.unite Table.handlers.hierarchy [.primitive .string, .generic "string" (.cls "Leaf"),
        .array (.primitive .string) (.union [.iface "Handler", .null])]).result =
      .ok (.union [.array (.primitive .string) (.union [.iface "Handler", .null]),
        .generic "string" (.cls "Leaf"), .primitive .string]) ∧
    assignable Table.handlers.hierarchy (.generic "string" (.cls "Leaf")) (.primitive .string) =
      .ok false ∧
    assignable Table.handlers.hierarchy (.iface "Handler") .null = .ok false ∧
    Table.handlers.isClass "Leaf" = true ∧ Table.handlers.isInterface "Handler" = true := by
  have hunite : (Ty.unite Table.handlers.hierarchy [.primitive .string,
      .generic "string" (.cls "Leaf"),
      .array (.primitive .string) (.union [.iface "Handler", .null])]).result =
        .ok (.union [.array (.primitive .string) (.union [.iface "Handler", .null]),
          .generic "string" (.cls "Leaf"), .primitive .string]) := by decide +kernel
  have hstring : Built Table.handlers.hierarchy (.primitive .string) :=
    .classify (show classify _ (.text "") = _ by rfl)
  have hleaf : Built Table.handlers.hierarchy (.cls "Leaf") :=
    .classOfText (show (Ty.classOfText _ "Leaf").result = _ by decide +kernel)
  have hinner : Built Table.handlers.hierarchy (.union [.iface "Handler", .null]) :=
    .ofText (show (Ty.ofText _ none "null|Leaf|Handler").result = _ by decide +kernel)
  have hbuilt : Built Table.handlers.hierarchy
      (.union [.array (.primitive .string) (.union [.iface "Handler", .null]),
        .generic "string" (.cls "Leaf"), .primitive .string]) := by
    refine .unite (fun a ha => ?_) hunite
    simp only [List.mem_cons, List.not_mem_nil, or_false] at ha
    rcases ha with rfl | rfl | rfl
    · exact hstring
    · exact .generic hleaf
    · exact .array hstring hinner
  obtain ⟨hunion, hcls, hiface⟩ := built_occurs_canonical Table.handlers _ hbuilt
  have hitem : (Ty.union [.iface "Handler", .null]).Occurs
      (.union [.array (.primitive .string) (.union [.iface "Handler", .null]),
        .generic "string" (.cls "Leaf"), .primitive .string]) :=
    .member List.mem_cons_self (.item .here)
  refine ⟨hunite, ?_, ?_, hcls "Leaf" ?_, hiface "Handler" ?_⟩
  · exact (hunion _ .here).2.2.2.2 _ (by simp) _ (by simp) (by simp)
  · exact (hunion _ hitem).2.2.2.2 _ (by simp) _ (by simp) (by simp [Ty.null])
  · exact .member (List.mem_cons_of_mem _ List.mem_cons_self) (.declaring .here)
  · exact .member List.mem_cons_self (.item (.member List.mem_cons_self .here))

end TypeHint
