import Mathlib.Data.List.Induction
import Mathlib.Data.List.Nodup

/-!
# The first fault

What is accepted item by item is refused for the first item that has a fault. Whether an item has
one may depend on the items before it: a name is at fault only where it stands for the second time.
So a fault is a relation between the items before, the item, and an error, and items that are not
`Faultless` have a `FirstFault`. A loop that stops at the first error finds it
(`Checks.eq_error_iff`), or finds that there is none (`Checks.eq_ok_iff`).
-/

namespace TokenTree

variable {α ε κ : Type} {Fault : List α → α → ε → Prop} {items : List α} {item : α} {e : ε}

/-- No item has a fault, given the items before it. -/
def Faultless (Fault : List α → α → ε → Prop) (items : List α) : Prop :=
  ∀ earlier item later, items = earlier ++ item :: later → ∀ e, ¬ Fault earlier item e

/-- The error is a fault of an item before which no item has one. -/
def FirstFault (Fault : List α → α → ε → Prop) (items : List α) (e : ε) : Prop :=
  ∃ earlier item later, items = earlier ++ item :: later ∧ Faultless Fault earlier ∧
    Fault earlier item e

/-! ## Items without a fault -/

theorem faultless_nil : Faultless Fault [] := by
  intro earlier item later h
  cases earlier <;> cases h

theorem faultless_concat :
    Faultless Fault (items ++ [item]) ↔ Faultless Fault items ∧ ∀ e, ¬ Fault items item e := by
  constructor
  · intro h
    refine ⟨fun earlier other later hsplit => ?_, h items item [] rfl⟩
    refine h earlier other (later ++ [item]) ?_
    rw [hsplit, List.append_assoc, List.cons_append]
  · rintro ⟨hitems, hitem⟩ earlier other later hsplit
    induction later using List.reverseRecOn with
    | nil =>
      obtain ⟨rfl, hother⟩ := List.append_inj' hsplit rfl
      obtain rfl := List.singleton_inj.1 hother
      exact hitem
    | append_singleton later last =>
      have hsplit : items ++ [item] = (earlier ++ other :: later) ++ [last] := by
        rw [hsplit, List.append_assoc, List.cons_append]
      exact hitems earlier other later (List.append_inj' hsplit rfl).1

/-- What items without a fault are where an item has one by itself, or because an earlier item has
the same key. -/
theorem faultless_iff_of_key {key : α → κ} {Sound : α → Prop}
    (h : ∀ earlier item, (∀ e, ¬ Fault earlier item e) ↔ Sound item ∧ key item ∉ earlier.map key) :
    Faultless Fault items ↔ (∀ item ∈ items, Sound item) ∧ (items.map key).Nodup := by
  induction items using List.reverseRecOn with
  | nil => exact iff_of_true faultless_nil ⟨List.forall_mem_nil _, List.nodup_nil⟩
  | append_singleton items item ih =>
    rw [faultless_concat, ih, h, List.map_append, List.map_singleton, List.nodup_append_comm,
      List.singleton_append, List.nodup_cons, List.forall_mem_append, List.forall_mem_singleton]
    constructor
    · rintro ⟨⟨hsound, hnodup⟩, hitem, hkey⟩
      exact ⟨⟨hsound, hitem⟩, hkey, hnodup⟩
    · rintro ⟨⟨hsound, hitem⟩, hkey, hnodup⟩
      exact ⟨⟨hsound, hnodup⟩, hitem, hkey⟩

/-- What items without a fault are where an item has one only by itself. -/
theorem faultless_iff_forall {Sound : α → Prop}
    (h : ∀ earlier item, (∀ e, ¬ Fault earlier item e) ↔ Sound item) :
    Faultless Fault items ↔ ∀ item ∈ items, Sound item := by
  induction items using List.reverseRecOn with
  | nil => exact iff_of_true faultless_nil (List.forall_mem_nil _)
  | append_singleton items item ih =>
    rw [faultless_concat, ih, h, List.forall_mem_append, List.forall_mem_singleton]

/-- Where there is a fault there is a first one. -/
theorem exists_firstFault (h : ¬ Faultless Fault items) : ∃ e, FirstFault Fault items e := by
  induction items using List.reverseRecOn with
  | nil => exact absurd faultless_nil h
  | append_singleton items item ih =>
    by_cases hitems : Faultless Fault items
    · have hitem : ¬ ∀ e, ¬ Fault items item e := fun hitem => h (faultless_concat.2 ⟨hitems, hitem⟩)
      obtain ⟨e, he⟩ := not_forall_not.1 hitem
      exact ⟨e, items, item, [], rfl, hitems, he⟩
    · obtain ⟨e, earlier, other, later, rfl, hfirst⟩ := ih hitems
      refine ⟨e, earlier, other, later ++ [item], ?_, hfirst⟩
      rw [List.append_assoc, List.cons_append]

/-! ## Loops that stop at the first error -/

/-- The function goes through items and stops at the first fault. It is told the items that it went
through already. -/
structure Checks (Fault : List α → α → ε → Prop) (check : List α → List α → Except ε Unit) :
    Prop where
  nil : ∀ seen, check seen [] = .ok ()
  fault : ∀ {seen item e}, Fault seen item e → ∀ items, check seen (item :: items) = .error e
  sound : ∀ {seen item}, (∀ e, ¬ Fault seen item e) →
    ∀ items, check seen (item :: items) = check (seen ++ [item]) items

namespace Checks

variable {check : List α → List α → Except ε Unit} {seen : List α}

/-- Items without a fault are passed. -/
theorem append (h : Checks Fault check) (hseen : Faultless Fault seen) (items : List α) :
    check [] (seen ++ items) = check seen items := by
  induction seen using List.reverseRecOn generalizing items with
  | nil => rfl
  | append_singleton seen item ih =>
    obtain ⟨hseen, hitem⟩ := faultless_concat.1 hseen
    rw [List.append_assoc, List.singleton_append, ih hseen, h.sound hitem]

theorem eq_ok (h : Checks Fault check) (hitems : Faultless Fault items) :
    check [] items = .ok () := by
  have happend := h.append hitems []
  rwa [List.append_nil, h.nil] at happend

theorem eq_error (h : Checks Fault check) (hitems : FirstFault Fault items e) :
    check [] items = .error e := by
  obtain ⟨earlier, item, later, rfl, hearlier, hfault⟩ := hitems
  rw [h.append hearlier, h.fault hfault]

theorem eq_ok_iff (h : Checks Fault check) : check [] items = .ok () ↔ Faultless Fault items := by
  refine ⟨fun hok => ?_, h.eq_ok⟩
  by_contra hitems
  obtain ⟨e, he⟩ := exists_firstFault hitems
  cases hok.symm.trans (h.eq_error he)

theorem eq_error_iff (h : Checks Fault check) :
    check [] items = .error e ↔ FirstFault Fault items e := by
  refine ⟨fun herror => ?_, h.eq_error⟩
  by_cases hitems : Faultless Fault items
  · cases herror.symm.trans (h.eq_ok hitems)
  · obtain ⟨e', he'⟩ := exists_firstFault hitems
    cases herror.symm.trans (h.eq_error he')
    exact he'

end Checks

end TokenTree
