import Cil.Named
import Mathlib.Algebra.BigOperators.Group.List.Basic
import Mathlib.Algebra.Order.Monoid.Canonical.Defs
import Mathlib.Tactic.Abel

/-!
# Totals of named values

What named values amount to, each by a measure of its own. Putting a value under a name adds its
amount, less that of the value it takes the place of: `Named.total_set`.
-/

namespace Cil.Named

variable {α M : Type} [AddCommMonoid M]

/-- The sum of the amounts of all values. -/
def total (amount : α → M) (n : Named α) : M := (n.entries.map fun e ↦ amount e.2).sum

/-- The amount of the value under a name. -/
def amountAt (amount : α → M) (n : Named α) (name : String) : M :=
  ((n.get? name).map amount).getD 0

/-- The amount under a name is that of the value there. -/
theorem amountAt_of_get? {amount : α → M} {n : Named α} {name : String} {a : α}
    (h : n.get? name = some a) : n.amountAt amount name = amount a := by
  rw [amountAt, h, Option.map_some, Option.getD_some]

/-- No values amount to nothing. -/
@[simp] theorem total_empty (amount : α → M) : (empty : Named α).total amount = 0 := rfl

private theorem sum_put (amount : α → M) (name : String) (a : α) (l : List (String × α)) :
    ((put name a l).map fun e ↦ amount e.2).sum + ((find? name l).map amount).getD 0 =
      (l.map fun e ↦ amount e.2).sum + amount a := by
  induction l with
  | nil => simp [put, find?]
  | cons e rest ih =>
    obtain ⟨key, b⟩ := e
    by_cases h : key = name
    · simp only [put, find?, h, if_true, List.map_cons, List.sum_cons, Option.map_some,
        Option.getD_some]
      abel
    · simp only [put, find?, h, if_false, List.map_cons, List.sum_cons]
      rw [add_assoc, ih, add_assoc]

/-- The new value counts, and the one that was there does so no more. -/
theorem total_set (amount : α → M) (n : Named α) (name : String) (a : α) :
    (n.set name a).total amount + n.amountAt amount name = n.total amount + amount a :=
  sum_put amount name a n.entries

/-- A new value adds no more than its amount. -/
theorem total_set_le [PartialOrder M] [CanonicallyOrderedAdd M] (amount : α → M) (n : Named α)
    (name : String) (a : α) : (n.set name a).total amount ≤ n.total amount + amount a := by
  rw [← total_set]
  exact le_self_add

private theorem sum_filter (amount : α → M) (name : String) {l : List (String × α)}
    (h : (l.map Prod.fst).Nodup) :
    ((l.filter (·.1 != name)).map fun e ↦ amount e.2).sum + ((find? name l).map amount).getD 0 =
      (l.map fun e ↦ amount e.2).sum := by
  induction l with
  | nil => simp [find?]
  | cons e rest ih =>
    obtain ⟨key, b⟩ := e
    rw [List.map_cons, List.nodup_cons] at h
    by_cases hk : key = name
    · subst hk
      have hrest : rest.filter (·.1 != key) = rest := by
        rw [List.filter_eq_self]
        rintro ⟨other, c⟩ hc
        have hne : other ≠ key := fun ho ↦ h.1 (List.mem_map.mpr ⟨(other, c), hc, ho⟩)
        exact bne_iff_ne.mpr hne
      simp [find?, hrest, add_comm]
    · simp only [List.filter_cons, find?, hk, bne_iff_ne.mpr hk, if_true, if_false, List.map_cons,
        List.sum_cons]
      rw [add_assoc, ih h.2]

/-- A value taken away counts no more. -/
theorem total_erase (amount : α → M) (n : Named α) (name : String) :
    (n.erase name).total amount + n.amountAt amount name = n.total amount :=
  sum_filter amount name n.nodup

end Cil.Named
