import Cil.Proofs.Metadata.Walk

/-!
# Stores that grow

Definitions of further types, and further interfaces of types that are there, leave every path to
an interface as it was. They can open other paths, which a walk tries before the one that led to
the interface so far; where it still ends, it still succeeds: `Store.implements_insertAll`.
-/

namespace Cil.Store

variable {s t : Store} {interface : String} {u v : TypeRef}

/-- The definition is of a name that the store does not have, or it keeps the base type of the one
that the store has and adds to its interfaces. -/
def Widens (s : Store) (d : TypeDef) : Prop :=
  ∀ old, s.get? d.fullName = some old → d.base = old.base ∧ old.interfaces ⊆ d.interfaces

/-- For each definition of the one store the other has one of the same name with the same base type
and all of its interfaces. -/
def Within (s t : Store) : Prop :=
  ∀ x old, s.get? x = some old →
    ∃ d, t.get? x = some d ∧ d.base = old.base ∧ old.interfaces ⊆ d.interfaces

private theorem within_self (s : Store) :
    s.Within s := fun _ old hold ↦ ⟨old, hold, rfl, fun _ hi ↦ hi⟩

namespace Within

/-- Inserting a definition that widens a store leaves that within the outcome. -/
theorem insert (h : s.Within t) {d : TypeDef} (hd : s.Widens d) : s.Within (t.insert d).2 := by
  intro x old hold
  have hget : (t.insert d).2.get? x = if d.fullName = x then some d else t.get? x :=
    Named.get?_set _ _ _ _
  by_cases hx : d.fullName = x
  · subst hx
    exact ⟨d, hget.trans (if_pos rfl), hd old hold⟩
  · rw [hget, if_neg hx]
    exact h x old hold

/-- Inserting definitions that each widen a store leaves that within the outcome. -/
theorem insertAll (h : s.Within t) {ds : List TypeDef} (hds : ∀ d ∈ ds, s.Widens d) :
    s.Within (insertAll ds t) := by
  induction ds generalizing t with
  | nil => exact h
  | cons d rest ih =>
    obtain ⟨hd, hrest⟩ := List.forall_mem_cons.mp hds
    exact ih (h.insert hd) hrest

private theorem step (h : s.Within t) (hs : s.Step u v) : t.Step u v := by
  cases hs with
  | constraint hc => exact .constraint hc
  | base hold hb =>
    obtain ⟨d, hd, hbase, -⟩ := h _ _ hold
    exact .base hd (hbase.trans hb)

private theorem declares (h : s.Within t) (hd : s.Declares interface u) :
    t.Declares interface u := by
  obtain ⟨x, old, rfl, hold, i, hi, rfl⟩ := hd
  obtain ⟨d, hd, -, hsub⟩ := h x old hold
  exact ⟨x, d, rfl, hd, i, hsub hi, rfl⟩

/-- Every path to an interface remains. -/
theorem reaches (h : s.Within t) (hr : s.Reaches interface u) : t.Reaches interface u := by
  obtain ⟨v, hv, hd⟩ := hr
  exact ⟨v, Relation.ReflTransGen.mono (fun _ _ ↦ h.step) _ _ hv, h.declares hd⟩

end Within

/-- A type that implements an interface goes on to do so when definitions are inserted that each
are of a name that the store did not have, or keep the base type and the interfaces of its
definition of that name, as long as the walk from the type still ends. -/
theorem implements_insertAll {ds : List TypeDef} (hds : ∀ d ∈ ds, s.Widens d)
    (hends : (insertAll ds s).Ends interface u)
    (himplements : (s.implements (some u) interface).answer = some true) :
    ((insertAll ds s).implements (some u) interface).answer = some true := by
  have hreaches : s.Reaches interface u := (sound_walkWithin _ u true himplements).mp rfl
  have hstill : (insertAll ds s).Reaches interface u :=
    (s.within_self.insertAll hds).reaches hreaches
  obtain ⟨answer, hanswer⟩ := Option.ne_none_iff_exists'.mp hends.answer_ne_none
  obtain rfl : answer = true := (sound_walkWithin _ u answer hanswer).mpr hstill
  exact hanswer

/-- A constraint that was not found comes to be tried to its end before the one that succeeds,
whose definition gets an interface and then another in place of that. If it is its own base type,
the walk ends no more. -/
theorem implements_insertAll_found :
    let s := ofList [
      { TypeDef.ofName "A" with base := some (.generic "T" [.named "New", .named "B"]) },
      { TypeDef.ofName "B" with interfaces := [.named "I"] }]
    let ds := [
      { TypeDef.ofName "New" with base := some (.named "New") },
      { TypeDef.ofName "B" with interfaces := [.named "J", .named "I"] },
      { TypeDef.ofName "New" with base := some (.named "Gone"), interfaces := [.named "J"] },
      { TypeDef.ofName "B" with interfaces := [.named "I", .named "K"] }]
    (∀ d ∈ ds, s.Widens d) ∧ (insertAll ds s).Ends "I" (.named "A") ∧
    (s.implements (some (.named "A")) "I").resolved = ["A", "New", "B"] ∧
    (s.implements (some (.named "A")) "I").answer = some true ∧
    ((insertAll ds s).implements (some (.named "A")) "I").resolved = ["A", "New", "Gone", "B"] ∧
    ((insertAll ds s).implements (some (.named "A")) "I").answer = some true ∧
    ((insertAll (ds.take 1) s).implements (some (.named "A")) "I").answer = none := by
  intro s ds
  have hds : ∀ d ∈ ds, s.Widens d := by
    intro d hd
    simp only [ds, List.mem_cons, List.not_mem_nil, or_false] at hd
    obtain rfl | rfl | rfl | rfl := hd <;> intro old hold <;> cases hold
    all_goals exact ⟨rfl, by simp⟩
  have hends : (insertAll ds s).Ends "I" (.named "A") := answer_ne_none_iff.mp (by decide)
  have himplements : (s.implements (some (.named "A")) "I").answer = some true := by decide
  exact ⟨hds, hends, by decide, himplements, by decide,
    implements_insertAll hds hends himplements, by decide⟩

end Cil.Store
