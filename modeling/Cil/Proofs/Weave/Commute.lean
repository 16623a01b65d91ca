import Cil.Proofs.Weave.Relayout

/-!
# Two batches in either order

Batches at different places do not get in each other's way: put next to different anchors, also
neighbours that share a gap, or on different sides of one, they lead to the same code in either
order. At one place they stand in a row, the later one closer to the anchor. Main statement:
`Insertion.exists_leads_swap`. Its proof is about runs without layouts; `Insertion.Leads.relayout`
brings the layouts in.
-/

namespace Cil

open Code (Side)

namespace Insertion

/-- All calls go well, and from the first code they lead to the second. -/
def Leads (calls : List Insertion) (c d : Code) : Prop :=
  (∀ r ∈ (run calls c).1, r.result = .ok ()) ∧ (run calls c).2 = d

variable {c d : Code}

private theorem Leads.nil : Leads [] c c := ⟨by simp [run], rfl⟩

private theorem Leads.cons {x : Insertion} {rest : List Insertion} (h : x.target.Fits c)
    (hr : Leads rest (x.settle (x.target.spliced c)) d) : Leads (x :: rest) c d := by
  rw [Leads, run, perform_of_fits h]
  refine ⟨?_, hr.2⟩
  rw [List.forall_mem_cons]
  exact ⟨rfl, hr.1⟩

/-- If batches go well without layouts, they do with them, and lead to the layout of the code. -/
theorem Leads.relayout {batches : List Batch} (hne : batches ≠ [])
    (h : Leads (batches.map (batch false)) c d) :
    Leads (batches.map (batch true)) c d.relayout := by
  obtain ⟨hreports, hcode⟩ := run_batches_congr (c := c) rfl true false batches
  have hok : ∀ r ∈ (run (batches.map (batch true)) c).1, r.result = .ok () := hreports ▸ h.1
  have hsome : ∃ r ∈ (run (batches.map (batch true)) c).1, r.result = .ok () := by
    obtain ⟨b, rest, rfl⟩ := List.exists_cons_of_ne_nil hne
    exact ⟨_, List.mem_cons_self, hok _ List.mem_cons_self⟩
  refine ⟨hok, ?_⟩
  rw [← relayout_run_batches batches (.inr hsome), ← h.2]
  exact Code.relayout_eq_iff.mpr hcode

private theorem exists_leads {batches batches' : List Batch} (hne : batches ≠ [])
    (hne' : batches' ≠ [])
    (h : Leads (batches.map (batch false)) c d) (h' : Leads (batches'.map (batch false)) c d)
    (relayout : Bool) :
    ∃ d, Leads (batches.map (batch relayout)) c d ∧ Leads (batches'.map (batch relayout)) c d := by
  cases relayout with
  | false => exact ⟨d, h, h'⟩
  | true => exact ⟨d.relayout, h.relayout hne, h'.relayout hne'⟩

variable {b b' : Batch}

private theorem leads_one (hb : ∃ i ∈ c.toList, i.id = b.anchor)
    (h : ∀ i ∈ b.items, i.id ≠ b.anchor) :
    Leads ([b].map (batch false)) c ⟨Code.splice b.side b.anchor b.items c.toList⟩ := by
  apply Leads.cons (.inl hb)
  rw [target, Batch.spliced_eq h]
  exact Leads.nil

private theorem leads_two (hb : ∃ i ∈ c.toList, i.id = b.anchor)
    (hb' : ∃ i ∈ c.toList, i.id = b'.anchor)
    (h : ∀ i ∈ b.items, i.id ≠ b.anchor) (h' : ∀ i ∈ b'.items, i.id ≠ b'.anchor) :
    Leads ([b, b'].map (batch false)) c ⟨Code.splice b'.side b'.anchor b'.items
      (Code.splice b.side b.anchor b.items c.toList)⟩ := by
  apply Leads.cons (.inl hb)
  rw [target, Batch.spliced_eq h]
  obtain ⟨i, hi, hid⟩ := hb'
  exact leads_one ⟨i, Code.sublist_splice.subset hi, hid⟩ h'

/-- Two batches that bring no item of their anchors' identities go in at different places in either
order, with the same code in the end. At the same place they go in like one batch: before an
anchor the first in front of the second, after an anchor the second in front of the first. -/
theorem exists_leads_swap {a b : InstrId} (ha : ∃ i ∈ c.toList, i.id = a)
    (hb : ∃ i ∈ c.toList, i.id = b) {items items' : List Instr}
    (h : ∀ i ∈ items ++ items', i.id ≠ a ∧ i.id ≠ b) (relayout : Bool) (side side' : Side) :
    (a ≠ b ∨ side ≠ side' → ∃ d,
      Leads ([⟨side, a, items⟩, ⟨side', b, items'⟩].map (batch relayout)) c d ∧
      Leads ([⟨side', b, items'⟩, ⟨side, a, items⟩].map (batch relayout)) c d) ∧
    (∃ d, Leads ([⟨.before, a, items⟩, ⟨.before, a, items'⟩].map (batch relayout)) c d ∧
      Leads ([⟨.before, a, items ++ items'⟩].map (batch relayout)) c d) ∧
    (∃ d, Leads ([⟨.after, a, items⟩, ⟨.after, a, items'⟩].map (batch relayout)) c d ∧
      Leads ([⟨.after, a, items' ++ items⟩].map (batch relayout)) c d) := by
  rw [List.forall_mem_append] at h
  have hia : ∀ i ∈ items, i.id ≠ a := fun i hi ↦ (h.1 i hi).1
  have hia' : ∀ i ∈ items', i.id ≠ a := fun i hi ↦ (h.2 i hi).1
  have hib' : ∀ i ∈ items', i.id ≠ b := fun i hi ↦ (h.2 i hi).2
  have hne (x : Batch) (xs : List Batch) : x :: xs ≠ [] := List.cons_ne_nil x xs
  refine ⟨?apart, ?before, ?after⟩
  case apart =>
    intro hp
    refine exists_leads (hne _ _) (hne _ _) (leads_two ha hb hia hib') ?_ relayout
    rw [Code.splice_comm hp h.1 h.2]
    exact leads_two hb ha hib' hia
  case before =>
    refine exists_leads (hne _ _) (hne _ _) (leads_two ha ha hia hia') ?_ relayout
    rw [Code.splice_before_before hia]
    exact leads_one ha (List.forall_mem_append.mpr ⟨hia, hia'⟩)
  case after =>
    refine exists_leads (hne _ _) (hne _ _) (leads_two ha ha hia hia') ?_ relayout
    rw [Code.splice_after_after hia]
    exact leads_one ha (List.forall_mem_append.mpr ⟨hia', hia⟩)

/-- Two neighbours, the second of which has a namesake. -/
def neighbours : Code := ⟨[⟨⟨1⟩, 5, .nop⟩, ⟨⟨2⟩, 5, .ret⟩, ⟨⟨2⟩, 0, .pop⟩]⟩

/-- Neighbours share the gap between them. -/
theorem exists_leads_swap_neighbours :
    (∃ i ∈ neighbours.toList, i.id = ⟨1⟩) ∧ (∃ i ∈ neighbours.toList, i.id = ⟨2⟩) ∧
    (∀ i ∈ [(⟨⟨3⟩, 0, .dup⟩ : Instr)] ++ [⟨⟨4⟩, 0, .ldcI4 500⟩, ⟨⟨3⟩, 0, .pop⟩],
      i.id ≠ ⟨1⟩ ∧ i.id ≠ ⟨2⟩) ∧
    ∃ d : Code, d = ⟨[⟨⟨1⟩, 0, .nop⟩, ⟨⟨3⟩, 1, .dup⟩, ⟨⟨4⟩, 2, .ldcI4 500⟩, ⟨⟨3⟩, 7, .pop⟩,
      ⟨⟨2⟩, 8, .ret⟩, ⟨⟨2⟩, 9, .pop⟩]⟩ ∧
    Leads ([⟨.after, ⟨1⟩, [⟨⟨3⟩, 0, .dup⟩]⟩,
      ⟨.before, ⟨2⟩, [⟨⟨4⟩, 0, .ldcI4 500⟩, ⟨⟨3⟩, 0, .pop⟩]⟩].map (batch true)) neighbours d ∧
    Leads ([⟨.before, ⟨2⟩, [⟨⟨4⟩, 0, .ldcI4 500⟩, ⟨⟨3⟩, 0, .pop⟩]⟩,
      ⟨.after, ⟨1⟩, [⟨⟨3⟩, 0, .dup⟩]⟩].map (batch true)) neighbours d := by
  have ha : ∃ i ∈ neighbours.toList, i.id = ⟨1⟩ := by decide
  have hb : ∃ i ∈ neighbours.toList, i.id = ⟨2⟩ := by decide
  have h : ∀ i ∈ [(⟨⟨3⟩, 0, .dup⟩ : Instr)] ++ [⟨⟨4⟩, 0, .ldcI4 500⟩, ⟨⟨3⟩, 0, .pop⟩],
      i.id ≠ ⟨1⟩ ∧ i.id ≠ ⟨2⟩ := by decide
  obtain ⟨d, hd, hd'⟩ := (exists_leads_swap ha hb h true .after .before).1 (.inl (by decide))
  exact ⟨ha, hb, h, d, hd.2.symm, hd, hd'⟩

end Insertion

end Cil
