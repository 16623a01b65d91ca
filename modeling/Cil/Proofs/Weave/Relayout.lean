import Cil.Proofs.Weave.Run

/-!
# Laying out after every batch, or once at the end

Nothing that a weaver does to a batch depends on an offset, so two runs over the same batches go
the same way whatever layouts come in between (`Insertion.run_batches_congr`), and the last layout
makes up for all that were left out: `Insertion.run_relayout_once`.
-/

namespace Cil

namespace Insertion

variable {c c' : Code}

/-- A batch has the same outcome in code that differs in offsets only, laid out afterwards or
not. -/
theorem perform_batch_congr (h : c.toList.map Instr.unplaced = c'.toList.map Instr.unplaced)
    (r r' : Bool) (b : Batch) :
    ((batch r b).perform c).1 = ((batch r' b).perform c').1 ∧
    ((batch r b).perform c).2.toList.map Instr.unplaced =
      ((batch r' b).perform c').2.toList.map Instr.unplaced := by
  by_cases hf : b.Fits c
  · have hf' : b.Fits c' := (Batch.fits_congr h).mp hf
    rw [perform_of_fits (x := batch r b) hf, perform_of_fits (x := batch r' b) hf']
    refine ⟨rfl, ?_⟩
    rw [map_unplaced_settle, map_unplaced_settle]
    exact Batch.spliced_congr h
  · have hf' : ¬ b.Fits c' := fun hf' ↦ hf ((Batch.fits_congr h).mpr hf')
    rw [perform_of_not_fits (x := batch r b) hf, perform_of_not_fits (x := batch r' b) hf']
    exact ⟨rfl, h⟩

/-- Batches have the same outcomes in code that differs in offsets only, laid out after each or
never. -/
theorem run_batches_congr (h : c.toList.map Instr.unplaced = c'.toList.map Instr.unplaced)
    (r r' : Bool) (batches : List Batch) :
    (run (batches.map (batch r)) c).1 = (run (batches.map (batch r')) c').1 ∧
    (run (batches.map (batch r)) c).2.toList.map Instr.unplaced =
      (run (batches.map (batch r')) c').2.toList.map Instr.unplaced := by
  induction batches generalizing c c' with
  | nil => exact ⟨rfl, h⟩
  | cons b rest ih =>
    obtain ⟨hreport, hcode⟩ := perform_batch_congr h r r' b
    obtain ⟨hreports, hrest⟩ := ih hcode
    rw [List.map_cons, List.map_cons, run, run]
    exact ⟨List.cons_eq_cons.mpr ⟨hreport, hreports⟩, hrest⟩

/-- Where batches are laid out one by one, all is laid out from the first success on. -/
theorem relayout_run_batches (batches : List Batch)
    (h : c.relayout = c ∨ ∃ r ∈ (run (batches.map (batch true)) c).1, r.result = .ok ()) :
    (run (batches.map (batch true)) c).2.relayout = (run (batches.map (batch true)) c).2 := by
  induction batches generalizing c with
  | nil => exact h.resolve_right (by simp [run])
  | cons b rest ih =>
    rw [List.map_cons, run] at h ⊢
    apply ih
    by_cases hf : b.Fits c
    · rw [perform_of_fits (x := batch true b) hf]
      exact .inl (Code.relayout_relayout _)
    · rw [perform_of_not_fits (x := batch true b) hf] at h ⊢
      refine h.imp_right ?_
      rintro ⟨report, hm, hok⟩
      rcases List.mem_cons.mp hm with rfl | hm
      · cases hok
      · exact ⟨report, hm, hok⟩

/-- A run of batches reports and tells the same whether each is laid out or none, and if any of
them went well, laying out each leaves the code that laying out once at the end does. -/
theorem run_relayout_once (batches : List Batch) (c : Code) :
    (run (batches.map (batch true)) c).1 = (run (batches.map (batch false)) c).1 ∧
    ((∃ r ∈ (run (batches.map (batch true)) c).1, r.result = .ok ()) →
      (run (batches.map (batch true)) c).2 =
        (run (batches.map (batch false)) c).2.relayout) := by
  obtain ⟨hreports, hcode⟩ := run_batches_congr (c := c) rfl true false batches
  refine ⟨hreports, ?_⟩
  intro h
  calc (run (batches.map (batch true)) c).2
    _ = (run (batches.map (batch true)) c).2.relayout :=
      (relayout_run_batches batches (.inr h)).symm
    _ = (run (batches.map (batch false)) c).2.relayout := Code.relayout_eq_iff.mpr hcode

/-- The first batch is refused, the second brings an item of its anchor's own identity, and the
third goes before that one. -/
def mixed : List Batch := [
  ⟨.after, ⟨7⟩, [⟨⟨3⟩, 0, .dup⟩]⟩,
  ⟨.before, ⟨1⟩, [⟨⟨1⟩, 9, .ldcI4 500⟩]⟩,
  ⟨.before, ⟨1⟩, [⟨⟨4⟩, 0, .pop⟩]⟩]

/-- A run in which a batch is refused and others go well. -/
theorem run_relayout_once_mixed :
    (∃ r ∈ (run (mixed.map (batch true)) ⟨[⟨⟨1⟩, 5, .nop⟩, ⟨⟨2⟩, 5, .ret⟩]⟩).1,
      r.result = .ok ()) ∧
    (run (mixed.map (batch true)) ⟨[⟨⟨1⟩, 5, .nop⟩, ⟨⟨2⟩, 5, .ret⟩]⟩).2 =
      ⟨[⟨⟨4⟩, 0, .pop⟩, ⟨⟨1⟩, 1, .ldcI4 500⟩, ⟨⟨1⟩, 6, .nop⟩, ⟨⟨2⟩, 7, .ret⟩]⟩ := by
  have h : ∃ r ∈ (run (mixed.map (batch true)) ⟨[⟨⟨1⟩, 5, .nop⟩, ⟨⟨2⟩, 5, .ret⟩]⟩).1,
      r.result = .ok () :=
    ⟨⟨.ok (), [.inserted 1 .before ⟨1⟩]⟩, List.mem_cons_of_mem _ List.mem_cons_self, rfl⟩
  refine ⟨h, ?_⟩
  rw [(run_relayout_once _ _).2 h]
  rfl

end Insertion

end Cil
