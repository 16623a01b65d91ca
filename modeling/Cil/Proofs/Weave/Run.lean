import Cil.Proofs.Weave.Splice

/-!
# Runs of insertions

Calls that insert, one after another: single instructions, or batches that are laid out afterwards
or not. A call goes well exactly when there is a place for its items, and then it splices them in;
otherwise it leaves everything as it was (`Insertion.perform_of_fits`,
`Insertion.perform_of_not_fits`). Main statement: `Insertion.run_conserves`, by which a run adds
the items of the calls that went well and does nothing else to the instructions.
-/

namespace Cil

open Code (Side)

/-- Items, and the anchor next to which they are to stand. -/
structure Batch where
  side : Side
  anchor : InstrId
  items : List Instr

namespace Batch

/-- There is a place for the items: the anchor is there, or there are no items. -/
def Fits (b : Batch) (c : Code) : Prop := (∃ i ∈ c.toList, i.id = b.anchor) ∨ b.items = []

/-- The code with the items in their place. -/
def spliced (b : Batch) (c : Code) : Code :=
  ⟨Code.splice b.side b.anchor (b.side.arrange b.anchor b.items) c.toList⟩

variable {b : Batch} {c c' : Code}

/-- Items none of which has the identity of the anchor stand there in their own order. -/
theorem spliced_eq (h : ∀ i ∈ b.items, i.id ≠ b.anchor) :
    b.spliced c = ⟨Code.splice b.side b.anchor b.items c.toList⟩ := by
  have hi : ∀ i ∈ b.items.dropLast, i.id ≠ b.anchor :=
    fun i hi ↦ h i ((List.dropLast_sublist b.items).subset hi)
  rw [spliced, b.side.arrange_eq_self hi]

private theorem Fits.spliced_perm (h : b.Fits c) :
    (b.spliced c).toList.Perm (c.toList ++ b.items) := by
  by_cases ha : ∃ i ∈ c.toList, i.id = b.anchor
  · exact (Code.splice_perm ha).trans
      ((b.side.arrange_perm b.anchor b.items).append_left c.toList)
  · have hn : ∀ i ∈ c.toList, i.id ≠ b.anchor := fun i hi hid ↦ ha ⟨i, hi, hid⟩
    have he : b.items = [] := h.resolve_left ha
    rw [spliced, Code.splice_of_absent hn, he, List.append_nil]

/-- Whether there is a place does not depend on offsets. -/
theorem fits_congr (h : c.toList.map Instr.unplaced = c'.toList.map Instr.unplaced) :
    b.Fits c ↔ b.Fits c' := by
  have hid (d : Code) : (∃ i ∈ d.toList, i.id = b.anchor) ↔
      b.anchor ∈ (d.toList.map Instr.unplaced).map (·.id) := by
    rw [List.map_map]
    exact List.mem_map.symm
  rw [Fits, Fits, hid c, h, ← hid c']

/-- Where the items stand does not depend on offsets. -/
theorem spliced_congr (h : c.toList.map Instr.unplaced = c'.toList.map Instr.unplaced) :
    (b.spliced c).toList.map Instr.unplaced = (b.spliced c').toList.map Instr.unplaced := by
  have hid : ∀ i : Instr, i.unplaced.id = i.id := fun _ ↦ rfl
  rw [spliced, spliced, Code.map_splice hid, Code.map_splice hid, h]

end Batch

/-- A batch that fits goes in and is told of. -/
theorem Weaver.insert_of_fits {w : Weaver} {b : Batch} (h : b.Fits w.code) :
    w.insert b.side b.anchor b.items = (.ok (), { w with
      code := w.settle (b.spliced w.code)
      log := w.log ++ [.inserted b.items.length b.side b.anchor] }) := by
  obtain ⟨_, _, _, hf, hi⟩ | ⟨hn, he, hi⟩ | ⟨hn, he, -⟩ :=
    w.insert_cases b.side b.anchor b.items
  · rw [hi, Batch.spliced, Code.splice_of_firstAt hf]
  · rw [hi, Batch.spliced, Code.splice_of_absent hn, he]
    rfl
  · obtain ⟨i, hi, hid⟩ | hb := h
    · exact absurd hid (hn i hi)
    · exact absurd hb he

/-- A batch that does not fit is refused. -/
theorem Weaver.insert_of_not_fits {w : Weaver} {b : Batch} (h : ¬ b.Fits w.code) :
    w.insert b.side b.anchor b.items = (.error (.noAnchor b.anchor.val), w) := by
  rw [Batch.Fits, not_or] at h
  exact insert_of_absent (fun i hi hid ↦ h.1 ⟨i, hi, hid⟩) b.side h.2

private theorem Code.insert_of_fits {side : Side} {anchor : InstrId} {item : Instr} {c : Code}
    (h : (Batch.mk side anchor [item]).Fits c) :
    c.insert side anchor item = .ok ((Batch.mk side anchor [item]).spliced c) := by
  have ha : ∃ i ∈ c.toList, i.id = anchor := h.resolve_right (List.cons_ne_nil item [])
  obtain ⟨front, found, back, hf⟩ := exists_firstAt ha
  rw [hf.insert_eq, Batch.spliced, splice_of_firstAt hf, side.arrange_eq_self (by simp)]

/-- A call that inserts. -/
inductive Insertion
  /-- Puts one instruction next to an anchor. -/
  | single (side : Side) (anchor : InstrId) (item : Instr)
  /-- Has a weaver insert a batch, and lay the code out anew or not. -/
  | batch (relayout : Bool) (batch : Batch)

/-- What a call lets its caller know. -/
structure Report where
  result : Except Error Unit
  log : List LogEvent

namespace Insertion

/-- What is to be inserted, and where. -/
def target : Insertion → Batch
  | .single side anchor item => ⟨side, anchor, [item]⟩
  | .batch _ b => b

/-- What is told of a call that goes well. -/
def told : Insertion → List LogEvent
  | .single _ _ _ => []
  | .batch _ b => [.inserted b.items.length b.side b.anchor]

/-- The code as a call leaves it that has gone well. -/
def settle : Insertion → Code → Code
  | .single _ _ _, c => c
  | .batch relayout _, c => (Weaver.mk c relayout []).settle c

/-- Performs a call. Each batch has a weaver of its own. -/
def perform : Insertion → Code → Report × Code
  | .single side anchor item, c => match c.insert side anchor item with
    | .error e => (⟨.error e, []⟩, c)
    | .ok c => (⟨.ok (), []⟩, c)
  | .batch relayout b, c =>
    let (result, w) := Weaver.insert b.side b.anchor b.items ⟨c, relayout, []⟩
    (⟨result, w.log⟩, w.code)

/-- Performs calls one after another. -/
def run : List Insertion → Code → List Report × Code
  | [], c => ([], c)
  | x :: rest, c =>
    let (report, c) := x.perform c
    let (reports, c) := run rest c
    (report :: reports, c)

/-- The items of a call, if it went well. -/
def accepted (x : Insertion) (report : Report) : List Instr :=
  match report.result with
  | .ok _ => x.target.items
  | .error _ => []

variable {x : Insertion} {c : Code}

/-- A call whose items have a place goes well. -/
theorem perform_of_fits (h : x.target.Fits c) :
    x.perform c = (⟨.ok (), x.told⟩, x.settle (x.target.spliced c)) := by
  cases x with
  | single side anchor item =>
    rw [perform, Code.insert_of_fits h]
    rfl
  | batch relayout b =>
    have hw : b.Fits (Weaver.mk c relayout []).code := h
    rw [perform, Weaver.insert_of_fits hw]
    rfl

/-- A call whose items have no place is refused. -/
theorem perform_of_not_fits (h : ¬ x.target.Fits c) :
    x.perform c = (⟨.error (.noAnchor x.target.anchor.val), []⟩, c) := by
  cases x with
  | single side anchor item =>
    have hn : ∀ i ∈ c.toList, i.id ≠ anchor := fun i hi hid ↦ h (.inl ⟨i, hi, hid⟩)
    rw [perform, Code.insert_eq_error_iff.mpr ⟨rfl, hn⟩]
    rfl
  | batch relayout b =>
    have hw : ¬ b.Fits (Weaver.mk c relayout []).code := h
    rw [perform, Weaver.insert_of_not_fits hw]
    rfl

/-- Settling changes nothing but places. -/
theorem map_unplaced_settle (x : Insertion) (c : Code) :
    (x.settle c).toList.map Instr.unplaced = c.toList.map Instr.unplaced := by
  cases x with
  | single side anchor item => rfl
  | batch relayout b => exact Weaver.map_unplaced_settle ⟨c, relayout, []⟩ c

/-- A call keeps what is there in its order, and adds its items if it goes well. -/
theorem perform_conserves (x : Insertion) (c : Code) :
    (c.toList.map Instr.unplaced).Sublist ((x.perform c).2.toList.map Instr.unplaced) ∧
    ((x.perform c).2.toList.map Instr.unplaced).Perm
      ((c.toList ++ x.accepted (x.perform c).1).map Instr.unplaced) := by
  by_cases h : x.target.Fits c
  · rw [perform_of_fits h]
    dsimp only
    rw [map_unplaced_settle]
    exact ⟨Code.sublist_splice.map _, h.spliced_perm.map _⟩
  · rw [perform_of_not_fits h, accepted, List.append_nil]
    exact ⟨.refl _, .refl _⟩

/-- A run keeps the instructions of the code in their order, and apart from them it has the items
of the calls that went well, each as often as it was given; every call is reported. Only offsets
can differ. -/
theorem run_conserves (calls : List Insertion) (c : Code) :
    (run calls c).1.length = calls.length ∧
    (c.toList.map Instr.unplaced).Sublist ((run calls c).2.toList.map Instr.unplaced) ∧
    ((run calls c).2.toList.map Instr.unplaced).Perm
      ((c.toList ++ (calls.zipWith accepted (run calls c).1).flatten).map Instr.unplaced) := by
  induction calls generalizing c with
  | nil => simp [run]
  | cons x rest ih =>
    obtain ⟨hlen, hsub, hperm⟩ := ih (x.perform c).2
    obtain ⟨hsub', hperm'⟩ := x.perform_conserves c
    rw [run]
    refine ⟨congrArg (· + 1) hlen, hsub'.trans hsub, hperm.trans ?_⟩
    rw [List.zipWith_cons_cons, List.flatten_cons, ← List.append_assoc, List.map_append,
      List.map_append]
    exact hperm'.append_right _

end Insertion

end Cil
