import Cil.Proofs.Metadata.Path
import Mathlib.Data.List.Perm.Subperm

/-!
# What a walk finds

The answer of a walk says whether a path leads to the interface, and a walk is endless only where
the steps it takes are: one that takes more steps to a base type than there are definitions has
come to one of them twice. Main statements: `Store.answer_ne_none_iff` and
`Store.implements_iff_reaches`.
-/

namespace Cil

/-- A walk goes on to the next one exactly when it ends without success. -/
theorem Walk.answer_orElse (w : Walk) (next : Unit → Walk) :
    (w.orElse next).answer = if w.answer = some false then (next ()).answer else w.answer := by
  unfold Walk.orElse
  split
  · next h => rw [if_pos h]
  · next h => rw [if_neg h]

namespace Store

variable {s : Store} {interface : String} {next : TypeRef → Walk}

/-- A walk from a named type looks it up and is over, unless the type is found without the interface
and has a base type: then it goes on from that. -/
theorem walkNamed_cases (s : Store) (interface : String) (next : TypeRef → Walk)
    (fullName : String) :
    (s.get? fullName = none ∧
      s.walkNamed interface next fullName = ⟨some false, [⟨fullName, false⟩]⟩) ∨
    (∃ d, s.get? fullName = some d ∧ states interface d = true ∧
      s.walkNamed interface next fullName = ⟨some true, [⟨fullName, true⟩]⟩) ∨
    (∃ d, s.get? fullName = some d ∧ states interface d = false ∧ d.base = none ∧
      s.walkNamed interface next fullName = ⟨some false, [⟨fullName, true⟩]⟩) ∨
    ∃ d b, s.get? fullName = some d ∧ states interface d = false ∧ d.base = some b ∧
      s.walkNamed interface next fullName =
        ⟨(next b).answer, ⟨fullName, true⟩ :: (next b).lookups⟩ := by
  unfold walkNamed
  cases s.get? fullName with
  | none => exact .inl ⟨rfl, rfl⟩
  | some d =>
    dsimp only
    cases hi : states interface d with
    | true => exact .inr (.inl ⟨d, rfl, hi, rfl⟩)
    | false =>
      cases hb : d.base with
      | none => exact .inr (.inr (.inl ⟨d, rfl, hi, hb, rfl⟩))
      | some b => exact .inr (.inr (.inr ⟨d, b, rfl, hi, hb, rfl⟩))

private theorem answer_walkAny_eq_iff {cs : List TypeRef} {answer : Option Bool}
    (h : answer ≠ some false) :
    (walkAny s interface next cs).answer = answer ↔
      ∃ front c back, cs = front ++ c :: back ∧
        (∀ u ∈ front, (walkRef s interface next u).answer = some false) ∧
        (walkRef s interface next c).answer = answer := by
  induction cs with
  | nil => simp [walkAny, Walk.ended, h.symm]
  | cons t rest ih =>
    rw [walkAny, Walk.answer_orElse]
    split
    · next ht =>
      rw [ih]
      constructor
      · rintro ⟨front, c, back, rfl, hf, hc⟩
        exact ⟨t :: front, c, back, rfl, List.forall_mem_cons.mpr ⟨ht, hf⟩, hc⟩
      · rintro ⟨_ | ⟨u, front⟩, c, back, he, hf, hc⟩
        · obtain ⟨rfl, rfl⟩ := List.cons.inj he
          exact absurd (hc.symm.trans ht) h
        · obtain ⟨rfl, rfl⟩ := List.cons.inj he
          exact ⟨front, c, back, rfl, (List.forall_mem_cons.mp hf).2, hc⟩
    · next ht =>
      constructor
      · intro ha
        exact ⟨[], t, rest, rfl, by simp, ha⟩
      · rintro ⟨_ | ⟨u, front⟩, c, back, he, hf, hc⟩
        · obtain ⟨rfl, rfl⟩ := List.cons.inj he
          exact hc
        · obtain ⟨rfl, rfl⟩ := List.cons.inj he
          exact absurd (hf t List.mem_cons_self) ht

private theorem answer_walkAny_eq_false_iff {cs : List TypeRef} :
    (walkAny s interface next cs).answer = some false ↔
      ∀ c ∈ cs, (walkRef s interface next c).answer = some false := by
  induction cs with
  | nil => simp [walkAny, Walk.ended]
  | cons t rest ih =>
    rw [walkAny, Walk.answer_orElse, List.forall_mem_cons, ← ih]
    split <;> simp_all

/-! ### Answers are right -/

/-- The answers of these walks say whether the interface is reached. -/
def Sound (s : Store) (interface : String) (next : TypeRef → Walk) : Prop :=
  ∀ t answer, (next t).answer = some answer → (answer = true ↔ s.Reaches interface t)

private theorem Sound.not_reaches (h : s.Sound interface next) {t : TypeRef}
    (ht : (next t).answer = some false) : ¬ s.Reaches interface t := by
  simpa using h t false ht

/-- Where the walks from base types answer rightly, so do those that go on to them. -/
theorem Sound.walkRef (h : s.Sound interface next) :
    s.Sound interface (s.walkRef interface next) := by
  intro t
  induction t using TypeRef.induction with
  | named fullName =>
    intro answer ha
    rw [Store.walkRef] at ha
    rw [reaches_named_iff]
    obtain ⟨hd, hw⟩ | ⟨d, hd, hi, hw⟩ | ⟨d, hd, hi, hb, hw⟩ | ⟨d, b, hd, hi, hb, hw⟩ :=
      s.walkNamed_cases interface next fullName
    · obtain rfl : false = answer := by simpa [hw] using ha
      simp [hd]
    · obtain rfl : true = answer := by simpa [hw] using ha
      simp [hd, hi]
    · obtain rfl : false = answer := by simpa [hw] using ha
      simp [hd, hi, hb]
    · rw [hw] at ha
      simpa [hd, hi, hb] using h b answer ha
  | generic name cs ih =>
    intro answer ha
    rw [Store.walkRef] at ha
    rw [reaches_generic_iff]
    cases answer with
    | true =>
      obtain ⟨front, c, back, rfl, -, hc⟩ := (answer_walkAny_eq_iff (by simp)).mp ha
      have hmem : c ∈ front ++ c :: back := by simp
      exact iff_of_true rfl ⟨c, hmem, (ih c hmem true hc).mp rfl⟩
    | false =>
      have hf := answer_walkAny_eq_false_iff.mp ha
      refine iff_of_false Bool.false_ne_true ?_
      rintro ⟨c, hc, hr⟩
      exact Bool.false_ne_true ((ih c hc false (hf c hc)).mpr hr)

private theorem sound_endless : s.Sound interface fun _ ↦ .endless := fun _ _ ha ↦ nomatch ha

/-- Whatever number of steps a walk is allowed, its answer is right. -/
theorem sound_walkWithin (n : Nat) : s.Sound interface (s.walkWithin interface n) := by
  induction n with
  | zero => exact sound_endless.walkRef
  | succ n ih => exact ih.walkRef

/-! ### Walks end where their steps do -/

private theorem exists_unanswered (hs : s.Sound interface next) {t : TypeRef}
    (h : (s.walkRef interface next t).answer = none) :
    ∃ fullName b, Relation.ReflTransGen (s.Visits interface) t (.named fullName) ∧
      s.Visits interface (.named fullName) b ∧ (next b).answer = none := by
  induction t using TypeRef.induction with
  | named fullName =>
    rw [Store.walkRef] at h
    obtain ⟨-, hw⟩ | ⟨d, -, -, hw⟩ | ⟨d, -, -, -, hw⟩ | ⟨d, b, hd, hi, hb, hw⟩ :=
      s.walkNamed_cases interface next fullName
    · simp [hw] at h
    · simp [hw] at h
    · simp [hw] at h
    · have hv : s.Visits interface (.named fullName) b :=
        .base hd (by simp [declares_named_iff, hd, hi]) hb
      exact ⟨fullName, b, .refl, hv, by simpa [hw] using h⟩
  | generic name cs ih =>
    rw [Store.walkRef] at h
    obtain ⟨front, c, back, rfl, hf, hc⟩ := (answer_walkAny_eq_iff (by simp)).mp h
    have hv : s.Visits interface (.generic name (front ++ c :: back)) c :=
      .constraint rfl fun u hu ↦ hs.walkRef.not_reaches (hf u hu)
    obtain ⟨fullName, b, hp, hb⟩ := ih c (by simp) hc
    exact ⟨fullName, b, .head hv hp, hb⟩

/-- A walk that is not answered after `n` steps to a base type has come to more than `n` named
types of the store, to each from all before it. -/
theorem exists_names_of_unanswered {n : Nat} {t : TypeRef}
    (h : (s.walkWithin interface n t).answer = none) :
    ∃ names : List String, names.length = n + 1 ∧ names ⊆ s.defs.names ∧
      (∀ x ∈ names, Relation.ReflTransGen (s.Visits interface) t (.named x)) ∧
      names.Pairwise fun x y ↦ Relation.TransGen (s.Visits interface) (.named x) (.named y) := by
  induction n generalizing t with
  | zero =>
    obtain ⟨x, b, hx, hb, -⟩ := exists_unanswered sound_endless h
    exact ⟨[x], rfl, by simpa using hb.mem_names, by simpa using hx, by simp⟩
  | succ n ih =>
    obtain ⟨x, b, hx, hb, hn⟩ := exists_unanswered (sound_walkWithin n) h
    obtain ⟨names, hl, hsub, hr, hp⟩ := ih hn
    refine ⟨x :: names, by simp [hl], List.cons_subset.mpr ⟨hb.mem_names, hsub⟩, ?_, ?_⟩
    · refine List.forall_mem_cons.mpr ⟨hx, fun y hy ↦ ?_⟩
      exact hx.trans (.head hb (hr y hy))
    · exact List.pairwise_cons.mpr ⟨fun y hy ↦ .head' hb (hr y hy), hp⟩

/-- A walk that ends is answered: otherwise it would have come to more named types than there are
definitions, and so to one of them twice. -/
theorem Ends.answer_ne_none {t : TypeRef} (h : s.Ends interface t) :
    (s.walk interface t).answer ≠ none := by
  intro hn
  obtain ⟨names, hl, hsub, hr, hp⟩ := exists_names_of_unanswered hn
  have hd : names.Nodup := by
    refine hp.imp_of_mem fun {x y} hx _ hxy he ↦ ?_
    subst he
    exact (h.of_reflTransGen (hr x hx)).irrefl hxy
  have hle : names.length ≤ s.size := by
    simpa [Store.size, Named.names, Named.size] using (hd.subperm hsub).length_le
  omega

private theorem answer_ne_none_of_walkAny {front back : List TypeRef} {c : TypeRef}
    (h : (walkAny s interface next (front ++ c :: back)).answer ≠ none)
    (hf : ∀ u ∈ front, (walkRef s interface next u).answer ≠ some true) :
    (walkRef s interface next c).answer ≠ none := by
  induction front with
  | nil =>
    intro hc
    exact h (by simp [walkAny, Walk.answer_orElse, hc])
  | cons t rest ih =>
    obtain ⟨ht, hrest⟩ := List.forall_mem_cons.mp hf
    rw [List.cons_append, walkAny, Walk.answer_orElse] at h
    split at h
    · exact ih h hrest
    · next hn =>
      cases ha : (walkRef s interface next t).answer with
      | none => exact absurd ha h
      | some answer => cases answer <;> contradiction

/-- Where answered walks from base types end, so do those that go on to them. -/
theorem ends_of_walkRef (hs : s.Sound interface next)
    (hb : ∀ b, (next b).answer ≠ none → s.Ends interface b) {t : TypeRef}
    (h : (s.walkRef interface next t).answer ≠ none) : s.Ends interface t := by
  induction t using TypeRef.induction with
  | named fullName =>
    refine .intro _ fun u hu ↦ hb u ?_
    cases hu with
    | @base _ d _ hd hi hu =>
      rw [Store.walkRef] at h
      have hd : s.get? fullName = some d := hd
      have hi : states interface d = false := by simpa [declares_named_iff, hd] using hi
      obtain ⟨hn, -⟩ | ⟨_, he, ht, -⟩ | ⟨_, he, -, hn, -⟩ | ⟨_, b, he, -, hn, hw⟩ :=
        s.walkNamed_cases interface next fullName
      · cases hd.symm.trans hn
      · cases hd.symm.trans he
        exact absurd ht (by simp [hi])
      · cases hd.symm.trans he
        exact absurd hu (by simp [hn])
      · cases hd.symm.trans he
        obtain rfl := Option.some.inj (hu.symm.trans hn)
        simpa [hw] using h
  | generic name cs ih =>
    refine .intro _ fun u hu ↦ ?_
    cases hu with
    | @constraint _ _ front back _ hc hf =>
      subst hc
      refine ih u (by simp) (answer_ne_none_of_walkAny h fun v hv ha ↦ hf v hv ?_)
      exact (hs.walkRef v true ha).mp rfl

/-- Whatever number of steps a walk is allowed, it ends where it is answered. -/
theorem ends_of_walkWithin {n : Nat} {t : TypeRef}
    (h : (s.walkWithin interface n t).answer ≠ none) : s.Ends interface t := by
  induction n generalizing t with
  | zero => exact ends_of_walkRef sound_endless (fun _ hb ↦ absurd rfl hb) h
  | succ n ih => exact ends_of_walkRef (sound_walkWithin n) (fun _ hb ↦ ih hb) h

/-- A walk is answered exactly when it ends. -/
theorem answer_ne_none_iff {t : TypeRef} :
    (s.walk interface t).answer ≠ none ↔ s.Ends interface t :=
  ⟨ends_of_walkWithin, Ends.answer_ne_none⟩

/-! ### What the answer says -/

/-- Where the walk from a type ends it has an answer, which says whether a finite path leads from
the type to one that states the interface. Such a path needs the definition of every named type on
it, and goes on from a generic parameter by its constraints only, even where the store has a
definition of the parameter's name. -/
theorem implements_iff_reaches {t : TypeRef} (h : s.Ends interface t) :
    (∃ answer, (s.implements (some t) interface).answer = some answer ∧
      (answer = true ↔ s.Reaches interface t)) ∧
    (∀ fullName, s.Reaches interface (.named fullName) ↔
      ∃ d, s.resolve (.named fullName) = some d ∧
        ((∃ i ∈ d.interfaces, i.fullName = interface) ∨
          ∃ b, d.base = some b ∧ s.Reaches interface b)) ∧
    ∀ name constraints, s.resolve (.generic name constraints) = none ∧
      (s.Reaches interface (.generic name constraints) ↔
        ∃ c ∈ constraints, s.Reaches interface c) := by
  refine ⟨?_, fun fullName ↦ ?_, fun name constraints ↦ ⟨rfl, reaches_generic_iff⟩⟩
  · obtain ⟨answer, ha⟩ := Option.ne_none_iff_exists'.mp h.answer_ne_none
    exact ⟨answer, ha, sound_walkWithin s.size t answer ha⟩
  · simpa [states, resolve] using reaches_named_iff

/-- A base type that is a generic parameter, whose name is that of another type too, and two
definitions that are each other's base types. -/
theorem implements_iff_reaches_generic_base :
    let s := ofList [
      { TypeDef.ofName "A" with base := some (.generic "T" [.named "Gone", .named "B"]) },
      { TypeDef.ofName "B" with base := some (.named "C") },
      { TypeDef.ofName "C" with base := some (.named "B"), interfaces := [.named "I"] },
      { TypeDef.ofName "T" with interfaces := [.named "J"] }]
    s.Ends "I" (.named "A") ∧ (s.implements (some (.named "A")) "I").answer = some true ∧
      s.Reaches "I" (.named "A") ∧
    s.Ends "J" (.generic "T" [.named "Gone"]) ∧
      (s.implements (some (.generic "T" [.named "Gone"])) "J").answer = some false ∧
      ¬ s.Reaches "J" (.generic "T" [.named "Gone"]) := by
  intro s
  have hi : s.Ends "I" (.named "A") := answer_ne_none_iff.mp (by decide)
  have hj : s.Ends "J" (.generic "T" [.named "Gone"]) := answer_ne_none_iff.mp (by decide)
  obtain ⟨⟨i, hia, hir⟩, -⟩ := implements_iff_reaches hi
  obtain ⟨⟨j, hja, hjr⟩, -⟩ := implements_iff_reaches hj
  have hit : (s.implements (some (.named "A")) "I").answer = some true := by decide
  have hjf : (s.implements (some (.generic "T" [.named "Gone"])) "J").answer = some false := by
    decide
  refine ⟨hi, hit, ?_, hj, hjf, ?_⟩
  · exact hir.mp (Option.some.inj (hia.symm.trans hit))
  · rw [← hjr, Option.some.inj (hja.symm.trans hjf)]
    exact Bool.false_ne_true

end Store

end Cil
