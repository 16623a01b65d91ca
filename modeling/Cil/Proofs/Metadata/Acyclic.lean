import Cil.Proofs.Metadata.Walk
import Mathlib.Order.WellFoundedSet

/-!
# Walks over acyclic metadata

The definitions of a store form a graph, with an edge to each definition that a base type mentions,
itself or within constraints. Where this graph has no cycle every walk ends, from whatever type and
for whatever interface, and no path of it goes on to more base types than there are definitions:
`Store.Acyclic.walk_ends`.
-/

namespace Cil

namespace TypeRef

mutual

/-- The full names that a reference mentions: its own if it names a type, and else those in its
constraints at any depth. -/
def mentions : TypeRef → List String
  | .named fullName => [fullName]
  | .generic _ constraints => mentionsAny constraints

/-- The full names that references mention. -/
def mentionsAny : List TypeRef → List String
  | [] => []
  | t :: rest => mentions t ++ mentionsAny rest

end

private theorem mem_mentionsAny_iff {x : String} {l : List TypeRef} :
    x ∈ mentionsAny l ↔ ∃ t ∈ l, x ∈ t.mentions := by
  induction l with
  | nil => simp [mentionsAny]
  | cons t rest ih => simp [mentionsAny, ih]

private theorem mem_mentions_generic {x name : String} {constraints : List TypeRef} :
    x ∈ (generic name constraints).mentions ↔ ∃ c ∈ constraints, x ∈ c.mentions := by
  rw [mentions, mem_mentionsAny_iff]

end TypeRef

namespace Store

variable {s : Store} {interface : String}

/-- The names of definitions that the base type of the definition of this name mentions. -/
def baseNames (s : Store) (x : String) : List String :=
  match (s.get? x).bind (·.base) with
  | none => []
  | some b => b.mentions.filter (· ∈ s.defs.names)

/-- The base type of one definition mentions the other. -/
def BaseEdge (s : Store) (x y : String) : Prop := y ∈ s.baseNames x

/-- No definition is among those that its base type leads to. -/
def Acyclic (s : Store) : Prop := ∀ x, ¬ Relation.TransGen s.BaseEdge x x

/-- An edge leads from a definition to one that its base type mentions. -/
theorem baseEdge_iff {x y : String} :
    s.BaseEdge x y ↔ ∃ d b, s.get? x = some d ∧ d.base = some b ∧ y ∈ b.mentions ∧
      y ∈ s.defs.names := by
  rw [BaseEdge, baseNames]
  cases s.get? x with
  | none => simp
  | some d => cases hb : d.base <;> simp [hb]

private theorem BaseEdge.mem_names {x y : String} (h : s.BaseEdge x y) :
    x ∈ s.defs.names ∧ y ∈ s.defs.names := by
  obtain ⟨d, _, hd, _, _, hy⟩ := baseEdge_iff.mp h
  exact ⟨Named.mem_names_iff.mpr ⟨d, hd⟩, hy⟩

/-- A store is acyclic when its names can be numbered so that numbers fall along edges. -/
theorem acyclic_of_rank (rank : String → Nat)
    (h : ∀ x ∈ s.defs.names, ∀ y ∈ s.baseNames x, rank y < rank x) : s.Acyclic := by
  have fall {x y : String} (hxy : Relation.TransGen s.BaseEdge x y) : rank y < rank x := by
    induction hxy with
    | single hxy => exact h _ hxy.mem_names.1 _ hxy
    | tail _ hyz ih => exact (h _ hyz.mem_names.1 _ hyz).trans ih
  exact fun x hx ↦ (fall hx).false

/-! ### Walks end -/

/-- A store has finitely many definitions, so that edges without a cycle come to an end. -/
theorem Acyclic.wellFounded (h : s.Acyclic) : WellFounded fun y x ↦ s.BaseEdge x y := by
  let below : String → String → Prop := Relation.TransGen fun y x ↦ s.BaseEdge x y
  have : IsStrictOrder String below :=
    { irrefl := fun x hx ↦ h x (Relation.transGen_swap.mp hx)
      trans := fun _ _ _ ↦ Relation.TransGen.trans }
  have hfinite : {x | x ∈ s.defs.names}.Finite := s.defs.names.finite_toSet
  have hwf := Set.wellFoundedOn_iff.mp (hfinite.wellFoundedOn (r := below))
  exact Subrelation.wf (fun hxy ↦ ⟨.single hxy, hxy.mem_names.2, hxy.mem_names.1⟩) hwf

private theorem acc_of_mentions {t : TypeRef}
    (h : ∀ x ∈ t.mentions, Acc (fun u t ↦ s.Step t u) (.named x)) :
    Acc (fun u t ↦ s.Step t u) t := by
  induction t using TypeRef.induction with
  | named fullName => exact h fullName (by simp [TypeRef.mentions])
  | generic name constraints ih =>
    refine .intro _ fun u hu ↦ ?_
    cases hu with
    | constraint hc =>
      exact ih u hc fun x hx ↦ h x (TypeRef.mem_mentions_generic.mpr ⟨u, hc, hx⟩)

private theorem acc_of_notMem {x : String} (h : x ∉ s.defs.names) :
    Acc (fun u t ↦ s.Step t u) (.named x) := by
  refine .intro _ fun u hu ↦ ?_
  cases hu with
  | base hd _ => exact absurd (Named.mem_names_iff.mpr ⟨_, hd⟩) h

/-- Over acyclic metadata all sequences of steps come to an end. -/
theorem Acyclic.acc (h : s.Acyclic) (t : TypeRef) : Acc (fun u t ↦ s.Step t u) t := by
  have hnamed (x : String) : Acc (fun u t ↦ s.Step t u) (.named x) := by
    induction x using h.wellFounded.induction with
    | _ x ih =>
      refine .intro _ fun b hb ↦ ?_
      cases hb with
      | base hd hb =>
        refine acc_of_mentions fun y hy ↦ ?_
        by_cases hmem : y ∈ s.defs.names
        · exact ih y (baseEdge_iff.mpr ⟨_, b, hd, hb, hy, hmem⟩)
        · exact acc_of_notMem hmem
  exact acc_of_mentions fun x _ ↦ hnamed x

/-! ### Walks are short -/

/-- A path of a walk, with the number of its steps to a base type. -/
inductive Route (s : Store) (interface : String) : TypeRef → Nat → TypeRef → Prop
  | nil (t : TypeRef) : Route s interface t 0 t
  | constraint {name : String} {constraints : List TypeRef} {c u : TypeRef} {n : Nat}
    (hc : s.Visits interface (.generic name constraints) c) (hr : Route s interface c n u) :
    Route s interface (.generic name constraints) n u
  | base {fullName : String} {b u : TypeRef} {n : Nat}
    (hb : s.Visits interface (.named fullName) b) (hr : Route s interface b n u) :
    Route s interface (.named fullName) (n + 1) u

private theorem Route.exists_chain {t u : TypeRef} {n : Nat} (h : s.Route interface t n u) :
    ∃ names : List String, names.length = n ∧ names.IsChain s.BaseEdge ∧
      (∀ x ∈ names, x ∈ s.defs.names) ∧ ∀ x ∈ names.head?, x ∈ t.mentions := by
  induction h with
  | nil t => exact ⟨[], rfl, .nil, by simp, by simp⟩
  | constraint hc _ ih =>
    obtain ⟨names, hlength, hchain, hmem, hhead⟩ := ih
    refine ⟨names, hlength, hchain, hmem, fun x hx ↦ ?_⟩
    cases hc.step with
    | constraint hc => exact TypeRef.mem_mentions_generic.mpr ⟨_, hc, hhead x hx⟩
  | @base fullName b u n hb _ ih =>
    obtain ⟨names, hlength, hchain, hmem, hhead⟩ := ih
    have hedge : ∀ x ∈ names.head?, s.BaseEdge fullName x := fun x hx ↦ by
      cases hb.step with
      | base hd hbase =>
        have hx' : x ∈ s.defs.names := hmem x (List.mem_of_mem_head? hx)
        exact baseEdge_iff.mpr ⟨_, b, hd, hbase, hhead x hx, hx'⟩
    refine ⟨fullName :: names, congrArg (· + 1) hlength, hchain.cons hedge, ?_, ?_⟩
    · exact List.forall_mem_cons.mpr ⟨hb.mem_names, hmem⟩
    · simp [TypeRef.mentions]

/-- Over acyclic metadata no path of a walk goes on to more base types than there are
definitions. -/
theorem Acyclic.route_le (h : s.Acyclic) {t u : TypeRef} {n : Nat}
    (hr : s.Route interface t n u) : n ≤ s.size := by
  obtain ⟨names, rfl, hchain, hmem, -⟩ := hr.exists_chain
  have hpairwise : names.Pairwise (Relation.TransGen s.BaseEdge) :=
    (hchain.imp fun _ _ ↦ Relation.TransGen.single).pairwise
  have hnodup : names.Nodup := by
    refine hpairwise.imp fun {x y} hxy hne ↦ ?_
    subst hne
    exact h x hxy
  calc names.length
    _ ≤ s.defs.names.length := (hnodup.subperm hmem).length_le
    _ = s.size := List.length_map _

/-- Over acyclic metadata the walk from any type and for any interface ends with an answer, and
each of its paths goes on to no more base types than there are definitions. -/
theorem Acyclic.walk_ends (h : s.Acyclic) (interface : String) :
    (∀ t, s.Ends interface t ∧ ∀ n u, s.Route interface t n u → n ≤ s.size) ∧
    ∀ t : Option TypeRef, ∃ answer, (s.implements t interface).answer = some answer := by
  have hends (t : TypeRef) : s.Ends interface t := ends_of_acc (h.acc t)
  refine ⟨fun t ↦ ⟨hends t, fun n u hr ↦ h.route_le hr⟩, fun t ↦ ?_⟩
  cases t with
  | none => exact ⟨false, rfl⟩
  | some t => exact Option.ne_none_iff_exists'.mp (hends t).answer_ne_none

/-- Two ways lead from one type to another, one of them through constraints within constraints and
a third type. -/
theorem walk_ends_diamond :
    let s := ofList [
      { TypeDef.ofName "A" with
        base := some (.generic "T" [.generic "U" [.named "Gone", .named "B"], .named "C"]) },
      { TypeDef.ofName "B" with base := some (.named "C") },
      { TypeDef.ofName "C" with interfaces := [.named "I"] }]
    s.Acyclic ∧ s.Ends "J" (.named "A") ∧ s.Route "J" (.named "A") 2 (.named "C") ∧ 2 ≤ s.size ∧
      ∃ answer, (s.implements (some (.named "A")) "J").answer = some answer := by
  intro s
  have hacyclic : s.Acyclic :=
    acyclic_of_rank (fun x ↦ if x = "A" then 2 else if x = "B" then 1 else 0) (by decide)
  obtain ⟨hwalk, hanswer⟩ := hacyclic.walk_ends "J"
  obtain ⟨hends, hshort⟩ := hwalk (.named "A")
  have hgone : ¬ s.Reaches "J" (.named "Gone") := by
    rw [reaches_named_iff]
    rintro ⟨d, hd, -⟩
    cases hd
  have hroute : s.Route "J" (.named "A") 2 (.named "C") := by
    refine .base (.base rfl ?_ rfl) (.constraint (.constraint (List.nil_append _).symm (by simp))
      (.constraint (.constraint (List.singleton_append).symm (by simpa using hgone))
        (.base (.base rfl ?_ rfl) (.nil _))))
    all_goals
      rw [declares_named_iff]
      rintro ⟨d, hd, hi⟩
      cases hd
      cases hi
  exact ⟨hacyclic, hends, hroute, hshort 2 _ hroute, hanswer _⟩

end Store

end Cil
