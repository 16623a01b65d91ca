import Cil.Proofs.Listing
import Cil.Proofs.Metadata.Walk

/-!
# What a walk logs

A walk goes through the paths from a type in depth-first order, in which a path comes before those
that continue it and the paths through one constraint before those through the next. That is the
lexicographic order of the indices on them. The lines of a walk are those of the paths that end in
a type without a definition, up to the first path that leads to the interface:
`Store.misses_logged`.
-/

namespace Cil

/-! ### Searches -/

section Search

variable {κ κ₁ κ₂ β : Type} {r : κ → κ → Prop} {r₁ : κ₁ → κ₁ → Prop} {r₂ : κ₂ → κ₂ → Prop}
  {in₁ : κ₁ → κ} {in₂ : κ₂ → κ} {success : κ → Prop} {tell : κ → Option β}
  {answer : Bool} {l l₁ l₂ : List β}

/-- A search through keys in order, up to the first under which there is success, tells this:
without success all there is to tell, and otherwise all that comes before the first. -/
def Tells (r : κ → κ → Prop) [DecidableRel r] (success : κ → Prop) (tell : κ → Option β) :
    Bool → List β → Prop
  | false, l => (∀ k, ¬ success k) ∧ Lists r tell l
  | true, l => ∃ k, success k ∧ (∀ j, r j k → ¬ success j) ∧
    Lists r (fun j ↦ if r j k then tell j else none) l

namespace Tells

private theorem first [DecidableRel r] [DecidableRel r₁] [Std.Asymm r] [Std.Trichotomous r₁]
    (hk : KeySplit r r₁ r₂ in₁ in₂)
    (h : Tells r₁ (fun a ↦ success (in₁ a)) (fun a ↦ tell (in₁ a)) true l) :
    Tells r success tell true l := by
  obtain ⟨k, hs, hbefore, hl⟩ := h
  refine ⟨in₁ k, hs, fun j hj hsj ↦ ?_, ?_⟩
  · obtain ⟨a, rfl⟩ | ⟨b, rfl⟩ := hk.cover j
    · exact hbefore a (hk.first_iff.mp hj) hsj
    · exact hk.not_across k b hj
  · rw [← List.append_nil l]
    refine Lists.append hk ?_ (Lists.nil fun b ↦ if_neg (hk.not_across k b))
    simpa only [hk.first_iff] using hl

private theorem append [DecidableRel r] [DecidableRel r₁] [DecidableRel r₂] [Std.Asymm r]
    [Std.Trichotomous r₂] (hk : KeySplit r r₁ r₂ in₁ in₂)
    (h₁ : Tells r₁ (fun a ↦ success (in₁ a)) (fun a ↦ tell (in₁ a)) false l₁)
    (h₂ : Tells r₂ (fun b ↦ success (in₂ b)) (fun b ↦ tell (in₂ b)) answer l₂) :
    Tells r success tell answer (l₁ ++ l₂) := by
  obtain ⟨hn₁, hl₁⟩ := h₁
  cases answer with
  | false =>
    obtain ⟨hn₂, hl₂⟩ := h₂
    refine ⟨fun k hs ↦ ?_, Lists.append hk hl₁ hl₂⟩
    obtain ⟨a, rfl⟩ | ⟨b, rfl⟩ := hk.cover k
    · exact hn₁ a hs
    · exact hn₂ b hs
  | true =>
    obtain ⟨k, hs, hbefore, hl₂⟩ := h₂
    refine ⟨in₂ k, hs, fun j hj hsj ↦ ?_, Lists.append hk ?_ ?_⟩
    · obtain ⟨a, rfl⟩ | ⟨b, rfl⟩ := hk.cover j
      · exact hn₁ a hsj
      · exact hbefore b (hk.second_iff.mp hj) hsj
    · simpa only [hk.across, if_true] using hl₁
    · simpa only [hk.second_iff] using hl₂

end Tells

end Search

private theorem Walk.log_orElse (w : Walk) (next : Unit → Walk) :
    (w.orElse next).log = if w.answer = some false then w.log ++ (next ()).log else w.log := by
  unfold orElse log
  split
  · next h => simp [h]
  · next h => rw [if_neg h]

namespace Store

variable {s : Store} {interface : String} {next : TypeRef → Walk} {t : TypeRef}

/-! ### Paths in order -/

/-- What a type takes interfaces from, in the order in which a walk tries it: a generic parameter
from its constraints, and a named type from its base type. -/
def sources (s : Store) : TypeRef → List TypeRef
  | .named fullName => ((s.get? fullName).bind (·.base)).toList
  | .generic _ constraints => constraints

private theorem step_iff_mem_sources {u : TypeRef} : s.Step t u ↔ u ∈ s.sources t := by
  cases t with
  | generic name constraints =>
    constructor
    · rintro ⟨hc⟩
      exact hc
    · exact .constraint
  | named fullName =>
    simp only [sources, Option.mem_toList, Option.bind_eq_some_iff]
    constructor
    · intro h
      cases h with
      | base hd hb => exact ⟨_, hd, hb⟩
    · rintro ⟨d, hd, hb⟩
      exact .base hd hb

/-- A type that the store does not have is unresolved. -/
def miss? (s : Store) : TypeRef → Option LogEvent
  | .named fullName => if (s.get? fullName).isNone then some (.unresolvedType fullName) else none
  | .generic _ _ => none

/-- The path from a type leads to one that states the interface. -/
def Succeeds (s : Store) (interface : String) (t : TypeRef) (path : List Nat) : Prop :=
  ∃ u, follow s.sources t path = some u ∧ s.Declares interface u

/-- The unresolved type at the end of a path from a type. -/
def missAt? (s : Store) (t : TypeRef) (path : List Nat) : Option LogEvent :=
  (follow s.sources t path).bind s.miss?

private theorem Reaches.exists_succeeds (h : s.Reaches interface t) :
    ∃ path, s.Succeeds interface t path := by
  obtain ⟨u, hu, hd⟩ := h
  have hsources : Relation.ReflTransGen (fun a c ↦ c ∈ s.sources a) t u :=
    Relation.ReflTransGen.mono (fun _ _ ↦ step_iff_mem_sources.mp) _ _ hu
  obtain ⟨path, hpath⟩ := exists_follow hsources
  exact ⟨path, u, hpath, hd⟩

/-- A walk takes every path that no successful one comes before. -/
theorem visits_of_follow {path : List Nat} {u : TypeRef}
    (hfirst : ∀ earlier < path, ¬ s.Succeeds interface t earlier)
    (hu : follow s.sources t path = some u) : Relation.ReflTransGen (s.Visits interface) t u := by
  induction path generalizing t with
  | nil =>
    obtain rfl : t = u := Option.some.inj hu
    exact .refl
  | cons i path ih =>
    obtain ⟨c, hc, hu⟩ := Option.bind_eq_some_iff.mp hu
    have hvisit : s.Visits interface t c := by
      cases t with
      | named fullName =>
        have hstep : s.Step (.named fullName) c :=
          step_iff_mem_sources.mpr (List.mem_of_getElem? hc)
        cases hstep with
        | base hd hb => exact .base hd (fun hi ↦ hfirst [] .nil ⟨_, rfl, hi⟩) hb
      | generic name constraints =>
        have hc : constraints[i]? = some c := hc
        obtain ⟨hlt, rfl⟩ := List.getElem?_eq_some_iff.mp hc
        have hsplit : constraints =
            constraints.take i ++ constraints[i] :: constraints.drop (i + 1) := by
          rw [← List.drop_eq_getElem_cons hlt, List.take_append_drop]
        refine .constraint hsplit fun v hv hr ↦ ?_
        obtain ⟨j, hj, rfl⟩ := List.mem_take_iff_getElem.mp hv
        obtain ⟨hji, hlength⟩ := Nat.lt_min.mp hj
        obtain ⟨back, w, hw, hd⟩ := hr.exists_succeeds
        have hcj : (s.sources (.generic name constraints))[j]? = some constraints[j] :=
          List.getElem?_eq_getElem hlength
        exact hfirst (j :: back) (.rel hji) ⟨w, by rw [follow, hcj, Option.bind_some, hw], hd⟩
    refine .head hvisit (ih (fun earlier he hs ↦ ?_) hu)
    obtain ⟨v, hv, hd⟩ := hs
    exact hfirst (i :: earlier) (.cons he) ⟨v, by rw [follow, hc, Option.bind_some, hv], hd⟩

/-! ### Lines in order -/

/-- The walk from a type tells of the unresolved types at the ends of paths, up to the first path
that succeeds. -/
def Logs (s : Store) (interface : String) (t : TypeRef) (w : Walk) : Prop :=
  ∀ answer, w.answer = some answer →
    Tells (· < ·) (s.Succeeds interface t) (s.missAt? t) answer w.log

/-- A walk from types one after the other tells of the unresolved types at the ends of paths from
each of them, up to the first path that succeeds. -/
def LogsAny (s : Store) (interface : String) (ts : List TypeRef) (w : Walk) : Prop :=
  ∀ answer, w.answer = some answer →
    Tells (Prod.Lex (· < ·) (· < ·))
      (fun k : Nat × List Nat ↦
        ∃ u, ts[k.1]?.bind (follow s.sources · k.2) = some u ∧ s.Declares interface u)
      (fun k ↦ (ts[k.1]?.bind (follow s.sources · k.2)).bind s.miss?) answer w.log

private theorem logsAny_nil : s.LogsAny interface [] (.ended false) := by
  intro answer ha
  obtain rfl : false = answer := Option.some.inj ha
  exact ⟨by simp, Lists.nil fun _ ↦ rfl⟩

private theorem LogsAny.cons {ts : List TypeRef} {w : Walk} {next : Unit → Walk}
    (h : s.Logs interface t w) (hrest : s.LogsAny interface ts (next ())) :
    s.LogsAny interface (t :: ts) (w.orElse next) := by
  intro answer ha
  rw [Walk.answer_orElse] at ha
  rw [Walk.log_orElse]
  split at ha
  · next hw =>
    rw [if_pos hw]
    exact .append .index (h false hw) (hrest answer ha)
  · next hw =>
    rw [if_neg hw]
    cases answer with
    | false => exact absurd ha hw
    | true => exact .first .index (h true ha)

private theorem logsAny_walkAny {ts : List TypeRef}
    (h : ∀ u ∈ ts, s.Logs interface u (s.walkRef interface next u)) :
    s.LogsAny interface ts (walkAny s interface next ts) := by
  induction ts with
  | nil => exact logsAny_nil
  | cons u rest ih =>
    obtain ⟨hu, hrest⟩ := List.forall_mem_cons.mp h
    rw [walkAny]
    exact .cons hu (ih hrest)

private theorem logs_of_declares (h : s.Declares interface t) {w : Walk} (ha : w.answer = some true)
    (hlog : w.log = []) : s.Logs interface t w := by
  intro answer hw
  obtain rfl : true = answer := Option.some.inj (ha.symm.trans hw)
  rw [hlog]
  exact .first .root ⟨(), ⟨t, rfl, h⟩, fun _ ↦ False.elim, Lists.nil fun _ ↦ rfl⟩

private theorem logs_of_sources (h : ¬ s.Declares interface t) {w v : Walk}
    (hv : s.LogsAny interface (s.sources t) v) (ha : w.answer = v.answer)
    (hlog : w.log = (s.miss? t).toList ++ v.log) : s.Logs interface t w := by
  have hown : Lists (fun _ _ : Unit ↦ False) (fun _ ↦ s.miss? t) (s.miss? t).toList := by
    cases s.miss? t with
    | none => exact Lists.nil fun _ ↦ rfl
    | some e => exact ⟨[()], by simp, by simp, rfl⟩
  intro answer hw
  rw [hlog]
  refine .append .root ⟨?_, hown⟩ (hv answer (ha.symm.trans hw))
  rintro - ⟨u, hu, hd⟩
  obtain rfl : t = u := Option.some.inj hu
  exact h hd

private theorem logs_walkRef (hnext : ∀ b, s.Logs interface b (next b)) (t : TypeRef) :
    s.Logs interface t (s.walkRef interface next t) := by
  induction t using TypeRef.induction with
  | generic name constraints ih =>
    rw [walkRef]
    exact logs_of_sources not_declares_generic (logsAny_walkAny ih) rfl rfl
  | named x =>
    rw [walkRef]
    obtain ⟨hd, hw⟩ | ⟨d, hd, hi, hw⟩ | ⟨d, hd, hi, hb, hw⟩ | ⟨d, b, hd, hi, hb, hw⟩ :=
      s.walkNamed_cases interface next x <;> rw [hw]
    · refine logs_of_sources (v := .ended false) ?_ ?_ rfl ?_
      · simp [declares_named_iff, hd]
      · simpa [sources, hd] using logsAny_nil
      · simp [miss?, hd, Walk.log, Walk.ended]
    · exact logs_of_declares (declares_named_iff.mpr ⟨d, hd, hi⟩) rfl rfl
    · refine logs_of_sources (v := .ended false) ?_ ?_ rfl ?_
      · simp [declares_named_iff, hd, hi]
      · simpa [sources, hd, hb] using logsAny_nil
      · simp [miss?, hd, Walk.log, Walk.ended]
    · have hbase : s.LogsAny interface [b] ((next b).orElse fun _ ↦ .ended false) :=
        .cons (hnext b) logsAny_nil
      refine logs_of_sources (v := (next b).orElse fun _ ↦ .ended false) ?_ ?_ ?_ ?_
      · simp [declares_named_iff, hd, hi]
      · simpa [sources, hd, hb] using hbase
      · rw [Walk.answer_orElse]
        split <;> simp_all [Walk.ended]
      · rw [Walk.log_orElse]
        simp [miss?, hd, Walk.log, Walk.ended]

/-- Whatever number of steps a walk is allowed, it logs as it should. -/
theorem logs_walkWithin (n : Nat) (t : TypeRef) :
    s.Logs interface t (s.walkWithin interface n t) := by
  induction n generalizing t with
  | zero =>
    have hnone (b : TypeRef) : s.Logs interface b .endless := fun _ ha ↦ nomatch ha
    exact logs_walkRef hnone t
  | succ n ih => exact logs_walkRef ih t

/-- A walk that ends takes the paths from a type in lexicographic order up to the first that leads
to a type with the interface, and logs one line for each path that ends in a type without a
definition, in this order: without a success those of all paths, and otherwise those of the paths
before the first success. -/
theorem misses_logged (h : s.Ends interface t) :
    (∀ path u, (∀ earlier < path, ¬ s.Succeeds interface t earlier) →
      follow s.sources t path = some u → Relation.ReflTransGen (s.Visits interface) t u) ∧
    ((s.implements (some t) interface).answer = some false ∧
        (∀ path, ¬ s.Succeeds interface t path) ∧
        Lists (· < ·) (s.missAt? t) (s.implements (some t) interface).log ∨
      (s.implements (some t) interface).answer = some true ∧
        ∃ path, s.Succeeds interface t path ∧
          (∀ earlier < path, ¬ s.Succeeds interface t earlier) ∧
          Lists (· < ·) (fun earlier ↦ if earlier < path then s.missAt? t earlier else none)
            (s.implements (some t) interface).log) := by
  refine ⟨fun _ _ ↦ visits_of_follow, ?_⟩
  obtain ⟨answer, ha⟩ := Option.ne_none_iff_exists'.mp h.answer_ne_none
  have hlogs := logs_walkWithin s.size t answer ha
  cases answer with
  | false => exact .inl ⟨ha, hlogs⟩
  | true => exact .inr ⟨ha, hlogs⟩

/-- Two constraints are not found, and neither is the base type of a third one, before the interface
is found; the last constraint is looked up only when another interface is asked for. -/
theorem misses_logged_nested :
    let s := ofList [
      { TypeDef.ofName "A" with
        base := some (.generic "T" [.named "X", .generic "U" [.named "B", .named "Y"], .named "C",
          .named "Z"]) },
      { TypeDef.ofName "B" with base := some (.named "X") },
      { TypeDef.ofName "C" with interfaces := [.named "I"] }]
    s.Ends "I" (.named "A") ∧ s.Succeeds "I" (.named "A") [0, 2] ∧
    (s.implements (some (.named "A")) "I").log =
      [.unresolvedType "X", .unresolvedType "X", .unresolvedType "Y"] ∧
    (∃ path, s.Succeeds "I" (.named "A") path ∧
      Lists (· < ·) (fun earlier ↦ if earlier < path then s.missAt? (.named "A") earlier else none)
        [.unresolvedType "X", .unresolvedType "X", .unresolvedType "Y"]) ∧
    s.Ends "J" (.named "A") ∧
    Lists (· < ·) (s.missAt? (.named "A"))
      [.unresolvedType "X", .unresolvedType "X", .unresolvedType "Y", .unresolvedType "Z"] := by
  intro s
  have hi : s.Ends "I" (.named "A") := answer_ne_none_iff.mp (by decide)
  have hj : s.Ends "J" (.named "A") := answer_ne_none_iff.mp (by decide)
  have hlog : (s.implements (some (.named "A")) "I").log =
      [.unresolvedType "X", .unresolvedType "X", .unresolvedType "Y"] := by decide
  have hall : (s.implements (some (.named "A")) "J").log =
      [.unresolvedType "X", .unresolvedType "X", .unresolvedType "Y", .unresolvedType "Z"] := by
    decide
  refine ⟨hi, ⟨.named "C", rfl, declares_named_iff.mpr ⟨_, rfl, rfl⟩⟩, hlog, ?_, hj, ?_⟩
  · obtain ⟨ha, -⟩ | ⟨-, path, hs, -, hl⟩ := (misses_logged hi).2
    · exact absurd ha (by decide)
    · exact ⟨path, hs, hlog ▸ hl⟩
  · obtain ⟨-, -, hl⟩ | ⟨ha, -⟩ := (misses_logged hj).2
    · exact hall ▸ hl
    · exact absurd ha (by decide)

end Store

end Cil
