import Cil.Proofs.Json.Depth
import Cil.Proofs.Listing
import Mathlib.Data.List.Forall2

/-!
# Queries into values

A query leads to places of a value, each given by the indices on the way there. What it picks on
the way depends on names and indices only. So it leads to the same places when another value is put
into one of them, `Query.mem_places_put`, and when the value is clipped below them,
`Query.places_clip`.
-/

namespace Cil.Json

/-- The values directly inside a value; none of a torn object is counted. -/
def children : Json → List Json
  | .array items => items
  | .object members => members.map Prod.snd
  | _ => []

/-- What is left of a value without those inside it. -/
inductive Shape
  | leaf
  | array (length : Nat)
  | object (names : List String)

/-- The shape of a value. -/
def shape : Json → Shape
  | .array items => .array items.length
  | .object members => .object (members.map Prod.fst)
  | _ => .leaf

/-- The value with a change to the one at an index. -/
def modify (k : Nat) (f : Json → Json) : Json → Json
  | .array items => .array (items.modify k f)
  | .object members => .object (members.modify k fun m ↦ (m.1, f m.2))
  | v => v

/-- The value with a new one in a place. -/
def put (v : Json) : (path : List Nat) → (new : Json) → Json
  | [], new => new
  | k :: path, new => v.modify k (put · path new)

variable {v u new : Json} {path : List Nat} {n : Nat}

private theorem map_modify {α β : Type} {g : α → β} {f : α → α} {f' : β → β}
    (h : ∀ a, g (f a) = f' (g a)) (l : List α) (k : Nat) :
    (l.modify k f).map g = (l.map g).modify k f' := by
  induction l generalizing k with
  | nil => simp
  | cons a rest ih =>
    cases k with
    | zero => simp [h]
    | succ k => simp [ih]

/-- What lacks a flaw lacks it everywhere inside. -/
theorem lacks_of_mem_children {bad : Flaw → Bool} (h : v.lacks bad) (hu : u ∈ v.children) :
    u.lacks bad := by
  cases v with
  | array items =>
    rw [lacks, itemsLack_eq_all, List.all_eq_true] at h
    exact h u hu
  | object members =>
    rw [lacks, membersLack_eq_all, List.all_eq_true] at h
    obtain ⟨m, hm, rfl⟩ := List.mem_map.mp hu
    exact h m hm
  | _ => cases hu

private theorem depth_le_itemsDepth {items : List Json} (h : u ∈ items) :
    u.depth ≤ itemsDepth items := by
  induction items with
  | nil => cases h
  | cons w rest ih =>
    rw [itemsDepth]
    obtain rfl | h := List.mem_cons.mp h
    · exact Nat.le_max_left _ _
    · exact (ih h).trans (Nat.le_max_right _ _)

private theorem depth_le_membersDepth {members : List (String × Json)} {name : String}
    (h : (name, u) ∈ members) : u.depth ≤ membersDepth members := by
  induction members with
  | nil => cases h
  | cons m rest ih =>
    rw [membersDepth]
    obtain rfl | h := List.mem_cons.mp h
    · exact Nat.le_max_left _ _
    · exact (ih h).trans (Nat.le_max_right _ _)

/-- What is inside a value is nested less deeply. -/
theorem depth_lt_of_mem_children (hu : u ∈ v.children) : u.depth < v.depth := by
  cases v with
  | array items => exact Nat.lt_succ_of_le (depth_le_itemsDepth hu)
  | object members =>
    obtain ⟨m, hm, rfl⟩ := List.mem_map.mp hu
    exact Nat.lt_succ_of_le (depth_le_membersDepth hm)
  | _ => cases hu

private theorem shape_modify (k : Nat) (f : Json → Json) (v : Json) :
    (v.modify k f).shape = v.shape := by
  cases v with
  | array items => simp [modify, shape]
  | object members =>
    have hnames : (members.modify k fun m ↦ (m.1, f m.2)).map Prod.fst =
        (members.map Prod.fst).modify k id := by
      apply map_modify
      intro m
      rfl
    rw [modify, shape, shape, hnames, List.modify_id]
  | _ => rfl

private theorem children_modify (k : Nat) (f : Json → Json) (v : Json) :
    (v.modify k f).children = v.children.modify k f := by
  cases v with
  | array items => rfl
  | object members =>
    apply map_modify
    intro m
    rfl
  | _ => simp [modify, children]

private theorem shape_clip (n : Nat) (v : Json) : (v.clip (n + 1)).shape = v.shape := by
  cases v with
  | array items => simp [clip, shape, clipItems_eq_map]
  | object members => simp [clip, shape, clipMembers_eq_map]
  | _ => rfl

private theorem children_clip (n : Nat) (v : Json) :
    (v.clip (n + 1)).children = v.children.map (clip n) := by
  cases v with
  | array items => simp [clip, children, clipItems_eq_map]
  | object members => simp [clip, children, clipMembers_eq_map]
  | _ => rfl

private theorem children_clip_zero (v : Json) : (v.clip 0).children = [] := by
  cases v <;> rfl

/-- Clipping neither makes nor changes numbers. -/
theorem eq_number_of_clip {x : Number} (h : v.clip n = .number x) : v = .number x := by
  cases v with
  | array items => cases n <;> cases h
  | object members => cases n <;> cases h
  | torn members rest => cases n <;> cases h
  | _ => cases n <;> exact h

/-- In the place of another value is the one that was put there. -/
theorem follow_put (h : follow children v path = some u) (new : Json) :
    follow children (v.put path new) path = some new := by
  induction path generalizing v with
  | nil => rfl
  | cons k path ih =>
    obtain ⟨c, hc, hu⟩ := Option.bind_eq_some_iff.mp h
    rw [put, follow, children_modify, List.getElem?_modify_eq, hc]
    exact ih hu

/-- What is found in a clipped value is what is found in the value itself, clipped. -/
theorem follow_clip (h : follow children (v.clip n) path = some u) :
    ∃ w k, follow children v path = some w ∧ w.clip k = u := by
  induction path generalizing v n with
  | nil => exact ⟨v, n, rfl, Option.some.inj h⟩
  | cons k path ih =>
    obtain ⟨c, hc, hu⟩ := Option.bind_eq_some_iff.mp h
    cases n with
    | zero =>
      rw [children_clip_zero] at hc
      cases hc
    | succ n =>
      rw [children_clip, List.getElem?_map, Option.map_eq_some_iff] at hc
      obtain ⟨d, hd, rfl⟩ := hc
      rw [follow, hd]
      exact ih hu

/-- A step from a value to some of those directly inside it. -/
inductive Step
  /-- To all items of an array. -/
  | items
  /-- To what is given for a field of a record of these names. -/
  | field (names : List String) (name : String)
  /-- To what is written beside a name that is the only one. -/
  | variant (name : String)

namespace Step

/-- The indices to which a step leads. -/
def pick : Step → Shape → List Nat
  | items, .array length => List.range length
  | field _ name, .object keys => (List.range keys.length).filter fun k ↦ keys[k]? = some name
  | field names name, .array length => [names.idxOf name].filter (· < length)
  | variant name, .object keys => if keys = [name] then [0] else []
  | _, _ => []

/-- The values to which a step leads. -/
def values (step : Step) (v : Json) : List Json :=
  (step.pick v.shape).flatMap fun k ↦ v.children[k]?.toList

end Step

/-- A way of looking for values inside a value. -/
inductive Query
  /-- The value itself. -/
  | here
  /-- What is found in those to which a step leads. -/
  | inside (step : Step) (q : Query)
  /-- What is found by a first query, and then by a second. -/
  | both (p q : Query)

namespace Query

/-- The places to which a query leads. -/
def places : Query → Json → List (List Nat)
  | here, _ => [[]]
  | inside step q, v => (step.pick v.shape).flatMap fun k ↦
    v.children[k]?.toList.flatMap fun c ↦ (q.places c).map (k :: ·)
  | both p q, v => p.places v ++ q.places v

/-- The values to which a query leads. -/
def values : Query → Json → List Json
  | here, v => [v]
  | inside step q, v => (step.values v).flatMap q.values
  | both p q, v => p.values v ++ q.values v

/-- The number of steps on the longest way. -/
def height : Query → Nat
  | here => 0
  | inside _ q => q.height + 1
  | both p q => max p.height q.height

variable {q : Query}

private theorem mem_places_inside_iff {step : Step} : path ∈ (inside step q).places v ↔
    ∃ k ∈ step.pick v.shape, ∃ c, v.children[k]? = some c ∧
      ∃ rest ∈ q.places c, k :: rest = path := by
  simp [places, List.mem_flatMap, Option.mem_toList]

/-- The values of a query are those in its places. -/
theorem map_follow_places (q : Query) (v : Json) :
    (q.places v).map (follow children v) = (q.values v).map some := by
  induction q generalizing v with
  | here => rfl
  | inside step q ih =>
    have hpart (k : Nat) : (v.children[k]?.toList.flatMap fun c ↦
        (q.places c).map (k :: ·)).map (follow children v) =
        (v.children[k]?.toList.flatMap q.values).map some := by
      cases hc : v.children[k]? with
      | none => rfl
      | some c => simpa [follow, hc, Function.comp_def] using ih c
    simp only [places, values, Step.values, List.map_flatMap, List.flatMap_assoc, hpart]
  | both p q ihp ihq => rw [places, values, List.map_append, List.map_append, ihp, ihq]

/-- In each place of a query there is a value. -/
theorem exists_follow_of_mem_places (h : path ∈ q.places v) :
    ∃ u ∈ q.values v, follow children v path = some u := by
  have hmem : follow children v path ∈ (q.values v).map some :=
    map_follow_places q v ▸ List.mem_map_of_mem h
  obtain ⟨u, hu, hsome⟩ := List.mem_map.mp hmem
  exact ⟨u, hu, hsome.symm⟩

/-- A query still leads to a place where another value is put. -/
theorem mem_places_put (h : path ∈ q.places v) (new : Json) : path ∈ q.places (v.put path new) := by
  induction q generalizing v path with
  | here =>
    obtain rfl : path = [] := List.mem_singleton.mp h
    exact List.mem_singleton_self _
  | inside step q ih =>
    obtain ⟨k, hk, c, hc, rest, hrest, rfl⟩ := mem_places_inside_iff.mp h
    refine mem_places_inside_iff.mpr ⟨k, ?_, c.put rest new, ?_, rest, ih hrest, rfl⟩
    · rwa [put, shape_modify]
    · rw [put, children_modify, List.getElem?_modify_eq, hc]
      rfl
  | both p q ihp ihq =>
    rw [places, List.mem_append] at h ⊢
    exact h.imp ihp ihq

/-- Clipping below the places of a query does not change them. -/
theorem places_clip (h : q.height ≤ n) (v : Json) : q.places (v.clip n) = q.places v := by
  induction q generalizing v n with
  | here => rfl
  | inside step q ih =>
    obtain ⟨n, rfl⟩ : ∃ m, n = m + 1 := ⟨n - 1, by rw [height] at h; omega⟩
    have hrest : q.height ≤ n := Nat.le_of_succ_le_succ h
    simp only [places, shape_clip, children_clip, List.getElem?_map, Option.toList_map,
      List.flatMap_map, ih hrest]
  | both p q ihp ihq =>
    rw [height, Nat.max_le] at h
    rw [places, places, ihp h.1, ihq h.2]

end Query

end Cil.Json
