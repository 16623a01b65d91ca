/-!
# Named values

Values under names, each name once, in the order in which the names first came up. Main laws:
`get?_set`, `get?_erase` and `names_set`.
-/

namespace Cil

/-- Values under distinct names. -/
structure Named (α : Type) where
  entries : List (String × α)
  nodup : (entries.map Prod.fst).Nodup

namespace Named

variable {α : Type}

/-- No values. -/
def empty : Named α := ⟨[], by simp⟩

instance : Inhabited (Named α) := ⟨empty⟩

/-- The names in order. -/
def names (n : Named α) : List String := n.entries.map Prod.fst

/-- The values in the order of their names. -/
def values (n : Named α) : List α := n.entries.map Prod.snd

/-- The number of values. -/
def size (n : Named α) : Nat := n.entries.length

/-- Looks a name up in a list of entries. -/
def find? (name : String) : List (String × α) → Option α
  | [] => none
  | (key, a) :: rest => if key = name then some a else find? name rest

/-- The value under a name. -/
def get? (n : Named α) (name : String) : Option α := find? name n.entries

/-- Puts a value into the place of its name, or behind all others. -/
def put (name : String) (a : α) : List (String × α) → List (String × α)
  | [] => [(name, a)]
  | (key, b) :: rest => if key = name then (name, a) :: rest else (key, b) :: put name a rest

private theorem map_fst_put (name : String) (a : α) (l : List (String × α)) :
    (put name a l).map Prod.fst =
      if name ∈ l.map Prod.fst then l.map Prod.fst else l.map Prod.fst ++ [name] := by
  induction l with
  | nil => simp [put]
  | cons e rest ih =>
    obtain ⟨key, b⟩ := e
    by_cases h : key = name
    · simp [put, h]
    · simp only [put, h, if_false, List.map_cons, ih, List.mem_cons, Ne.symm h, false_or]
      split <;> simp

private theorem nodup_put {name : String} {a : α} {l : List (String × α)}
    (h : (l.map Prod.fst).Nodup) : ((put name a l).map Prod.fst).Nodup := by
  rw [map_fst_put]
  split
  · exact h
  next hn =>
    refine List.nodup_append.2 ⟨h, by simp, ?_⟩
    intro x hx y hy
    rw [List.mem_singleton] at hy
    rintro rfl
    exact hn (hy ▸ hx)

/-- Puts a value under a name, in place of one that is there. -/
def set (n : Named α) (name : String) (a : α) : Named α :=
  ⟨put name a n.entries, nodup_put n.nodup⟩

/-- Takes the value under a name away. -/
def erase (n : Named α) (name : String) : Named α :=
  ⟨n.entries.filter (·.1 != name), n.nodup.sublist (List.filter_sublist.map _)⟩

/-- Nothing is found without values. -/
@[simp] theorem get?_empty (name : String) : (empty : Named α).get? name = none := rfl

private theorem find?_put (name other : String) (a : α) (l : List (String × α)) :
    find? other (put name a l) = if name = other then some a else find? other l := by
  induction l with
  | nil => simp [put, find?]
  | cons e rest ih =>
    obtain ⟨key, b⟩ := e
    by_cases h : key = name
    · subst h
      by_cases ho : key = other <;> simp [put, find?, ho]
    · simp only [put, h, if_false, find?, ih]
      by_cases hk : key = other
      · have : name ≠ other := fun hn ↦ h (hk.trans hn.symm)
        simp [hk, this]
      · simp [hk]

/-- A value is found under the name where it was put last. -/
theorem get?_set (n : Named α) (name other : String) (a : α) :
    (n.set name a).get? other = if name = other then some a else n.get? other :=
  find?_put name other a n.entries

/-- A value is found under every name, and under no other. -/
theorem mem_names_iff {n : Named α} {name : String} :
    name ∈ n.names ↔ ∃ a, n.get? name = some a := by
  unfold names get?
  induction n.entries with
  | nil => simp [find?]
  | cons e rest ih =>
    obtain ⟨key, a⟩ := e
    by_cases h : key = name
    · simp [find?, h]
    · simp [find?, h, Ne.symm h, ih]

/-- A new name comes last, an old one keeps its place. -/
theorem names_set (n : Named α) (name : String) (a : α) :
    (n.set name a).names = if name ∈ n.names then n.names else n.names ++ [name] :=
  map_fst_put name a n.entries

end Named

end Cil
