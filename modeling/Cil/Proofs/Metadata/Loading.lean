import Cil.Metadata.Store
import Mathlib.Data.List.Dedup
import Mathlib.Data.List.Induction

/-!
# Loading definitions

A store that is filled from a list keeps under each name the last definition of it, and each
definition whose name came up before it is told of once. So the list is shared out between the
definitions that the store counts and the lines of the log, and its order counts only within a
name. Main statement: `Store.parse_keeps_last`.
-/

namespace Cil

namespace Named

variable {α : Type} {n m : Named α}

private theorem mem_entries_iff {name : String} {a : α} :
    (name, a) ∈ n.entries ↔ n.get? name = some a := by
  obtain ⟨entries, hnodup⟩ := n
  unfold get?
  induction entries with
  | nil => simp [find?]
  | cons e rest ih =>
    obtain ⟨key, b⟩ := e
    obtain ⟨hkey, hrest⟩ := List.nodup_cons.mp hnodup
    by_cases h : key = name
    · subst h
      have hnot : (key, a) ∉ rest := fun hmem ↦
        hkey (List.mem_map.mpr ⟨(key, a), hmem, rfl⟩)
      simp [find?, hnot, eq_comm]
    · simpa [find?, h, Ne.symm h] using ih hrest

/-- Up to the order of names, the entries are determined by what is found under each. -/
theorem entries_perm_iff : n.entries.Perm m.entries ↔ ∀ name, n.get? name = m.get? name := by
  constructor
  · intro h name
    apply Option.ext
    intro a
    rw [← mem_entries_iff, ← mem_entries_iff, h.mem_iff]
  · intro h
    apply (List.perm_ext_iff_of_nodup (.of_map _ n.nodup) (.of_map _ m.nodup)).mpr
    rintro ⟨name, a⟩
    rw [mem_entries_iff, mem_entries_iff, h]

private theorem size_set (n : Named α) (name : String) (a : α) :
    (n.set name a).size + (n.get? name).toList.length = n.size + 1 := by
  have hsize (k : Named α) : k.size = k.names.length := List.length_map _ |>.symm
  rw [hsize, hsize, names_set]
  cases h : n.get? name with
  | none =>
    have hnot : name ∉ n.names := by simp [mem_names_iff, h]
    simp [hnot]
  | some b =>
    have hmem : name ∈ n.names := mem_names_iff.mpr ⟨b, h⟩
    simp [hmem]

end Named

namespace Store

/-- The definitions of a name in a list, in order. -/
def named (name : String) (ds : List TypeDef) : List TypeDef := ds.filter (·.fullName = name)

/-- The definitions whose name comes up before them in the list, in order. -/
def repeats (ds : List TypeDef) : List TypeDef :=
  (ds.zipIdx.filter fun (d, k) ↦ d.fullName ∈ (ds.take k).map (·.fullName)).map Prod.fst

/-- The stores have the same definitions, whatever the order in which their names came up. -/
def Same (s t : Store) : Prop := s.defs.entries.Perm t.defs.entries

/-- What comes of loading a list of definitions. -/
structure Loaded (ds : List TypeDef) (events : List LogEvent) (s : Store) : Prop where
  /-- Under a name is the last definition of it, and nothing if there is none. -/
  get? : ∀ name, s.get? name = (named name ds).getLast?
  /-- Every definition is under its own name. -/
  ownName : ∀ name d, (name, d) ∈ s.defs.entries → d.fullName = name
  /-- Every name counts once. -/
  size : s.size = (ds.map (·.fullName)).dedup.length
  /-- There is one warning for each definition whose name came up before it, in order. -/
  warnings : events.map (fun e ↦ (e.level, e.message)) =
    (repeats ds).map fun d ↦ ("WARN", "Duplicate type definition " ++ d.fullName)
  /-- Each definition of the list counts in the store or has a warning. -/
  total : s.size + events.length = ds.length

variable {s t : Store} {ds es : List TypeDef}

/-- Stores are the same when they give the same definition for every name. -/
theorem same_iff : s.Same t ↔ ∀ name, s.get? name = t.get? name := Named.entries_perm_iff

private theorem named_eq_nil_iff {name : String} :
    named name ds = [] ↔ name ∉ ds.map (·.fullName) := by
  simp [named, List.filter_eq_nil_iff]

private theorem named_concat (name : String) (ds : List TypeDef) (d : TypeDef) :
    named name (ds ++ [d]) = named name ds ++ if d.fullName = name then [d] else [] := by
  simp [named, List.filter_append, List.filter_singleton]

private theorem repeats_concat (ds : List TypeDef) (d : TypeDef) :
    repeats (ds ++ [d]) =
      repeats ds ++ if d.fullName ∈ ds.map (·.fullName) then [d] else [] := by
  have hold : ds.zipIdx.filter (fun (e, k) ↦ e.fullName ∈ ((ds ++ [d]).take k).map (·.fullName)) =
      ds.zipIdx.filter (fun (e, k) ↦ e.fullName ∈ (ds.take k).map (·.fullName)) := by
    apply List.filter_congr
    rintro ⟨e, k⟩ he
    have hk : k < ds.length := by simpa using List.snd_lt_of_mem_zipIdx he
    simp only [List.take_append_of_le_length (Nat.le_of_lt hk)]
  rw [repeats, List.zipIdx_append, List.filter_append, List.map_append, hold, ← repeats]
  by_cases h : d.fullName ∈ ds.map (·.fullName) <;> simp [h]

/-- The last definition of a list is put into the store of the others, with a line in the log if it
takes the place of one of them. -/
theorem loadAll_concat (ds : List TypeDef) (d : TypeDef) (s : Store) :
    loadAll (ds ++ [d]) s =
      ((loadAll ds s).1 ++
          ((loadAll ds s).2.get? d.fullName).toList.map (.duplicateType ·.fullName),
        ((loadAll ds s).2.insert d).2) := by
  induction ds generalizing s with
  | nil =>
    simp only [List.nil_append, loadAll, insert]
    cases s.get? d.fullName <;> rfl
  | cons e rest ih =>
    simp only [List.cons_append, loadAll, ih]
    cases (s.insert e).1 <;> rfl

/-- The last definition of a name counts, and before all that were added those of the store. -/
theorem get?_insertAll (ds : List TypeDef) (s : Store) (name : String) :
    (insertAll ds s).get? name = (named name ds).getLast?.or (s.get? name) := by
  induction ds using List.reverseRecOn with
  | nil => rfl
  | append_singleton ds d ih =>
    have hadd : insertAll (ds ++ [d]) s = ((insertAll ds s).insert d).2 := by
      rw [← loadAll_snd, loadAll_concat, loadAll_snd]
    have hget : ((insertAll ds s).insert d).2.get? name =
        if d.fullName = name then some d else (insertAll ds s).get? name :=
      Named.get?_set _ _ _ _
    rw [hadd, hget, named_concat, ih]
    by_cases h : d.fullName = name <;> simp [h]

/-- Under each name a store of a list has the last definition of it. -/
theorem get?_ofList (ds : List TypeDef) (name : String) :
    (ofList ds).get? name = (named name ds).getLast? :=
  (get?_insertAll ds empty name).trans Option.or_none

private theorem fullName_of_get?_ofList {name : String} {d : TypeDef}
    (h : (ofList ds).get? name = some d) : d.fullName = name := by
  rw [get?_ofList] at h
  have hmem : d ∈ named name ds := List.mem_of_getLast? h
  simpa using (List.mem_filter.mp hmem).2

/-- The warnings of loading a list, given whether the name of each definition came up before. -/
theorem loadAll_fst (ds : List TypeDef) :
    (loadAll ds empty).1 = (repeats ds).map (.duplicateType ·.fullName) := by
  induction ds using List.reverseRecOn with
  | nil => rfl
  | append_singleton ds d ih =>
    have hstore : (loadAll ds empty).2 = ofList ds := loadAll_snd ds empty
    rw [loadAll_concat, hstore, ih, repeats_concat, List.map_append]
    cases h : (ofList ds).get? d.fullName with
    | none =>
      have hnot : d.fullName ∉ ds.map (·.fullName) := by
        rw [← named_eq_nil_iff, ← List.getLast?_eq_none_iff, ← get?_ofList, h]
      rw [if_neg hnot]
      rfl
    | some old =>
      have hmem : d.fullName ∈ ds.map (·.fullName) := by
        by_contra hnot
        rw [get?_ofList, named_eq_nil_iff.mpr hnot] at h
        cases h
      rw [if_pos hmem, Option.toList_some, List.map_singleton, fullName_of_get?_ofList h,
        List.map_singleton]

/-- Each definition counts in the store or has a line in the log. -/
theorem size_loadAll (ds : List TypeDef) (s : Store) :
    (loadAll ds s).2.size + (loadAll ds s).1.length = s.size + ds.length := by
  induction ds using List.reverseRecOn with
  | nil => rfl
  | append_singleton ds d ih =>
    have hset : ((loadAll ds s).2.insert d).2.size +
        ((loadAll ds s).2.get? d.fullName).toList.length = (loadAll ds s).2.size + 1 :=
      Named.size_set _ _ _
    simp only [loadAll_concat, List.length_append, List.length_map, List.length_singleton]
    omega

private theorem names_ofList_perm (ds : List TypeDef) :
    (ofList ds).defs.names.Perm (ds.map (·.fullName)).dedup := by
  apply (List.perm_ext_iff_of_nodup (ofList ds).defs.nodup (List.nodup_dedup _)).mpr
  intro name
  have hget : (ofList ds).defs.get? name = (named name ds).getLast? := get?_ofList ds name
  change name ∈ (ofList ds).defs.names ↔ _
  rw [List.mem_dedup, Named.mem_names_iff, hget, ← Option.isSome_iff_exists,
    Option.isSome_iff_ne_none, Ne, List.getLast?_eq_none_iff, named_eq_nil_iff, not_not]

private theorem loaded_loadAll (ds : List TypeDef) :
    Loaded ds (loadAll ds empty).1 (ofList ds) where
  get? := get?_ofList ds
  ownName _ _ h := fullName_of_get?_ofList (Named.mem_entries_iff.mp h)
  size := (List.length_map _).symm.trans (names_ofList_perm ds).length_eq
  warnings := by
    rw [loadAll_fst, List.map_map]
    rfl
  total := by
    have h := size_loadAll ds empty
    rw [loadAll_snd] at h
    exact h.trans (Nat.zero_add _)

/-- Lists whose definitions of each name come in the same order have the same store. -/
theorem same_ofList (h : ∀ name, named name ds = named name es) :
    (ofList ds).Same (ofList es) := by
  rw [same_iff]
  intro name
  rw [get?_ofList, get?_ofList, h]

private theorem named_eq_of_perm (hnames : (ds.map (·.fullName)).Nodup) (h : es.Perm ds)
    (name : String) :
    named name es = named name ds := by
  have hperm : (named name es).Perm (named name ds) := h.filter _
  have hall : (named name ds).map (·.fullName) = List.replicate (named name ds).length name := by
    rw [List.map_eq_replicate_iff]
    intro d hd
    simpa using (List.mem_filter.mp hd).2
  have hnodup : ((named name ds).map (·.fullName)).Nodup :=
    hnames.sublist (List.filter_sublist.map _)
  rw [hall, List.nodup_replicate] at hnodup
  cases hds : named name ds with
  | nil => rwa [hds, List.perm_nil] at hperm
  | cons d rest =>
    rw [hds, List.length_cons] at hnodup
    obtain rfl : rest = [] := List.length_eq_zero_iff.mp (by omega)
    rwa [hds, List.perm_singleton] at hperm

/-- A document that decodes to a list of definitions gives the store of that list: the last
definition of each name, with a warning for each one whose name came up before it. Only the order
within a name counts. A document that does not decode gives an error in place of a store and a
log. -/
theorem parse_keeps_last (text : String) (place : Position) (supply : Supply) :
    (∀ ds rest, DecodeM.runText TypeDef.decodeDocument text supply = (.ok ds, rest) →
      ∃ events s, parse text place supply = (.ok (events, s), rest) ∧ Loaded ds events s ∧
        ofList ds = s ∧
        (∀ es, (∀ name, named name es = named name ds) → (ofList es).Same s) ∧
        ((ds.map (·.fullName)).Nodup → ∀ es, es.Perm ds → (ofList es).Same s)) ∧
    (∀ e rest, DecodeM.runText TypeDef.decodeDocument text supply = (.error e, rest) →
      parse text place supply =
        (.error (.metadata ("Failed to parse metadata JSON: " ++ e.messageAt place)), rest)) := by
  constructor
  · intro ds rest hdecode
    have hparse : parse text place supply = (.ok ((loadAll ds empty).1, ofList ds), rest) := by
      rw [parse, hdecode, ofList, ← loadAll_snd]
    exact ⟨_, _, hparse, loaded_loadAll ds, rfl, fun _ ↦ same_ofList,
      fun hnames _ h ↦ same_ofList (named_eq_of_perm hnames h)⟩
  · intro e rest hdecode
    rw [parse, hdecode]

/-- A name that comes up three times has two warnings, one of them behind that of another name.
Another order of the names leaves the store as it is, and so does any order where each name comes
up once. -/
theorem parse_keeps_last_repeated :
    let a := TypeDef.ofName "A"
    let b := TypeDef.ofName "B"
    let a₁ := { a with base := some (.named "B") }
    let b₁ := { b with base := some (.named "A") }
    let a₂ := { a with base := some (.named "C") }
    let text := "\x7b\"types\":[[\"A\"],[\"B\"],[\"A\",\"B\"],[\"B\",\"A\"],[\"A\",\"C\"]]\x7d"
    (DecodeM.runText TypeDef.decodeDocument text .full = (.ok [a, b, a₁, b₁, a₂], .full) ∧
      repeats [a, b, a₁, b₁, a₂] = [a₁, b₁, a₂] ∧
      (∀ name, named name [b, b₁, a, a₁, a₂] = named name [a, b, a₁, b₁, a₂]) ∧
      ∃ events s, parse text ⟨1, 1⟩ .full = (.ok (events, s), .full) ∧
        Loaded [a, b, a₁, b₁, a₂] events s ∧ (ofList [b, b₁, a, a₁, a₂]).Same s) ∧
    (DecodeM.runText TypeDef.decodeDocument "[[[\"A\"],[\"B\"]]]" .full = (.ok [a, b], .full) ∧
      ([a, b].map (·.fullName)).Nodup ∧ [b, a].Perm [a, b] ∧
      ∃ events s, parse "[[[\"A\"],[\"B\"]]]" ⟨1, 1⟩ .full = (.ok (events, s), .full) ∧
        (ofList [b, a]).Same s) ∧
    DecodeM.runText TypeDef.decodeDocument "[[[]]]" .full =
      (.error (.tooFewItems 0 "struct TypeDef" 6), .full) ∧
    parse "[[[]]]" ⟨1, 4⟩ .full = (.error (.metadata ("Failed to parse metadata JSON: " ++
      "invalid length 0, expected struct TypeDef with 6 elements at line 1 column 4")), .full) := by
  intro a b a₁ b₁ a₂ text
  have hrepeated : DecodeM.runText TypeDef.decodeDocument text .full =
      (.ok [a, b, a₁, b₁, a₂], .full) := by
    decide +kernel
  have hnamed : ∀ name, named name [b, b₁, a, a₁, a₂] = named name [a, b, a₁, b₁, a₂] := by
    intro name
    by_cases ha : "A" = name
    · subst ha
      decide
    · simp [named, List.filter_cons, ha, a, a₁, a₂, b, b₁, TypeDef.ofName]
  have hdistinct : DecodeM.runText TypeDef.decodeDocument "[[[\"A\"],[\"B\"]]]" .full =
      (.ok [a, b], .full) := by
    decide +kernel
  have hnames : ([a, b].map (·.fullName)).Nodup := by decide
  have hswap : [b, a].Perm [a, b] := .swap a b []
  have hfailed : DecodeM.runText TypeDef.decodeDocument "[[[]]]" .full =
      (.error (.tooFewItems 0 "struct TypeDef" 6), .full) := by
    decide +kernel
  obtain ⟨events, s, hparse, hloaded, -, hsame, -⟩ :=
    (parse_keeps_last text ⟨1, 1⟩ .full).1 _ _ hrepeated
  obtain ⟨events', s', hparse', -, -, -, hsame'⟩ :=
    (parse_keeps_last "[[[\"A\"],[\"B\"]]]" ⟨1, 1⟩ .full).1 _ _ hdistinct
  exact ⟨⟨hrepeated, by decide, hnamed, events, s, hparse, hloaded, hsame _ hnamed⟩,
    ⟨hdistinct, hnames, hswap, events', s', hparse', hsame' hnames _ hswap⟩,
    hfailed, (parse_keeps_last "[[[]]]" ⟨1, 4⟩ .full).2 _ _ hfailed⟩

end Store

end Cil
