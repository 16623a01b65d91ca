import Mathlib.Data.Finset.Card
import Mathlib.Data.List.Lex
import Mathlib.Data.Prod.Basic
import Mathlib.Data.Set.Card
import Mathlib.Logic.Relation
import Mathlib.Order.RelClasses

/-!
# Listings

A list can show the values that a partial function has under its keys: each key once, and in the
order of the keys. Such listings are put together from those of parts, and so, by recursion, from
those of a whole hierarchy, whose keys are paths: of keys under which parts stand, `Lists.descend`,
or of their indices, `Lists.follow`. A listing counts the keys of a value: `Lists.encard_eq_count`.
-/

namespace Cil

variable {α β κ κ₁ κ₂ : Type}

/-- What a path leads to: each index on it picks one of what is directly below. -/
def follow (below : α → List α) : α → List Nat → Option α
  | a, [] => some a
  | a, i :: path => (below a)[i]?.bind fun c ↦ follow below c path

/-- What a path leads to, where each key on it picks one of the parts that stand under keys. -/
def descend (part? : α → κ → Option α) : α → List κ → Option α
  | a, [] => some a
  | a, k :: path => (part? a k).bind fun c ↦ descend part? c path

private theorem follow_eq_descend (below : α → List α) (a : α) (path : List Nat) :
    follow below a path = descend (fun a i ↦ (below a)[i]?) a path := by
  induction path generalizing a with
  | nil => rfl
  | cons i path ih => simp only [follow, descend, ih]

/-- Where steps lead from one thing to another below it, a path does so. -/
theorem exists_follow {below : α → List α} {a b : α}
    (h : Relation.ReflTransGen (fun a c ↦ c ∈ below a) a b) :
    ∃ path, follow below a path = some b := by
  induction h using Relation.ReflTransGen.head_induction_on with
  | refl => exact ⟨[], rfl⟩
  | head hc _ ih =>
    obtain ⟨path, hpath⟩ := ih
    obtain ⟨i, hi⟩ := List.mem_iff_getElem?.mp hc
    exact ⟨i :: path, by rw [follow, hi, Option.bind_some, hpath]⟩

/-- A recursion that lists what is directly below lists what a path leads to. -/
theorem sublist_of_follow {below : α → List α} {own list : α → List β}
    (hlist : ∀ a, list a = own a ++ (below a).flatMap list) {a b : α} {path : List Nat}
    (h : follow below a path = some b) : (list b).Sublist (list a) := by
  induction path generalizing a with
  | nil =>
    obtain rfl : a = b := by simpa [follow] using h
    exact List.Sublist.refl _
  | cons i path ih =>
    obtain ⟨c, hc, hb⟩ := Option.bind_eq_some_iff.mp h
    have hmem : list c ∈ (below a).map list := List.mem_map_of_mem (List.mem_of_getElem? hc)
    calc (list b).Sublist (list c) := ih hb
      List.Sublist _ ((below a).flatMap list) := List.sublist_flatten_of_mem hmem
      List.Sublist _ (own a ++ (below a).flatMap list) := List.sublist_append_right _ _
      _ = list a := (hlist a).symm

/-- The list shows the values of a partial function in the order of their keys. -/
def Lists (r : κ → κ → Prop) (f : κ → Option β) (l : List β) : Prop :=
  ∃ keys : List κ, keys.Pairwise r ∧ (∀ k, k ∈ keys ↔ (f k).isSome) ∧ keys.map f = l.map some

/-- Keys come in two kinds, in the order of their own and the first kind before the second. -/
structure KeySplit (r : κ → κ → Prop) (r₁ : κ₁ → κ₁ → Prop) (r₂ : κ₂ → κ₂ → Prop) (in₁ : κ₁ → κ)
    (in₂ : κ₂ → κ) : Prop where
  first {a b : κ₁} : r₁ a b → r (in₁ a) (in₁ b)
  second {a b : κ₂} : r₂ a b → r (in₂ a) (in₂ b)
  across (a : κ₁) (b : κ₂) : r (in₁ a) (in₂ b)
  cover (k : κ) : (∃ a, in₁ a = k) ∨ ∃ b, in₂ b = k

namespace KeySplit

variable {r : κ → κ → Prop}

/-- The keys under the first index and those under further ones. -/
theorem index : KeySplit (Prod.Lex (· < · : Nat → Nat → Prop) r) r (Prod.Lex (· < ·) r)
    (fun k ↦ (0, k)) fun k ↦ (k.1 + 1, k.2) where
  first h := .right 0 h
  second h := by
    rcases h with ⟨_, _, h⟩ | ⟨_, h⟩
    · exact .left _ _ (Nat.succ_lt_succ h)
    · exact .right _ h
  across _ _ := .left _ _ (Nat.succ_pos _)
  cover := by
    rintro ⟨_ | i, k⟩
    · exact .inl ⟨k, rfl⟩
    · exact .inr ⟨(i, k), rfl⟩

private theorem path {s : κ₁ → κ₁ → Prop} : KeySplit (Prod.Lex (List.Lex s) r) r
    (Prod.Lex s (Prod.Lex (List.Lex s) r)) (fun k ↦ ([], k)) fun k ↦ (k.1 :: k.2.1, k.2.2) where
  first h := .right [] h
  second h := by
    rcases h with ⟨_, _, h⟩ | ⟨_, ⟨_, _, h⟩ | ⟨_, h⟩⟩
    · exact .left _ _ (.rel h)
    · exact .left _ _ (.cons h)
    · exact .right _ h
  across _ _ := .left _ _ .nil
  cover := by
    rintro ⟨_ | ⟨i, p⟩, k⟩
    · exact .inl ⟨k, rfl⟩
    · exact .inr ⟨(i, p, k), rfl⟩

/-- The empty path and the paths that begin with an index. -/
theorem root : KeySplit (· < · : List Nat → List Nat → Prop) (fun _ _ : Unit ↦ False)
    (Prod.Lex (· < ·) (· < ·)) (fun _ ↦ []) fun k ↦ k.1 :: k.2 where
  first h := h.elim
  second h := by
    rcases h with ⟨_, _, h⟩ | ⟨_, h⟩
    · exact .rel h
    · exact .cons h
  across _ _ := .nil
  cover := by
    rintro (_ | ⟨i, path⟩)
    · exact .inl ⟨(), rfl⟩
    · exact .inr ⟨(i, path), rfl⟩

variable {r₁ : κ₁ → κ₁ → Prop} {r₂ : κ₂ → κ₂ → Prop} {in₁ : κ₁ → κ} {in₂ : κ₂ → κ}

/-- No key of the second kind comes before one of the first. -/
theorem not_across [Std.Asymm r] (h : KeySplit r r₁ r₂ in₁ in₂) (a : κ₁) (b : κ₂) :
    ¬ r (in₂ b) (in₁ a) :=
  Std.Asymm.asymm _ _ (h.across a b)

-- An embedding that keeps a strict order also reflects it where the order below is total.
private theorem reflects {κ' : Type} {r' : κ' → κ' → Prop} [Std.Asymm r] [Std.Trichotomous r']
    (embed : κ' → κ) (h : ∀ a b, r' a b → r (embed a) (embed b)) (a b : κ') :
    r (embed a) (embed b) ↔ r' a b := by
  refine ⟨fun hr ↦ ?_, h a b⟩
  by_contra hn
  by_cases hba : r' b a
  · exact Std.Asymm.asymm _ _ hr (h b a hba)
  · obtain rfl := Std.Trichotomous.trichotomous _ _ hn hba
    exact Std.Asymm.asymm _ _ hr hr

/-- Keys of the first kind are in their own order. -/
theorem first_iff [Std.Asymm r] [Std.Trichotomous r₁] (h : KeySplit r r₁ r₂ in₁ in₂)
    {a b : κ₁} : r (in₁ a) (in₁ b) ↔ r₁ a b :=
  reflects in₁ (fun _ _ ↦ h.first) a b

/-- Keys of the second kind are in their own order. -/
theorem second_iff [Std.Asymm r] [Std.Trichotomous r₂] (h : KeySplit r r₁ r₂ in₁ in₂)
    {a b : κ₂} : r (in₂ a) (in₂ b) ↔ r₂ a b :=
  reflects in₂ (fun _ _ ↦ h.second) a b

end KeySplit

namespace Lists

variable {r : κ → κ → Prop} {f : κ → Option β} {l : List β}

/-- Where there are no keys, there is nothing to show. -/
theorem nil (h : ∀ k, f k = none) : Lists r f [] := ⟨[], by simp [h]⟩

/-- A list shows what is at its indices. -/
theorem getElem? (l : List β) : Lists (· < ·) (fun i : Nat ↦ l[i]?) l := by
  refine ⟨List.range l.length, List.pairwise_lt_range, by simp, ?_⟩
  apply List.ext_getElem
  · simp
  · intro i hi _
    simp at hi
    simp [hi]

/-- A listing has the values of a function and no others. -/
theorem mem_iff (h : Lists r f l) {b : β} : b ∈ l ↔ ∃ k, f k = some b := by
  obtain ⟨keys, -, hm, he⟩ := h
  constructor
  · intro hb
    have hs : some b ∈ keys.map f := he ▸ List.mem_map_of_mem hb
    obtain ⟨k, -, hk⟩ := List.mem_map.mp hs
    exact ⟨k, hk⟩
  · rintro ⟨k, hk⟩
    have hs : f k ∈ l.map some := he ▸ List.mem_map_of_mem ((hm k).mpr (by simp [hk]))
    simpa [hk] using hs

/-- The values under keys of a first kind, and then those under keys of a second kind. -/
theorem append {r₁ : κ₁ → κ₁ → Prop} {r₂ : κ₂ → κ₂ → Prop} {in₁ : κ₁ → κ} {in₂ : κ₂ → κ}
    {l₁ l₂ : List β} (hk : KeySplit r r₁ r₂ in₁ in₂) (h₁ : Lists r₁ (fun k ↦ f (in₁ k)) l₁)
    (h₂ : Lists r₂ (fun k ↦ f (in₂ k)) l₂) : Lists r f (l₁ ++ l₂) := by
  obtain ⟨keys₁, hp₁, hm₁, he₁⟩ := h₁
  obtain ⟨keys₂, hp₂, hm₂, he₂⟩ := h₂
  refine ⟨keys₁.map in₁ ++ keys₂.map in₂, ?_, ?_, ?_⟩
  · refine List.pairwise_append.mpr
      ⟨hp₁.map _ fun _ _ ↦ hk.first, hp₂.map _ fun _ _ ↦ hk.second, ?_⟩
    simpa using fun a _ b _ ↦ hk.across a b
  · intro k
    simp only [List.mem_append, List.mem_map]
    constructor
    · rintro (⟨a, ha, rfl⟩ | ⟨b, hb, rfl⟩)
      · exact (hm₁ a).mp ha
      · exact (hm₂ b).mp hb
    · intro hs
      rcases hk.cover k with ⟨a, rfl⟩ | ⟨b, rfl⟩
      · exact .inl ⟨a, (hm₁ a).mpr hs, rfl⟩
      · exact .inr ⟨b, (hm₂ b).mpr hs, rfl⟩
  · rw [List.map_append, List.map_map, List.map_map, List.map_append, ← he₁, ← he₂]
    rfl

/-- Under other keys that are in the same order, the same values are shown. -/
theorem rekey {r₁ : κ₁ → κ₁ → Prop} {embed : κ₁ → κ} (hs : Function.Surjective embed)
    (hr : ∀ a b, r₁ a b → r (embed a) (embed b)) (h : Lists r₁ (fun k ↦ f (embed k)) l) :
    Lists r f l := by
  obtain ⟨keys, hp, hm, he⟩ := h
  refine ⟨keys.map embed, hp.map embed hr, fun k ↦ ?_, by rw [List.map_map, ← he]; rfl⟩
  obtain ⟨a, rfl⟩ := hs k
  constructor
  · intro hk
    obtain ⟨b, hb, hba⟩ := List.mem_map.mp hk
    exact hba ▸ (hm b).mp hb
  · exact fun hk ↦ List.mem_map_of_mem ((hm a).mpr hk)

private theorem bind {r₁ : κ₁ → κ₁ → Prop} {find : κ₁ → Option α} {cs : List α}
    (hcs : Lists r₁ find cs)
    {g : α → κ → Option β} {h : α → List β} (hc : ∀ c ∈ cs, Lists r (g c) (h c)) :
    Lists (Prod.Lex r₁ r) (fun k : κ₁ × κ ↦ (find k.1).bind (g · k.2)) (cs.flatMap h) := by
  obtain ⟨keys, hp, hm, he⟩ := hcs
  choose! keysOf hpOf hmOf heOf using hc
  have hfound {k : κ₁} (hk : k ∈ keys) : ∃ c ∈ cs, find k = some c := by
    have hs : find k ∈ cs.map some := he ▸ List.mem_map_of_mem hk
    obtain ⟨c, hcs, hfind⟩ := List.mem_map.mp hs
    exact ⟨c, hcs, hfind.symm⟩
  refine ⟨keys.flatMap fun k ↦ ((find k).elim [] keysOf).map (k, ·), ?_, ?_, ?_⟩
  · refine List.pairwise_flatMap.mpr ⟨fun k hk ↦ ?_, hp.imp fun {a b} hab x hx y hy ↦ ?_⟩
    · obtain ⟨c, hcm, hfind⟩ := hfound hk
      rw [hfind]
      exact (hpOf c hcm).map _ fun _ _ ↦ .right k
    · obtain ⟨_, -, rfl⟩ := List.mem_map.mp hx
      obtain ⟨_, -, rfl⟩ := List.mem_map.mp hy
      exact .left _ _ hab
  · rintro ⟨k, j⟩
    simp only [List.mem_flatMap, List.mem_map, Prod.mk.injEq]
    constructor
    · rintro ⟨_, hk, _, hj, rfl, rfl⟩
      obtain ⟨c, hcm, hfind⟩ := hfound hk
      rw [hfind] at hj ⊢
      exact (hmOf c hcm _).mp hj
    · intro hs
      have hk : k ∈ keys := (hm k).mpr (Option.isSome_of_isSome_bind hs)
      obtain ⟨c, hcm, hfind⟩ := hfound hk
      refine ⟨k, hk, j, ?_, rfl, rfl⟩
      rw [hfind] at hs ⊢
      exact (hmOf c hcm j).mpr hs
  · have hvalues {k : κ₁} (hk : k ∈ keys) :
        (((find k).elim [] keysOf).map fun j ↦ (find k).bind (g · j)) =
          ((find k).elim [] h).map some := by
      obtain ⟨c, hcm, hfind⟩ := hfound hk
      rw [hfind]
      exact heOf c hcm
    calc (keys.flatMap fun k ↦ ((find k).elim [] keysOf).map (k, ·)).map
          (fun k ↦ (find k.1).bind (g · k.2))
      _ = keys.flatMap fun k ↦ ((find k).elim [] keysOf).map fun j ↦ (find k).bind (g · j) := by
        simp only [List.map_flatMap, List.map_map]
        rfl
      _ = keys.flatMap fun k ↦ ((find k).elim [] h).map some :=
        List.flatMap_congr fun k hk ↦ hvalues hk
      _ = (keys.map find).flatMap fun o ↦ (o.elim [] h).map some := by rw [List.flatMap_map]
      _ = (cs.flatMap h).map some := by
        rw [he, List.flatMap_map, List.map_flatMap]
        rfl

/-- A recursion that shows something's own values and then those of its parts in the order of their
keys shows the values that paths of such keys lead to. -/
theorem descend {part? : α → κ₁ → Option α} {s : κ₁ → κ₁ → Prop} {below : α → List α}
    (hbelow : ∀ a, Lists s (part? a) (below a)) (wf : WellFounded fun c a ↦ c ∈ below a)
    {own : α → κ → Option β} {ownList list : α → List β} (hown : ∀ a, Lists r (own a) (ownList a))
    (hlist : ∀ a, list a = ownList a ++ (below a).flatMap list) (a : α) :
    Lists (Prod.Lex (List.Lex s) r)
      (fun k ↦ (Cil.descend part? a k.1).bind (own · k.2)) (list a) := by
  induction a using wf.induction with
  | h a ih =>
    rw [hlist]
    refine append .path (hown a) ?_
    simpa only [Cil.descend, Option.bind_assoc] using bind (hbelow a) ih

/-- A recursion that shows something's own values and then those of all directly below it shows
the values that paths of indices lead to. -/
theorem follow {below : α → List α} (wf : WellFounded fun c a ↦ c ∈ below a)
    {own : α → κ → Option β} {ownList list : α → List β} (hown : ∀ a, Lists r (own a) (ownList a))
    (hlist : ∀ a, list a = ownList a ++ (below a).flatMap list) (a : α) :
    Lists (Prod.Lex (List.Lex (· < ·)) r)
      (fun k ↦ (Cil.follow below a k.1).bind (own · k.2)) (list a) := by
  simpa only [follow_eq_descend] using descend (fun a ↦ getElem? (below a)) wf hown hlist a

/-- A value is listed once for every key that it stands under. -/
theorem encard_eq_count [DecidableEq β] [Std.Irrefl r] (h : Lists r f l) (b : β) :
    {k | f k = some b}.encard = l.count b := by
  classical
  obtain ⟨keys, hp, hm, he⟩ := h
  have hd : (keys.filter (f · = some b)).Nodup := (hp.imp ne_of_irrefl).filter _
  have hset : {k | f k = some b} = ↑(keys.filter (f · = some b)).toFinset := by
    ext k
    simp only [Set.mem_ofPred_eq, List.coe_toFinset, List.mem_filter, hm, decide_eq_true_eq]
    exact ⟨fun hk ↦ ⟨by simp [hk], hk⟩, fun hk ↦ hk.2⟩
  have hlen : (keys.filter (f · = some b)).length = l.count b := by
    calc (keys.filter (f · = some b)).length
      _ = (keys.map f).count (some b) := by
        rw [← List.countP_eq_length_filter, List.count_eq_countP, List.countP_map]
        exact List.countP_congr fun k _ ↦ by simp
      _ = l.count b := by
        rw [he, List.count_map_of_injective _ _ (Option.some_injective β)]
  rw [hset, Set.encard_coe_eq_coe_finsetCard, List.toFinset_card_of_nodup hd, hlen]

end Lists

end Cil
