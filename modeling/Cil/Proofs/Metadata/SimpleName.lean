import Cil.Metadata.TypeDef
import Mathlib.Data.List.DropRight
import Mathlib.Data.List.Forall2
import Mathlib.Data.List.TakeWhile

/-!
# Simple names

The separators before the first type argument are the ones that count for a simple name. So what is
put before a full name, up to a separator of its own, never shows: `names_ignore_qualifiers`. But a
separator behind a type argument is missed, and a type that is nested in a generic one is found
under the name of both only: `recognised_iff` says for which names the simple name is the one that
follows the last separator outside all angle brackets.
-/

namespace Cil

namespace TypeRef

/-! ### What follows the last separator -/

variable {cs front : List Char} {c : Char} {s x : String}

private theorem ne_bracket_of_isSeparator (hc : isSeparator c) : c ≠ '<' := by
  rintro rfl
  exact absurd hc (by decide)

private theorem afterSeparators_append (hc : isSeparator c) (front cs : List Char) :
    afterSeparators (front ++ c :: cs) = afterSeparators cs := by
  have hstop : (c :: front.reverse).takeWhile (fun d ↦ !isSeparator d) = [] := by simp [hc]
  have hreverse : (front ++ c :: cs).reverse = cs.reverse ++ c :: front.reverse := by simp
  rw [afterSeparators, afterSeparators, hreverse, List.takeWhile_append, hstop, List.append_nil]
  split
  next hall =>
    rw [(List.takeWhile_prefix _).eq_of_length hall]
  next => rfl

private theorem afterSeparators_eq_self (h : ∀ d ∈ cs, ¬ isSeparator d) :
    afterSeparators cs = cs := by
  have hall : cs.reverse.takeWhile (fun d ↦ !isSeparator d) = cs.reverse := by
    rw [List.takeWhile_eq_self_iff]
    intro d hd
    simpa using h d (List.mem_reverse.mp hd)
  rw [afterSeparators, hall, List.reverse_reverse]

private theorem not_isSeparator_of_mem_afterSeparators (h : c ∈ afterSeparators cs) :
    ¬ isSeparator c := by
  have hc := List.mem_takeWhile_imp (List.mem_reverse.mp h)
  simpa using hc

private theorem afterSeparators_suffix (cs : List Char) : afterSeparators cs <:+ cs :=
  List.reverse_prefix.mp (by
    rw [afterSeparators, List.reverse_reverse]
    exact List.takeWhile_prefix _)

/-- The simple name as a text. -/
theorem toList_simpleName (s : String) : (simpleName s).toList =
    afterSeparators (s.toList.takeWhile (· != '<')) ++ s.toList.dropWhile (· != '<') :=
  String.toList_ofList

private theorem simpleName_of_split (hs : s.toList = front ++ c :: x.toList) (hc : isSeparator c)
    (hfront : '<' ∉ front) : simpleName s = simpleName x := by
  have hpass : ∀ d ∈ front ++ [c], (d != '<') = true := by
    intro d hd
    rw [bne_iff_ne]
    rintro rfl
    obtain hmem | hmem := List.mem_append.mp hd
    · exact hfront hmem
    · exact ne_bracket_of_isSeparator hc (List.mem_singleton.mp hmem).symm
  have hsplit : s.toList = (front ++ [c]) ++ x.toList := by simp [hs]
  apply String.toList_inj.mp
  rw [toList_simpleName, toList_simpleName, hsplit, List.takeWhile_append_of_pos hpass,
    List.dropWhile_append_of_pos hpass, List.append_assoc, List.singleton_append,
    afterSeparators_append hc]

private theorem simpleName_eq_self (h : ∀ d ∈ s.toList.takeWhile (· != '<'), ¬ isSeparator d) :
    simpleName s = s := by
  apply String.toList_inj.mp
  rw [toList_simpleName, afterSeparators_eq_self h, List.takeWhile_append_dropWhile]

private theorem simpleName_suffix (s : String) : (simpleName s).toList <:+ s.toList := by
  rw [toList_simpleName]
  obtain ⟨front, hfront⟩ := afterSeparators_suffix (s.toList.takeWhile (· != '<'))
  refine ⟨front, ?_⟩
  rw [← List.append_assoc, hfront, List.takeWhile_append_dropWhile]

/-- A simple name is its own simple name. -/
theorem simpleName_simpleName (s : String) : simpleName (simpleName s) = simpleName s := by
  apply simpleName_eq_self
  intro d hd
  have hhead : (simpleName s).toList.takeWhile (· != '<') =
      afterSeparators (s.toList.takeWhile (· != '<')) := by
    have hpass : ∀ d ∈ afterSeparators (s.toList.takeWhile (· != '<')), (d != '<') = true := by
      intro d hd
      exact List.mem_takeWhile_imp (p := (· != '<')) ((afterSeparators_suffix _).subset hd)
    have hstop : (s.toList.dropWhile (· != '<')).takeWhile (· != '<') = [] := by
      have hsplit := List.takeWhile_append_dropWhile (p := (· != '<'))
        (l := s.toList.dropWhile (· != '<'))
      rwa [List.dropWhile_idempotent, List.append_left_eq_self] at hsplit
    rw [toList_simpleName, List.takeWhile_append_of_pos hpass, hstop, List.append_nil]
  rw [hhead] at hd
  exact not_isSeparator_of_mem_afterSeparators hd

/-! ### Namespaces and declaring types -/

/-- A name with nothing before it, or behind a namespace or a declaring type without a bracket. -/
def Qualifies (x fullName : String) : Prop :=
  fullName = x ∨
    ∃ q : String, '<' ∉ q.toList ∧ (fullName = q ++ "." ++ x ∨ fullName = q ++ "/" ++ x)

/-- Two references are of one name in two such places. -/
def Moved (t u : TypeRef) : Prop := ∃ x, Qualifies x t.fullName ∧ Qualifies x u.fullName

/-- Names that leave out namespaces and declaring types without a bracket. -/
structure IgnoresQualifiers (name : String → String) : Prop where
  namespace_eq : ∀ q x : String, '<' ∉ q.toList → name (q ++ "." ++ x) = name x
  declaring_eq : ∀ q x : String, '<' ∉ q.toList → name (q ++ "/" ++ x) = name x
  suffix : ∀ x : String, (name x).toList <:+ x.toList
  idempotent : ∀ x : String, name (name x) = name x

/-- Simple names leave out namespaces and declaring types. -/
theorem ignoresQualifiers_simpleName : IgnoresQualifiers simpleName where
  namespace_eq q x hq := by
    have hs : (q ++ "." ++ x).toList = q.toList ++ '.' :: x.toList := by simp
    exact simpleName_of_split hs (by decide) hq
  declaring_eq q x hq := by
    have hs : (q ++ "/" ++ x).toList = q.toList ++ '/' :: x.toList := by simp
    exact simpleName_of_split hs (by decide) hq
  suffix := simpleName_suffix
  idempotent := simpleName_simpleName

private theorem Qualifies.simpleName_eq {fullName : String} (h : Qualifies x fullName) :
    simpleName fullName = simpleName x := by
  obtain rfl | ⟨q, hq, rfl | rfl⟩ := h
  · rfl
  · exact ignoresQualifiers_simpleName.namespace_eq q x hq
  · exact ignoresQualifiers_simpleName.declaring_eq q x hq

/-- Moving a reference does not change its simple name. -/
theorem Moved.name_eq {t u : TypeRef} (h : Moved t u) : u.name = t.name := by
  obtain ⟨x, ht, hu⟩ := h
  rw [name, name, hu.simpleName_eq, ht.simpleName_eq]

private theorem any_eq_of_moved {α : Type} (type : α → TypeRef) {items moved : List α}
    (h : List.Forall₂ (fun a b ↦ Moved (type a) (type b)) items moved) (n : String) :
    moved.any (fun a ↦ (type a).name == n) = items.any fun a ↦ (type a).name == n := by
  induction h with
  | nil => rfl
  | cons hmoved _ ih => rw [List.any_cons, List.any_cons, hmoved.name_eq, ih]

end TypeRef

/-- The names of references and definitions are those without namespace and declaring type, if there
is no bracket in these: what is put before a full name does not change them, they end the full name
and are their own names. So attributes and interfaces may be moved from one namespace or declaring
type to another, and methods and types answer all questions about them as before. -/
theorem names_ignore_qualifiers :
    TypeRef.IgnoresQualifiers (fun s ↦ (TypeRef.named s).name) ∧
    (∀ constraints, TypeRef.IgnoresQualifiers fun s ↦ (TypeRef.generic s constraints).name) ∧
    (∀ d : TypeDef, TypeRef.IgnoresQualifiers fun s ↦ { d with fullName := s }.name) ∧
    (∀ t u : TypeRef, t.Moved u → u.name = t.name) ∧
    (∀ (m : MethodDef) (attributes : List Attribute),
      List.Forall₂ (fun a b ↦ a.type.Moved b.type) m.attributes attributes →
      (∀ n, { m with attributes }.hasAttribute n = m.hasAttribute n) ∧
      ∀ o, { m with attributes }.isAsync o = m.isAsync o) ∧
    ∀ (d : TypeDef) (attributes : List Attribute) (interfaces : List TypeRef),
      List.Forall₂ (fun a b ↦ a.type.Moved b.type) d.attributes attributes →
      List.Forall₂ TypeRef.Moved d.interfaces interfaces →
      (∀ n, { d with attributes, interfaces }.hasAttribute n = d.hasAttribute n) ∧
      (∀ o, { d with attributes, interfaces }.isAsync o = d.isAsync o) ∧
      ∀ o, { d with attributes, interfaces }.isAsyncStateMachine o = d.isAsyncStateMachine o := by
  have hname := TypeRef.ignoresQualifiers_simpleName
  refine ⟨hname, fun _ ↦ hname, fun _ ↦ hname, fun _ _ h ↦ h.name_eq, ?method, ?type⟩
  case method =>
    intro m attributes hattributes
    have hsame (n : String) : { m with attributes }.hasAttribute n = m.hasAttribute n :=
      TypeRef.any_eq_of_moved Attribute.type hattributes n
    exact ⟨hsame, fun o ↦ hsame o.asyncAttribute⟩
  case type =>
    intro d attributes interfaces hattributes hinterfaces
    have hsame (n : String) :
        { d with attributes, interfaces }.hasAttribute n = d.hasAttribute n :=
      TypeRef.any_eq_of_moved Attribute.type hattributes n
    refine ⟨hsame, fun o ↦ hsame o.asyncAttribute, fun o ↦ ?_⟩
    exact TypeRef.any_eq_of_moved id hinterfaces o.asyncInterface

/-- An attribute and an interface that move from a namespace into a declaring type, type arguments
and all, are found as before. -/
theorem names_ignore_qualifiers_nested :
    let mark := TypeRef.named "Lib.Mark<A.B>"
    let moved := TypeRef.named "App.Host/Mark<A.B>"
    let m := { MethodDef.concrete "M" with attributes := [⟨mark⟩] }
    let d := { TypeDef.ofName "App.T" with attributes := [⟨mark⟩], interfaces := [mark] }
    let o := { Options.default with asyncInterface := "Mark<A.B>" }
    '<' ∉ "App.Host".toList ∧ mark.Moved moved ∧
    (TypeRef.named ("App.Host" ++ "/" ++ "Mark<A.B>")).name = "Mark<A.B>" ∧
    moved.name = mark.name ∧
    { m with attributes := [⟨moved⟩] }.hasAttribute "Mark<A.B>" ∧
    { d with attributes := [⟨moved⟩], interfaces := [moved] }.hasAttribute "Mark<A.B>" ∧
    { d with attributes := [⟨moved⟩], interfaces := [moved] }.isAsyncStateMachine o := by
  intro mark moved m d o
  have hhost : '<' ∉ "App.Host".toList := by decide
  have hlib : '<' ∉ "Lib".toList := by decide
  have hmoved : mark.Moved moved :=
    ⟨"Mark<A.B>", .inr ⟨"Lib", hlib, .inl rfl⟩, .inr ⟨"App.Host", hhost, .inr rfl⟩⟩
  obtain ⟨hnamed, -, -, hname, hmethod, htype⟩ := names_ignore_qualifiers
  obtain ⟨hm, -⟩ := hmethod m [⟨moved⟩] (.cons hmoved .nil)
  obtain ⟨hd, -, hstate⟩ := htype d [⟨moved⟩] [moved] (.cons hmoved .nil) (.cons hmoved .nil)
  refine ⟨hhost, hmoved, ?_, hname _ _ hmoved, ?_, ?_, ?_⟩
  · exact (hnamed.declaring_eq _ _ hhost).trans (by decide)
  · rw [hm]
    decide
  · rw [hd]
    decide
  · rw [hstate]
    decide

/-! ### Separators outside the brackets -/

namespace TypeRef

variable {cs : List Char} {s : String} {k : Nat}

/-- As many brackets are closed as are opened. -/
def IsLevel (cs : List Char) : Prop := cs.count '<' = cs.count '>'

instance : DecidablePred IsLevel :=
  fun cs ↦ inferInstanceAs (Decidable (cs.count '<' = cs.count '>'))

/-- Each bracket that is opened is closed behind it, and no other is. -/
def Balanced (cs : List Char) : Prop :=
  (∀ k ≤ cs.length, (cs.take k).count '>' ≤ (cs.take k).count '<') ∧ IsLevel cs

instance : DecidablePred Balanced := fun cs ↦ inferInstanceAs
  (Decidable ((∀ k ≤ cs.length, (cs.take k).count '>' ≤ (cs.take k).count '<') ∧ IsLevel cs))

/-- A separator stands in this place, outside all brackets. -/
def SeparatesAt (cs : List Char) (k : Nat) : Prop := cs[k]?.any isSeparator ∧ IsLevel (cs.take k)

instance : DecidablePred (SeparatesAt cs) := fun k ↦ inferInstanceAs
  (Decidable (cs[k]?.any isSeparator = true ∧ IsLevel (cs.take k)))

/-- The place of the last separator outside all brackets. -/
def lastSeparator? (cs : List Char) : Option Nat :=
  ((List.range cs.length).filter (SeparatesAt cs ·)).getLast?

/-- What follows the last separator outside all brackets, the whole name without one. -/
def bareName (s : String) : String :=
  match lastSeparator? s.toList with
  | none => s
  | some k => String.ofList (s.toList.drop (k + 1))

/-- No separator outside the brackets comes after one of them. -/
def BracketsLast (cs : List Char) : Prop := ∀ k < cs.length, SeparatesAt cs k → '<' ∉ cs.take k

instance : DecidablePred BracketsLast :=
  fun cs ↦ inferInstanceAs (Decidable (∀ k < cs.length, SeparatesAt cs k → '<' ∉ cs.take k))

theorem SeparatesAt.lt (h : SeparatesAt cs k) : k < cs.length := by
  by_contra hk
  simp [SeparatesAt, List.getElem?_eq_none (Nat.le_of_not_lt hk)] at h

private theorem Balanced.separatesAt {front back : List Char} {c : Char}
    (hb : Balanced (front ++ c :: back)) (hc : isSeparator c) (h : '<' ∉ front) :
    SeparatesAt (front ++ c :: back) front.length := by
  have hopened : front.count '<' = 0 := List.count_eq_zero.mpr h
  have hclosed := hb.1 front.length (by simp)
  rw [List.take_left] at hclosed
  constructor
  · simpa using hc
  · rw [List.take_left, IsLevel]
    omega

private theorem mem_separators :
    k ∈ (List.range cs.length).filter (SeparatesAt cs ·) ↔ SeparatesAt cs k := by
  rw [List.mem_filter, List.mem_range, decide_eq_true_iff]
  exact and_iff_right_of_imp SeparatesAt.lt

theorem lastSeparator?_eq_none_iff : lastSeparator? cs = none ↔ ∀ k, ¬ SeparatesAt cs k := by
  rw [lastSeparator?, List.getLast?_eq_none_iff, List.eq_nil_iff_forall_not_mem]
  exact forall_congr' fun k ↦ not_congr mem_separators

private theorem separatesAt_of_lastSeparator? (h : lastSeparator? cs = some k) :
    SeparatesAt cs k ∧ ∀ j, SeparatesAt cs j → j ≤ k := by
  obtain ⟨front, hfront⟩ := List.getLast?_eq_some_iff.mp h
  have hsorted : ((List.range cs.length).filter (SeparatesAt cs ·)).Pairwise (· < ·) :=
    List.pairwise_lt_range.filter _
  rw [hfront, List.pairwise_append] at hsorted
  constructor
  · apply mem_separators.mp
    rw [hfront]
    exact List.mem_concat_self
  · intro j hj
    have hmem := mem_separators.mpr hj
    rw [hfront, List.mem_append] at hmem
    obtain hmem | hmem := hmem
    · exact (hsorted.2.2 j hmem k (List.mem_singleton_self k)).le
    · exact (List.mem_singleton.mp hmem).le

private theorem count_simpleName (s : String) :
    (simpleName s).toList.count '<' = s.toList.count '<' := by
  have hnone : (s.toList.takeWhile (· != '<')).count '<' = 0 := by
    apply List.count_eq_zero.mpr
    intro hmem
    exact absurd (List.mem_takeWhile_imp hmem) (by decide)
  have hsub := (afterSeparators_suffix (s.toList.takeWhile (· != '<'))).sublist.count_le '<'
  have hsplit : s.toList.count '<' = (s.toList.takeWhile (· != '<')).count '<' +
      (s.toList.dropWhile (· != '<')).count '<' := by
    rw [← List.count_append, List.takeWhile_append_dropWhile]
  rw [toList_simpleName, List.count_append]
  omega

private theorem Balanced.exists_separatesAt {front rest : List Char} {c : Char}
    (hb : Balanced (front ++ rest)) (hfront : '<' ∉ front)
    (hmem : c ∈ rest.takeWhile (· != '<')) (hc : isSeparator c) :
    ∃ k ≥ front.length, SeparatesAt (front ++ rest) k := by
  obtain ⟨before, after, hsplit⟩ := List.append_of_mem hmem
  have hbefore : '<' ∉ before := by
    intro h
    have hpass : '<' ∈ rest.takeWhile (· != '<') := hsplit ▸ List.mem_append_left _ h
    exact absurd (List.mem_takeWhile_imp hpass) (by decide)
  have hrest : rest = before ++ c :: (after ++ rest.dropWhile (· != '<')) := by
    have h := List.takeWhile_append_dropWhile (p := (· != '<')) (l := rest)
    rw [hsplit] at h
    simpa using h.symm
  generalize rest.dropWhile (· != '<') = back at hrest
  rw [hrest, ← List.append_assoc] at hb ⊢
  refine ⟨(front ++ before).length, ?_, hb.separatesAt hc ?_⟩
  · rw [List.length_append]
    exact Nat.le_add_right _ _
  · rw [List.mem_append]
    exact not_or.mpr ⟨hfront, hbefore⟩

/-- The simple name is the part that follows the last separator outside the brackets if and only if
no such separator comes after a bracket. -/
theorem simpleName_eq_bareName_iff (hb : Balanced s.toList) :
    simpleName s = bareName s ↔ BracketsLast s.toList := by
  cases hlast : lastSeparator? s.toList with
  | none =>
    have hnone := lastSeparator?_eq_none_iff.mp hlast
    have hself : simpleName s = s := by
      apply simpleName_eq_self
      intro c hmem hc
      have hb : Balanced ([] ++ s.toList) := hb
      obtain ⟨k, -, hk⟩ := hb.exists_separatesAt List.not_mem_nil hmem hc
      exact hnone k hk
    have hlasts : BracketsLast s.toList := fun k _ hk ↦ (hnone k hk).elim
    simp only [bareName, hlast, hself, hlasts]
  | some k =>
    obtain ⟨hk, hmax⟩ := separatesAt_of_lastSeparator? hlast
    have hbare : (bareName s).toList = s.toList.drop (k + 1) := by
      simp [bareName, hlast]
    constructor
    · -- a bracket before the last separator is left in the simple name only
      intro h j _ hj hmem
      have hopened : 0 < (s.toList.take (k + 1)).count '<' := by
        apply List.count_pos_iff.mpr
        exact (List.take_sublist_take_left (by have := hmax j hj; omega)).subset hmem
      have hcount : (s.toList.drop (k + 1)).count '<' = s.toList.count '<' := by
        rw [← hbare, ← h, count_simpleName]
      have hsplit : (s.toList.take (k + 1)).count '<' + (s.toList.drop (k + 1)).count '<' =
          s.toList.count '<' := by
        rw [← List.count_append, List.take_append_drop]
      omega
    · -- without a bracket before it the last separator is seen, and no other behind it
      intro h
      have hlt := hk.lt
      have hc := hk.1
      rw [List.getElem?_eq_getElem hlt, Option.any_some] at hc
      have hcs : s.toList = s.toList.take k ++ s.toList[k] :: (bareName s).toList := by
        rw [hbare, List.getElem_cons_drop, List.take_append_drop]
      have hfront : '<' ∉ s.toList.take (k + 1) := by
        rw [← List.take_append_getElem hlt, List.mem_append, List.mem_singleton]
        exact not_or.mpr ⟨h k hlt hk, (ne_bracket_of_isSeparator hc).symm⟩
      rw [simpleName_of_split hcs hc (h k hlt hk)]
      apply simpleName_eq_self
      intro c hmem hsep
      rw [hbare] at hmem
      have hsplit := List.take_append_drop (k + 1) s.toList
      rw [← hsplit] at hb
      obtain ⟨j, hle, hj⟩ := hb.exists_separatesAt hfront hmem hsep
      rw [hsplit] at hj
      have hlast := hmax j hj
      rw [List.length_take_of_le hlt] at hle
      omega

private theorem forall_any_name_iff {α : Type} (type : α → TypeRef) (a : α) (n : String) :
    (∀ items : List α, a ∈ items → items.any fun b ↦ (type b).name == n) ↔ (type a).name = n := by
  constructor
  · intro h
    simpa using h [a] (List.mem_singleton_self a)
  · intro h items hmem
    rw [List.any_eq_true]
    exact ⟨a, hmem, beq_iff_eq.mpr h⟩

/-- The name of a reference and of a definition is the part that follows the last `.` or `/` outside
the angle brackets, these being balanced, if and only if no such separator comes after a bracket.
For these names, and for these only, an attribute is found by that part on every method and every
type that it is applied to, also as the mark of an asynchronous one, and an interface on every type
that states it. -/
theorem recognised_iff (t : TypeRef) (hb : Balanced t.fullName.toList) :
    (t.name = bareName t.fullName ↔ BracketsLast t.fullName.toList) ∧
    (∀ d : TypeDef, d.fullName = t.fullName →
      (d.name = bareName d.fullName ↔ BracketsLast d.fullName.toList)) ∧
    ((∀ m : MethodDef, ⟨t⟩ ∈ m.attributes → m.hasAttribute (bareName t.fullName)) ↔
      BracketsLast t.fullName.toList) ∧
    ((∀ d : TypeDef, ⟨t⟩ ∈ d.attributes → d.hasAttribute (bareName t.fullName)) ↔
      BracketsLast t.fullName.toList) ∧
    ((∀ (m : MethodDef) (o : Options), ⟨t⟩ ∈ m.attributes →
      o.asyncAttribute = bareName t.fullName → m.isAsync o) ↔ BracketsLast t.fullName.toList) ∧
    ((∀ (d : TypeDef) (o : Options), ⟨t⟩ ∈ d.attributes →
      o.asyncAttribute = bareName t.fullName → d.isAsync o) ↔ BracketsLast t.fullName.toList) ∧
    ((∀ (d : TypeDef) (o : Options), t ∈ d.interfaces →
      o.asyncInterface = bareName t.fullName → d.isAsyncStateMachine o) ↔
      BracketsLast t.fullName.toList) := by
  have hname : t.name = bareName t.fullName ↔ BracketsLast t.fullName.toList :=
    simpleName_eq_bareName_iff hb
  have hattribute := (forall_any_name_iff Attribute.type ⟨t⟩ (bareName t.fullName)).trans hname
  have hinterface := (forall_any_name_iff id t (bareName t.fullName)).trans hname
  refine ⟨hname, ?definition, ?method, ?type, ?asyncMethod, ?asyncType, ?stateMachine⟩
  case definition =>
    intro d hd
    apply simpleName_eq_bareName_iff
    rwa [hd]
  case method =>
    rw [← hattribute]
    exact ⟨fun h items hmem ↦ h { MethodDef.abstract "" with attributes := items } hmem,
      fun h m hmem ↦ h m.attributes hmem⟩
  case type =>
    rw [← hattribute]
    exact ⟨fun h items hmem ↦ h { TypeDef.ofName "" with attributes := items } hmem,
      fun h d hmem ↦ h d.attributes hmem⟩
  case asyncMethod =>
    rw [← hattribute]
    constructor
    · intro h items hmem
      exact h { MethodDef.abstract "" with attributes := items }
        { Options.default with asyncAttribute := bareName t.fullName } hmem rfl
    · intro h m o hmem ho
      rw [MethodDef.isAsync, ho]
      exact h m.attributes hmem
  case asyncType =>
    rw [← hattribute]
    constructor
    · intro h items hmem
      exact h { TypeDef.ofName "" with attributes := items }
        { Options.default with asyncAttribute := bareName t.fullName } hmem rfl
    · intro h d o hmem ho
      rw [TypeDef.isAsync, ho]
      exact h d.attributes hmem
  case stateMachine =>
    rw [← hinterface]
    constructor
    · intro h items hmem
      exact h { TypeDef.ofName "" with interfaces := items }
        { Options.default with asyncInterface := bareName t.fullName } hmem rfl
    · intro h d o hmem ho
      rw [TypeDef.isAsyncStateMachine, ho]
      exact h d.interfaces hmem

/-- A type that is generic itself is found by its own name, in whatever type it is nested. -/
theorem recognised_generic :
    let t := TypeRef.named "Lib.Outer/Inner<System.Int32>"
    Balanced t.fullName.toList ∧ BracketsLast t.fullName.toList ∧
    bareName t.fullName = "Inner<System.Int32>" ∧ t.name = "Inner<System.Int32>" ∧
    { TypeDef.ofName "App.T" with attributes := [⟨t⟩] }.hasAttribute "Inner<System.Int32>" := by
  intro t
  have hb : Balanced t.fullName.toList := by decide
  have hlast : BracketsLast t.fullName.toList := by decide
  have hbare : bareName t.fullName = "Inner<System.Int32>" := by decide
  obtain ⟨hname, -, -, htype, -⟩ := recognised_iff t hb
  rw [hbare] at hname htype
  exact ⟨hb, hlast, hbare, hname.mpr hlast, htype.mpr hlast _ (List.mem_singleton_self _)⟩

/-- Not every type is found by its own name: one that is nested in a generic type is not. -/
theorem not_forall_name_eq_bareName :
    ¬ ∀ t : TypeRef, Balanced t.fullName.toList → t.name = bareName t.fullName := by
  intro h
  have hname := h (.named "Lib.Outer<System.Int32>/Inner") (by decide)
  exact absurd hname (by decide)

end TypeRef

end Cil
