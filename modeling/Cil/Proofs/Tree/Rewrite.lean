import Cil.Proofs.Tree.Former

/-!
# Rewrites

A pass rewrites an expression when it puts one with the same arguments in its place and records the
old one as a former self. Wherever in a tree the expression stands, and however often it is
rewritten, no range is lost. Main statements: `Subtree.rewritten_spans` for what becomes of the
span, and `Subtree.not_forall_rewritten_last_le` that the last offset of a tree without ranges can
fall, as it is that of the empty range.
-/

namespace Cil

namespace Expr

/-- An expression is put in place of another: it has the same arguments, any operation, operand and
ranges, and the other among its former selves. -/
structure Rewrites (old new : Expr) : Prop where
  args : new.args = old.args
  kept : old ∈ new.former

/-- A rewrite that adds no ranges and no former selves to what the old expression brings with it. -/
structure Relabels (old new : Expr) : Prop extends Rewrites old new where
  ranges : ∀ r ∈ new.ranges, r ∈ old.allRanges
  former : ∀ x ∈ new.former, x = old ∨ x ∈ old.former

variable {old new e e' : Expr}

private theorem rewrites_replacing (h : new.args = old.args) : old.Rewrites (old.replacing new) :=
  ⟨h, List.mem_append_right _ (List.mem_singleton_self old)⟩

private theorem Rewrites.sublist_ranges (h : old.Rewrites new) :
    (Part.ranges old).Sublist (Part.ranges new) := by
  have hkept : old.allRanges.Sublist new.allRanges := by
    rw [allRanges_eq new]
    have hmem : old.allRanges ∈ new.former.map allRanges := List.mem_map_of_mem h.kept
    exact (List.sublist_flatten_of_mem hmem).trans (List.sublist_append_right _ _)
  rw [ranges_eq old, ranges_eq new, h.args]
  exact hkept.append_right _

/-- However often an expression is rewritten, no range is lost. -/
theorem sublist_ranges_of_rewrites (h : Relation.ReflTransGen Rewrites e e') :
    (Part.ranges e).Sublist (Part.ranges e') := by
  induction h with
  | refl => exact List.Sublist.refl _
  | tail _ hstep ih => exact ih.trans hstep.sublist_ranges

private theorem Relabels.ranges_subset (h : old.Relabels new) :
    Part.ranges new ⊆ Part.ranges old := by
  have hall : new.allRanges ⊆ old.allRanges := by
    intro r hr
    rw [allRanges_eq new, List.mem_append, List.mem_flatMap] at hr
    obtain hr | ⟨x, hx, hr⟩ := hr
    · exact h.ranges r hr
    · obtain rfl | hx := h.former x hx
      · exact hr
      · rw [allRanges_eq old, List.mem_append, List.mem_flatMap]
        exact .inr ⟨x, hx, hr⟩
  rw [ranges_eq old, ranges_eq new, h.args]
  exact List.append_subset.mpr
    ⟨List.subset_append_of_subset_left _ hall, List.subset_append_right _ _⟩

/-- However often an expression is rewritten without adding anything, it has only ranges that were
there. -/
theorem ranges_subset_of_relabels (h : Relation.ReflTransGen Relabels e e') :
    Part.ranges e' ⊆ Part.ranges e := by
  induction h with
  | refl => exact List.Subset.refl _
  | tail _ hstep ih => exact List.Subset.trans hstep.ranges_subset ih

end Expr

namespace Subtree

/-- Two subtrees are the same but for one expression, which may stand in any place. -/
inductive Exchanged (e e' : Expr) : Subtree → Subtree → Prop
  | here : Exchanged e e' (.expr e) (.expr e')
  | argument {x a a' : Expr} {i : Nat} : x.args[i]? = some a → Exchanged e e' (.expr a) (.expr a') →
    Exchanged e e' (.expr x) (.expr { x with args := x.args.set i a' })
  | statement {body : Block} {n n' : Node} {i : Nat} : body[i]? = some n →
    Exchanged e e' (.node n) (.node n') → Exchanged e e' (.block body) (.block (body.set i n'))
  | block {body body' : Block} : Exchanged e e' (.block body) (.block body') →
    Exchanged e e' (.node (.block body)) (.node (.block body'))
  | basicBlock {body body' : Block} : Exchanged e e' (.block body) (.block body') →
    Exchanged e e' (.node (.basicBlock body)) (.node (.basicBlock body'))
  | expr {x x' : Expr} : Exchanged e e' (.expr x) (.expr x') →
    Exchanged e e' (.node (.expr x)) (.node (.expr x'))
  | tryBody {body body' : Block} {handlers : List Handler} {finallyBody faultBody : Option Block} :
    Exchanged e e' (.block body) (.block body') →
    Exchanged e e' (.node (.tryCatch body handlers finallyBody faultBody))
      (.node (.tryCatch body' handlers finallyBody faultBody))
  | handler {body body' : Block} {handlers : List Handler} {h : Handler} {i : Nat}
      {finallyBody faultBody : Option Block} :
    handlers[i]? = some h → Exchanged e e' (.block h.body) (.block body') →
    Exchanged e e' (.node (.tryCatch body handlers finallyBody faultBody))
      (.node (.tryCatch body (handlers.set i { h with body := body' }) finallyBody faultBody))
  | finallyBody {body b b' : Block} {handlers : List Handler} {faultBody : Option Block} :
    Exchanged e e' (.block b) (.block b') →
    Exchanged e e' (.node (.tryCatch body handlers (some b) faultBody))
      (.node (.tryCatch body handlers (some b') faultBody))
  | faultBody {body b b' : Block} {handlers : List Handler} {finallyBody : Option Block} :
    Exchanged e e' (.block b) (.block b') →
    Exchanged e e' (.node (.tryCatch body handlers finallyBody (some b)))
      (.node (.tryCatch body handlers finallyBody (some b')))
  | loopCondition {c c' : Expr} {body : Block} : Exchanged e e' (.expr c) (.expr c') →
    Exchanged e e' (.node (.loop (some c) body)) (.node (.loop (some c') body))
  | loopBody {condition : Option Expr} {body body' : Block} :
    Exchanged e e' (.block body) (.block body') →
    Exchanged e e' (.node (.loop condition body)) (.node (.loop condition body'))
  | branchCondition {c c' : Expr} {thenBody : Block} {elseBody : Option Block} :
    Exchanged e e' (.expr c) (.expr c') →
    Exchanged e e' (.node (.branch c thenBody elseBody)) (.node (.branch c' thenBody elseBody))
  | thenBody {condition : Expr} {b b' : Block} {elseBody : Option Block} :
    Exchanged e e' (.block b) (.block b') →
    Exchanged e e' (.node (.branch condition b elseBody)) (.node (.branch condition b' elseBody))
  | elseBody {condition : Expr} {thenBody b b' : Block} :
    Exchanged e e' (.block b) (.block b') →
    Exchanged e e' (.node (.branch condition thenBody (some b)))
      (.node (.branch condition thenBody (some b')))
  | switchCondition {c c' : Expr} {arms : List Arm} : Exchanged e e' (.expr c) (.expr c') →
    Exchanged e e' (.node (.switch c arms)) (.node (.switch c' arms))
  | arm {condition : Expr} {arms : List Arm} {a : Arm} {body' : Block} {i : Nat} :
    arms[i]? = some a → Exchanged e e' (.block a.body) (.block body') →
    Exchanged e e' (.node (.switch condition arms))
      (.node (.switch condition (arms.set i { a with body := body' })))

variable {e e' : Expr} {t t' c c' : Subtree}

namespace Exchanged

private theorem exists_expr {x : Expr} (h : Exchanged e e' (.expr x) t') : ∃ x', t' = .expr x' := by
  cases h <;> exact ⟨_, rfl⟩

private theorem exists_block {body : Block} (h : Exchanged e e' (.block body) t') :
    ∃ body', t' = .block body' := by
  cases h
  exact ⟨_, rfl⟩

private theorem exists_node {n : Node} (h : Exchanged e e' (.node n) t') : ∃ n', t' = .node n' := by
  cases h <;> exact ⟨_, rfl⟩

-- What is around a subtree that is put in place of another directly below is not touched.
private theorem ranges_of_child (i : Nat) (hc : t.children[i]? = some c)
    (hc' : t'.children = t.children.set i c')
    (hown : t'.expr?.toList.flatMap Expr.allRanges = t.expr?.toList.flatMap Expr.allRanges)
    (h : ∃ front back, Part.ranges c = front ++ Part.ranges e ++ back ∧
      Part.ranges c' = front ++ Part.ranges e' ++ back) :
    ∃ front back, Part.ranges t = front ++ Part.ranges e ++ back ∧
      Part.ranges t' = front ++ Part.ranges e' ++ back := by
  obtain ⟨front, back, he, he'⟩ := h
  obtain ⟨hi, hget⟩ := List.getElem?_eq_some_iff.mp hc
  have hsplit : t.children.take i ++ c :: t.children.drop (i + 1) = t.children := by
    rw [← hget, List.getElem_cons_drop, List.take_append_drop]
  have hsplit' : t.children.take i ++ c' :: t.children.drop (i + 1) = t'.children := by
    rw [hc', List.set_eq_take_append_cons_drop, if_pos hi]
  refine ⟨t.expr?.toList.flatMap Expr.allRanges ++ (t.children.take i).flatMap Part.ranges ++ front,
    back ++ (t.children.drop (i + 1)).flatMap Part.ranges, ?_, ?_⟩
  · calc Part.ranges t
      _ = t.expr?.toList.flatMap Expr.allRanges ++
          (t.children.take i ++ c :: t.children.drop (i + 1)).flatMap Part.ranges := by
        rw [hsplit, ← ranges_eq]
      _ = _ := by simp only [List.flatMap_append, List.flatMap_cons, he, List.append_assoc]
  · calc Part.ranges t'
      _ = t.expr?.toList.flatMap Expr.allRanges ++
          (t.children.take i ++ c' :: t.children.drop (i + 1)).flatMap Part.ranges := by
        rw [hsplit', ← hown, ← ranges_eq]
      _ = _ := by simp only [List.flatMap_append, List.flatMap_cons, he', List.append_assoc]

/-- Two subtrees that are the same but for one expression cover the same but for what it covers. -/
theorem ranges_split (h : Exchanged e e' t t') :
    ∃ front back, Part.ranges t = front ++ Part.ranges e ++ back ∧
      Part.ranges t' = front ++ Part.ranges e' ++ back := by
  induction h with
  | here => exact ⟨[], [], (List.append_nil _).symm, (List.append_nil _).symm⟩
  | @argument x _ _ i ha _ ih =>
    exact ranges_of_child i (by simp [children, ha]) (by simp [children])
      (by simp [expr?, Expr.allRanges_eq]) ih
  | @statement _ _ _ i hn _ ih =>
    exact ranges_of_child i (by simp [children, hn]) (by simp [children]) rfl ih
  | block _ ih | basicBlock _ ih | expr _ ih | tryBody _ ih | loopCondition _ ih
  | branchCondition _ ih | switchCondition _ ih => exact ranges_of_child 0 rfl rfl rfl ih
  | @handler _ _ handlers _ i _ _ hh _ ih =>
    obtain ⟨hi, rfl⟩ := List.getElem?_eq_some_iff.mp hh
    exact ranges_of_child (i + 1) (by simp [children, hi, List.getElem?_append_left])
      (by simp [children, hi, List.set_append_left]) rfl ih
  | @finallyBody _ _ _ handlers _ _ ih =>
    exact ranges_of_child (handlers.length + 1) (by simp [children])
      (by simp [children, List.set_append_right]) rfl ih
  | @faultBody _ _ _ handlers finallyBody _ ih =>
    exact ranges_of_child (handlers.length + finallyBody.toList.length + 1)
      (by simp [children])
      (by simp [children, List.set_append_right]) rfl ih
  | @loopBody condition _ _ _ ih =>
    exact ranges_of_child condition.toList.length (by simp [children])
      (by simp [children, List.set_append_right]) rfl ih
  | thenBody _ ih => exact ranges_of_child 1 rfl rfl rfl ih
  | elseBody _ ih => exact ranges_of_child 2 rfl rfl rfl ih
  | @arm _ _ _ _ i ha _ ih =>
    exact ranges_of_child (i + 1) (by simp [children, ha]) (by simp [children]) rfl ih

private theorem sublist_ranges (h : Exchanged e e' t t')
    (he : (Part.ranges e).Sublist (Part.ranges e')) :
    (Part.ranges t).Sublist (Part.ranges t') := by
  obtain ⟨front, back, hold, hnew⟩ := h.ranges_split
  rw [hold, hnew]
  exact ((List.Sublist.refl front).append he).append_right back

private theorem ranges_subset (h : Exchanged e e' t t') (he : Part.ranges e' ⊆ Part.ranges e) :
    Part.ranges t' ⊆ Part.ranges t := by
  obtain ⟨front, back, hold, hnew⟩ := h.ranges_split
  intro r hr
  rw [hnew, List.mem_append, List.mem_append] at hr
  rw [hold, List.mem_append, List.mem_append]
  exact hr.imp_left fun hr ↦ hr.imp_right fun hr ↦ he hr

end Exchanged

-- An index into one subtree picks that.
private theorem set_singleton {d : Subtree} {i : Nat} (h : [d][i]? = some c) :
    d = c ∧ ∀ c', [d].set i c' = [c'] := by
  cases i with
  | zero => exact ⟨Option.some.inj h, fun _ ↦ rfl⟩
  | succ i => cases h

-- An index into two lists, one behind the other, is one into the first or one into the second.
private theorem set_append_cases {l₁ l₂ : List Subtree} {i : Nat} (h : (l₁ ++ l₂)[i]? = some c) :
    (l₁[i]? = some c ∧ ∀ c', (l₁ ++ l₂).set i c' = l₁.set i c' ++ l₂) ∨
      ∃ j, l₂[j]? = some c ∧ ∀ c', (l₁ ++ l₂).set i c' = l₁ ++ l₂.set j c' := by
  by_cases hi : i < l₁.length
  · rw [List.getElem?_append_left hi] at h
    exact .inl ⟨h, fun c' ↦ List.set_append_left i c' hi⟩
  · rw [List.getElem?_append_right (Nat.le_of_not_lt hi)] at h
    exact .inr ⟨i - l₁.length, h, fun c' ↦ List.set_append_right i c' (Nat.le_of_not_lt hi)⟩

-- Of handlers and arms, only the blocks are below.
private theorem set_map_block {α : Type} {body : α → Block} {l : List α} {i : Nat}
    (h : (l.map fun a ↦ block (body a))[i]? = some c) (hx : Exchanged e e' c c') :
    ∃ a b', l[i]? = some a ∧ Exchanged e e' (.block (body a)) (.block b') ∧
      ∀ a', body a' = b' →
        (l.map fun a ↦ block (body a)).set i c' = (l.set i a').map fun a ↦ block (body a) := by
  rw [List.getElem?_map, Option.map_eq_some_iff] at h
  obtain ⟨a, ha, rfl⟩ := h
  obtain ⟨b', rfl⟩ := hx.exists_block
  refine ⟨a, b', ha, hx, fun a' ha' ↦ ?_⟩
  rw [List.map_set, ha']

-- The blocks of a protected region stand in three lists, one behind the other.
private theorem exists_exchanged_tryCatch {body : Block} {handlers : List Handler}
    {finallyBody faultBody : Option Block} {i : Nat}
    (hc : (node (.tryCatch body handlers finallyBody faultBody)).children[i]? = some c)
    (hx : Exchanged e e' c c') :
    ∃ t', Exchanged e e' (.node (.tryCatch body handlers finallyBody faultBody)) t' ∧
      t'.children = (node (.tryCatch body handlers finallyBody faultBody)).children.set i c' := by
  obtain ⟨hc, hset⟩ | ⟨j, hc, hset⟩ := set_append_cases hc
  · obtain ⟨hc, hset'⟩ | ⟨j, hc, hset'⟩ := set_append_cases hc
    · rcases i with _ | i
      · obtain rfl := Option.some.inj hc
        obtain ⟨b', rfl⟩ := hx.exists_block
        exact ⟨_, .tryBody hx, rfl⟩
      · obtain ⟨h, b', hh, hx, hmap⟩ := set_map_block hc hx
        have hrest := (hset' _).trans (congrArg (_ :: · ++ _) (hmap { h with body := b' } rfl))
        exact ⟨_, .handler hh hx, ((hset _).trans (congrArg (· ++ _) hrest)).symm⟩
    · cases finallyBody with
      | none => cases hc
      | some b =>
        obtain ⟨rfl, hlast⟩ := set_singleton hc
        obtain ⟨b', rfl⟩ := hx.exists_block
        have hrest := (hset' (.block b')).trans (congrArg (_ ++ ·) (hlast _))
        exact ⟨_, .finallyBody hx, ((hset _).trans (congrArg (· ++ _) hrest)).symm⟩
  · cases faultBody with
    | none => cases hc
    | some b =>
      obtain ⟨rfl, hlast⟩ := set_singleton hc
      obtain ⟨b', rfl⟩ := hx.exists_block
      exact ⟨_, .faultBody hx, ((hset _).trans (congrArg (_ ++ ·) (hlast _))).symm⟩

private theorem exists_exchanged_of_child {i : Nat} (hc : t.children[i]? = some c)
    (hx : Exchanged e e' c c') :
    ∃ t', Exchanged e e' t t' ∧ t'.children = t.children.set i c' := by
  cases t with
  | block body =>
    obtain ⟨n, hn, rfl⟩ := Option.map_eq_some_iff.mp (List.getElem?_map ▸ hc)
    obtain ⟨n', rfl⟩ := hx.exists_node
    exact ⟨_, .statement hn hx, List.map_set⟩
  | expr x =>
    obtain ⟨a, ha, rfl⟩ := Option.map_eq_some_iff.mp (List.getElem?_map ▸ hc)
    obtain ⟨a', rfl⟩ := hx.exists_expr
    exact ⟨_, .argument ha hx, List.map_set⟩
  | node n =>
    cases n with
    | label name => cases hc
    | block body =>
      obtain ⟨rfl, hset⟩ := set_singleton hc
      obtain ⟨b', rfl⟩ := hx.exists_block
      exact ⟨_, .block hx, (hset _).symm⟩
    | basicBlock body =>
      obtain ⟨rfl, hset⟩ := set_singleton hc
      obtain ⟨b', rfl⟩ := hx.exists_block
      exact ⟨_, .basicBlock hx, (hset _).symm⟩
    | expr x =>
      obtain ⟨rfl, hset⟩ := set_singleton hc
      obtain ⟨x', rfl⟩ := hx.exists_expr
      exact ⟨_, .expr hx, (hset _).symm⟩
    | tryCatch body handlers finallyBody faultBody => exact exists_exchanged_tryCatch hc hx
    | loop condition body =>
      obtain ⟨hc, hset⟩ | ⟨j, hc, hset⟩ := set_append_cases hc
      · cases condition with
        | none => cases hc
        | some condition =>
          obtain ⟨rfl, hfirst⟩ := set_singleton hc
          obtain ⟨x', rfl⟩ := hx.exists_expr
          exact ⟨_, .loopCondition hx, ((hset _).trans (congrArg (· ++ _) (hfirst _))).symm⟩
      · obtain ⟨rfl, hlast⟩ := set_singleton hc
        obtain ⟨b', rfl⟩ := hx.exists_block
        exact ⟨_, .loopBody hx, ((hset _).trans (congrArg (_ ++ ·) (hlast _))).symm⟩
    | branch condition thenBody elseBody =>
      rcases i with _ | _ | i
      · obtain rfl := Option.some.inj hc
        obtain ⟨c', rfl⟩ := hx.exists_expr
        exact ⟨_, .branchCondition hx, rfl⟩
      · obtain rfl := Option.some.inj hc
        obtain ⟨b', rfl⟩ := hx.exists_block
        exact ⟨_, .thenBody hx, rfl⟩
      · cases elseBody with
        | none => cases hc
        | some b =>
          obtain ⟨rfl, hlast⟩ := set_singleton hc
          obtain ⟨b', rfl⟩ := hx.exists_block
          exact ⟨_, .elseBody hx, congrArg (_ :: _ :: ·) (hlast _).symm⟩
    | switch condition arms =>
      rcases i with _ | i
      · obtain rfl := Option.some.inj hc
        obtain ⟨c', rfl⟩ := hx.exists_expr
        exact ⟨_, .switchCondition hx, rfl⟩
      · obtain ⟨a, b', ha, hx, hset⟩ := set_map_block hc hx
        exact ⟨_, .arm ha hx, congrArg (_ :: ·) (hset _ rfl).symm⟩

/-- Whatever expression a path leads to, any other can stand there instead. -/
theorem exists_exchanged {path : List Nat} (h : follow children t path = some (.expr e))
    (e' : Expr) :
    ∃ t', Exchanged e e' t t' ∧ follow children t' path = some (.expr e') := by
  induction path generalizing t with
  | nil =>
    obtain rfl : t = .expr e := by simpa [follow] using h
    exact ⟨_, .here, rfl⟩
  | cons i path ih =>
    obtain ⟨c, hc, hpath⟩ := Option.bind_eq_some_iff.mp h
    obtain ⟨c', hx, hpath'⟩ := ih hpath
    obtain ⟨t', ht, hchildren⟩ := exists_exchanged_of_child hc hx
    have hi : i < t.children.length := (List.getElem?_eq_some_iff.mp hc).1
    refine ⟨t', ht, ?_⟩
    rw [follow, hchildren, List.getElem?_set_self hi, Option.bind_some, hpath']

/-- An expression that a path leads to is rewritten any number of times. There is a tree with the
last of its forms at the end of the path, and for every tree that has the last form in place of the
first: each range of the old tree occurs at least as often in the new one; the new tree has a first
offset at or before that of the old one, and its last offset is at or behind the old one, where the
old tree covers anything; and the last offset falls exactly where the old tree covers nothing and
the new one only what ends before `-1`, which stands for nothing. If no step adds anything, both
offsets are as they were. -/
theorem rewritten_spans {path : List Nat} (hp : follow children t path = some (.expr e))
    (hr : Relation.ReflTransGen Expr.Rewrites e e') :
    (∃ t', Exchanged e e' t t' ∧ follow children t' path = some (.expr e')) ∧
      ∀ t', Exchanged e e' t t' →
        (∀ r, (Part.ranges t).count r ≤ (Part.ranges t').count r) ∧
        Part.Spans t' t ∧
        (Part.lastOffset t' < Part.lastOffset t ↔
          Part.ranges t = [] ∧ Part.ranges t' ≠ [] ∧ ∀ r ∈ Part.ranges t', r.last < -1) ∧
        (Relation.ReflTransGen Expr.Relabels e e' →
          Part.firstOffset t' = Part.firstOffset t ∧ Part.lastOffset t' = Part.lastOffset t) := by
  refine ⟨exists_exchanged hp e', fun t' hx ↦ ?_⟩
  have hsub : (Part.ranges t).Sublist (Part.ranges t') :=
    hx.sublist_ranges (Expr.sublist_ranges_of_rewrites hr)
  refine ⟨fun r ↦ hsub.count_le r, Part.spans_of_subset hsub.subset,
    Part.lastOffset_lt_iff_of_subset hsub.subset, fun hl ↦ ?_⟩
  exact Part.offsets_eq_of_subset (hx.ranges_subset (Expr.ranges_subset_of_relabels hl)) hsub.subset

/-- A load that is the argument of a condition in a handler becomes a field access, which adds
nothing, and then an await with ranges of its own. -/
theorem rewritten_spans_argument_of_condition :
    let load : Expr := { Expr.ofOperation .ldloc with ranges := [⟨5, 9⟩] }
    let field : Expr := load.replacing (Expr.ofOperation .ldfld)
    let await : Expr := field.replacing { Expr.ofOperation .await with ranges := [⟨10, 12⟩] }
    let condition (argument : Expr) : Expr := { Expr.ofOperation .call with args := [argument] }
    let tree (argument : Expr) : Subtree :=
      .node (.tryCatch [] [⟨none, none, [.branch (condition argument) [] none]⟩] none none)
    follow children (tree load) [1, 0, 0, 0] = some (.expr load) ∧
      Relation.ReflTransGen Expr.Rewrites load await ∧
      Exchanged load await (tree load) (tree await) ∧ Part.Spans (tree await) (tree load) ∧
      Relation.ReflTransGen Expr.Relabels load field ∧
      Exchanged load field (tree load) (tree field) ∧
      Part.firstOffset (tree field) = Part.firstOffset (tree load) ∧
      Part.lastOffset (tree field) = Part.lastOffset (tree load) := by
  intro load field await condition tree
  have hp : follow children (tree load) [1, 0, 0, 0] = some (.expr load) := rfl
  have hfield : load.Relabels field :=
    { toRewrites := Expr.rewrites_replacing rfl
      ranges := by decide
      former := by decide }
  have hawait : field.Rewrites await := Expr.rewrites_replacing rfl
  have hx (argument : Expr) : Exchanged load argument (tree load) (tree argument) := by
    have hcondition : Exchanged load argument (.expr (condition load))
        (.expr (condition argument)) := .argument (i := 0) rfl .here
    have hbody : Exchanged load argument (.block [.branch (condition load) [] none])
        (.block [.branch (condition argument) [] none]) :=
      .statement (i := 0) rfl (.branchCondition hcondition)
    exact .handler (i := 0) (h := ⟨none, none, [.branch (condition load) [] none]⟩) rfl hbody
  have hstep : Relation.ReflTransGen Expr.Rewrites load field := .single hfield.toRewrites
  have hr : Relation.ReflTransGen Expr.Rewrites load await := hstep.tail hawait
  have hl : Relation.ReflTransGen Expr.Relabels load field := .single hfield
  obtain ⟨-, hspans, -, -⟩ := (rewritten_spans hp hr).2 (tree await) (hx await)
  obtain ⟨-, -, -, hsame⟩ := (rewritten_spans hp hstep).2 (tree field) (hx field)
  exact ⟨hp, hr, hx await, hspans, hl, hx field, hsame hl⟩

/-- The last offset does not always stay or rise. Where nothing is covered it is `-1`, and a rewrite
may add a range that ends before that. -/
theorem not_forall_rewritten_last_le :
    ¬ ∀ (t t' : Subtree) (e e' : Expr), Relation.ReflTransGen Expr.Rewrites e e' →
      Exchanged e e' t t' →
        (∀ r, (Part.ranges t).count r ≤ (Part.ranges t').count r) ∧
        (∀ first, Part.firstOffset t = .ok first →
          ∃ first', Part.firstOffset t' = .ok first' ∧ first' ≤ first) ∧
        Part.lastOffset t ≤ Part.lastOffset t' ∧
        (Relation.ReflTransGen Expr.Relabels e e' →
          Part.firstOffset t' = Part.firstOffset t ∧ Part.lastOffset t' = Part.lastOffset t) := by
  intro h
  let old := Expr.ofOperation .nop
  let new := old.replacing { Expr.ofOperation .nop with ranges := [⟨-5, -3⟩] }
  obtain ⟨-, -, hlast, -⟩ := h (.expr old) (.expr new) old new
    (.single (Expr.rewrites_replacing rfl)) .here
  have hold : Part.lastOffset (Subtree.expr old) = -1 := rfl
  have hnew : Part.lastOffset (Subtree.expr new) = -3 := rfl
  rw [hold, hnew] at hlast
  exact absurd hlast (by decide)

end Subtree

end Cil
