import Cil.Proofs.Listing
import Cil.Tree.Coverage

/-!
# Subtrees

A statement, a block or an expression is a subtree, with the subtrees directly below it in source
order. The expressions of a subtree are listed by one rule, itself before what is below it
(`Subtree.exprs_eq`), and what holds of a subtree can be shown from what is directly below it
(`Subtree.wellFounded`).
-/

namespace Cil

/-- A statement, a block or an expression. -/
inductive Subtree
  | node (n : Node)
  | block (body : Block)
  | expr (e : Expr)

namespace Subtree

/-- The expressions of the subtree in source order: those of the statement, the block or the
expression that it is, so that it covers what that covers. -/
def exprs : Subtree → List Expr
  | .node n => Part.exprs n
  | .block body => Part.exprs body
  | .expr e => Part.exprs e

instance : Part Subtree := ⟨exprs⟩

/-- The subtree as an expression. -/
def expr? : Subtree → Option Expr
  | .expr e => some e
  | _ => none

/-- The subtrees directly below, in source order. -/
def children : Subtree → List Subtree
  | .block body => body.map .node
  | .expr e => e.args.map .expr
  | .node (.block body) => [.block body]
  | .node (.basicBlock body) => [.block body]
  | .node (.label _) => []
  | .node (.expr e) => [.expr e]
  | .node (.tryCatch body handlers finallyBody faultBody) =>
    .block body :: handlers.map (fun h ↦ .block h.body) ++ finallyBody.toList.map .block ++
      faultBody.toList.map .block
  | .node (.loop condition body) => condition.toList.map .expr ++ [.block body]
  | .node (.branch condition thenBody elseBody) =>
    .expr condition :: .block thenBody :: elseBody.toList.map .block
  | .node (.switch condition arms) => .expr condition :: arms.map fun a ↦ .block a.body

/-- An expression comes first, and what is below follows in order. -/
theorem exprs_eq (t : Subtree) : t.exprs = t.expr?.toList ++ t.children.flatMap exprs := by
  cases t with
  | block body => simp [exprs, Part.exprs, expr?, children, Block.exprs_eq, List.flatMap_map]
  | expr e => simp [exprs, Part.exprs, expr?, children, Expr.exprs_eq e, List.flatMap_map]
  | node n =>
    cases n with
    | block body => simp [exprs, Part.exprs, expr?, children, Node.exprs]
    | basicBlock body => simp [exprs, Part.exprs, expr?, children, Node.exprs]
    | label name => simp [exprs, Part.exprs, expr?, children, Node.exprs]
    | expr e => simp [exprs, Part.exprs, expr?, children, Node.exprs]
    | tryCatch body handlers finallyBody faultBody =>
      cases finallyBody <;> cases faultBody <;>
        simp [exprs, Part.exprs, expr?, children, Node.exprs, Block.exprsOption,
          Handler.exprsList_eq, List.flatMap_map]
    | loop condition body =>
      cases condition <;> simp [exprs, Part.exprs, expr?, children, Node.exprs]
    | branch condition thenBody elseBody =>
      cases elseBody <;> simp [exprs, Part.exprs, expr?, children, Node.exprs, Block.exprsOption]
    | switch condition arms =>
      simp [exprs, Part.exprs, expr?, children, Node.exprs, Arm.exprsList_eq, List.flatMap_map]

private theorem sizeOf_lt_of_mem_children {t c : Subtree} (h : c ∈ t.children) :
    sizeOf c < sizeOf t := by
  cases t with
  | block body =>
    obtain ⟨n, hn, rfl⟩ := List.mem_map.mp h
    have := List.sizeOf_lt_of_mem hn
    simp
    omega
  | expr e =>
    obtain ⟨a, ha, rfl⟩ := List.mem_map.mp h
    have := List.sizeOf_lt_of_mem ha
    cases e
    simp at this ⊢
    omega
  | node n =>
    cases n with
    | block body | basicBlock body | expr e =>
      obtain rfl := List.mem_singleton.mp h
      simp
    | label name => cases h
    | tryCatch body handlers finallyBody faultBody =>
      simp only [children, List.cons_append, List.mem_cons, List.mem_append, List.mem_map,
        Option.mem_toList] at h
      obtain rfl | (⟨⟨type, name, b⟩, hh, rfl⟩ | ⟨b, rfl, rfl⟩) | ⟨b, rfl, rfl⟩ := h
      case inr.inl.inl =>
        have := List.sizeOf_lt_of_mem hh
        simp at this ⊢
        omega
      all_goals
        simp
        omega
    | loop condition body =>
      simp only [children, List.mem_append, List.mem_map, Option.mem_toList,
        List.mem_singleton] at h
      obtain ⟨e, rfl, rfl⟩ | rfl := h
      · simp
        omega
      · simp
    | branch condition thenBody elseBody =>
      simp only [children, List.mem_cons, List.mem_map, Option.mem_toList] at h
      obtain rfl | rfl | ⟨b, rfl, rfl⟩ := h <;> simp <;> omega
    | switch condition arms =>
      simp only [children, List.mem_cons, List.mem_map] at h
      obtain rfl | ⟨⟨values, b⟩, ha, rfl⟩ := h
      · simp
        omega
      · have := List.sizeOf_lt_of_mem ha
        simp at this ⊢
        omega

/-- Nothing goes on for ever below a subtree. -/
theorem wellFounded : WellFounded fun c t : Subtree ↦ c ∈ t.children :=
  Subrelation.wf sizeOf_lt_of_mem_children (measure sizeOf).wf

end Subtree

end Cil
