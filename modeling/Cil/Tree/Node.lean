import Cil.Metadata.TypeRef
import Cil.Tree.Expr

/-!
# Nodes

The statements of a decompiled method body. Only expressions have ranges; a structural node
reaches offsets through the expressions in it, which `Node.exprs` lists in source order.
-/

namespace Cil

mutual

/-- A statement, a block being a list of them; `IlNode`. -/
inductive Node
  | block (body : List Node)
  /-- A block without branches, as it is before control structures are found. -/
  | basicBlock (body : List Node)
  | label (name : String)
  | expr (e : Expr)
  | tryCatch (body : List Node) (handlers : List Handler) (finallyBody : Option (List Node))
    (faultBody : Option (List Node))
  /-- A loop; without a condition it has no end of its own. -/
  | loop (condition : Option Expr) (body : List Node)
  | branch (condition : Expr) (thenBody : List Node) (elseBody : Option (List Node))
  | switch (condition : Expr) (arms : List Arm)

/-- A handler of exceptions: of all, where it names no type; `CatchBlock`. -/
structure Handler where
  type : Option TypeRef
  /-- The variable that holds the exception. -/
  boundName : Option String
  body : List Node

/-- An arm of a switch: the default one, where it lists no values; `CaseBlock`. -/
structure Arm where
  values : List Int32
  body : List Node

end

/-- Statements in order; `IlBlock`. -/
abbrev Block := List Node

instance : Inhabited Node := ⟨.block []⟩

mutual

/-- The expressions of a statement in source order, each before its arguments;
`IlNode.for_each_expression`. -/
def Node.exprs : Node → List Expr
  | .block body => Block.exprs body
  | .basicBlock body => Block.exprs body
  | .label _ => []
  | .expr e => e.exprs
  | .tryCatch body handlers finallyBody faultBody =>
    Block.exprs body ++ Handler.exprsList handlers ++ Block.exprsOption finallyBody ++
      Block.exprsOption faultBody
  | .loop none body => Block.exprs body
  | .loop (some condition) body => condition.exprs ++ Block.exprs body
  | .branch condition thenBody elseBody =>
    condition.exprs ++ Block.exprs thenBody ++ Block.exprsOption elseBody
  | .switch condition arms => condition.exprs ++ Arm.exprsList arms

/-- The expressions of a block in source order; `IlBlock.for_each_expression`. -/
def Block.exprs : List Node → List Expr
  | [] => []
  | n :: rest => n.exprs ++ Block.exprs rest

/-- The expressions of a block, if it is there. -/
def Block.exprsOption : Option (List Node) → List Expr
  | none => []
  | some body => Block.exprs body

/-- The expressions of a handler. -/
def Handler.exprs : Handler → List Expr
  | ⟨_, _, body⟩ => Block.exprs body

/-- The expressions of handlers in order. -/
def Handler.exprsList : List Handler → List Expr
  | [] => []
  | h :: rest => h.exprs ++ Handler.exprsList rest

/-- The expressions of an arm. -/
def Arm.exprs : Arm → List Expr
  | ⟨_, body⟩ => Block.exprs body

/-- The expressions of arms in order. -/
def Arm.exprsList : List Arm → List Expr
  | [] => []
  | a :: rest => a.exprs ++ Arm.exprsList rest

end

/-- The expressions of a block are those of its statements in order. -/
theorem Block.exprs_eq (body : Block) : Block.exprs body = body.flatMap Node.exprs := by
  induction body with
  | nil => rfl
  | cons n rest ih => rw [Block.exprs, ih, List.flatMap_cons]

/-- The expressions of handlers are those of their bodies in order. -/
theorem Handler.exprsList_eq (hs : List Handler) :
    Handler.exprsList hs = hs.flatMap fun h ↦ Block.exprs h.body := by
  induction hs with
  | nil => rfl
  | cons h rest ih =>
    cases h
    rw [Handler.exprsList, Handler.exprs, ih, List.flatMap_cons]

/-- The expressions of arms are those of their bodies in order. -/
theorem Arm.exprsList_eq (as : List Arm) :
    Arm.exprsList as = as.flatMap fun a ↦ Block.exprs a.body := by
  induction as with
  | nil => rfl
  | cons a rest ih =>
    cases a
    rw [Arm.exprsList, Arm.exprs, ih, List.flatMap_cons]

mutual

/-- Compares statements. -/
def Node.beq : Node → Node → Bool
  | .block b, .block b' => Block.beq b b'
  | .basicBlock b, .basicBlock b' => Block.beq b b'
  | .label s, .label s' => s == s'
  | .expr e, .expr e' => e == e'
  | .tryCatch b hs fin fault, .tryCatch b' hs' fin' fault' =>
    Block.beq b b' && Handler.beqList hs hs' && Block.beqOption fin fin' &&
      Block.beqOption fault fault'
  | .loop c b, .loop c' b' => c == c' && Block.beq b b'
  | .branch c b e, .branch c' b' e' => c == c' && Block.beq b b' && Block.beqOption e e'
  | .switch c as, .switch c' as' => c == c' && Arm.beqList as as'
  | _, _ => false

/-- Compares blocks. -/
def Block.beq : List Node → List Node → Bool
  | [], [] => true
  | n :: b, n' :: b' => n.beq n' && Block.beq b b'
  | _, _ => false

/-- Compares blocks that may be absent. -/
def Block.beqOption : Option (List Node) → Option (List Node) → Bool
  | none, none => true
  | some b, some b' => Block.beq b b'
  | _, _ => false

/-- Compares handlers. -/
def Handler.beq : Handler → Handler → Bool
  | ⟨t, v, b⟩, ⟨t', v', b'⟩ => t == t' && v == v' && Block.beq b b'

/-- Compares lists of handlers. -/
def Handler.beqList : List Handler → List Handler → Bool
  | [], [] => true
  | h :: hs, h' :: hs' => h.beq h' && Handler.beqList hs hs'
  | _, _ => false

/-- Compares arms. -/
def Arm.beq : Arm → Arm → Bool
  | ⟨vs, b⟩, ⟨vs', b'⟩ => vs == vs' && Block.beq b b'

/-- Compares lists of arms. -/
def Arm.beqList : List Arm → List Arm → Bool
  | [], [] => true
  | a :: as, a' :: as' => a.beq a' && Arm.beqList as as'
  | _, _ => false

end

mutual

private theorem Node.beq_iff : ∀ a b : Node, a.beq b = true ↔ a = b
  | .block b, x => by cases x <;> simp [Node.beq, Block.beq_iff b]
  | .basicBlock b, x => by cases x <;> simp [Node.beq, Block.beq_iff b]
  | .label s, x => by cases x <;> simp [Node.beq]
  | .expr e, x => by cases x <;> simp [Node.beq]
  | .tryCatch b hs fin fault, x => by
    cases x <;> simp [Node.beq, Block.beq_iff b, Handler.beqList_iff hs, Block.beqOption_iff fin,
      Block.beqOption_iff fault, and_assoc]
  | .loop c b, x => by cases x <;> simp [Node.beq, Block.beq_iff b]
  | .branch c b e, x => by
    cases x <;> simp [Node.beq, Block.beq_iff b, Block.beqOption_iff e, and_assoc]
  | .switch c as, x => by cases x <;> simp [Node.beq, Arm.beqList_iff as]

private theorem Block.beq_iff : ∀ a b : List Node, Block.beq a b = true ↔ a = b
  | [], x => by cases x <;> simp [Block.beq]
  | n :: b, x => by cases x <;> simp [Block.beq, Node.beq_iff n, Block.beq_iff b]

private theorem Block.beqOption_iff :
    ∀ a b : Option (List Node), Block.beqOption a b = true ↔ a = b
  | none, x => by cases x <;> simp [Block.beqOption]
  | some b, x => by cases x <;> simp [Block.beqOption, Block.beq_iff b]

private theorem Handler.beq_iff : ∀ a b : Handler, a.beq b = true ↔ a = b
  | ⟨t, v, b⟩, ⟨t', v', b'⟩ => by simp [Handler.beq, Block.beq_iff b, and_assoc]

private theorem Handler.beqList_iff : ∀ a b : List Handler, Handler.beqList a b = true ↔ a = b
  | [], x => by cases x <;> simp [Handler.beqList]
  | h :: hs, x => by
    cases x <;> simp [Handler.beqList, Handler.beq_iff h, Handler.beqList_iff hs]

private theorem Arm.beq_iff : ∀ a b : Arm, a.beq b = true ↔ a = b
  | ⟨vs, b⟩, ⟨vs', b'⟩ => by simp [Arm.beq, Block.beq_iff b]

private theorem Arm.beqList_iff : ∀ a b : List Arm, Arm.beqList a b = true ↔ a = b
  | [], x => by cases x <;> simp [Arm.beqList]
  | a :: as, x => by cases x <;> simp [Arm.beqList, Arm.beq_iff a, Arm.beqList_iff as]

end

instance : DecidableEq Node := fun a b ↦ decidable_of_iff _ (Node.beq_iff a b)

end Cil
