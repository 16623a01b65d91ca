import Cil.OffsetRange

/-!
# Expressions

An expression of a decompiled method body: an operation on arguments, with the ranges of the code
it was made from. An expression that a pass puts in place of another keeps that one as a former
self, and with it the ranges of that.
-/

namespace Cil

/-- The operation of an expression; `IlCode`. -/
inductive Operation
  | nop
  | ldarg
  | ldloc
  | stloc
  | ldc
  | ldstr
  | ldnull
  | ldfld
  | stfld
  | call
  | callvirt
  | newobj
  | ret
  | br
  | brtrue
  | leave
  | endfinally
  | await
  /-- Any other operation, by name. -/
  | other (name : String)
  deriving DecidableEq, Repr

namespace Operation

/-- The operations that are not named freely. -/
def known : List Operation :=
  [nop, ldarg, ldloc, stloc, ldc, ldstr, ldnull, ldfld, stfld, call, callvirt, newobj, ret, br,
    brtrue, leave, endfinally, await]

/-- The name of an operation. -/
def text : Operation → String
  | .nop => "nop"
  | .ldarg => "ldarg"
  | .ldloc => "ldloc"
  | .stloc => "stloc"
  | .ldc => "ldc"
  | .ldstr => "ldstr"
  | .ldnull => "ldnull"
  | .ldfld => "ldfld"
  | .stfld => "stfld"
  | .call => "call"
  | .callvirt => "callvirt"
  | .newobj => "newobj"
  | .ret => "ret"
  | .br => "br"
  | .brtrue => "brtrue"
  | .leave => "leave"
  | .endfinally => "endfinally"
  | .await => "await"
  | .other name => name

/-- The known operation of a name. -/
def ofName? (name : String) : Option Operation := known.find? fun op ↦ op.text == name

end Operation

/-- An expression; `IlExpression`. -/
structure Expr where
  op : Operation
  /-- The inline operand: the name of a member, a literal or a label. -/
  operand : Option String
  /-- The arguments in order of evaluation. -/
  args : List Expr
  /-- The ranges of the code the expression itself was made from. -/
  ranges : List OffsetRange
  /-- The expressions that this one was put in place of; `IlExpression.original`. -/
  former : List Expr

namespace Expr

/-- An expression without operand, arguments and ranges; `IlExpression.new`. -/
def ofOperation (op : Operation) : Expr :=
  { op, operand := none, args := [], ranges := [], former := [] }

instance : Inhabited Expr := ⟨ofOperation .nop⟩

/-- Records an expression that this one is put in place of; `IlExpression.with_original`. -/
def replacing (old e : Expr) : Expr := { e with former := e.former ++ [old] }

mutual

/-- Decides equality of expressions. -/
def decEq : (a b : Expr) → Decidable (a = b)
  | ⟨op, operand, args, ranges, former⟩, ⟨op', operand', args', ranges', former'⟩ =>
    if h : op = op' ∧ operand = operand' ∧ ranges = ranges' then
      match decEqList args args' with
      | .isTrue ha =>
        match decEqList former former' with
        | .isTrue ho => .isTrue (by simp [h, ha, ho])
        | .isFalse ho => .isFalse (by simp [ho])
      | .isFalse ha => .isFalse (by simp [ha])
    else .isFalse (by simp; grind)

/-- Decides equality of lists of expressions. -/
def decEqList : (as bs : List Expr) → Decidable (as = bs)
  | [], [] => .isTrue rfl
  | [], _ :: _ => .isFalse (by simp)
  | _ :: _, [] => .isFalse (by simp)
  | a :: as, b :: bs =>
    match decEq a b with
    | .isTrue h =>
      match decEqList as bs with
      | .isTrue hs => .isTrue (by rw [h, hs])
      | .isFalse hs => .isFalse (by simp [hs])
    | .isFalse h => .isFalse (by simp [h])

end

instance : DecidableEq Expr := decEq

mutual

/-- The ranges of the expression and of everything it was put in place of;
`IlExpression.il_ranges_with_originals`. -/
def allRanges : Expr → List OffsetRange
  | ⟨_, _, _, ranges, former⟩ => ranges ++ allRangesList former

/-- The ranges of expressions and of everything they were put in place of. -/
def allRangesList : List Expr → List OffsetRange
  | [] => []
  | e :: rest => allRanges e ++ allRangesList rest

end

mutual

/-- The expression and then, in order, those of its arguments; `IlExpression.for_each_expression`.
Former selves are history and no part of it. -/
def exprs : Expr → List Expr
  | e@⟨_, _, args, _, _⟩ => e :: exprsList args

/-- The expressions of arguments in order. -/
def exprsList : List Expr → List Expr
  | [] => []
  | e :: rest => exprs e ++ exprsList rest

end

/-- The ranges of a list are those of its expressions in order. -/
theorem allRangesList_eq (l : List Expr) : allRangesList l = l.flatMap allRanges := by
  induction l with
  | nil => rfl
  | cons e rest ih => rw [allRangesList, ih, List.flatMap_cons]

/-- Own ranges come before those of former selves. -/
theorem allRanges_eq (e : Expr) : e.allRanges = e.ranges ++ e.former.flatMap allRanges := by
  cases e
  rw [allRanges, allRangesList_eq]

/-- The expressions of a list are those of its members in order. -/
theorem exprsList_eq (l : List Expr) : exprsList l = l.flatMap exprs := by
  induction l with
  | nil => rfl
  | cons e rest ih => rw [exprsList, ih, List.flatMap_cons]

/-- An expression comes before its arguments. -/
theorem exprs_eq (e : Expr) : e.exprs = e :: e.args.flatMap exprs := by
  cases e
  rw [exprs, exprsList_eq]

end Expr

end Cil
