import Cil.Proofs.Tree.Subtree

/-!
# Source order

A part of a subtree stands in a slot of what it is directly below: a statement of a block, the
condition of a loop, a handler of exceptions. Slots of one thing come in the order of the source,
and a path of slots leads from the root to each part. Main statement: `Subtree.exprs_in_order`, by
which the expressions of a subtree are those that such paths lead to, in the lexicographic order of
their paths and each path once.
-/

namespace Cil.Subtree

/-- Where a part stands in what it is directly below. -/
inductive Slot
  /-- A statement of a block. -/
  | statement (index : Nat)
  /-- An argument of an expression. -/
  | argument (index : Nat)
  /-- The block or the expression that a statement is. -/
  | content
  | tryBody
  | handler (index : Nat)
  | finallyBody
  | faultBody
  /-- The condition of a loop, a branch or a switch. -/
  | condition
  | loopBody
  | thenBody
  | elseBody
  | arm (index : Nat)
  deriving DecidableEq, Repr

/-- One slot comes before another one of the same thing. -/
inductive Slot.Before : Slot → Slot → Prop
  | statements {i j : Nat} (h : i < j) : Before (.statement i) (.statement j)
  | arguments {i j : Nat} (h : i < j) : Before (.argument i) (.argument j)
  | try_handler (i : Nat) : Before .tryBody (.handler i)
  | try_finally : Before .tryBody .finallyBody
  | try_fault : Before .tryBody .faultBody
  | handlers {i j : Nat} (h : i < j) : Before (.handler i) (.handler j)
  | handler_finally (i : Nat) : Before (.handler i) .finallyBody
  | handler_fault (i : Nat) : Before (.handler i) .faultBody
  | finally_fault : Before .finallyBody .faultBody
  | condition_loop : Before .condition .loopBody
  | condition_then : Before .condition .thenBody
  | condition_else : Before .condition .elseBody
  | then_else : Before .thenBody .elseBody
  | condition_arm (i : Nat) : Before .condition (.arm i)
  | arms {i j : Nat} (h : i < j) : Before (.arm i) (.arm j)

private theorem Slot.not_before_self (s : Slot) : ¬ s.Before s := by
  intro h
  cases h <;> exact absurd ‹_› (Nat.lt_irrefl _)

/-- The part in a slot. -/
def part? : Subtree → Slot → Option Subtree
  | .block body, .statement i => body[i]?.map .node
  | .expr e, .argument i => e.args[i]?.map .expr
  | .node (.block body), .content => some (.block body)
  | .node (.basicBlock body), .content => some (.block body)
  | .node (.expr e), .content => some (.expr e)
  | .node (.tryCatch body _ _ _), .tryBody => some (.block body)
  | .node (.tryCatch _ handlers _ _), .handler i => handlers[i]?.map fun h ↦ .block h.body
  | .node (.tryCatch _ _ finallyBody _), .finallyBody => finallyBody.map .block
  | .node (.tryCatch _ _ _ faultBody), .faultBody => faultBody.map .block
  | .node (.loop condition _), .condition => condition.map .expr
  | .node (.loop _ body), .loopBody => some (.block body)
  | .node (.branch condition _ _), .condition => some (.expr condition)
  | .node (.branch _ thenBody _), .thenBody => some (.block thenBody)
  | .node (.branch _ _ elseBody), .elseBody => elseBody.map .block
  | .node (.switch condition _), .condition => some (.expr condition)
  | .node (.switch _ arms), .arm i => arms[i]?.map fun a ↦ .block a.body
  | _, _ => none

/-- The slots of the parts, in source order. -/
def slots : Subtree → List Slot
  | .block body => (List.range body.length).map .statement
  | .expr e => (List.range e.args.length).map .argument
  | .node (.block _) => [.content]
  | .node (.basicBlock _) => [.content]
  | .node (.label _) => []
  | .node (.expr _) => [.content]
  | .node (.tryCatch _ handlers finallyBody faultBody) =>
    .tryBody :: (List.range handlers.length).map .handler ++
      finallyBody.toList.map (fun _ ↦ .finallyBody) ++ faultBody.toList.map fun _ ↦ .faultBody
  | .node (.loop condition _) => condition.toList.map (fun _ ↦ .condition) ++ [.loopBody]
  | .node (.branch _ _ elseBody) => .condition :: .thenBody :: elseBody.toList.map fun _ ↦ .elseBody
  | .node (.switch _ arms) => .condition :: (List.range arms.length).map .arm

-- Slots with an index are in the order of these.
private theorem pairwise_range_map {slot : Nat → Slot}
    (h : ∀ {i j : Nat}, i < j → Slot.Before (slot i) (slot j)) (n : Nat) :
    ((List.range n).map slot).Pairwise Slot.Before :=
  List.pairwise_lt_range.map slot fun _ _ ↦ h

/-- The slots are in source order. -/
theorem pairwise_slots (t : Subtree) : t.slots.Pairwise Slot.Before := by
  cases t with
  | block body => exact pairwise_range_map .statements _
  | expr e => exact pairwise_range_map .arguments _
  | node n =>
    cases n with
    | block body | basicBlock body | label name | expr e => simp [slots]
    | tryCatch body handlers finallyBody faultBody =>
      have hhandlers := pairwise_range_map .handlers handlers.length
      cases finallyBody <;> cases faultBody <;>
        simp [slots, List.pairwise_append, hhandlers, or_imp, forall_and, Slot.Before.try_handler,
          Slot.Before.try_finally, Slot.Before.try_fault, Slot.Before.handler_finally,
          Slot.Before.handler_fault, Slot.Before.finally_fault]
    | loop condition body =>
      cases condition <;> simp [slots, Slot.Before.condition_loop]
    | branch condition thenBody elseBody =>
      cases elseBody <;> simp [slots, Slot.Before.condition_then, Slot.Before.condition_else,
        Slot.Before.then_else]
    | switch condition arms =>
      simp [slots, pairwise_range_map .arms arms.length, Slot.Before.condition_arm]

/-- The slots of a subtree are those that hold a part. -/
theorem mem_slots_iff {t : Subtree} {s : Slot} : s ∈ t.slots ↔ (t.part? s).isSome := by
  cases t with
  | block body => cases s <;> simp [slots, part?]
  | expr e => cases s <;> simp [slots, part?]
  | node n =>
    cases n with
    | block body | basicBlock body | label name | expr e => cases s <;> simp [slots, part?]
    | tryCatch body handlers finallyBody faultBody =>
      cases finallyBody <;> cases faultBody <;> cases s <;> simp [slots, part?]
    | loop condition body => cases condition <;> cases s <;> simp [slots, part?]
    | branch condition thenBody elseBody => cases elseBody <;> cases s <;> simp [slots, part?]
    | switch condition arms => cases s <;> simp [slots, part?]

-- Slots with an index hold the items of a list, in order.
private theorem map_part?_range {α : Type} {t : Subtree} {slot : Nat → Slot} {l : List α}
    {part : α → Subtree} (h : ∀ i, t.part? (slot i) = l[i]?.map part) :
    ((List.range l.length).map slot).map t.part? = (l.map part).map some := by
  rw [List.map_map]
  apply List.ext_getElem
  · simp
  · intro i hi _
    simp at hi
    simp [h, hi]

private theorem map_part?_slots (t : Subtree) : t.slots.map t.part? = t.children.map some := by
  cases t with
  | block body => exact map_part?_range fun _ ↦ rfl
  | expr e => exact map_part?_range fun _ ↦ rfl
  | node n =>
    cases n with
    | block body | basicBlock body | label name | expr e => rfl
    | tryCatch body handlers finallyBody faultBody =>
      have hhandlers : ((List.range handlers.length).map Slot.handler).map
          (part? (.node (.tryCatch body handlers finallyBody faultBody))) =
            (handlers.map fun h ↦ .block h.body).map some := map_part?_range fun _ ↦ rfl
      simp only [slots, children, List.map_append, List.map_cons, List.cons_append, hhandlers]
      cases finallyBody <;> cases faultBody <;> rfl
    | loop condition body => cases condition <;> rfl
    | branch condition thenBody elseBody => cases elseBody <;> rfl
    | switch condition arms =>
      have harms : ((List.range arms.length).map Slot.arm).map
          (part? (.node (.switch condition arms))) =
            (arms.map fun a ↦ .block a.body).map some := map_part?_range fun _ ↦ rfl
      exact congrArg (some (.expr condition) :: ·) harms

private theorem lists_children (t : Subtree) : Lists Slot.Before t.part? t.children :=
  ⟨t.slots, t.pairwise_slots, fun _ ↦ mem_slots_iff, t.map_part?_slots⟩

/-- The expression that a path of slots leads to. -/
def exprAt? (t : Subtree) (path : List Slot) : Option Expr := (descend part? t path).bind expr?

/-- The expressions of a subtree are listed in the order of their paths. -/
theorem lists_exprs (t : Subtree) : Lists (List.Lex Slot.Before) t.exprAt? t.exprs := by
  have hown (u : Subtree) : Lists (fun _ _ : Unit ↦ False) (fun _ ↦ u.expr?) u.expr?.toList := by
    cases u.expr? with
    | none => exact Lists.nil fun _ ↦ rfl
    | some e => exact ⟨[()], by simp⟩
  have hpaths : Function.Surjective (Prod.fst : List Slot × Unit → List Slot) :=
    fun path ↦ ⟨(path, ()), rfl⟩
  refine Lists.rekey hpaths ?_ (Lists.descend lists_children wellFounded hown exprs_eq t)
  rintro _ _ (⟨_, _, h⟩ | ⟨_, h⟩)
  · exact h
  · exact h.elim

/-- A subtree lists the expressions that its paths lead to, in the order of the source and each
path once. Former selves stand in no slot, so that no path leads to what only they hold. -/
theorem exprs_in_order (t : Subtree) :
    (∃ paths : List (List Slot), paths.Pairwise (List.Lex Slot.Before) ∧ paths.Nodup ∧
      (∀ path, path ∈ paths ↔ (t.exprAt? path).isSome) ∧
      paths.map t.exprAt? = (Part.exprs t).map some) ∧
    ∀ e, e ∈ Part.exprs t ↔ ∃ path, t.exprAt? path = some e := by
  obtain ⟨paths, hpairwise, hmem, hvalues⟩ := t.lists_exprs
  have hnodup : paths.Nodup := by
    apply hpairwise.imp
    rintro path _ h rfl
    exact List.lex_irrefl Slot.not_before_self path h
  exact ⟨⟨paths, hpairwise, hnodup, hmem, hvalues⟩, fun e ↦ t.lists_exprs.mem_iff⟩

end Cil.Subtree
