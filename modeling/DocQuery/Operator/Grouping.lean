/-!
# Grouping operators

A flat sequence of operands and operators is grouped: operators of a tighter tier bind first;
between two of one tier, the associativity of the later one decides. Operands are combined while
the sequence is read, with a stack of operators that still wait for their right operand.
`groupWith` leaves open what combining does, and whether it can fail; `group` builds a tree.
-/

namespace DocQuery.Operator

/-- On which side operators of one tier nest. -/
inductive Associativity
  | leftToRight
  | rightToLeft
  deriving DecidableEq, Repr

/-- An entry of a flat sequence. -/
inductive Item (α ο : Type)
  | operand (a : α)
  | operator (o : ο)
  deriving DecidableEq, Repr

/-- The same entry with another operand. -/
def Item.map {α β ο : Type} (f : α → β) : Item α ο → Item β ο
  | operand a => operand (f a)
  | operator o => operator o

/-- What was expected in place of an entry. -/
inductive Expected
  | operand
  | operator
  | lastOperand
  deriving DecidableEq, Repr

/-- Why a sequence cannot be grouped. -/
inductive GroupingError (ο : Type)
  /-- An entry of the wrong sort, or none where one is needed. -/
  | malformed (position : Nat) (expected : Expected)
  /-- Fewer than two operands. -/
  | insufficient (found : Nat)
  /-- An operator in no tier. -/
  | unranked (operator : ο)
  deriving DecidableEq, Repr

/-- What was expected, in words. -/
def Expected.text : Expected → String
  | operand => "an operand"
  | operator => "an operator"
  | lastOperand => "an operand after the last operator"

/-- What is wrong, in words; `shown` shows an operator. -/
def GroupingError.message {ο : Type} (shown : ο → String) : GroupingError ο → String
  | malformed position expected =>
    s!"malformed operator sequence at item {position}: expected " ++ expected.text
  | insufficient found =>
    s!"an operator group needs at least two operands, found {found}"
  | unranked operator => "operator " ++ shown operator ++ " has no precedence tier"

/-- Operands joined by operators. -/
inductive OperatorTree (α ο : Type)
  | leaf (a : α)
  | node (left : OperatorTree α ο) (operator : ο) (right : OperatorTree α ο)
  deriving DecidableEq, Repr

namespace OperatorTree

variable {α ο : Type}

/-- Combines operands from the leaves up: the left side, the right side, then the operator. -/
def foldM {m : Type → Type} [Monad m] (combine : α → α → ο → m α) : OperatorTree α ο → m α
  | leaf a => pure a
  | node left operator right => do
    let l ← left.foldM combine
    let r ← right.foldM combine
    combine l r operator

/-- The sequence that a tree reads as. -/
def items : OperatorTree α ο → List (Item α ο)
  | leaf a => [.operand a]
  | node left operator right => left.items ++ .operator operator :: right.items

end OperatorTree

/-- An operator of the sequence with its strength and the operand after it. -/
structure Link (α ο : Type) where
  operator : ο
  strength : Nat
  operand : α
  deriving DecidableEq, Repr

/-- An operator that waits for its right operand. It gives way to a weaker one; the operand that
it heads is handed on when an operator weaker than `minimum` comes. -/
structure Frame (α ο : Type) where
  left : α
  operator : ο
  strength : Nat
  minimum : Nat
  deriving DecidableEq, Repr

variable {α ο : Type}

/-- The strength of an operator: tighter tiers, which stand first, are stronger. -/
def strength? [BEq ο] (tiers : List (List ο)) (o : ο) : Option Nat :=
  (tiers.findIdx? (·.contains o)).map (tiers.length - ·)

/-- The operators of a sequence with the operands after them; the sequence starts at
`position`. -/
def links [BEq ο] (tiers : List (List ο)) (position : Nat) :
    List (Item α ο) → Except (GroupingError ο) (List (Link α ο))
  | [] => .ok []
  | .operand _ :: _ => .error (.malformed position .operator)
  | [.operator o] =>
    match strength? tiers o with
    | none => .error (.unranked o)
    | some _ => .error (.malformed (position + 1) .lastOperand)
  | .operator o :: .operator _ :: _ =>
    match strength? tiers o with
    | none => .error (.unranked o)
    | some _ => .error (.malformed (position + 1) .operand)
  | .operator o :: .operand a :: rest =>
    match strength? tiers o with
    | none => .error (.unranked o)
    | some strength => do return ⟨o, strength, a⟩ :: (← links tiers (position + 2) rest)

section Combining

variable {m : Type → Type} [Monad m] (build : α → α → ο → m α) (associativity : ο → Associativity)

/-- Puts an operator on the stack, after everything that binds before it has been joined.
`right` is the operand to the left of the new operator. -/
def push (o : ο) (strength : Nat) (right : α) : List (Frame α ο) → m (List (Frame α ο))
  | [] => pure [⟨right, o, strength, 0⟩]
  | f :: below =>
    -- A stronger operator takes the operand away from the one that waits for it.
    if f.strength < strength then pure (⟨right, o, strength, f.strength + 1⟩ :: f :: below)
    else if strength = f.strength ∧ associativity o = .rightToLeft then
      pure (⟨right, o, strength, f.strength⟩ :: f :: below)
    -- What waits is complete; the new operator takes its place, or goes on further down.
    else do
      let joined ← build f.left right f.operator
      if f.minimum ≤ strength then return ⟨joined, o, strength, f.minimum⟩ :: below
      else push o strength joined below

/-- Joins everything on the stack. -/
def close (right : α) : List (Frame α ο) → m α
  | [] => pure right
  | f :: below => do
    let joined ← build f.left right f.operator
    close joined below

/-- Combines the operands to come with `right` and with what is on the stack. -/
def combine (stack : List (Frame α ο)) (right : α) : List (Link α ο) → m α
  | [] => close build right stack
  | link :: rest => do
    let stack ← push build associativity link.operator link.strength right stack
    combine stack link.operand rest

/-- Groups a flat sequence and combines its operands with `build`; `refuse` answers for a
sequence that cannot be grouped. -/
def groupWith [BEq ο] (refuse : GroupingError ο → m α) (tiers : List (List ο)) :
    List (Item α ο) → m α
  | [] => refuse (.insufficient 0)
  | .operator _ :: _ => refuse (.malformed 0 .operand)
  | .operand first :: rest =>
    match links tiers 1 rest with
    | .error e => refuse e
    | .ok [] => refuse (.insufficient 1)
    | .ok found => combine build associativity [] first found

end Combining

/-- The tree of a flat sequence. -/
def group [BEq ο] (tiers : List (List ο)) (associativity : ο → Associativity)
    (items : List (Item α ο)) : Except (GroupingError ο) (OperatorTree α ο) :=
  groupWith (fun l r o => .ok (.node l o r)) associativity .error tiers
    (items.map (.map .leaf))

end DocQuery.Operator
