import DocQuery.PathTree.Build

/-!
# Merging paths in an arena

The nodes of a tree in the making stand in an array and refer to each other by index. A path is
attached step by step. A new wildcard takes the place of its siblings of one family and attaches to
itself what is below them; the nodes that it has absorbed are no longer children of any node that is
reached, but stay where they are. In the end the nodes are frozen into branches.

Recursion goes as deep as it is allowed to. A result is missing where an index is out of bounds, or
where recursion would have to go deeper.
-/

namespace DocQuery

/-- A node in the making. Its children are given by index; only the root has no selector. -/
structure Draft where
  selector : Option Selector
  required : Bool
  children : List Nat
  deriving DecidableEq, Repr

namespace Draft

/-- Whether a node stands for a selector of the same family. -/
def isOf (selector : Selector) (d : Draft) : Bool :=
  d.selector.any (Branch.sameFamily · selector)

/-- Whether a node stands for every selector of the same family. -/
def isWildcardOf (selector : Selector) (d : Draft) : Bool :=
  d.selector.any fun s => s.isWildcard && Branch.sameFamily s selector

end Draft

/-- The nodes of a tree in the making, the root first. -/
structure Arena where
  nodes : Array Draft
  deriving DecidableEq, Repr

namespace Arena

/-- The index of the root. -/
def root : Nat := 0

/-- A root without children. -/
def empty : Arena :=
  ⟨#[⟨none, true, []⟩]⟩

/-- The index of the node that is pushed next. -/
def size (a : Arena) : Nat :=
  a.nodes.size

/-- The children of a node, with their indices. -/
def children? (a : Arena) (index : Nat) : Option (List (Nat × Draft)) := do
  let node ← a.nodes[index]?
  node.children.mapM fun child => (a.nodes[child]?).map (child, ·)

/-- Adds a node without children. -/
def push (a : Arena) (selector : Selector) (required : Bool) : Arena :=
  ⟨a.nodes.push ⟨some selector, required, []⟩⟩

/-- Requires a node, if asked to. -/
def require (a : Arena) (index : Nat) (required : Bool) : Arena :=
  ⟨a.nodes.modify index fun d => { d with required := d.required || required }⟩

/-- Gives a node other children. -/
def setChildren (a : Arena) (index : Nat) (children : List Nat) : Arena :=
  ⟨a.nodes.modify index fun d => { d with children }⟩

/-- Adds a node as the last child of another one, after the children that are kept. -/
def adopt (a : Arena) (parent : Nat) (kept : List Nat) (selector : Selector) (required : Bool) :
    Arena :=
  (a.push selector required).setChildren parent (kept ++ [a.size])

mutual

/-- Finds or creates the child of a node for a selector; its index comes with the arena. -/
def attach : Nat → Arena → Nat → Selector → Bool → Option (Arena × Nat)
  | 0, _, _, _, _ => none
  | depth + 1, a, parent, selector, required => do
    let children ← a.children? parent
    match children.find? (·.2.isWildcardOf selector) with
    | some (wildcard, _) => return (a.require wildcard required, wildcard)
    | none =>
      if selector.isWildcard then
        let (absorbed, kept) := children.partition (·.2.isOf selector)
        let wildcard := a.size
        let a ← absorbed.foldlM (fun a sibling => do
          let draft ← a.nodes[sibling.1]?
          absorb depth (a.require wildcard draft.required) wildcard sibling.1)
          (a.adopt parent (kept.map Prod.fst) selector required)
        return (a, wildcard)
      else
        match children.find? (·.2.selector == some selector) with
        | some (child, _) => return (a.require child required, child)
        | none => return (a.adopt parent (children.map Prod.fst) selector required, a.size)

/-- Merges what is below one node into another one. -/
def absorb : Nat → Arena → Nat → Nat → Option Arena
  | 0, _, _, _ => none
  | depth + 1, a, target, source => do
    let children ← a.children? source
    children.foldlM (fun a child => do
      let draft ← a.nodes[child.1]?
      match draft.selector with
      | none => return a
      | some selector =>
        let (a, merged) ← attach depth a target selector draft.required
        absorb depth a merged child.1) a

end

/-- Attaches a step below the node that is found last. -/
def attachStep (depth : Nat) (found : Arena × Nat) (step : Step) : Option (Arena × Nat) :=
  attach depth found.1 found.2 step.selector step.required

/-- Adds a path, each step below the one before it. -/
def addPath (depth : Nat) (a : Arena) (p : Path) : Option Arena :=
  (p.steps.foldlM (attachStep depth) (a, root)).map Prod.fst

/-- The arena of paths that are added in order. -/
def ofPaths (depth : Nat) (paths : List Path) : Option Arena :=
  paths.foldlM (addPath depth) empty

/-- The branches below a node. They have to be of one family, the lowest ones first. -/
def freeze : Nat → Arena → Nat → ExceptT TreeError Option (List Branch)
  | 0, _, _ => (none : Option (List Branch))
  | depth + 1, a, index => do
    let node ← (a.nodes[index]? : Option Draft)
    let branches ← node.children.mapM fun child => do
      let draft ← (a.nodes[child]? : Option Draft)
      let selector ← draft.selector
      return Branch.mk selector draft.required (← freeze depth a child)
    if Branch.homogeneous branches then return branches else throw (.mixed node.selector)

/-- The tree of an arena. -/
def build (depth : Nat) (a : Arena) : Option (Except TreeError PathTree) :=
  (PathTree.mk <$> freeze depth a root).run

end Arena

end DocQuery
