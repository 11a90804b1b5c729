import DocQuery.Path.Reader
import DocQuery.PathTree.Basic

/-!
# Merging paths into a tree

Paths are put into the tree one after the other. A step that is there already is shared, and
is required if any path requires it. A wildcard takes the place of all siblings of its family,
properties or items, together with what is below them.
-/

namespace DocQuery

namespace Branch

/-- The branches of a single path. -/
def ofSteps : Step → List Step → Branch
  | step, [] => mk step.selector step.required []
  | step, next :: rest => mk step.selector step.required [ofSteps next rest]

/-- Whether two selectors select from the same kind of container. -/
def sameFamily (s t : Selector) : Bool :=
  s.isProperty == t.isProperty

/-- Whether a selector stands for another one: as its equal, or as a wildcard of its family. -/
def covers (s t : Selector) : Bool :=
  s == t || (s.isWildcard && sameFamily s t)

/-- Applies `f` to the first branch whose selector covers the given one. -/
def updateCovering (f : Branch → Branch) (selector : Selector) : List Branch → Option (List Branch)
  | [] => none
  | b :: rest =>
    if covers b.selector selector then some (f b :: rest)
    else (updateCovering f selector rest).map (b :: ·)

/-- The branch that results from adding branches below another one with `add`. -/
def extend (add : List Branch → Branch → List Branch) (required : Bool) (more : List Branch) :
    Branch → Branch
  | mk s r children => mk s (r || required) (more.foldl add children)

/-- The branch of a wildcard that takes the place of `absorbed` siblings. -/
def absorbing (add : List Branch → Branch → List Branch) (absorbed : List Branch) :
    Branch → Branch
  | mk s r children =>
    mk s (r || absorbed.any required)
      (children.foldl add ((absorbed.flatMap Branch.children).foldl add []))

/-- Adds a branch to its siblings. `add` adds branches further below. -/
def addWith (add : List Branch → Branch → List Branch) (siblings : List Branch) (b : Branch) :
    List Branch :=
  match updateCovering (extend add b.required b.children) b.selector siblings with
  | some updated => updated
  | none =>
    if b.selector.isWildcard then
      siblings.filter (fun s => !sameFamily s.selector b.selector) ++
        [absorbing add (siblings.filter fun s => sameFamily s.selector b.selector) b]
    else siblings ++ [b]

/-- Adds a branch to its siblings, none of which is higher than `height`. -/
def add : Nat → List Branch → Branch → List Branch
  | 0, siblings, _ => siblings
  | height + 1, siblings, b => addWith (add height) siblings b

mutual

/-- How many steps the longest path through a branch has. -/
def height : Branch → Nat
  | mk _ _ children => heights children + 1

/-- How many steps the longest path through branches has. -/
def heights : List Branch → Nat
  | [] => 0
  | b :: rest => max b.height (heights rest)

end

/-- Whether branches are of one family. -/
def homogeneous (branches : List Branch) : Bool :=
  branches.all (·.selector.isProperty) || branches.all (!·.selector.isProperty)

mutual

/-- Checks that the branches below every node are of one family, the lowest nodes first. -/
def check : Branch → Except TreeError Unit
  | mk s _ children => do
    checkAll children
    if homogeneous children then return () else throw (.mixed (some s))

/-- Checks branches in order. -/
def checkAll : List Branch → Except TreeError Unit
  | [] => .ok ()
  | b :: rest => do
    b.check
    checkAll rest

end

end Branch

namespace PathTree

/-- The branches of paths that are added in order. -/
def merge (paths : List Path) : List Branch :=
  let height := (paths.map (·.steps.length)).foldl max 0
  (paths.map fun p => Branch.ofSteps p.first p.rest).foldl (Branch.add height) []

/-- The tree of paths that are added in order. -/
def ofPaths (paths : List Path) : Except TreeError PathTree := do
  let branches := merge paths
  Branch.checkAll branches
  if Branch.homogeneous branches then return ⟨branches⟩ else throw (.mixed none)

/-- Reads paths divided by commas or blanks, and merges them. -/
def read (text : String) : Except ParseError PathTree := do
  (ofPaths (← Path.readAll text)).mapError .tree

end PathTree

end DocQuery
