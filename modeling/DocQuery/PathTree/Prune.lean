import DocQuery.PathTree.Build
import DocQuery.PathTree.Provenance

/-!
# Pruning documents

Pruning keeps of a document what a path tree names. A leaf keeps its value whole, a wildcard
keeps every child, and other branches keep the children that they name, in the order of the
document. A list that loses items records where the others came from, and a list with such a
record is read through it: its indices are those of the list that was first pruned.
-/

namespace DocQuery

/-- What a node of a path tree needs of a container. -/
inductive ContainerForm
  | struct
  | sequence
  deriving DecidableEq, Repr

/-- Why a document cannot be pruned. -/
inductive PruneError
  | missingProperty (name : String)
  | missingIndex (index : Nat)
  /-- A container is missing that has required children. -/
  | missingContainer (node : Option Selector)
  /-- A container is empty of which some child is required. -/
  | emptyContainer (node : Option Selector)
  /-- A value is no container of the right form. -/
  | mismatch (node : Option Selector) (expected : ContainerForm) (found : Kind)
  deriving DecidableEq, Repr

/-- What is wrong, in words. -/
def PruneError.message : PruneError → String
  | missingProperty name => "missing required property '" ++ name ++ "'"
  | missingIndex index => s!"missing required index [{index}]"
  | missingContainer node => "required container " ++ nodeName node ++ " is null"
  | emptyContainer node => "required container " ++ nodeName node ++ " has no children"
  | mismatch node expected found =>
    "expected " ++ (match expected with | .struct => "struct" | .sequence => "list or sexp") ++
      " at " ++ nodeName node ++ ", found " ++ found.name

/-- A branch with what it keeps of the value that its selector reaches. -/
structure Keeper where
  selector : Selector
  required : Bool
  keep : Value → Except PruneError Value

namespace Keeper

/-- Whether some of the branches select fields. -/
def anyProperty (keepers : List Keeper) : Bool :=
  keepers.any (·.selector.isProperty)

/-- The failure of a node on a value of the wrong form. -/
def mismatch (node : Option Selector) (keepers : List Keeper) (v : Value) : PruneError :=
  .mismatch node (if anyProperty keepers then .struct else .sequence) v.kind

/-- The position of the first field of a name. -/
def position? (name : String) (fields : List (String × Value)) : Option Nat :=
  fields.findIdx? (·.1 == name)

/-- The fields that branches keep, with their positions, in the order of the branches. -/
def keepFields (fields : List (String × Value)) (failure : PruneError) :
    List Keeper → Except PruneError (List (Nat × String × Value))
  | [] => .ok []
  | k :: rest =>
    match k.selector with
    | .property (some name) =>
      match (position? name fields).bind fun i => fields[i]?.map (i, ·.2) with
      | some (i, field) => do
        let kept ← k.keep field
        return (i, name, kept) :: (← keepFields fields failure rest)
      | none =>
        if k.required then .error (.missingProperty name) else keepFields fields failure rest
    | _ => .error failure

/-- The items that branches keep, with their source indices, in the order of the branches.
`slot?` says where the item of a source index now stands. -/
def keepItems (items : List Value) (slot? : Nat → Option Nat) (failure : PruneError) :
    List Keeper → Except PruneError (List (Nat × Value))
  | [] => .ok []
  | k :: rest =>
    match k.selector with
    | .item (some index) =>
      match (slot? index).bind fun slot => items[slot]? with
      | some item => do
        let kept ← k.keep item
        return (index, kept) :: (← keepItems items slot? failure rest)
      | none =>
        if k.required then .error (.missingIndex index) else keepItems items slot? failure rest
    | _ => .error failure

/-- Puts an entry before the first one with a larger key. -/
def insertByKey {α : Type} (entry : Nat × α) : List (Nat × α) → List (Nat × α)
  | [] => [entry]
  | other :: rest =>
    if entry.1 < other.1 then entry :: other :: rest else other :: insertByKey entry rest

/-- Entries in the order of their keys; those of one key stay in order. -/
def sortByKey {α : Type} (entries : List (Nat × α)) : List (Nat × α) :=
  entries.foldl (fun sorted entry => insertByKey entry sorted) []

/-- Where the item of a source index stands in a list of so many items with these annotations:
at the place of the index in the record, if there is one that fits. -/
def slotOf (mark : String) (annotations : List String) (size : Nat) : Nat → Option Nat :=
  match Provenance.recorded? mark annotations with
  | some recorded =>
    if recorded.length = size then fun index => recorded.findIdx? (· == index) else some
  | none => some

/-- Keeps every child of a container. -/
def keepAll (node : Option Selector) (all : Keeper) (v : Value) : Except PruneError Value :=
  match v, all.selector.isProperty with
  | .struct names fields, true =>
    if fields.isEmpty && all.required then .error (.emptyContainer node)
    else do
      return .struct names (← fields.mapM fun field => return (field.1, ← all.keep field.2))
  | .sequence names form items, false =>
    if items.isEmpty && all.required then .error (.emptyContainer node)
    else return .sequence names form (← items.mapM all.keep)
  | v, _ =>
    if v.isNull then .error (.missingContainer node) else .error (mismatch node [all] v)

/-- Keeps the children of a container that branches name. -/
def keepNamed (mark : String) (node : Option Selector) (keepers : List Keeper) (v : Value) :
    Except PruneError Value :=
  match v with
  | .struct names fields =>
    if keepers.all (·.selector.isProperty) then do
      let kept ← keepFields fields (mismatch node keepers v) keepers
      return .struct names ((sortByKey kept).map Prod.snd)
    else .error (mismatch node keepers v)
  | .sequence names form items =>
    if anyProperty keepers then .error (mismatch node keepers v)
    else do
      -- Source indices are looked up in the record, and those that are kept are recorded.
      let slot? := slotOf mark names items.length
      let kept := sortByKey (← keepItems items slot? (mismatch node keepers v) keepers)
      return .sequence (Provenance.record mark (kept.map Prod.fst) names) form
        (kept.map Prod.snd)
  | v =>
    if !v.isNull then .error (mismatch node keepers v)
    else if keepers.any (·.required) then .error (.missingContainer node)
    else return v

/-- Keeps of a value what the branches below a node name; a leaf keeps all of it. -/
def keepBelow (mark : String) (node : Option Selector) (keepers : List Keeper) (v : Value) :
    Except PruneError Value :=
  match keepers with
  | [] => .ok v
  | [only] => if only.selector.isWildcard then keepAll node only v else keepNamed mark node [only] v
  | keepers => keepNamed mark node keepers v

end Keeper

mutual

/-- What a branch keeps. -/
def Branch.keeper (mark : String) : Branch → Keeper
  | .mk selector required children =>
    ⟨selector, required, Keeper.keepBelow mark (some selector) (Branch.keepers mark children)⟩

/-- What branches keep. -/
def Branch.keepers (mark : String) : List Branch → List Keeper
  | [] => []
  | b :: rest => b.keeper mark :: Branch.keepers mark rest

end

namespace PathTree

/-- Keeps of a document what a tree names. -/
def prune (t : PathTree) (mark : String) (document : Value) : Except PruneError Value :=
  Keeper.keepBelow mark none (Branch.keepers mark t.branches) document

/-- Checks that a document has everything that a tree requires. -/
def validate (t : PathTree) (document : Value) : Except PruneError Unit := do
  discard (t.prune Provenance.defaultMark document)

end PathTree

end DocQuery
