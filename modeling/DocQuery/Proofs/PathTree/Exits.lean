import DocQuery.Proofs.PathTree.Unseen

/-!
# Exits that pruning never takes

When pruning looks children up one by one, it gives up at a branch that names nothing, or that is of
the other family. Below every node of a built tree the branches are of one family, and a wildcard is
alone, so that it is found before any child is looked up. So the loops never give up that way: with
which failure they would do so makes no difference to what they keep.

Main names:

* `PathTree.Below` — the branches below a node of a tree;
* `Branch.Definite` — what pruning relies on below a node;
* `PathTree.definite_of_below` — it holds below every node of a built tree.
-/

namespace DocQuery

namespace Keeper

variable {keepers : List Keeper}

/-- Branches that all name fields are never given up. -/
theorem keepFields_failure (hnamed : ∀ k ∈ keepers, ∃ name, k.selector = .property (some name))
    (fields : List (String × Value)) (failure failure' : PruneError) :
    keepFields fields failure keepers = keepFields fields failure' keepers := by
  induction keepers with
  | nil => rfl
  | cons k rest ih =>
      obtain ⟨name, hname⟩ := hnamed k (List.mem_cons_self ..)
      have hrest := ih fun k' hk' => hnamed k' (List.mem_cons_of_mem _ hk')
      rw [keepFields, keepFields, hname, hrest]

/-- Branches that all name items are never given up. -/
theorem keepItems_failure (hnamed : ∀ k ∈ keepers, ∃ index, k.selector = .item (some index))
    (items : List Value) (slot? : Nat → Option Nat) (failure failure' : PruneError) :
    keepItems items slot? failure keepers = keepItems items slot? failure' keepers := by
  induction keepers with
  | nil => rfl
  | cons k rest ih =>
      obtain ⟨index, hindex⟩ := hnamed k (List.mem_cons_self ..)
      have hrest := ih fun k' hk' => hnamed k' (List.mem_cons_of_mem _ hk')
      rw [keepItems, keepItems, hindex, hrest]

end Keeper

namespace Branch

variable {allowed : Selector → Prop} {bs : List Branch}

/-- What pruning relies on below a node, in whatever container it looks. -/
structure Definite (mark : String) (bs : List Branch) : Prop where
  oneFamily : homogeneous bs = true
  alone : ∀ b ∈ bs, b.selector.isWildcard = true → bs = [b]
  found : ∀ b ∈ bs, b.selector.isWildcard = true → onlyWildcard? bs = some b
  /-- In a struct every branch that is looked up has a name. -/
  fieldsNamed : Naming bs → bs.all (·.selector.isProperty) = true →
    ∀ b ∈ bs, ∃ name, b.selector = .property (some name)
  /-- In a list every branch that is looked up has an index. -/
  itemsNamed : Naming bs → bs.any (·.selector.isProperty) = false →
    ∀ b ∈ bs, ∃ index, b.selector = .item (some index)
  /-- The loop over the branches of a struct does not give up. -/
  fieldsKept : Naming bs → bs.all (·.selector.isProperty) = true →
    ∀ fields failure failure', Keeper.keepFields fields failure (keepers mark bs) =
      Keeper.keepFields fields failure' (keepers mark bs)
  /-- The loop over the branches of a list does not give up. -/
  itemsKept : Naming bs → bs.any (·.selector.isProperty) = false →
    ∀ items slot? failure failure', Keeper.keepItems items slot? failure (keepers mark bs) =
      Keeper.keepItems items slot? failure' (keepers mark bs)

theorem exists_name {s : Selector} (hproperty : s.isProperty = true)
    (hplain : s.isWildcard = false) : ∃ name, s = .property (some name) := by
  rcases s with (_ | name) | _
  · cases hplain
  · exact ⟨name, rfl⟩
  · cases hproperty

theorem exists_index {s : Selector} (hitem : s.isProperty = false)
    (hplain : s.isWildcard = false) : ∃ index, s = .item (some index) := by
  rcases s with _ | _ | index
  · cases hitem
  · cases hplain
  · exact ⟨index, rfl⟩

theorem Orderly.definite (hbs : Orderly allowed bs) (mark : String) : Definite mark bs := by
  have hfields (hnaming : Naming bs) (hall : bs.all (·.selector.isProperty) = true) (b : Branch)
      (hb : b ∈ bs) : ∃ name, b.selector = .property (some name) :=
    exists_name (List.all_eq_true.mp hall b hb) (hbs.isWildcard_of_naming hnaming hb)
  have hitems (hnaming : Naming bs) (hnone : bs.any (·.selector.isProperty) = false) (b : Branch)
      (hb : b ∈ bs) : ∃ index, b.selector = .item (some index) :=
    exists_index (Bool.eq_false_iff.mpr (List.any_eq_false.mp hnone b hb))
      (hbs.isWildcard_of_naming hnaming hb)
  refine ⟨hbs.oneFamily, fun b => hbs.eq_singleton, fun b hb hwildcard => ?_, hfields, hitems,
    ?_, ?_⟩
  · rw [hbs.eq_singleton hb hwildcard, onlyWildcard?, if_pos hwildcard]
  · intro hnaming hall
    refine Keeper.keepFields_failure ?_
    rw [keepers_eq_map, List.forall_mem_map]
    simpa only [keeper_selector] using hfields hnaming hall
  · intro hnaming hnone
    refine Keeper.keepItems_failure ?_
    rw [keepers_eq_map, List.forall_mem_map]
    simpa only [keeper_selector] using hitems hnaming hnone

end Branch

namespace PathTree

/-- The branches below a node of a tree, with the selector of the node. -/
inductive Below (t : PathTree) : Option Selector → List Branch → Prop
  | root : Below t none t.branches
  | branch {node : Option Selector} {bs : List Branch} {b : Branch} (hbs : Below t node bs)
      (hb : b ∈ bs) : Below t (some b.selector) b.children

variable {allowed : Selector → Prop} {t : PathTree} {node : Option Selector} {bs : List Branch}

theorem Below.orderly (hbelow : t.Below node bs) (ht : Branch.Orderly allowed t.branches) :
    Branch.Orderly allowed bs := by
  induction hbelow with
  | root => exact ht
  | branch _ hb ih => exact ih.children hb

/-- Below every node of a built tree there is what pruning relies on. -/
theorem definite_of_below {paths : List Path} (ht : ofPaths paths = .ok t)
    (hbelow : t.Below node bs) (mark : String) : Branch.Definite mark bs := by
  have horderly : Branch.Orderly (fun _ => True) t.branches :=
    orderly_of_ofPaths (fun _ _ _ _ => trivial) ht
  exact (hbelow.orderly horderly).definite mark

end PathTree

end DocQuery
