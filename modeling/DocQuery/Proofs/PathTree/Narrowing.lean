import DocQuery.Proofs.Path.Addressable
import DocQuery.Proofs.PathTree.Kept
import DocQuery.Proofs.PathTree.Orderly

/-!
# Pruning again

A tree is narrower than another one if it is that tree with some branches left out. What is left
of a document by pruning it with a tree is as good as the document itself for every narrower
tree: pruning gives the same value or fails in the same way. In particular a second pruning with
the same tree changes nothing.

Main names:

* `Branch.narrower`, `PathTree.narrower` — when a tree is narrower than another one;
* `Keeper.Refines` — a branch that keeps the same of what another one has kept;
* `Keeper.keepNamed_refines`, `Keeper.keepAll_refines` — one node, given its children;
* `Branch.keeper_refines` — all nodes, by recursion on the narrower tree;
* `PathTree.prune_prune_of_narrower` — the result.
-/

namespace DocQuery

/-! ## Narrower trees -/

mutual

/-- Whether a branch is narrower than another one: both have the same selector, both are leaves
or neither is, and every child is narrower than the child of the other one with its selector. -/
def Branch.narrower : Branch → Branch → Bool
  | .mk s _ children, .mk s' _ children' =>
    s == s' && children.isEmpty == children'.isEmpty && allNarrower children children'

/-- Whether each of these branches is narrower than the one of its selector among the others. -/
def allNarrower : List Branch → List Branch → Bool
  | [], _ => true
  | b :: rest, others =>
    (match others.find? (·.selector == b.selector) with
    | some other => b.narrower other
    | none => false) && allNarrower rest others

end

/-- Whether a tree is narrower than another one. -/
def PathTree.narrower (t t' : PathTree) : Bool :=
  t.branches.isEmpty == t'.branches.isEmpty && allNarrower t.branches t'.branches

theorem exists_of_allNarrower {bs bs' : List Branch} (hbs : allNarrower bs bs' = true) :
    ∀ b ∈ bs, ∃ b' ∈ bs', b'.selector = b.selector ∧ b.narrower b' = true := by
  induction bs with
  | nil =>
      intro b hb
      cases hb
  | cons first rest ih =>
      rw [allNarrower, Bool.and_eq_true] at hbs
      intro b hb
      rcases List.mem_cons.mp hb with rfl | hb
      · cases hfind : bs'.find? (·.selector == b.selector) with
        | none =>
            rw [hfind] at hbs
            cases hbs.1
        | some b' =>
            rw [hfind] at hbs
            have hselector := List.find?_some hfind
            exact ⟨b', List.mem_of_find?_eq_some hfind, eq_of_beq hselector, hbs.1⟩
      · exact ih hbs.2 b hb

theorem allNarrower_of_subset {bs bs' : List Branch} (hnodup : (bs'.map Branch.selector).Nodup)
    (hsubset : ∀ b ∈ bs, b ∈ bs') (hbs : ∀ b ∈ bs, b.narrower b = true) :
    allNarrower bs bs' = true := by
  induction bs with
  | nil => rfl
  | cons b rest ih =>
      have hfind : bs'.find? (·.selector == b.selector) = some b := by
        obtain ⟨before, after, rfl⟩ := List.append_of_mem (hsubset b (List.mem_cons_self ..))
        rw [List.map_append, List.map_cons, List.nodup_append] at hnodup
        rw [List.find?_append, List.find?_eq_none.mpr]
        · simp
        · intro b' hb' hselector
          exact hnodup.2.2 b'.selector (List.mem_map_of_mem hb') b.selector
            (List.mem_cons_self ..) (eq_of_beq hselector)
      rw [allNarrower, hfind, Bool.and_eq_true]
      exact ⟨hbs b (List.mem_cons_self ..), ih (fun b' hb' => hsubset b' (List.mem_cons_of_mem _ hb'))
        fun b' hb' => hbs b' (List.mem_cons_of_mem _ hb')⟩

/-! ## One node -/

namespace Keeper

/-- A branch that keeps the same of what another one has kept as of the whole. -/
structure Refines (k k' : Keeper) : Prop where
  selector : k.selector = k'.selector
  keep : ∀ v kept, k'.keep v = .ok kept → k.keep kept = k.keep v

theorem refines_mapM {α β : Type} {f : α → Except PruneError β} {as bs : List α}
    (hsame : List.Forall₂ (fun a b => f b = f a) as bs) :
    bs.mapM f = as.mapM f ∧ bs.isEmpty = as.isEmpty := by
  induction hsame with
  | nil => exact ⟨rfl, rfl⟩
  | cons hfirst _ ih =>
      refine ⟨?_, rfl⟩
      rw [List.mapM_cons, List.mapM_cons, hfirst, ih.1]

/-- A node with a wildcard keeps the same of what a node with the same wildcard has kept. -/
theorem keepAll_refines {node : Option Selector} {k k' : Keeper} (hk : k.Refines k')
    {v kept : Value} (hkept : keepAll node k' v = .ok kept) :
    keepAll node k kept = keepAll node k v := by
  cases keepAll_eq_ok.mp hkept with
  | struct hproperty _ hparts =>
      -- What is kept of a field has its name.
      obtain ⟨hmapM, hempty⟩ := refines_mapM
        (f := fun field => do return (field.1, ← k.keep field.2))
        (hparts.imp fun field part hpart => by rw [hpart.1, hk.keep _ _ hpart.2])
      unfold keepAll
      simp only [hk.selector, hproperty, hempty, hmapM]
  | sequence hproperty _ hparts =>
      obtain ⟨hmapM, hempty⟩ := refines_mapM (hparts.imp fun item part => hk.keep item part)
      unfold keepAll
      simp only [hk.selector, hproperty, hempty, hmapM]

section Named

variable {mark : String} {node : Option Selector} {keepers keepers' : List Keeper}
  (hrefine : ∀ k ∈ keepers, ∃ k' ∈ keepers', k.Refines k')
  (hnodup : (keepers'.map selector).Nodup)

include hrefine hnodup

/-- Items that were kept are found again, and what is kept of them is the same. -/
theorem keepItems_refines {items : List Value} {slot? : Nat → Option Nat}
    {failure failure' : PruneError} {kept : List (Nat × Value)}
    (hkept : keepItems items slot? failure' keepers' = .ok kept) :
    keepItems ((sortByKey kept).map Prod.snd) (slotIn (sortByKey kept)) failure keepers =
      keepItems items slot? failure keepers := by
  have hshape := keepItems_ok hkept
  have hascending := ascending_sortByKey (hshape.distinct hnodup)
  apply keepItems_congr
  intro k hk index hselector
  obtain ⟨k', hk', hrefines⟩ := hrefine k hk
  rw [hrefines.selector] at hselector
  cases hitem : item? items slot? index with
  | some item =>
      obtain ⟨v, hv, hmem⟩ := hshape.complete k' hk' index item hselector hitem
      rw [item_of_kept hascending.distinct (mem_sortByKey.mpr hmem), Option.map_some,
        Option.map_some, hrefines.keep item v hv]
  | none =>
      rw [item_of_not_kept]
      intro e he heq
      have hfound := hshape.found e (mem_sortByKey.mp he)
      rw [heq, hitem] at hfound
      cases hfound

/-- Fields that were kept are found again, in the same order, and what is kept of them is the
same. -/
theorem keepFields_refines {fields : List (String × Value)} {failure failure' : PruneError}
    {kept : List (Nat × String × Value)}
    (hkept : keepFields fields failure' keepers' = .ok kept) :
    (fun kept => (sortByKey kept).map Prod.snd) <$>
        keepFields ((sortByKey kept).map Prod.snd) failure keepers =
      (fun kept => (sortByKey kept).map Prod.snd) <$> keepFields fields failure keepers := by
  have hshape := keepFields_ok hkept
  have hascending := ascending_sortByKey (hshape.distinct hnodup)
  have hsame : keepFields ((sortByKey kept).map Prod.snd) failure keepers =
      relabel (placeOf (sortByKey kept)) <$> keepFields fields failure keepers := by
    apply keepFields_congr
    intro k hk name hselector
    obtain ⟨k', hk', hrefines⟩ := hrefine k hk
    rw [hrefines.selector] at hselector
    cases hfield : field? fields name with
    | some field =>
        obtain ⟨i, field⟩ := field
        obtain ⟨v, hv, hfield'⟩ := hshape.field_sorted hnodup hk' hselector hfield
        rw [hfield', Option.map_some, Option.map_some, hrefines.keep field v hv]
    | none =>
        rw [hshape.field_sorted_eq_none hfield]
        rfl
  rw [hsame]
  cases hnarrow : keepFields fields failure keepers with
  | error e => rfl
  | ok kept' =>
      have hshape' := keepFields_ok hnarrow
      -- Every position at which the narrower node keeps a field is one of the kept ones.
      have hmem : ∀ e ∈ kept', ∃ v, (e.1, e.2.1, v) ∈ sortByKey kept := by
        intro e he
        have hselector := hshape'.inOrder.subset (List.mem_map_of_mem he)
        rw [List.mem_map] at hselector
        obtain ⟨k, hk, hselector⟩ := hselector
        obtain ⟨k', hk', hrefines⟩ := hrefine k hk
        rw [hrefines.selector] at hselector
        obtain ⟨field, hfield⟩ := field_of_position (hshape'.found e he)
        obtain ⟨v, _, hmem⟩ := hshape.complete k' hk' e.2.1 e.1 field hselector hfield
        exact ⟨v, mem_sortByKey.mpr hmem⟩
      have hsorted : sortByKey (relabel (placeOf (sortByKey kept)) kept') =
          relabel (placeOf (sortByKey kept)) (sortByKey kept') := by
        apply sortByKey_relabel
        intro e he e' he'
        obtain ⟨v, hv⟩ := hmem e he
        obtain ⟨v', hv'⟩ := hmem e' he'
        have horder := placeOf_lt_iff hascending hv hv'
        exact horder
      show Except.ok ((sortByKey (relabel _ kept')).map Prod.snd) =
        Except.ok ((sortByKey kept').map Prod.snd)
      rw [hsorted, relabel_snd]

/-- A node that names children keeps the same of what a node with these children has kept. -/
theorem keepNamed_refines (haddressable : ∀ k ∈ keepers', k.selector.Addressable)
    {v kept : Value} (hkept : keepNamed mark node keepers' v = .ok kept) :
    keepNamed mark node keepers kept = keepNamed mark node keepers v := by
  have hselectors : ∀ k ∈ keepers, ∃ k' ∈ keepers', k.selector = k'.selector := by
    intro k hk
    obtain ⟨k', hk', hrefines⟩ := hrefine k hk
    exact ⟨k', hk', hrefines.selector⟩
  cases keepNamed_eq_ok.mp hkept with
  | missing => rfl
  | struct hall' hfields =>
      have hall := all_isProperty_of_selectors hselectors hall'
      rw [keepNamed_struct hall, keepNamed_struct hall]
      congr 1
      exact keepFields_refines hrefine hnodup hfields
  | @sequence names form items _ entries hnone' hitems =>
      have hnone := anyProperty_of_selectors hselectors hnone'
      -- The record that was just made is the one that is read, and it fits.
      have hslot : slotOf mark (Provenance.record mark ((sortByKey entries).map Prod.fst) names)
          ((sortByKey entries).map Prod.snd).length = slotIn (sortByKey entries) := by
        unfold slotOf
        rw [Provenance.recorded_record]
        · simp only [List.length_map, if_true]
          rfl
        · intro index hindex
          rw [List.mem_map] at hindex
          obtain ⟨e, he, rfl⟩ := hindex
          have hselector := (keepItems_ok hitems).inOrder.subset
            (List.mem_map_of_mem (mem_sortByKey.mp he))
          rw [List.mem_map] at hselector
          obtain ⟨k', hk', hselector⟩ := hselector
          have hfits := haddressable k' hk'
          rw [hselector] at hfits
          exact hfits
      rw [keepNamed_sequence hnone, keepNamed_sequence hnone, hslot,
        keepItems_refines hrefine hnodup hitems]
      simp only [Provenance.record_record]
      rfl

end Named

theorem keepBelow_eq_keepNamed {mark : String} {node : Option Selector} {keepers : List Keeper}
    (hsome : keepers ≠ []) (hplain : ∀ k ∈ keepers, k.selector.isWildcard = false) (v : Value) :
    keepBelow mark node keepers v = keepNamed mark node keepers v := by
  unfold keepBelow
  split
  · exact absurd rfl hsome
  · rename_i only
    have honly := hplain only (List.mem_cons_self ..)
    rw [honly]
    rfl
  · rfl

/-- A node keeps the same of what a node has kept whose children it has in part. -/
theorem keepBelow_refines {mark : String} {node : Option Selector} {keepers keepers' : List Keeper}
    (hrefine : ∀ k ∈ keepers, ∃ k' ∈ keepers', k.Refines k')
    (hempty : keepers = [] ↔ keepers' = [])
    (hnodup : (keepers.map selector).Nodup) (hnodup' : (keepers'.map selector).Nodup)
    (halone : ∀ k ∈ keepers', k.selector.isWildcard = true → keepers' = [k])
    (haddressable : ∀ k ∈ keepers', k.selector.Addressable) {v kept : Value}
    (hkept : keepBelow mark node keepers' v = .ok kept) :
    keepBelow mark node keepers kept = keepBelow mark node keepers v := by
  by_cases hnone : keepers' = []
  · have hnone' := hempty.mpr hnone
    subst hnone hnone'
    cases hkept
    rfl
  · have hsome : keepers ≠ [] := fun h => hnone (hempty.mp h)
    by_cases hwildcard : ∃ k' ∈ keepers', k'.selector.isWildcard = true
    · obtain ⟨k', hk', hwildcard⟩ := hwildcard
      have honly' := halone k' hk' hwildcard
      subst honly'
      -- All children of the narrower node have the selector of the wildcard.
      have hselector : ∀ k ∈ keepers, k.Refines k' := by
        intro k hk
        obtain ⟨k'', hk'', hrefines⟩ := hrefine k hk
        rw [List.mem_singleton] at hk''
        rw [hk''] at hrefines
        exact hrefines
      cases keepers with
      | nil => exact absurd rfl hsome
      | cons k rest =>
          have hk := hselector k (List.mem_cons_self ..)
          cases rest with
          | cons other rest =>
              have hother := hselector other (List.mem_cons_of_mem _ (List.mem_cons_self ..))
              rw [List.map_cons, List.map_cons, hk.selector, hother.selector] at hnodup
              simp at hnodup
          | nil =>
              unfold keepBelow at hkept ⊢
              simp only [hk.selector, hwildcard, if_true] at hkept ⊢
              exact keepAll_refines hk hkept
    · have hplain' : ∀ k ∈ keepers', k.selector.isWildcard = false := by
        intro k hk
        rw [← Bool.not_eq_true]
        exact fun h => hwildcard ⟨k, hk, h⟩
      have hplain : ∀ k ∈ keepers, k.selector.isWildcard = false := by
        intro k hk
        obtain ⟨k', hk', hrefines⟩ := hrefine k hk
        rw [hrefines.selector]
        exact hplain' k' hk'
      rw [keepBelow_eq_keepNamed hnone hplain'] at hkept
      rw [keepBelow_eq_keepNamed hsome hplain, keepBelow_eq_keepNamed hsome hplain]
      exact keepNamed_refines hrefine hnodup' haddressable hkept

end Keeper

/-! ## All nodes -/

namespace Branch

@[simp] theorem keeper_selector (mark : String) (b : Branch) :
    (b.keeper mark).selector = b.selector := by
  cases b
  rfl

theorem keepers_eq_map (mark : String) (bs : List Branch) :
    keepers mark bs = bs.map (keeper mark) := by
  induction bs with
  | nil => rfl
  | cons b rest ih => rw [keepers, ih, List.map_cons]

theorem mem_keepers {mark : String} {bs : List Branch} {k : Keeper} :
    k ∈ keepers mark bs ↔ ∃ b ∈ bs, b.keeper mark = k := by
  rw [keepers_eq_map, List.mem_map]

theorem map_selector_keepers (mark : String) (bs : List Branch) :
    (keepers mark bs).map Keeper.selector = bs.map selector := by
  rw [keepers_eq_map, List.map_map]
  exact List.map_congr_left fun b _ => keeper_selector mark b

theorem Orderly.keepers_alone {siblings : List Branch} {allowed : Selector → Prop}
    (hsiblings : Orderly allowed siblings) (mark : String) :
    ∀ k ∈ keepers mark siblings, k.selector.isWildcard = true → keepers mark siblings = [k] := by
  intro k hk hwildcard
  obtain ⟨b, hb, rfl⟩ := mem_keepers.mp hk
  rw [keeper_selector] at hwildcard
  rw [hsiblings.eq_singleton hb hwildcard]
  rfl

theorem Orderly.keepers_allowed {siblings : List Branch} {allowed : Selector → Prop}
    (hsiblings : Orderly allowed siblings) (mark : String) :
    ∀ k ∈ keepers mark siblings, allowed k.selector := by
  intro k hk
  obtain ⟨b, hb, rfl⟩ := mem_keepers.mp hk
  rw [keeper_selector]
  exact hsiblings.allowed_selector hb

/-- Siblings of a built tree that are narrower, with what is known of each of them, make a
narrower node. -/
theorem keepBelow_keepers_refines {mark : String} {node : Option Selector}
    {allowed : Selector → Prop} {bs bs' : List Branch} (hbs : Orderly allowed bs)
    (hbs' : Orderly Selector.Addressable bs') (hempty : bs.isEmpty = bs'.isEmpty)
    (hrefine : ∀ k ∈ keepers mark bs, ∃ k' ∈ keepers mark bs', k.Refines k')
    {v kept : Value} (hkept : Keeper.keepBelow mark node (keepers mark bs') v = .ok kept) :
    Keeper.keepBelow mark node (keepers mark bs) kept =
      Keeper.keepBelow mark node (keepers mark bs) v := by
  refine Keeper.keepBelow_refines hrefine ?_ ?_ ?_ (hbs'.keepers_alone mark)
    (hbs'.keepers_allowed mark) hkept
  · rw [keepers_eq_map, keepers_eq_map, List.map_eq_nil_iff, List.map_eq_nil_iff,
      ← List.isEmpty_iff, ← List.isEmpty_iff, hempty]
  · rw [map_selector_keepers]
    exact hbs.nodup
  · rw [map_selector_keepers]
    exact hbs'.nodup

variable {mark : String} {allowed : Selector → Prop}

mutual

/-- A narrower branch refines the other one. -/
theorem keeper_refines : ∀ b b' : Branch, b.narrower b' = true → Orderly allowed b.children →
    Orderly Selector.Addressable b'.children → (b.keeper mark).Refines (b'.keeper mark)
  | .mk s r children, .mk s' r' children', hnarrower, hb, hb' => by
      rw [narrower, Bool.and_eq_true, Bool.and_eq_true] at hnarrower
      obtain ⟨⟨hselector, hempty⟩, hchildren⟩ := hnarrower
      have hrefine := keepers_refine children children' hchildren
        (fun c hc => hb.children hc) fun c hc => hb'.children hc
      refine ⟨eq_of_beq hselector, ?_⟩
      intro v kept hkept
      rw [← eq_of_beq hselector] at hkept
      exact keepBelow_keepers_refines hb hb' (eq_of_beq hempty) hrefine hkept

/-- Each of the narrower branches refines one of the others. -/
theorem keepers_refine : ∀ bs bs' : List Branch, allNarrower bs bs' = true →
    (∀ b ∈ bs, Orderly allowed b.children) →
    (∀ b ∈ bs', Orderly Selector.Addressable b.children) →
    ∀ k ∈ keepers mark bs, ∃ k' ∈ keepers mark bs', k.Refines k'
  | [], _, _, _, _ => by
      intro k hk
      cases hk
  | b :: rest, bs', hnarrower, hbs, hbs' => by
      obtain ⟨b', hb', _, hb⟩ := exists_of_allNarrower hnarrower b (List.mem_cons_self ..)
      rw [allNarrower, Bool.and_eq_true] at hnarrower
      intro k hk
      rcases List.mem_cons.mp hk with rfl | hk
      · exact ⟨b'.keeper mark, mem_keepers.mpr ⟨b', hb', rfl⟩,
          keeper_refines b b' hb (hbs b (List.mem_cons_self ..)) (hbs' b' hb')⟩
      · exact keepers_refine rest bs' hnarrower.2 (fun c hc => hbs c (List.mem_cons_of_mem _ hc))
          hbs' k hk

end

/-- A branch of a built tree is narrower than itself. -/
theorem narrower_self : ∀ b : Branch, Orderly allowed b.children → b.narrower b = true
  | .mk s r children, hb => by
      rw [narrower, Bool.and_eq_true, Bool.and_eq_true]
      refine ⟨⟨beq_self_eq_true s, beq_self_eq_true _⟩, ?_⟩
      refine allNarrower_of_subset hb.nodup (fun b hb => hb) ?_
      intro c hc
      exact narrower_self c (hb.children hc)

end Branch

namespace PathTree

/-- A built tree is narrower than itself. -/
theorem narrower_self {t : PathTree} {allowed : Selector → Prop}
    (ht : Branch.Orderly allowed t.branches) : t.narrower t = true := by
  unfold narrower
  rw [Bool.and_eq_true]
  refine ⟨beq_self_eq_true _, ?_⟩
  exact allNarrower_of_subset ht.nodup (fun b hb => hb) fun b hb =>
    Branch.narrower_self b (ht.children hb)

/-- Pruning with a tree and then with a narrower one is pruning with the narrower one. -/
theorem prune_prune {t t' : PathTree} {mark : String} {allowed : Selector → Prop}
    {document kept : Value} (ht : Branch.Orderly allowed t.branches)
    (ht' : Branch.Orderly Selector.Addressable t'.branches) (hnarrower : t.narrower t' = true)
    (hkept : t'.prune mark document = .ok kept) : t.prune mark kept = t.prune mark document := by
  unfold narrower at hnarrower
  rw [Bool.and_eq_true] at hnarrower
  have hrefine : ∀ k ∈ Branch.keepers mark t.branches,
      ∃ k' ∈ Branch.keepers mark t'.branches, k.Refines k' :=
    Branch.keepers_refine t.branches t'.branches hnarrower.2 (fun b hb => ht.children hb)
      fun b hb => ht'.children hb
  exact Branch.keepBelow_keepers_refines ht ht' (eq_of_beq hnarrower.1) hrefine hkept

/-- **Pruning again.** Let a tree be built from paths, and let a document be pruned with it. For
every narrower tree that is built from paths, what was kept is as good as the document: pruning
gives the same value or fails in the same way. A second pruning with the tree itself changes
nothing. The document may carry any annotations, and the mark may be any text. -/
theorem prune_prune_of_narrower {paths' : List Path} {t' : PathTree} {mark : String}
    {document kept : Value} (haddressable : ∀ p ∈ paths', p.Addressable)
    (ht' : ofPaths paths' = .ok t') (hkept : t'.prune mark document = .ok kept) :
    (∀ (paths : List Path) (t : PathTree), ofPaths paths = .ok t → t.narrower t' = true →
      t.prune mark kept = t.prune mark document) ∧
      t'.prune mark kept = .ok kept := by
  have horderly' := orderly_of_ofPaths haddressable ht'
  refine ⟨?_, ?_⟩
  · intro paths t ht hnarrower
    have horderly : Branch.Orderly (fun _ => True) t.branches :=
      orderly_of_ofPaths (fun _ _ _ _ => trivial) ht
    exact prune_prune horderly horderly' hnarrower hkept
  · rw [prune_prune horderly' horderly' (narrower_self horderly') hkept]
    exact hkept

/-- A list loses its second item, and then its first one; the third item is still found at its
index in the document. -/
theorem prune_prune_of_narrower_compacted :
    let toItem (i : Nat) : Path := ⟨⟨.property (some "a"), true⟩, [⟨.item (some i), true⟩]⟩
    let both : PathTree := ⟨[.mk (.property (some "a")) true
      [.mk (.item (some 0)) true [], .mk (.item (some 2)) true []]]⟩
    let last : PathTree := ⟨[.mk (.property (some "a")) true [.mk (.item (some 2)) true []]]⟩
    let document := Value.ofFields [("a", .list [.int 10, .int 20, .int 30])]
    let kept := Value.ofFields [("a", .sequence ["#0,2"] .list [.int 10, .int 30])]
    ofPaths [toItem 0, toItem 2] = .ok both ∧ both.prune "#" document = .ok kept ∧
      ofPaths [toItem 2] = .ok last ∧ last.narrower both = true ∧
      last.prune "#" kept = last.prune "#" document ∧ both.prune "#" kept = .ok kept := by
  intro toItem both last document kept
  have hboth : ofPaths [toItem 0, toItem 2] = .ok both := by
    rfl
  have hkept : both.prune "#" document = .ok kept := by
    rfl
  have hlast : ofPaths [toItem 2] = .ok last := by
    rfl
  have hnarrower : last.narrower both = true := by
    decide
  have haddressable : ∀ p ∈ [toItem 0, toItem 2], p.Addressable := by
    simp [toItem, Path.Addressable, Path.steps, Selector.Addressable]
  obtain ⟨hnarrow, hsame⟩ := prune_prune_of_narrower haddressable hboth hkept
  exact ⟨hboth, hkept, hlast, hnarrower, hnarrow [toItem 2] last hlast hnarrower, hsame⟩

end PathTree

end DocQuery
