import DocQuery.Proofs.PathTree.Narrowing
import DocQuery.Proofs.PathTree.Spans
import Mathlib.Data.List.Forall2
import Mathlib.Data.List.Nodup
import Mathlib.Data.List.Pairwise
import Mathlib.Data.List.Perm.Basic

/-!
# The order of paths

Paths may be merged in any order, and any number of times each: the trees that come out are equal up
to the order of siblings, and keep the same of every document. Only what is wrong with a document
that cannot be pruned may be found in another order.

Main names:

* `Branch.Alike`, `Branch.AlikeAll` — branches that are equal up to the order of siblings;
* `Branch.alikeAll_of_spans` — a set of ways has one tree, up to the order of siblings;
* `Keeper.Follows`, `Keeper.keepNamed_follows` — a branch that keeps all that another one keeps;
* `Branch.keeper_follows` — branches that are alike, by recursion on the branch;
* `PathTree.ofPaths_order_irrelevant` — the result.
-/

namespace DocQuery

/-! ## Equal up to the order of siblings -/

/-- Branches that are equal up to the order of the branches below them. -/
inductive Branch.Alike : Branch → Branch → Prop
  | mk {s : Selector} {r : Bool} {children arranged children' : List Branch}
      (hchildren : List.Forall₂ Branch.Alike children arranged)
      (harranged : arranged.Perm children') :
      Branch.Alike (.mk s r children) (.mk s r children')

/-- Siblings that are equal up to order, at every depth. -/
def Branch.AlikeAll (bs bs' : List Branch) : Prop :=
  ∃ arranged, List.Forall₂ Branch.Alike bs arranged ∧ arranged.Perm bs'

theorem exists_forall₂ {α β : Type} {R : α → β → Prop} {as : List α} {bs : List β}
    (hall : ∀ a ∈ as, ∃ b ∈ bs, R a b) :
    ∃ arranged, List.Forall₂ R as arranged ∧ ∀ b ∈ arranged, b ∈ bs := by
  induction as with
  | nil => exact ⟨[], .nil, by simp⟩
  | cons a as ih =>
      obtain ⟨b, hb, hR⟩ := hall a (List.mem_cons_self ..)
      obtain ⟨arranged, harranged, hmem⟩ := ih fun a' ha' => hall a' (List.mem_cons_of_mem _ ha')
      exact ⟨b :: arranged, .cons hR harranged, List.forall_mem_cons.mpr ⟨hb, hmem⟩⟩

namespace Branch

theorem Alike.selector {b b' : Branch} (halike : Alike b b') : b.selector = b'.selector := by
  cases halike
  rfl

theorem Alike.required {b b' : Branch} (halike : Alike b b') : b.required = b'.required := by
  cases halike
  rfl

theorem Alike.children {b b' : Branch} (halike : Alike b b') :
    AlikeAll b.children b'.children := by
  cases halike with
  | mk hchildren harranged => exact ⟨_, hchildren, harranged⟩

namespace AlikeAll

variable {bs bs' : List Branch}

theorem exists_right (halike : AlikeAll bs bs') {b : Branch} (hb : b ∈ bs) :
    ∃ b' ∈ bs', Alike b b' := by
  obtain ⟨arranged, hall, hperm⟩ := halike
  obtain ⟨b', hb', hR⟩ := exists_of_forall₂ hall hb
  exact ⟨b', hperm.mem_iff.mp hb', hR⟩

/-- Siblings with different selectors are alike if each of them has its like among the others. -/
theorem of_mem (hnodup : (bs.map Branch.selector).Nodup) (hnodup' : (bs'.map Branch.selector).Nodup)
    (hright : ∀ b ∈ bs, ∃ b' ∈ bs', Alike b b')
    (hleft : ∀ b' ∈ bs', b'.selector ∈ bs.map Branch.selector) : AlikeAll bs bs' := by
  obtain ⟨arranged, hall, hmem⟩ := exists_forall₂ hright
  refine ⟨arranged, hall, ?_⟩
  have hselectors : bs.map Branch.selector = arranged.map Branch.selector := by
    rw [← List.forall₂_eq_eq_eq, List.forall₂_map_left_iff, List.forall₂_map_right_iff]
    exact hall.imp fun _ _ halike => halike.selector
  rw [hselectors] at hnodup
  rw [List.perm_ext_iff_of_nodup hnodup.of_map hnodup'.of_map]
  refine fun b => ⟨hmem b, fun hb => ?_⟩
  have hselector := hleft b hb
  rw [hselectors] at hselector
  obtain ⟨b', hb', heq⟩ := List.mem_map.mp hselector
  rw [← List.inj_on_of_nodup_map hnodup' (hmem b' hb') hb heq]
  exact hb'

end AlikeAll

/-! ## One tree for a set of ways -/

/-- Of siblings that are apart, one that stands for another one is that one. -/
theorem Apart.selector_eq {siblings : List Branch} (hapart : Apart siblings) {b b' : Branch}
    (hb : b ∈ siblings) (hb' : b' ∈ siblings)
    (hcovers : covers b.selector b'.selector = true) : b.selector = b'.selector := by
  by_contra hne
  have hsymm : Std.Symm fun s t : Selector => covers s t = false ∧ covers t s = false :=
    ⟨fun _ _ hst => hst.symm⟩
  have hapart := List.Pairwise.forall hapart (List.mem_map_of_mem hb) (List.mem_map_of_mem hb') hne
  rw [hcovers] at hapart
  cases hapart.1

theorem Alike.of_parts {b b' : Branch} (hselector : b.selector = b'.selector)
    (hrequired : b.required = b'.required) (hchildren : AlikeAll b.children b'.children) :
    Alike b b' := by
  obtain ⟨arranged, hall, hperm⟩ := hchildren
  cases b
  cases b'
  cases hselector
  cases hrequired
  exact .mk hall hperm

/-- Trees for the same ways have branches for the same selectors. -/
theorem Spans.exists_selector {bs bs' : List Branch} {ways : Ways} (hspans : Spans bs ways)
    (hspans' : Spans bs' ways) {b : Branch} (hb : b ∈ bs) :
    ∃ b' ∈ bs', b.selector = b'.selector := by
  obtain ⟨⟨first, rest, hway, hfirst⟩, _, _⟩ := hspans.stands hb
  obtain ⟨b', hb', hcovers⟩ := hspans'.covered hway
  obtain ⟨⟨first', rest', hway', hfirst'⟩, _, _⟩ := hspans'.stands hb'
  obtain ⟨b'', hb'', hcovers'⟩ := hspans.covered hway'
  rw [hfirst] at hcovers
  rw [hfirst'] at hcovers'
  -- What stands for the branch of the other tree stands for the first branch, so it is that one.
  rw [hspans.apart.selector_eq hb'' hb (covers_trans hcovers' hcovers)] at hcovers'
  exact ⟨b', hb', eq_of_covers_covers hcovers' hcovers⟩

/-- A set of ways has one tree, up to the order of siblings. -/
theorem alikeAll_of_spans {bs bs' : List Branch} {ways : Ways} (hspans : Spans bs ways)
    (hspans' : Spans bs' ways) : AlikeAll bs bs' := by
  induction hspans generalizing bs' with
  | @mk bs ways hapart hcovered hgrown hrequired hbelow ih =>
      have hspans : Spans bs ways := .mk hapart hcovered hgrown hrequired hbelow
      refine AlikeAll.of_mem hapart.nodup hspans'.apart.nodup ?_ ?_
      · intro b hb
        obtain ⟨b', hb', hselector⟩ := hspans.exists_selector hspans' hb
        obtain ⟨_, hrequired', hbelow'⟩ := hspans'.stands hb'
        rw [← hselector] at hrequired' hbelow'
        refine ⟨b', hb', .of_parts hselector ?_ (ih b hb hbelow')⟩
        rw [Bool.eq_iff_iff, hrequired b hb, hrequired']
      · intro b' hb'
        obtain ⟨b, hb, hselector⟩ := hspans'.exists_selector hspans hb'
        rw [hselector]
        exact List.mem_map_of_mem hb

/-! ## Checks -/

theorem homogeneous_of_alikeAll {bs bs' : List Branch} (halike : AlikeAll bs bs')
    (hfamily : homogeneous bs' = true) : homogeneous bs = true := by
  unfold homogeneous at hfamily ⊢
  rw [Bool.or_eq_true, List.all_eq_true, List.all_eq_true] at hfamily ⊢
  refine hfamily.imp (fun hall b hb => ?_) fun hall b hb => ?_
  all_goals
    obtain ⟨b', hb', hbb'⟩ := halike.exists_right hb
    rw [hbb'.selector]
    exact hall b' hb'

theorem checkAll_of_forall {bs : List Branch} (hchecks : ∀ b ∈ bs, b.check = .ok ()) :
    checkAll bs = .ok () := by
  induction bs with
  | nil => rfl
  | cons b bs ih =>
      rw [checkAll, hchecks b (List.mem_cons_self ..)]
      exact ih fun b' hb' => hchecks b' (List.mem_cons_of_mem _ hb')

theorem check_of_children {s : Selector} {r : Bool} {children : List Branch}
    (hchecked : checkAll children = .ok ()) (hfamily : homogeneous children = true) :
    (mk s r children).check = .ok () := by
  rw [check, hchecked]
  simp only [hfamily, if_true]
  rfl

/-- Branches that are alike pass the check together. -/
theorem check_of_alike : ∀ b b' : Branch, Alike b b' → b'.check = .ok () → b.check = .ok ()
  | .mk s r children, .mk s' r' children', halike, hcheck => by
      obtain ⟨hchecked, hfamily⟩ := check_eq_ok hcheck
      have hchildren : AlikeAll children children' := halike.children
      refine check_of_children (checkAll_of_forall fun c hc => ?_)
        (homogeneous_of_alikeAll hchildren hfamily)
      obtain ⟨c', hc', hcc'⟩ := hchildren.exists_right hc
      exact check_of_alike c c' hcc' (check_of_checkAll hchecked c' hc')

end Branch

/-! ## One node -/

namespace Keeper

/-- A branch that keeps all that another one keeps. -/
structure Follows (k k' : Keeper) : Prop where
  selector : k.selector = k'.selector
  required : k.required = k'.required
  keep : ∀ {v kept : Value}, k'.keep v = .ok kept → k.keep v = .ok kept

/-- Branches that follow others, up to order. -/
def FollowAll (keepers keepers' : List Keeper) : Prop :=
  ∃ arranged, List.Forall₂ Follows keepers arranged ∧ arranged.Perm keepers'

/-- What is done with a branch can be done with the one that follows it, so that it is done with
all of them; what comes of it may be in another order. -/
theorem FollowAll.forall₂ {β : Type} {R : Keeper → β → Prop} {keepers keepers' : List Keeper}
    (hfollow : FollowAll keepers keepers') (hR : ∀ k k' b, Follows k k' → R k' b → R k b)
    {parts : List β} (hparts : List.Forall₂ R keepers' parts) :
    ∃ arranged, List.Forall₂ R keepers arranged ∧ arranged.Perm parts := by
  obtain ⟨between, hbetween, hperm⟩ := hfollow
  obtain ⟨arranged, harranged, hperm'⟩ := List.perm_comp_forall₂ hperm hparts
  refine ⟨arranged, ?_, hperm'⟩
  clear hperm hperm'
  induction hbetween generalizing arranged with
  | nil =>
      cases harranged
      exact .nil
  | cons hfirst _ ih =>
      cases harranged with
      | cons hpart hrest => exact .cons (hR _ _ _ hfirst hpart) (ih _ hrest)

namespace FollowAll

variable {keepers keepers' : List Keeper} (hfollow : FollowAll keepers keepers')

include hfollow

theorem exists_right {k : Keeper} (hk : k ∈ keepers) : ∃ k' ∈ keepers', Follows k k' := by
  obtain ⟨arranged, hall, hperm⟩ := hfollow
  obtain ⟨k', hk', hkk'⟩ := exists_of_forall₂ hall hk
  exact ⟨k', hperm.mem_iff.mp hk', hkk'⟩

theorem length_eq : keepers.length = keepers'.length := by
  obtain ⟨arranged, hall, hperm⟩ := hfollow
  rw [hall.length_eq, hperm.length_eq]

theorem selectors : ∀ k ∈ keepers, ∃ k' ∈ keepers', k.selector = k'.selector := by
  intro k hk
  obtain ⟨k', hk', hkk'⟩ := hfollow.exists_right hk
  exact ⟨k', hk', hkk'.selector⟩

theorem any_required_eq_false (hnone : keepers'.any (·.required) = false) :
    keepers.any (·.required) = false := by
  rw [List.any_eq_false] at hnone ⊢
  intro k hk
  obtain ⟨k', hk', hkk'⟩ := hfollow.exists_right hk
  rw [hkk'.required]
  exact hnone k' hk'

end FollowAll

theorem KeepsItem.follows {items : List Value} {slot? : Nat → Option Nat} (k k' : Keeper)
    (part : Option (Nat × Value)) (hkk' : Follows k k') (hpart : KeepsItem items slot? k' part) :
    KeepsItem items slot? k part := by
  cases hpart with
  | found hselector hitem hkept =>
      exact .found (hkk'.selector.trans hselector) hitem (hkk'.keep hkept)
  | absent hselector hitem hoptional =>
      exact .absent (hkk'.selector.trans hselector) hitem (hkk'.required.trans hoptional)

theorem KeepsField.follows {fields : List (String × Value)} (k k' : Keeper)
    (part : Option (Nat × String × Value)) (hkk' : Follows k k')
    (hpart : KeepsField fields k' part) : KeepsField fields k part := by
  cases hpart with
  | found hselector hfield hkept =>
      exact .found (hkk'.selector.trans hselector) hfield (hkk'.keep hkept)
  | absent hselector hfield hoptional =>
      exact .absent (hkk'.selector.trans hselector) hfield (hkk'.required.trans hoptional)

section Follow

variable {mark : String} {node : Option Selector} {keepers keepers' : List Keeper}
  (hfollow : FollowAll keepers keepers') (hnodup : (keepers'.map selector).Nodup)

include hfollow hnodup

/-- Items that are kept in another order are put into the same order. -/
theorem keepItems_follows {items : List Value} {slot? : Nat → Option Nat}
    (failure : PruneError) {failure' : PruneError} {kept' : List (Nat × Value)}
    (hkept' : keepItems items slot? failure' keepers' = .ok kept') :
    ∃ kept, keepItems items slot? failure keepers = .ok kept ∧ sortByKey kept = sortByKey kept' := by
  have hdistinct := (keepItems_ok hkept').distinct hnodup
  obtain ⟨parts', hparts', rfl⟩ := keepItems_eq_ok.mp hkept'
  obtain ⟨parts, hparts, hperm⟩ := hfollow.forall₂ KeepsItem.follows hparts'
  refine ⟨parts.reduceOption, keepItems_eq_ok.mpr ⟨parts, hparts, rfl⟩, ?_⟩
  exact sortByKey_eq_of_perm (hperm.filterMap id) hdistinct

/-- Fields that are kept in another order are put into the same order. -/
theorem keepFields_follows {fields : List (String × Value)} (failure : PruneError)
    {failure' : PruneError} {kept' : List (Nat × String × Value)}
    (hkept' : keepFields fields failure' keepers' = .ok kept') :
    ∃ kept, keepFields fields failure keepers = .ok kept ∧ sortByKey kept = sortByKey kept' := by
  have hdistinct := (keepFields_ok hkept').distinct hnodup
  obtain ⟨parts', hparts', rfl⟩ := keepFields_eq_ok.mp hkept'
  obtain ⟨parts, hparts, hperm⟩ := hfollow.forall₂ KeepsField.follows hparts'
  refine ⟨parts.reduceOption, keepFields_eq_ok.mpr ⟨parts, hparts, rfl⟩, ?_⟩
  exact sortByKey_eq_of_perm (hperm.filterMap id) hdistinct

/-- A node that names children keeps what another one keeps whose children it follows. -/
theorem keepNamed_follows {v kept : Value} (hkept : keepNamed mark node keepers' v = .ok kept) :
    keepNamed mark node keepers v = .ok kept := by
  rw [keepNamed_eq_ok] at hkept ⊢
  cases hkept with
  | missing hnull hoptional => exact .missing hnull (hfollow.any_required_eq_false hoptional)
  | @struct _ _ failure _ hall hkept' =>
      obtain ⟨kept, hkept, hsame⟩ := keepFields_follows hfollow hnodup failure hkept'
      rw [← hsame]
      exact .struct (all_isProperty_of_selectors hfollow.selectors hall) hkept
  | @sequence _ _ _ failure _ hnone hkept' =>
      obtain ⟨kept, hkept, hsame⟩ := keepItems_follows hfollow hnodup failure hkept'
      rw [← hsame]
      exact .sequence (anyProperty_of_selectors hfollow.selectors hnone) hkept

end Follow

/-- A wildcard keeps what another one keeps that it follows. -/
theorem keepAll_follows {node : Option Selector} {k k' : Keeper} (hkk' : Follows k k')
    {v kept : Value} (hkept : keepAll node k' v = .ok kept) : keepAll node k v = .ok kept := by
  rw [keepAll_eq_ok] at hkept ⊢
  cases hkept with
  | struct hproperty hfilled hparts =>
      rw [← hkk'.selector] at hproperty
      rw [← hkk'.required] at hfilled
      exact .struct hproperty hfilled (hparts.imp fun _ _ hpart => ⟨hpart.1, hkk'.keep hpart.2⟩)
  | sequence hproperty hfilled hparts =>
      rw [← hkk'.selector] at hproperty
      rw [← hkk'.required] at hfilled
      exact .sequence hproperty hfilled (hparts.imp fun _ _ => hkk'.keep)

/-- A node keeps what another one keeps whose children it follows. -/
theorem keepBelow_follows {mark : String} {node : Option Selector} {keepers keepers' : List Keeper}
    (hfollow : FollowAll keepers keepers') (hnodup : (keepers'.map selector).Nodup)
    {v kept : Value} (hkept : keepBelow mark node keepers' v = .ok kept) :
    keepBelow mark node keepers v = .ok kept := by
  have hlength := hfollow.length_eq
  match keepers, keepers' with
  | [], [] => exact hkept
  | [k], [k'] =>
      obtain ⟨only, honly, hkk'⟩ := hfollow.exists_right (List.mem_singleton_self k)
      rw [List.mem_singleton.mp honly] at hkk'
      simp only [keepBelow, hkk'.selector] at hkept ⊢
      split at hkept
      · rename_i hwildcard
        rw [if_pos hwildcard]
        exact keepAll_follows hkk' hkept
      · rename_i hplain
        rw [if_neg hplain]
        exact keepNamed_follows hfollow hnodup hkept
  | _ :: _ :: _, _ :: _ :: _ => exact keepNamed_follows hfollow hnodup hkept

end Keeper

/-! ## All nodes -/

namespace Branch

variable {mark : String} {allowed : Selector → Prop}

mutual

/-- Of branches that are alike, each keeps what the other one keeps. -/
theorem keeper_follows : ∀ b b' : Branch, Alike b b' → Orderly allowed b'.children →
    (b.keeper mark).Follows (b'.keeper mark)
  | .mk s r children, _, .mk hchildren harranged, hb' => by
      have hfollow := keepers_follow children _ hchildren fun c hc =>
        hb'.children (harranged.mem_iff.mp hc)
      have hperm := harranged.map (keeper mark)
      rw [← keepers_eq_map, ← keepers_eq_map] at hperm
      have hnodup := hb'.nodup
      rw [← map_selector_keepers mark] at hnodup
      exact ⟨rfl, rfl, Keeper.keepBelow_follows ⟨_, hfollow, hperm⟩ hnodup⟩

/-- Branches that are alike one by one follow one another. -/
theorem keepers_follow : ∀ bs bs' : List Branch, List.Forall₂ Alike bs bs' →
    (∀ b ∈ bs', Orderly allowed b.children) →
    List.Forall₂ Keeper.Follows (keepers mark bs) (keepers mark bs')
  | [], _, .nil, _ => .nil
  | b :: rest, _, .cons hfirst hrest, hbs' =>
      .cons (keeper_follows b _ hfirst (hbs' _ (List.mem_cons_self ..)))
        (keepers_follow rest _ hrest fun c hc => hbs' c (List.mem_cons_of_mem _ hc))

end

/-- Siblings of a built tree, in another order at every depth, keep the same. -/
theorem AlikeAll.keepBelow {bs bs' : List Branch} (halike : AlikeAll bs bs')
    (hbs' : Orderly allowed bs') {node : Option Selector} {v kept : Value}
    (hkept : Keeper.keepBelow mark node (keepers mark bs') v = .ok kept) :
    Keeper.keepBelow mark node (keepers mark bs) v = .ok kept := by
  obtain ⟨arranged, hall, hperm⟩ := halike
  have hfollow : List.Forall₂ Keeper.Follows (keepers mark bs) (keepers mark arranged) :=
    keepers_follow bs arranged hall fun b hb => hbs'.children (hperm.mem_iff.mp hb)
  have hperm' := hperm.map (keeper mark)
  rw [← keepers_eq_map, ← keepers_eq_map] at hperm'
  have hnodup := hbs'.nodup
  rw [← map_selector_keepers mark] at hnodup
  exact Keeper.keepBelow_follows ⟨_, hfollow, hperm'⟩ hnodup hkept

end Branch

namespace PathTree

open Branch

/-- The same paths, in another order or more often, make a tree together with these. -/
theorem exists_ofPaths {paths paths' : List Path} (halike : AlikeAll (merge paths) (merge paths'))
    {t' : PathTree} (ht' : ofPaths paths' = .ok t') : ∃ t, ofPaths paths = .ok t := by
  obtain ⟨_, hchecked', hfamily'⟩ := merge_of_ofPaths ht'
  have hchecked : checkAll (merge paths) = .ok () := by
    refine checkAll_of_forall fun b hb => ?_
    obtain ⟨b', hb', hbb'⟩ := halike.exists_right hb
    exact check_of_alike b b' hbb' (check_of_checkAll hchecked' b' hb')
  have hfamily := homogeneous_of_alikeAll halike hfamily'
  refine ⟨⟨merge paths⟩, ?_⟩
  simp only [ofPaths, hchecked, hfamily, if_true]
  rfl

/-- Trees that are alike keep the same of every document. -/
theorem prune_of_alikeAll {paths' : List Path} {t t' : PathTree} (ht' : ofPaths paths' = .ok t')
    (halike : AlikeAll t.branches t'.branches) {mark : String} {document kept : Value}
    (hkept : t'.prune mark document = .ok kept) : t.prune mark document = .ok kept := by
  have horderly : Orderly (fun _ => True) t'.branches :=
    orderly_of_ofPaths (fun _ _ _ _ => trivial) ht'
  exact halike.keepBelow horderly hkept

theorem waysOf_congr {paths paths' : List Path} (hsame : ∀ p, p ∈ paths ↔ p ∈ paths') :
    waysOf paths = waysOf paths' := by
  simp [waysOf, hsame]

/-- **The order of paths.** Two lists of the same paths, in any order and with any repetitions, both
make a tree or both make none. The trees are equal up to the order of siblings, and keep the same
of every document; what the one cannot prune, the other one cannot either. -/
theorem ofPaths_order_irrelevant {paths paths' : List Path} (hsame : ∀ p, p ∈ paths ↔ p ∈ paths') :
    ((∃ t, ofPaths paths = .ok t) ↔ ∃ t', ofPaths paths' = .ok t') ∧
      ∀ t t', ofPaths paths = .ok t → ofPaths paths' = .ok t' →
        AlikeAll t.branches t'.branches ∧
          ∀ (mark : String) (document kept : Value),
            t.prune mark document = .ok kept ↔ t'.prune mark document = .ok kept := by
  have hspans := spans_merge paths
  have hspans' := spans_merge paths'
  rw [← waysOf_congr hsame] at hspans'
  have halike := alikeAll_of_spans hspans hspans'
  have halike' := alikeAll_of_spans hspans' hspans
  refine ⟨⟨?_, ?_⟩, ?_⟩
  · rintro ⟨t, ht⟩
    exact exists_ofPaths halike' ht
  · rintro ⟨t', ht'⟩
    exact exists_ofPaths halike ht'
  · intro t t' ht ht'
    rw [← (merge_of_ofPaths ht).1, ← (merge_of_ofPaths ht').1] at halike halike'
    refine ⟨halike, ?_⟩
    intro mark document kept
    constructor
    · exact prune_of_alikeAll ht halike'
    · exact prune_of_alikeAll ht' halike

/-- A wildcard comes after a sibling that it takes the place of, and before it. -/
theorem ofPaths_order_irrelevant_wildcard :
    let named : Path := ⟨⟨.property (some "a"), true⟩,
      [⟨.property (some "b"), true⟩, ⟨.property (some "c"), true⟩]⟩
    let every : Path := ⟨⟨.property (some "a"), true⟩,
      [⟨.property none, false⟩, ⟨.property (some "d"), false⟩]⟩
    let tree (below : List Branch) : PathTree :=
      ⟨[.mk (.property (some "a")) true [.mk (.property none) true below]]⟩
    let c := Branch.mk (.property (some "c")) true []
    let d := Branch.mk (.property (some "d")) false []
    let document := Value.ofFields [("a", .ofFields [("k", .ofFields
      [("d", .int 1), ("e", .int 2), ("c", .int 3)])])]
    let kept := Value.ofFields [("a", .ofFields [("k", .ofFields [("d", .int 1), ("c", .int 3)])])]
    ofPaths [named, every] = .ok (tree [c, d]) ∧ ofPaths [every, named, every] = .ok (tree [d, c]) ∧
      AlikeAll (tree [c, d]).branches (tree [d, c]).branches ∧
        (tree [c, d]).prune "#" document = .ok kept ∧ (tree [d, c]).prune "#" document = .ok kept := by
  have hsame : ∀ a b p : Path, p ∈ [a, b] ↔ p ∈ [b, a, b] := by
    intro a b p
    simp only [List.mem_cons, List.not_mem_nil, or_false]
    tauto
  intro named every tree c d document kept
  have hnamed : ofPaths [named, every] = .ok (tree [c, d]) := by
    rfl
  have hevery : ofPaths [every, named, every] = .ok (tree [d, c]) := by
    rfl
  have hkept : (tree [c, d]).prune "#" document = .ok kept := by
    rfl
  obtain ⟨halike, hprune⟩ := (ofPaths_order_irrelevant (hsame named every)).2 _ _ hnamed hevery
  exact ⟨hnamed, hevery, halike, hkept, (hprune "#" document kept).mp hkept⟩

end PathTree

end DocQuery
