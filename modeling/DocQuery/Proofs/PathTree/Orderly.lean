import DocQuery.PathTree.Build
import DocQuery.Proofs.Sequencing

/-!
# The shape of built trees

In a tree that is built from paths no branch stands for a sibling of it: siblings have different
selectors, and a wildcard has no sibling of its family. As the siblings of a checked tree are of
one family, a wildcard in such a tree has no siblings at all.

Main names:

* `Branch.Adds`, `Branch.adds_addWith` — what becomes of siblings to which a branch is added;
* `Branch.Apart`, `Branch.Tidy` — what adding a branch keeps, whatever has been added before;
* `Branch.tidyAll_add` — the step, and `Branch.tidyAll_foldl_add` — the run;
* `Branch.Orderly` — what holds of the siblings below every node of a built tree;
* `PathTree.orderly_of_ofPaths` — built trees are orderly;
* `Branch.Orderly.eq_singleton` — a wildcard is alone.

A property of selectors that all steps of the paths share is carried along to the branches.
-/

namespace DocQuery.Branch

variable {allowed : Selector → Prop}

/-! ## Branches that do not stand for each other -/

/-- Of these selectors none stands for another one. -/
def ApartSelectors (selectors : List Selector) : Prop :=
  selectors.Pairwise fun s t => covers s t = false ∧ covers t s = false

/-- Siblings of which none stands for another one. -/
def Apart (siblings : List Branch) : Prop :=
  ApartSelectors (siblings.map selector)

/-- A branch below which no branch stands for a sibling, with allowed selectors only. -/
inductive Tidy (allowed : Selector → Prop) : Branch → Prop
  | mk {s : Selector} {r : Bool} {children : List Branch} (hallowed : allowed s)
      (hapart : Apart children) (hbelow : ∀ b ∈ children, Tidy allowed b) :
      Tidy allowed (.mk s r children)

/-- Tidy siblings. -/
def TidyAll (allowed : Selector → Prop) (siblings : List Branch) : Prop :=
  Apart siblings ∧ ∀ b ∈ siblings, Tidy allowed b

theorem Tidy.allowed_selector {b : Branch} (hb : Tidy allowed b) : allowed b.selector := by
  cases hb with
  | mk hallowed hapart hbelow => exact hallowed

theorem Tidy.children {b : Branch} (hb : Tidy allowed b) : TidyAll allowed b.children := by
  cases hb with
  | mk hallowed hapart hbelow => exact ⟨hapart, hbelow⟩

theorem Tidy.of_children {s : Selector} {r : Bool} {children : List Branch}
    (hallowed : allowed s) (hchildren : TidyAll allowed children) :
    Tidy allowed (.mk s r children) :=
  .mk hallowed hchildren.1 hchildren.2

theorem tidyAll_nil : TidyAll allowed [] := by
  refine ⟨?_, ?_⟩
  · exact List.Pairwise.nil
  · intro b hb
    cases hb

theorem covers_self (s : Selector) : covers s s = true := by
  simp [covers]

/-- The selectors of siblings that are apart are pairwise different. -/
theorem Apart.nodup {siblings : List Branch} (hapart : Apart siblings) :
    (siblings.map selector).Nodup := by
  refine List.Pairwise.imp ?_ hapart
  intro s t hst heq
  rw [heq, covers_self] at hst
  cases hst.1

/-- A selector that is no wildcard stands for its equal only. -/
theorem eq_of_covers {s t : Selector} (hcovers : covers s t = true)
    (hplain : s.isWildcard = false) : s = t := by
  simpa [covers, hplain] using hcovers

/-- What stands for another selector is of its family. -/
theorem sameFamily_of_covers {s t : Selector} (hcovers : covers s t = true) :
    sameFamily s t = true := by
  unfold covers at hcovers
  rw [Bool.or_eq_true] at hcovers
  rcases hcovers with heq | hwildcard
  · rw [eq_of_beq heq]
    simp [sameFamily]
  · rw [Bool.and_eq_true] at hwildcard
    exact hwildcard.2

theorem sameFamily_comm (s t : Selector) : sameFamily s t = sameFamily t s := by
  unfold sameFamily
  exact BEq.comm

/-! ## Adding a branch -/

theorem updateCovering_eq_none {f : Branch → Branch} {s : Selector} {siblings : List Branch}
    (hnone : updateCovering f s siblings = none) :
    ∀ b ∈ siblings, covers b.selector s = false := by
  induction siblings with
  | nil =>
      intro b hb
      cases hb
  | cons first rest ih =>
      intro b hb
      unfold updateCovering at hnone
      split at hnone
      · cases hnone
      · rename_i hfirst
        rw [Option.map_eq_none_iff] at hnone
        rcases List.mem_cons.mp hb with rfl | hb
        · simpa using hfirst
        · exact ih hnone b hb

/-- An update changes the first branch that stands for a selector. -/
theorem updateCovering_split {f : Branch → Branch} {s : Selector} {siblings updated : List Branch}
    (hupdated : updateCovering f s siblings = some updated) :
    ∃ before b after, siblings = before ++ b :: after ∧ covers b.selector s = true ∧
      updated = before ++ f b :: after := by
  induction siblings generalizing updated with
  | nil => cases hupdated
  | cons first rest ih =>
      unfold updateCovering at hupdated
      split at hupdated
      · rename_i hcovers
        cases hupdated
        exact ⟨[], first, rest, rfl, hcovers, rfl⟩
      · obtain ⟨others, hothers, rfl⟩ := Option.map_eq_some_iff.mp hupdated
        obtain ⟨before, b, after, rfl, hcovers, rfl⟩ := ih hothers
        exact ⟨first :: before, b, after, rfl, hcovers, rfl⟩

@[simp] theorem extend_selector (more : List Branch → Branch → List Branch) (required : Bool)
    (added : List Branch) (b : Branch) :
    (extend more required added b).selector = b.selector := by
  cases b
  rfl

@[simp] theorem absorbing_selector (more : List Branch → Branch → List Branch)
    (absorbed : List Branch) (b : Branch) :
    (absorbing more absorbed b).selector = b.selector := by
  cases b
  rfl

/-- What becomes of siblings to which a branch is added. It is merged into the first one that stands
for it. If there is none, a wildcard takes the place of the siblings of its family, and any other
branch is put after all of them. -/
inductive Adds (more : List Branch → Branch → List Branch) (b : Branch) :
    List Branch → List Branch → Prop
  | merged {before after : List Branch} {b' : Branch}
      (hcovers : covers b'.selector b.selector = true) :
      Adds more b (before ++ b' :: after)
        (before ++ extend more b.required b.children b' :: after)
  | wildcard {siblings : List Branch}
      (huncovered : ∀ sibling ∈ siblings, covers sibling.selector b.selector = false)
      (hwildcard : b.selector.isWildcard = true) :
      Adds more b siblings (siblings.filter (fun s => !sameFamily s.selector b.selector) ++
        [absorbing more (siblings.filter fun s => sameFamily s.selector b.selector) b])
  | plain {siblings : List Branch}
      (huncovered : ∀ sibling ∈ siblings, covers sibling.selector b.selector = false)
      (hplain : b.selector.isWildcard = false) : Adds more b siblings (siblings ++ [b])

theorem adds_addWith (more : List Branch → Branch → List Branch) (siblings : List Branch)
    (b : Branch) : Adds more b siblings (addWith more siblings b) := by
  unfold addWith
  split
  · rename_i updated hupdated
    obtain ⟨before, b', after, rfl, hcovers, rfl⟩ := updateCovering_split hupdated
    exact .merged hcovers
  · rename_i hnone
    have huncovered := updateCovering_eq_none hnone
    split
    · rename_i hwildcard
      exact .wildcard huncovered hwildcard
    · rename_i hplain
      exact .plain huncovered (by simpa using hplain)

/-- Siblings stay tidy if one more is put after them that none of them stands for, and that stands
for none of them. -/
theorem tidyAll_concat {siblings : List Branch} {b : Branch} (hsiblings : TidyAll allowed siblings)
    (hb : Tidy allowed b)
    (hapart : ∀ sibling ∈ siblings,
      covers sibling.selector b.selector = false ∧ covers b.selector sibling.selector = false) :
    TidyAll allowed (siblings ++ [b]) := by
  refine ⟨?_, ?_⟩
  · unfold Apart ApartSelectors
    rw [List.map_append, List.pairwise_append]
    refine ⟨hsiblings.1, List.pairwise_singleton _ _, ?_⟩
    intro s hs t ht
    rw [List.mem_map] at hs
    obtain ⟨sibling, hsibling, rfl⟩ := hs
    rw [List.map_cons, List.map_nil, List.mem_singleton] at ht
    rw [ht]
    exact hapart sibling hsibling
  · exact List.forall_mem_append.mpr ⟨hsiblings.2, List.forall_mem_singleton.mpr hb⟩

theorem TidyAll.sublist {kept siblings : List Branch} (hsiblings : TidyAll allowed siblings)
    (hkept : kept.Sublist siblings) : TidyAll allowed kept :=
  ⟨List.Pairwise.sublist (List.Sublist.map _ hkept) hsiblings.1, fun b hb =>
    hsiblings.2 b (hkept.subset hb)⟩

section Adding

variable {more : List Branch → Branch → List Branch}
  (hmore : ∀ siblings b, TidyAll allowed siblings → Tidy allowed b →
    TidyAll allowed (more siblings b))

include hmore

theorem tidyAll_foldl {siblings added : List Branch} (hsiblings : TidyAll allowed siblings)
    (hadded : ∀ b ∈ added, Tidy allowed b) : TidyAll allowed (added.foldl more siblings) := by
  induction added generalizing siblings with
  | nil => exact hsiblings
  | cons b added ih =>
      exact ih (hmore siblings b hsiblings (hadded b (List.mem_cons_self ..)))
        fun b' hb' => hadded b' (List.mem_cons_of_mem _ hb')

theorem tidy_extend {required : Bool} {added : List Branch} {b : Branch} (hb : Tidy allowed b)
    (hadded : ∀ b ∈ added, Tidy allowed b) : Tidy allowed (extend more required added b) := by
  cases hb with
  | mk hallowed hapart hbelow =>
      exact .of_children hallowed (tidyAll_foldl hmore ⟨hapart, hbelow⟩ hadded)

theorem tidy_absorbing {absorbed : List Branch} {b : Branch} (hb : Tidy allowed b)
    (habsorbed : ∀ b ∈ absorbed, Tidy allowed b) :
    Tidy allowed (absorbing more absorbed b) := by
  cases hb with
  | mk hallowed hapart hbelow =>
      refine .of_children hallowed (tidyAll_foldl hmore (tidyAll_foldl hmore tidyAll_nil ?_) hbelow)
      intro grandchild hgrandchild
      rw [List.mem_flatMap] at hgrandchild
      obtain ⟨child, hchild, hgrandchild⟩ := hgrandchild
      exact (habsorbed child hchild).children.2 grandchild hgrandchild

/-- Adding a branch keeps siblings tidy: it is merged into the one that stands for it, or it
takes the place of those it stands for, or it is put after them. -/
theorem tidyAll_addWith {siblings : List Branch} {b : Branch}
    (hsiblings : TidyAll allowed siblings) (hb : Tidy allowed b) :
    TidyAll allowed (addWith more siblings b) := by
  have hadds := adds_addWith more siblings b
  generalize addWith more siblings b = updated at hadds ⊢
  cases hadds with
  | @merged before after b' =>
      obtain ⟨hapart, htidy⟩ := hsiblings
      rw [List.forall_mem_append, List.forall_mem_cons] at htidy
      refine ⟨?_, ?_⟩
      · unfold Apart at hapart ⊢
        rwa [List.map_append, List.map_cons, extend_selector, ← List.map_cons, ← List.map_append]
      · rw [List.forall_mem_append, List.forall_mem_cons]
        exact ⟨htidy.1, tidy_extend hmore htidy.2.1 hb.children.2, htidy.2.2⟩
  | wildcard huncovered hwildcard =>
      have hkept : TidyAll allowed (siblings.filter fun s => !sameFamily s.selector b.selector) :=
        hsiblings.sublist List.filter_sublist
      refine tidyAll_concat hkept (tidy_absorbing hmore hb fun sibling hsibling =>
        hsiblings.2 sibling (List.mem_filter.mp hsibling).1) fun sibling hsibling => ?_
      rw [List.mem_filter, Bool.not_eq_true'] at hsibling
      rw [absorbing_selector]
      refine ⟨huncovered sibling hsibling.1, ?_⟩
      -- What is left is of the other family, for which the wildcard does not stand.
      rw [← Bool.not_eq_true]
      intro hcovers
      have hfamily := sameFamily_of_covers hcovers
      rw [sameFamily_comm, hsibling.2] at hfamily
      cases hfamily
  | plain huncovered hplain =>
      refine tidyAll_concat hsiblings hb fun sibling hsibling => ⟨huncovered sibling hsibling, ?_⟩
      rw [← Bool.not_eq_true]
      intro hcovers
      have heq := eq_of_covers hcovers hplain
      have hself := huncovered sibling hsibling
      rw [heq, covers_self] at hself
      cases hself

end Adding

/-- Adding a branch keeps siblings tidy, however far down branches are still merged. -/
theorem tidyAll_add (height : Nat) (siblings : List Branch) (b : Branch)
    (hsiblings : TidyAll allowed siblings) (hb : Tidy allowed b) :
    TidyAll allowed (add height siblings b) := by
  induction height generalizing siblings b with
  | zero => exact hsiblings
  | succ height ih => exact tidyAll_addWith ih hsiblings hb

theorem tidy_ofSteps {step : Step} {steps : List Step} (hstep : allowed step.selector)
    (hsteps : ∀ s ∈ steps, allowed s.selector) : Tidy allowed (ofSteps step steps) := by
  induction steps generalizing step with
  | nil => exact .of_children hstep tidyAll_nil
  | cons next steps ih =>
      have hnext := ih (hsteps next (List.mem_cons_self ..))
        fun s hs => hsteps s (List.mem_cons_of_mem _ hs)
      refine .of_children hstep ⟨List.pairwise_singleton _ _, ?_⟩
      intro b hb
      rw [List.mem_singleton] at hb
      rw [hb]
      exact hnext

/-! ## Checked siblings -/

theorem check_eq_ok {s : Selector} {r : Bool} {children : List Branch}
    (hcheck : (mk s r children).check = .ok ()) :
    checkAll children = .ok () ∧ homogeneous children = true := by
  rw [check] at hcheck
  obtain ⟨_, hchildren, hcheck⟩ := bind_eq_ok hcheck
  refine ⟨hchildren, ?_⟩
  by_contra hfamily
  simp only [hfamily] at hcheck
  cases hcheck

theorem check_of_checkAll {siblings : List Branch} (hcheck : checkAll siblings = .ok ()) :
    ∀ b ∈ siblings, b.check = .ok () := by
  induction siblings with
  | nil =>
      intro b hb
      cases hb
  | cons first rest ih =>
      rw [checkAll] at hcheck
      obtain ⟨_, hfirst, hrest⟩ := bind_eq_ok hcheck
      exact List.forall_mem_cons.mpr ⟨hfirst, ih hrest⟩

/-- Siblings as they stand below every node of a built tree. -/
structure Orderly (allowed : Selector → Prop) (siblings : List Branch) : Prop where
  tidy : TidyAll allowed siblings
  checked : checkAll siblings = .ok ()
  oneFamily : homogeneous siblings = true

namespace Orderly

variable {siblings : List Branch}

theorem children (hsiblings : Orderly allowed siblings) {b : Branch} (hb : b ∈ siblings) :
    Orderly allowed b.children := by
  have hcheck := check_of_checkAll hsiblings.checked b hb
  have htidy := (hsiblings.tidy.2 b hb).children
  cases b with
  | mk s r cs =>
      obtain ⟨hchecked, hfamily⟩ := check_eq_ok hcheck
      exact ⟨htidy, hchecked, hfamily⟩

theorem allowed_selector (hsiblings : Orderly allowed siblings) {b : Branch} (hb : b ∈ siblings) :
    allowed b.selector :=
  (hsiblings.tidy.2 b hb).allowed_selector

theorem sameFamily (hsiblings : Orderly allowed siblings) {b b' : Branch} (hb : b ∈ siblings)
    (hb' : b' ∈ siblings) : Branch.sameFamily b.selector b'.selector = true := by
  have hfamily := hsiblings.oneFamily
  unfold homogeneous at hfamily
  rw [Bool.or_eq_true, List.all_eq_true, List.all_eq_true] at hfamily
  unfold Branch.sameFamily
  rcases hfamily with hproperties | hitems
  · rw [hproperties b hb, hproperties b' hb']
    rfl
  · have hb := hitems b hb
    have hb' := hitems b' hb'
    rw [Bool.not_eq_true'] at hb hb'
    rw [hb, hb']
    rfl

theorem nodup (hsiblings : Orderly allowed siblings) : (siblings.map selector).Nodup :=
  hsiblings.tidy.1.nodup

/-- A wildcard has no siblings. -/
theorem eq_singleton (hsiblings : Orderly allowed siblings) {b : Branch} (hb : b ∈ siblings)
    (hwildcard : b.selector.isWildcard = true) : siblings = [b] := by
  -- All siblings are of one family, so the wildcard would cover any other one.
  have hcovers : ∀ b' ∈ siblings, covers b.selector b'.selector = true := by
    intro b' hb'
    unfold covers
    rw [hwildcard, hsiblings.sameFamily hb hb', Bool.and_self, Bool.or_true]
  have hapart : siblings.Pairwise fun b b' =>
      covers b.selector b'.selector = false ∧ covers b'.selector b.selector = false :=
    List.pairwise_map.mp hsiblings.tidy.1
  obtain ⟨before, after, rfl⟩ := List.append_of_mem hb
  rw [List.pairwise_append, List.pairwise_cons] at hapart
  obtain ⟨_, ⟨hafter, _⟩, hbefore⟩ := hapart
  have hnone : before = [] := by
    rw [List.eq_nil_iff_forall_not_mem]
    intro b' hb'
    have hne := (hbefore b' hb' b (List.mem_cons_self ..)).2
    rw [hcovers b' (List.mem_append_left _ hb')] at hne
    cases hne
  have hnone' : after = [] := by
    rw [List.eq_nil_iff_forall_not_mem]
    intro b' hb'
    have hne := (hafter b' hb').1
    rw [hcovers b' (List.mem_append_right _ (List.mem_cons_of_mem _ hb'))] at hne
    cases hne
  rw [hnone, hnone']
  rfl

end Orderly

end DocQuery.Branch

namespace DocQuery.PathTree

open Branch

variable {allowed : Selector → Prop}

/-- A tree is made of the merged paths, which have passed both checks. -/
theorem merge_of_ofPaths {paths : List Path} {t : PathTree} (ht : ofPaths paths = .ok t) :
    t.branches = merge paths ∧ checkAll (merge paths) = .ok () ∧
      homogeneous (merge paths) = true := by
  unfold ofPaths at ht
  obtain ⟨_, hchecked, ht⟩ := bind_eq_ok ht
  by_cases hfamily : homogeneous (merge paths) = true
  · simp only [hfamily, if_true] at ht
    cases ht
    exact ⟨rfl, hchecked, hfamily⟩
  · simp only [hfamily] at ht
    cases ht

/-- Built trees are orderly, and have no other selectors than the paths. -/
theorem orderly_of_ofPaths {paths : List Path} {t : PathTree}
    (hallowed : ∀ p ∈ paths, ∀ step ∈ p.steps, allowed step.selector)
    (ht : ofPaths paths = .ok t) : Orderly allowed t.branches := by
  have htidy : TidyAll allowed (merge paths) := by
    refine tidyAll_foldl (tidyAll_add _) tidyAll_nil ?_
    intro b hb
    rw [List.mem_map] at hb
    obtain ⟨p, hp, rfl⟩ := hb
    exact tidy_ofSteps (hallowed p hp p.first (List.mem_cons_self ..))
      fun step hstep => hallowed p hp step (List.mem_cons_of_mem _ hstep)
  obtain ⟨hbranches, hchecked, hfamily⟩ := merge_of_ofPaths ht
  rw [hbranches]
  exact ⟨htidy, hchecked, hfamily⟩

end DocQuery.PathTree
