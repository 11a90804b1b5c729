import DocQuery.Proofs.PathTree.Orderly
import Mathlib.Data.Set.Insert

/-!
# What a tree is made of

A tree stands for a set of ways, lists of steps from its root. This file says which branches a set
of ways has, without regard to how they came about: every way goes through a branch that stands for
its first step, a selector has a branch only if some way has that selector, a branch is required if
some way through it requires it, and what is below it stands for what is left of these ways. Adding
a branch adds its ways, so merged paths stand for the set of them.

Main names:

* `Branch.share`, `Branch.tails` — the ways through a branch, and what is left of them below it;
* `Branch.Spans` — branches that stand for a set of ways;
* `Branch.spans_add` — adding a branch, by induction on how far down branches are merged;
* `PathTree.spans_merge` — merged paths.
-/

namespace DocQuery.Branch

/-- Lists of steps. -/
abbrev Ways : Type := Set (List Step)

/-! ## Ways through a branch -/

/-- The ways whose first step a selector stands for. -/
def share (s : Selector) (ways : Ways) : Ways :=
  {way | way ∈ ways ∧ ∃ first rest, way = first :: rest ∧ covers s first.selector = true}

/-- What is left of ways after their first steps. -/
def tails (ways : Ways) : Ways :=
  {rest | ∃ first, first :: rest ∈ ways}

/-- Some of the ways requires its first step. -/
def StartsRequired (ways : Ways) : Prop :=
  ∃ first rest, first :: rest ∈ ways ∧ first.required = true

/-- Ways of so many steps at most. -/
def Within (length : Nat) (ways : Ways) : Prop :=
  ∀ way ∈ ways, way.length ≤ length

theorem cons_mem_share {s : Selector} {ways : Ways} {first : Step} {rest : List Step} :
    first :: rest ∈ share s ways ↔ first :: rest ∈ ways ∧ covers s first.selector = true := by
  simp [share]

theorem share_subset (s : Selector) (ways : Ways) : share s ways ⊆ ways :=
  fun _ hway => hway.1

theorem share_congr {ways ways' : Ways}
    (hsame : ∀ first rest, first :: rest ∈ ways ↔ first :: rest ∈ ways') (s : Selector) :
    share s ways = share s ways' := by
  ext way
  cases way with
  | nil => simp [share]
  | cons first rest => rw [cons_mem_share, cons_mem_share, hsame]

theorem share_union (s : Selector) (ways ways' : Ways) :
    share s (ways ∪ ways') = share s ways ∪ share s ways' := by
  ext way
  simp only [share, Set.mem_ofPred_eq, Set.mem_union, or_and_right]

theorem tails_union (ways ways' : Ways) : tails (ways ∪ ways') = tails ways ∪ tails ways' := by
  ext rest
  simp only [tails, Set.mem_ofPred_eq, Set.mem_union, exists_or]

theorem startsRequired_union (ways ways' : Ways) :
    StartsRequired (ways ∪ ways') ↔ StartsRequired ways ∨ StartsRequired ways' := by
  simp only [StartsRequired, Set.mem_union, or_and_right, exists_or]

theorem Within.mono {length : Nat} {ways ways' : Ways} (hways : Within length ways)
    (hsubset : ways' ⊆ ways) : Within length ways' :=
  fun way hway => hways way (hsubset hway)

theorem Within.union {length : Nat} {ways ways' : Ways} (hways : Within length ways)
    (hways' : Within length ways') : Within length (ways ∪ ways') := by
  rintro way (hway | hway)
  · exact hways way hway
  · exact hways' way hway

theorem Within.tails {length : Nat} {ways : Ways} (hways : Within (length + 1) ways) :
    Within length (tails ways) := by
  rintro rest ⟨first, hway⟩
  exact Nat.le_of_succ_le_succ (hways (first :: rest) hway)

/-! ## Selectors that stand for others -/

theorem covers_trans {s t u : Selector} (hst : covers s t = true) (htu : covers t u = true) :
    covers s u = true := by
  cases hwildcard : s.isWildcard with
  | false =>
      rw [eq_of_covers hst hwildcard]
      exact htu
  | true =>
      have hfamily := sameFamily_of_covers hst
      have hfamily' := sameFamily_of_covers htu
      unfold covers sameFamily at *
      simp only [beq_iff_eq] at hfamily hfamily'
      simp [hwildcard, hfamily, hfamily']

theorem covers_of_isWildcard {s : Selector} (hs : s.isWildcard = true) (t : Selector) :
    covers s t = sameFamily s t := by
  unfold covers
  rw [hs, Bool.true_and]
  by_cases heq : s = t
  · simp [heq, sameFamily]
  · simp [heq]

/-- Of two selectors that stand for one selector, one stands for the other. -/
theorem covers_or_covers {s t u : Selector} (hs : covers s u = true) (ht : covers t u = true) :
    covers s t = true ∨ covers t s = true := by
  cases hwildcard : s.isWildcard with
  | false =>
      rw [eq_of_covers hs hwildcard]
      exact Or.inr ht
  | true =>
      have hfamily := sameFamily_of_covers hs
      have hfamily' := sameFamily_of_covers ht
      unfold covers sameFamily at *
      simp only [beq_iff_eq] at hfamily hfamily'
      simp [hwildcard, hfamily, hfamily']

/-- Every family has one wildcard. -/
theorem eq_of_isWildcard {s t : Selector} (hs : s.isWildcard = true) (ht : t.isWildcard = true)
    (hfamily : sameFamily s t = true) : s = t := by
  rcases s with (_ | _) | (_ | _) <;> rcases t with (_ | _) | (_ | _) <;>
    simp [Selector.isWildcard, sameFamily, Selector.isProperty] at *

/-- Selectors that stand for each other are equal. -/
theorem eq_of_covers_covers {s t : Selector} (hst : covers s t = true) (hts : covers t s = true) :
    s = t := by
  cases hs : s.isWildcard with
  | false => exact eq_of_covers hst hs
  | true =>
      cases ht : t.isWildcard with
      | false => exact (eq_of_covers hts ht).symm
      | true =>
          exact eq_of_isWildcard hs ht (sameFamily_of_covers hst)

/-! ## Branches that stand for a set of ways -/

/-- Siblings that stand for a set of ways. -/
inductive Spans : List Branch → Ways → Prop
  | mk {siblings : List Branch} {ways : Ways} (hapart : Apart siblings)
      (hcovered : ∀ first rest, first :: rest ∈ ways →
        ∃ b ∈ siblings, covers b.selector first.selector = true)
      (hgrown : ∀ b ∈ siblings, ∃ first rest, first :: rest ∈ ways ∧ first.selector = b.selector)
      (hrequired : ∀ b ∈ siblings, b.required = true ↔ StartsRequired (share b.selector ways))
      (hbelow : ∀ b ∈ siblings, Spans b.children (tails (share b.selector ways))) :
      Spans siblings ways

/-- One branch of a set of ways, whatever its siblings. -/
structure Stands (b : Branch) (ways : Ways) : Prop where
  grown : ∃ first rest, first :: rest ∈ ways ∧ first.selector = b.selector
  required : b.required = true ↔ StartsRequired (share b.selector ways)
  below : Spans b.children (tails (share b.selector ways))

namespace Spans

variable {siblings : List Branch} {ways ways' : Ways} {b : Branch}

theorem apart (hspans : Spans siblings ways) : Apart siblings := by
  cases hspans with
  | mk hapart => exact hapart

theorem covered (hspans : Spans siblings ways) {first : Step} {rest : List Step}
    (hway : first :: rest ∈ ways) : ∃ b ∈ siblings, covers b.selector first.selector = true := by
  cases hspans with
  | mk _ hcovered => exact hcovered first rest hway

theorem stands (hspans : Spans siblings ways) (hb : b ∈ siblings) : Stands b ways := by
  cases hspans with
  | mk _ _ hgrown hrequired hbelow => exact ⟨hgrown b hb, hrequired b hb, hbelow b hb⟩

theorem of_stands (hapart : Apart siblings)
    (hcovered : ∀ first rest, first :: rest ∈ ways →
      ∃ b ∈ siblings, covers b.selector first.selector = true)
    (hstands : ∀ b ∈ siblings, Stands b ways) : Spans siblings ways :=
  .mk hapart hcovered (fun b hb => (hstands b hb).grown) (fun b hb => (hstands b hb).required)
    fun b hb => (hstands b hb).below

/-- Only the ways that have a first step matter. -/
theorem congr (hspans : Spans siblings ways)
    (hsame : ∀ first rest, first :: rest ∈ ways ↔ first :: rest ∈ ways') :
    Spans siblings ways' := by
  refine of_stands hspans.apart ?_ ?_
  · intro first rest hway
    exact hspans.covered ((hsame first rest).mpr hway)
  · intro b hb
    obtain ⟨⟨first, rest, hway, hselector⟩, hrequired, hbelow⟩ := hspans.stands hb
    rw [share_congr hsame] at hrequired hbelow
    exact ⟨⟨first, rest, (hsame first rest).mp hway, hselector⟩, hrequired, hbelow⟩

/-- Branches that stand for ways are tidy. -/
theorem tidyAll (hspans : Spans siblings ways) : TidyAll (fun _ => True) siblings := by
  induction hspans with
  | mk hapart _ _ _ _ ih =>
      refine ⟨hapart, fun b hb => ?_⟩
      have hchildren := ih b hb
      cases b
      exact .of_children trivial hchildren

/-- A branch alone stands for the ways through it. -/
theorem share (hspans : Spans siblings ways) (hb : b ∈ siblings) :
    Spans [b] (share b.selector ways) := by
  obtain ⟨⟨first, rest, hway, hselector⟩, hrequired, hbelow⟩ := hspans.stands hb
  have hsame : Branch.share b.selector (Branch.share b.selector ways) =
      Branch.share b.selector ways := by
    ext way
    exact ⟨fun hway => hway.1, fun hway => ⟨hway, hway.2⟩⟩
  refine of_stands (List.pairwise_singleton _ _) ?_ ?_
  · intro first rest hway
    exact ⟨b, List.mem_singleton_self b, (cons_mem_share.mp hway).2⟩
  · intro b' hb'
    rw [List.mem_singleton.mp hb']
    refine ⟨⟨first, rest, cons_mem_share.mpr ⟨hway, ?_⟩, hselector⟩, ?_, ?_⟩
    · rw [hselector]
      exact covers_self _
    · rw [hsame]
      exact hrequired
    · rw [hsame]
      exact hbelow

theorem covers_of_mem (hspans : Spans [b] ways) {first : Step} {rest : List Step}
    (hway : first :: rest ∈ ways) : covers b.selector first.selector = true := by
  obtain ⟨b', hb', hcovers⟩ := hspans.covered hway
  rw [List.mem_singleton.mp hb'] at hcovers
  exact hcovers

/-- A selector that stands for the one of a branch has all ways through the branch. -/
theorem share_of_covers (hspans : Spans [b] ways) {s : Selector}
    (hs : covers s b.selector = true) :
    Branch.share s ways = Branch.share b.selector ways := by
  ext way
  refine ⟨?_, ?_⟩
  · rintro ⟨hway, first, rest, rfl, _⟩
    exact cons_mem_share.mpr ⟨hway, hspans.covers_of_mem hway⟩
  · rintro ⟨hway, first, rest, rfl, hcovers⟩
    exact cons_mem_share.mpr ⟨hway, covers_trans hs hcovers⟩

/-- A selector that is apart from all siblings has none of the ways. -/
theorem share_eq_empty (hspans : Spans siblings ways) {s : Selector}
    (hs : ∀ b ∈ siblings, covers b.selector s = false ∧ covers s b.selector = false) :
    Branch.share s ways = ∅ := by
  rw [Set.eq_empty_iff_forall_notMem]
  rintro way ⟨hway, first, rest, rfl, hcovers⟩
  obtain ⟨b, hb, hcovers'⟩ := hspans.covered hway
  obtain ⟨hleft, hright⟩ := hs b hb
  rcases covers_or_covers hcovers' hcovers with hcovers | hcovers
  · rw [hleft] at hcovers
    cases hcovers
  · rw [hright] at hcovers
    cases hcovers

/-- A selector that is apart from one that stands for a branch has no way through the branch. -/
theorem share_eq_empty_of_covers (hspans : Spans [b] ways) {s t : Selector}
    (hst : covers s t = false ∧ covers t s = false) (ht : covers t b.selector = true) :
    Branch.share s ways = ∅ := by
  rw [Set.eq_empty_iff_forall_notMem]
  rintro way ⟨hway, first, rest, rfl, hcovers⟩
  rcases covers_or_covers hcovers (covers_trans ht (hspans.covers_of_mem hway)) with hs | hs
  · rw [hst.1] at hs
    cases hs
  · rw [hst.2] at hs
    cases hs

/-- The ways of a wildcard are those of the siblings of its family. -/
theorem mem_share_wildcard (hspans : Spans siblings ways) {s : Selector}
    (hs : s.isWildcard = true) {first : Step} {rest : List Step} :
    first :: rest ∈ Branch.share s ways ↔
      ∃ b ∈ siblings.filter (fun b => sameFamily b.selector s),
        first :: rest ∈ Branch.share b.selector ways := by
  simp only [cons_mem_share, List.mem_filter]
  constructor
  · rintro ⟨hway, hcovers⟩
    obtain ⟨b, hb, hcovers'⟩ := hspans.covered hway
    have hfamily := sameFamily_of_covers hcovers
    have hfamily' := sameFamily_of_covers hcovers'
    unfold sameFamily at *
    exact ⟨b, ⟨hb, by rw [eq_of_beq hfamily, hfamily']⟩, hway, hcovers'⟩
  · rintro ⟨b, ⟨_, hfamily⟩, hway, hcovers⟩
    rw [sameFamily_comm, ← covers_of_isWildcard hs] at hfamily
    exact ⟨hway, covers_trans hfamily hcovers⟩

end Spans

/-- Ways that do not go through a branch make no difference to it. -/
theorem Stands.union {b : Branch} {ways more : Ways} (hb : Stands b ways)
    (hmore : share b.selector more = ∅) : Stands b (ways ∪ more) := by
  obtain ⟨⟨first, rest, hway, hselector⟩, hrequired, hbelow⟩ := hb
  have hsame : share b.selector (ways ∪ more) = share b.selector ways := by
    rw [share_union, hmore, Set.union_empty]
  rw [← hsame] at hrequired hbelow
  exact ⟨⟨first, rest, Or.inl hway, hselector⟩, hrequired, hbelow⟩

theorem spans_nil : Spans [] ∅ :=
  .of_stands List.Pairwise.nil (fun _ _ hway => absurd hway (Set.notMem_empty _))
    fun _ hb => absurd hb List.not_mem_nil

/-! ## Adding a branch -/

/-- Steps of which each adds ways add all of them. -/
theorem spans_foldl_of_step {α : Type} {step : List Branch → α → List Branch} {grow : α → Ways}
    {length : Nat} {todo : List α} (hgrow : ∀ a ∈ todo, Within length (grow a))
    (hstep : ∀ a ∈ todo, ∀ siblings ways, Spans siblings ways → Within length ways →
      Spans (step siblings a) (ways ∪ grow a))
    {siblings : List Branch} {ways : Ways} (hsiblings : Spans siblings ways)
    (hways : Within length ways) :
    Spans (todo.foldl step siblings) (ways ∪ {way | ∃ a ∈ todo, way ∈ grow a}) := by
  induction todo generalizing siblings ways with
  | nil => simpa using hsiblings
  | cons a todo ih =>
      have hfirst := hstep a (List.mem_cons_self ..) siblings ways hsiblings hways
      have hrest := ih (fun a' ha' => hgrow a' (List.mem_cons_of_mem _ ha'))
        (fun a' ha' => hstep a' (List.mem_cons_of_mem _ ha')) hfirst
        (hways.union (hgrow a (List.mem_cons_self ..)))
      refine hrest.congr ?_
      intro first rest
      simp only [Set.mem_union, Set.mem_ofPred_eq, List.mem_cons, or_and_right, exists_or,
        exists_eq_left, or_assoc]

section Adding

variable {more : List Branch → Branch → List Branch} {length : Nat}
  (hmore : ∀ siblings ways b added, Spans siblings ways → Spans [b] added → Within length ways →
    Within length added → Spans (more siblings b) (ways ∪ added))

include hmore

/-- Adding branches one after the other adds all their ways. -/
theorem spans_foldl {siblings added : List Branch} {ways ways' : Ways}
    (hsiblings : Spans siblings ways) (hadded : Spans added ways') (hways : Within length ways)
    (hways' : Within length ways') : Spans (added.foldl more siblings) (ways ∪ ways') := by
  have hshare : ∀ b ∈ added, Within length (share b.selector ways') :=
    fun b _ => hways'.mono (share_subset b.selector ways')
  refine (spans_foldl_of_step hshare ?_ hsiblings hways).congr ?_
  · intro b hb siblings ways hsiblings hways
    exact hmore siblings ways b _ hsiblings (hadded.share hb) hways (hshare b hb)
  · intro first rest
    simp only [Set.mem_union, Set.mem_ofPred_eq, cons_mem_share]
    refine or_congr_right ⟨fun ⟨_, _, hway, _⟩ => hway, fun hway => ?_⟩
    obtain ⟨b, hb, hcovers⟩ := hadded.covered hway
    exact ⟨b, hb, hway, hcovers⟩

/-- A branch to which another one is added that it stands for. -/
theorem stands_extend {b' b : Branch} {ways added : Ways} (hb' : Stands b' ways)
    (hb : Spans [b] added) (hcovers : covers b'.selector b.selector = true)
    (hways : Within (length + 1) ways) (hadded : Within (length + 1) added) :
    Stands (extend more b.required b.children b') (ways ∪ added) := by
  have hstands := hb.stands (List.mem_singleton_self b)
  obtain ⟨⟨first, rest, hway, hselector⟩, hrequired, hbelow⟩ := hb'
  cases b' with
  | mk s r children =>
      have hsame : share s added = share b.selector added := hb.share_of_covers hcovers
      refine ⟨⟨first, rest, Or.inl hway, hselector⟩, ?_, ?_⟩
      · show (r || b.required) = true ↔ StartsRequired (share s (ways ∪ added))
        rw [share_union, startsRequired_union, hsame, ← hstands.required, Bool.or_eq_true]
        exact or_congr_left hrequired
      · show Spans (b.children.foldl more children) (tails (share s (ways ∪ added)))
        rw [share_union, tails_union, hsame]
        exact spans_foldl hmore hbelow hstands.below (hways.mono (share_subset ..)).tails
          (hadded.mono (share_subset ..)).tails

/-- What is below the siblings that a wildcard takes the place of. -/
theorem spans_absorbed {siblings : List Branch} {ways : Ways} {s : Selector}
    (hsiblings : Spans siblings ways) (hways : Within (length + 1) ways)
    (hs : s.isWildcard = true) :
    Spans (((siblings.filter fun b => sameFamily b.selector s).flatMap children).foldl more [])
      (tails (share s ways)) := by
  have hgrow : ∀ b ∈ siblings.filter fun b => sameFamily b.selector s,
      Within length (tails (share b.selector ways)) :=
    fun b _ => (hways.mono (share_subset ..)).tails
  rw [List.foldl_flatMap]
  refine (spans_foldl_of_step hgrow ?_ spans_nil fun _ hway => absurd hway
    (Set.notMem_empty _)).congr ?_
  · intro b hb siblings' ways' hsiblings' hways'
    exact spans_foldl hmore hsiblings' (hsiblings.stands (List.mem_filter.mp hb).1).below hways'
      (hgrow b hb)
  · intro first rest
    rw [Set.empty_union]
    constructor
    · rintro ⟨b, hb, before, hway⟩
      exact ⟨before, (hsiblings.mem_share_wildcard hs).mpr ⟨b, hb, hway⟩⟩
    · rintro ⟨before, hway⟩
      obtain ⟨b, hb, hway⟩ := (hsiblings.mem_share_wildcard hs).mp hway
      exact ⟨b, hb, before, hway⟩

/-- A wildcard that takes the place of its family. -/
theorem stands_absorbing {siblings : List Branch} {b : Branch} {ways added : Ways}
    (hsiblings : Spans siblings ways) (hb : Spans [b] added)
    (hwildcard : b.selector.isWildcard = true) (hways : Within (length + 1) ways)
    (hadded : Within (length + 1) added) :
    Stands (absorbing more (siblings.filter fun s => sameFamily s.selector b.selector) b)
      (ways ∪ added) := by
  obtain ⟨⟨first, rest, hway, hselector⟩, hrequired, hbelow⟩ := hb.stands (List.mem_singleton_self b)
  have habsorbed := spans_absorbed hmore hsiblings hways hwildcard
  cases b with
  | mk s r children =>
      -- The ways that the wildcard shares are those of the siblings that it takes in and its own.
      refine ⟨⟨first, rest, Or.inr hway, hselector⟩, ?_, ?_⟩
      · show (r || (siblings.filter fun b => sameFamily b.selector s).any required) = true ↔
          StartsRequired (share s (ways ∪ added))
        rw [share_union, startsRequired_union, Bool.or_eq_true, or_comm, List.any_eq_true]
        refine or_congr ?_ hrequired
        constructor
        · rintro ⟨b, hb, hb'⟩
          obtain ⟨first, rest, hway, hfirst⟩ :=
            (hsiblings.stands (List.mem_filter.mp hb).1).required.mp hb'
          exact ⟨first, rest, (hsiblings.mem_share_wildcard hwildcard).mpr ⟨b, hb, hway⟩, hfirst⟩
        · rintro ⟨first, rest, hway, hfirst⟩
          obtain ⟨b, hb, hway⟩ := (hsiblings.mem_share_wildcard hwildcard).mp hway
          exact ⟨b, hb, (hsiblings.stands (List.mem_filter.mp hb).1).required.mpr
            ⟨first, rest, hway, hfirst⟩⟩
      · show Spans (children.foldl more (((siblings.filter fun b =>
          sameFamily b.selector s).flatMap Branch.children).foldl more []))
          (tails (share s (ways ∪ added)))
        rw [share_union, tails_union]
        exact spans_foldl hmore habsorbed hbelow (hways.mono (share_subset ..)).tails
          (hadded.mono (share_subset ..)).tails

/-- A branch goes to the sibling that stands for it. -/
theorem spans_extend {before after : List Branch} {b' b : Branch} {ways added : Ways}
    (hsiblings : Spans (before ++ b' :: after) ways) (hb : Spans [b] added)
    (hcovers : covers b'.selector b.selector = true) (hways : Within (length + 1) ways)
    (hadded : Within (length + 1) added) :
    Spans (before ++ extend more b.required b.children b' :: after) (ways ∪ added) := by
  have hselectors : (before ++ extend more b.required b.children b' :: after).map selector =
      (before ++ b' :: after).map selector := by
    simp
  -- The new ways go through the branch that covers them, and the other siblings stand as they
  -- stood.
  have hothers : ∀ s ∈ before ++ after,
      covers s.selector b'.selector = false ∧ covers b'.selector s.selector = false := by
    have hpairs := List.pairwise_map.mp hsiblings.apart
    rw [List.pairwise_append, List.pairwise_cons] at hpairs
    intro s hs
    rcases List.mem_append.mp hs with hs | hs
    · exact hpairs.2.2 s hs b' (List.mem_cons_self ..)
    · exact (hpairs.2.1.1 s hs).symm
  have hstays : ∀ s ∈ before ++ after, Stands s (ways ∪ added) := by
    intro s hs
    refine Stands.union (hsiblings.stands ?_) (hb.share_eq_empty_of_covers (hothers s hs) hcovers)
    exact (List.Sublist.append_left (List.sublist_cons_self b' after) before).subset hs
  refine .of_stands ?_ ?_ ?_
  · unfold Apart
    rw [hselectors]
    exact hsiblings.apart
  · intro first rest hway
    have hmem : ∃ s ∈ (before ++ b' :: after).map selector, covers s first.selector = true := by
      rcases hway with hway | hway
      · obtain ⟨s, hs, hs'⟩ := hsiblings.covered hway
        exact ⟨s.selector, List.mem_map_of_mem hs, hs'⟩
      · exact ⟨b'.selector, List.mem_map_of_mem (List.mem_append_right _ (List.mem_cons_self ..)),
          covers_trans hcovers (hb.covers_of_mem hway)⟩
    rw [← hselectors] at hmem
    obtain ⟨_, hselector', hs'⟩ := hmem
    obtain ⟨s, hs, rfl⟩ := List.mem_map.mp hselector'
    exact ⟨s, hs, hs'⟩
  · intro s hs
    simp only [List.mem_append, List.mem_cons] at hs
    rcases hs with hs | rfl | hs
    · exact hstays s (List.mem_append_left _ hs)
    · exact stands_extend hmore (hsiblings.stands (List.mem_append_right _
        (List.mem_cons_self ..))) hb hcovers hways hadded
    · exact hstays s (List.mem_append_right _ hs)

omit hmore in
/-- A branch is put after siblings that stand for none of its ways. -/
theorem spans_concat {siblings : List Branch} {b' b : Branch} {ways added : Ways}
    (hapart : Apart (siblings ++ [b'])) (hsiblings : ∀ s ∈ siblings, Stands s ways)
    (hcovered : ∀ first rest, first :: rest ∈ ways →
      ∃ s ∈ siblings ++ [b'], covers s.selector first.selector = true)
    (hb : Spans [b] added) (hselector : b'.selector = b.selector)
    (hb' : Stands b' (ways ∪ added)) : Spans (siblings ++ [b']) (ways ∪ added) := by
  refine .of_stands hapart ?_ ?_
  · rintro first rest (hway | hway)
    · exact hcovered first rest hway
    · refine ⟨b', List.mem_append_right _ (List.mem_singleton_self b'), ?_⟩
      rw [hselector]
      exact hb.covers_of_mem hway
  · intro s hs
    rcases List.mem_append.mp hs with hs | hs
    · have hpairs := List.pairwise_map.mp hapart
      rw [List.pairwise_append] at hpairs
      have hothers := hpairs.2.2 s hs b' (List.mem_singleton_self b')
      rw [hselector] at hothers
      exact (hsiblings s hs).union (hb.share_eq_empty_of_covers hothers (covers_self _))
    · rw [List.mem_singleton.mp hs]
      exact hb'

/-- Adding a branch adds its ways. -/
theorem spans_addWith {siblings : List Branch} {b : Branch} {ways added : Ways}
    (hsiblings : Spans siblings ways) (hb : Spans [b] added)
    (hways : Within (length + 1) ways) (hadded : Within (length + 1) added)
    (hapart : Apart (addWith more siblings b)) :
    Spans (addWith more siblings b) (ways ∪ added) := by
  have hadds := adds_addWith more siblings b
  generalize addWith more siblings b = updated at hadds hapart ⊢
  cases hadds with
  | merged hcovers => exact spans_extend hmore hsiblings hb hcovers hways hadded
  | wildcard _ hwildcard =>
      refine spans_concat hapart (fun s hs => hsiblings.stands (List.mem_filter.mp hs).1) ?_ hb
        (absorbing_selector ..) (stands_absorbing hmore hsiblings hb hwildcard hways hadded)
      -- The wildcard covers what the siblings covered that it takes in.
      intro first rest hway
      obtain ⟨s, hs, hs'⟩ := hsiblings.covered hway
      by_cases hfamily : sameFamily s.selector b.selector = true
      · refine ⟨_, List.mem_append_right _ (List.mem_singleton_self _), ?_⟩
        rw [absorbing_selector]
        rw [sameFamily_comm, ← covers_of_isWildcard hwildcard] at hfamily
        exact covers_trans hfamily hs'
      · exact ⟨s, List.mem_append_left _ (List.mem_filter.mpr ⟨hs, by simpa using hfamily⟩), hs'⟩
  | plain =>
      refine spans_concat hapart (fun s hs => hsiblings.stands hs) ?_ hb rfl ?_
      · intro first rest hway
        obtain ⟨s, hs, hs'⟩ := hsiblings.covered hway
        exact ⟨s, List.mem_append_left _ hs, hs'⟩
      · -- No sibling covers the branch, so it shares no way with them.
        have hpairs := List.pairwise_map.mp hapart
        rw [List.pairwise_append] at hpairs
        have hempty : share b.selector ways = ∅ := hsiblings.share_eq_empty fun s hs =>
          hpairs.2.2 s hs b (List.mem_singleton_self b)
        rw [Set.union_comm]
        exact (hb.stands (List.mem_singleton_self b)).union hempty

end Adding

/-- Adding a branch adds its ways, if branches are merged far enough down. -/
theorem spans_add (height : Nat) (siblings : List Branch) (ways : Ways) (b : Branch) (added : Ways)
    (hsiblings : Spans siblings ways) (hb : Spans [b] added) (hways : Within height ways)
    (hadded : Within height added) : Spans (add height siblings b) (ways ∪ added) := by
  induction height generalizing siblings ways b added with
  | zero =>
      obtain ⟨⟨first, rest, hway, _⟩, _, _⟩ := hb.stands (List.mem_singleton_self b)
      have hlength := hadded _ hway
      simp at hlength
  | succ height ih =>
      refine spans_addWith ih hsiblings hb hways hadded ?_
      exact (tidyAll_add (height + 1) siblings b hsiblings.tidyAll
        (hb.tidyAll.2 b (List.mem_singleton_self b))).1

/-- The branch of a single path stands for the path. -/
theorem spans_ofSteps (first : Step) (rest : List Step) :
    Spans [ofSteps first rest] {first :: rest} := by
  have hshare : share first.selector {first :: rest} = {first :: rest} := by
    ext way
    exact ⟨fun hway => hway.1, fun hway => ⟨hway, first, rest, hway, covers_self _⟩⟩
  have htails : tails {first :: rest} = {rest} := by
    ext way
    simp [tails]
  have hrequired : StartsRequired {first :: rest} ↔ first.required = true := by
    simp [StartsRequired]
  have hbranch : (ofSteps first rest).selector = first.selector ∧
      (ofSteps first rest).required = first.required := by
    cases rest <;> exact ⟨rfl, rfl⟩
  -- Recursion on the steps that are left.
  have hbelow : Spans (ofSteps first rest).children {rest} := by
    cases rest with
    | nil => exact spans_nil.congr (by simp)
    | cons next rest => exact spans_ofSteps next rest
  refine .of_stands (List.pairwise_singleton _ _) ?_ ?_
  · intro first' rest' hway
    cases hway
    exact ⟨_, List.mem_singleton_self _, by rw [hbranch.1]; exact covers_self _⟩
  · intro b hb
    rw [List.mem_singleton.mp hb]
    refine ⟨⟨first, rest, rfl, hbranch.1.symm⟩, ?_, ?_⟩
    · rw [hbranch.1, hbranch.2, hshare, hrequired]
    · rw [hbranch.1, hshare, htails]
      exact hbelow

end DocQuery.Branch

namespace DocQuery.PathTree

open Branch

/-- The ways of paths. -/
def waysOf (paths : List Path) : Ways :=
  {way | ∃ p ∈ paths, p.steps = way}

theorem le_foldl_max {n start : Nat} {lengths : List Nat} (hn : n ≤ start ∨ n ∈ lengths) :
    n ≤ lengths.foldl max start := by
  induction lengths generalizing start with
  | nil => simpa using hn
  | cons length lengths ih =>
      apply ih
      rw [List.mem_cons] at hn
      rcases hn with hn | rfl | hn
      · exact Or.inl (Nat.le_trans hn (Nat.le_max_left ..))
      · exact Or.inl (Nat.le_max_right ..)
      · exact Or.inr hn

/-- Merged paths stand for the set of them. -/
theorem spans_merge (paths : List Path) : Spans (merge paths) (waysOf paths) := by
  have hlength : ∀ p ∈ paths,
      Within ((paths.map (·.steps.length)).foldl max 0) ({p.steps} : Ways) := by
    intro p hp way hway
    rw [Set.mem_singleton_iff.mp hway]
    exact le_foldl_max (Or.inr (List.mem_map_of_mem hp))
  unfold merge
  rw [List.foldl_map]
  refine (spans_foldl_of_step hlength ?_ spans_nil fun _ hway => absurd hway
    (Set.notMem_empty _)).congr ?_
  · intro p hp siblings ways hsiblings hways
    exact spans_add _ siblings ways _ _ hsiblings (spans_ofSteps p.first p.rest) hways
      (hlength p hp)
  · intro first rest
    simp [waysOf, eq_comm]

end DocQuery.PathTree
