import DocQuery.Path.Select
import DocQuery.Proofs.PathTree.Reordering
import DocQuery.Proofs.PathTree.Spans
import DocQuery.Proofs.PathTree.Unseen

/-!
# Following paths in what is kept

A document that has been pruned with a tree of paths still answers these paths. Where a path found
a value, it finds the same one; where a step found nothing, that step still finds nothing; and
where a path failed, it fails in the same way. This holds for paths that name fields and of which
none stops on the way of another: a path that does so would find a container of which only the
fields on that way were kept.

Main names:

* `Selection.SameEnd` — two attempts to follow a path that end alike;
* `Path.NamesFields`, `Path.StopsWithin` — what is assumed of the paths;
* `Branch.follow_keepBelow` — one path, by induction on its steps;
* `PathTree.select_prune` — every path of a tree;
* `PathTree.exists_ofPaths_of_namesFields` — there is such a tree.
-/

namespace DocQuery

/-- Two attempts to follow a path end alike: both fail in the same way, or reach the same value, or
come to a step that finds nothing, which is required in both or in none. The containers in which
they end need not be the same. -/
inductive Selection.SameEnd : Except EvalError Selection → Except EvalError Selection → Prop
  | error (e : EvalError) : SameEnd (.error e) (.error e)
  | hit (container container' v : Value) :
      SameEnd (.ok (.hit container v)) (.ok (.hit container' v))
  | miss (container container' : Value) : SameEnd (.ok (.miss container)) (.ok (.miss container'))
  | fallback (container container' : Value) :
      SameEnd (.ok (.fallback container)) (.ok (.fallback container'))

@[refl] theorem Selection.SameEnd.refl (result : Except EvalError Selection) :
    SameEnd result result := by
  rcases result with e | ⟨container, v⟩ | container | container
  · exact .error e
  · exact .hit container container v
  · exact .miss container container
  · exact .fallback container container

namespace Path

/-- The selectors of a path, without regard to which steps are required. -/
def selectors (p : Path) : List Selector :=
  p.steps.map (·.selector)

/-- Whether every step of a path names a field. -/
def NamesFields (p : Path) : Prop :=
  ∀ s ∈ p.selectors, s.isProperty = true ∧ s.isWildcard = false

/-- Whether a path leads to a container through which another path goes on. -/
def StopsWithin (p q : Path) : Prop :=
  p.selectors <+: q.selectors ∧ p.selectors ≠ q.selectors

instance (p : Path) : Decidable p.NamesFields :=
  inferInstanceAs (Decidable (∀ s ∈ p.selectors, _))

instance (p q : Path) : Decidable (p.StopsWithin q) :=
  inferInstanceAs (Decidable (_ ∧ _))

end Path

/-! ## One container -/

namespace Keeper

/-- Looking a field up and looking it up with its position find the same. -/
theorem fieldOf_eq_field (name : String) (fields : List (String × Value)) :
    Value.fieldOf name fields = (field? fields name).map Prod.snd := by
  induction fields with
  | nil => rfl
  | cons first rest ih =>
      rw [field_cons]
      unfold Value.fieldOf at ih ⊢
      rw [List.find?_cons]
      by_cases hfirst : first.1 = name
      · simp [hfirst]
      · rw [if_neg hfirst, beq_false_of_ne hfirst, Option.map_map]
        exact ih

end Keeper

/-! ## Ways that name fields -/

namespace Branch

/-- Ways of steps that name fields. -/
def NamesFields (ways : Ways) : Prop :=
  ∀ way ∈ ways, ∀ step ∈ way, ∃ name, step.selector = .property (some name)

/-- Ways of which none stops on another one. -/
def PrefixFree (ways : Ways) : Prop :=
  ∀ way ∈ ways, ∀ way' ∈ ways, way.map Step.selector <+: way'.map Step.selector →
    way.map Step.selector = way'.map Step.selector

variable {ways : Ways} {bs : List Branch} {b : Branch}

theorem NamesFields.tails (hfields : NamesFields ways) (s : Selector) :
    NamesFields (tails (share s ways)) := by
  rintro rest ⟨first, hway, _⟩ step hstep
  exact hfields _ hway step (List.mem_cons_of_mem _ hstep)

/-- The branches of such ways name fields. -/
theorem NamesFields.selector (hfields : NamesFields ways) (hspans : Spans bs ways) (hb : b ∈ bs) :
    ∃ name, b.selector = .property (some name) := by
  obtain ⟨first, rest, hway, hselector⟩ := (hspans.stands hb).grown
  rw [← hselector]
  exact hfields _ hway first (List.mem_cons_self ..)

theorem NamesFields.homogeneous (hfields : NamesFields ways) (hspans : Spans bs ways) :
    homogeneous bs = true := by
  unfold Branch.homogeneous
  rw [Bool.or_eq_true, List.all_eq_true]
  refine Or.inl fun b hb => ?_
  obtain ⟨name, hname⟩ := hfields.selector hspans hb
  rw [hname]
  rfl

/-- Branches that name fields pass the check. -/
theorem Spans.checkAll (hspans : Spans bs ways) (hfields : NamesFields ways) :
    checkAll bs = .ok () := by
  induction hspans with
  | mk _ _ _ _ hbelow ih =>
      refine checkAll_of_forall fun b hb => ?_
      have hfields' := hfields.tails b.selector
      have hchecked := ih b hb hfields'
      have hfamily := hfields'.homogeneous (hbelow b hb)
      cases b
      exact check_of_children hchecked hfamily

theorem NamesFields.plain (hfields : NamesFields ways) (hspans : Spans bs ways) (hb : b ∈ bs) :
    b.selector.isWildcard = false := by
  obtain ⟨name, hname⟩ := hfields.selector hspans hb
  rw [hname]
  rfl

/-- Every way goes through the branch of its first field. -/
theorem NamesFields.branch (hfields : NamesFields ways) (hspans : Spans bs ways) {first : Step}
    {rest : List Step} (hway : first :: rest ∈ ways) :
    ∃ b ∈ bs, b.selector = first.selector ∧ rest ∈ Branch.tails (share b.selector ways) := by
  obtain ⟨b, hb, hcovers⟩ := hspans.covered hway
  exact ⟨b, hb, eq_of_covers hcovers (hfields.plain hspans hb), first,
    cons_mem_share.mpr ⟨hway, hcovers⟩⟩

/-- Ways through one branch share its selector. -/
theorem PrefixFree.tails (hfree : PrefixFree ways) {s : Selector} (hs : s.isWildcard = false) :
    PrefixFree (tails (share s ways)) := by
  rintro rest ⟨first, hfirst⟩ rest' ⟨first', hfirst'⟩ hstops
  obtain ⟨hway, hcovers⟩ := cons_mem_share.mp hfirst
  obtain ⟨hway', hcovers'⟩ := cons_mem_share.mp hfirst'
  have hsame : first.selector = first'.selector := by
    rw [← eq_of_covers hcovers hs, eq_of_covers hcovers' hs]
  have hlonger : (first :: rest).map Step.selector <+: (first' :: rest').map Step.selector := by
    rw [List.map_cons, List.map_cons, hsame]
    exact (List.prefix_cons_inj _).mpr hstops
  have heq := hfree _ hway _ hway' hlonger
  rw [List.map_cons, List.map_cons] at heq
  exact (List.cons.inj heq).2

/-- Below the end of a way there is nothing. -/
theorem PrefixFree.eq_nil (hfree : PrefixFree ways) (hspans : Spans bs ways) (hend : [] ∈ ways) :
    bs = [] := by
  rw [List.eq_nil_iff_forall_not_mem]
  intro b hb
  obtain ⟨first, rest, hway, _⟩ := (hspans.stands hb).grown
  have heq := hfree [] hend _ hway (List.nil_prefix)
  cases heq

/-! ## Following a way -/

section Following

variable {mark : String} {node : Option Selector} {v kept : Value} {first : Step}
  {rest : List Step}

/-- What the first step of a way finds in a value and in what is kept of it. Either all of the value
is kept, or the step finds nothing in both, or it finds a field, and what the branch keeps of it. -/
theorem apply_keepBelow (hspans : Spans bs ways) (hfields : NamesFields ways)
    (hkept : Keeper.keepBelow mark node (keepers mark bs) v = .ok kept)
    (hway : first :: rest ∈ ways) :
    kept = v ∨ (first.selector.apply kept = .ok none ∧ first.selector.apply v = .ok none) ∨
      ∃ b ∈ bs, rest ∈ tails (share b.selector ways) ∧ ∃ field field',
        first.selector.apply kept = .ok (some field') ∧
        first.selector.apply v = .ok (some field) ∧
        Keeper.keepBelow mark (some b.selector) (keepers mark b.children) field = .ok field' := by
  obtain ⟨b, hb, hselector, htail⟩ := hfields.branch hspans hway
  obtain ⟨name, hname⟩ := hfields.selector hspans hb
  have hkeeper : b.keeper mark ∈ keepers mark bs :=
    mem_keepers.mpr ⟨b, hb, rfl⟩
  have hwanted : (b.keeper mark).selector = .property (some name) := by
    rw [keeper_selector, hname]
  have hplain : ∀ k ∈ keepers mark bs, k.selector.isWildcard = false := by
    intro k hk
    obtain ⟨b', hb', rfl⟩ := mem_keepers.mp hk
    rw [keeper_selector]
    exact hfields.plain hspans hb'
  -- No branch is a wildcard, so the node keeps the fields that it names.
  rw [Keeper.keepBelow_eq_keepNamed (List.ne_nil_of_mem hkeeper) hplain] at hkept
  cases Keeper.keepNamed_eq_ok.mp hkept with
  | missing => exact Or.inl rfl
  | sequence hnone =>
      have hnot := List.any_eq_false.mp hnone _ hkeeper
      rw [hwanted] at hnot
      exact absurd rfl hnot
  | @struct _ fields _ entries _ hentries =>
      have hshape := Keeper.keepFields_ok hentries
      have hnodup := hspans.apart.nodup
      rw [← map_selector_keepers mark] at hnodup
      rw [← hselector, hname]
      simp only [Selector.apply, Keeper.fieldOf_eq_field]
      refine Or.inr ?_
      cases hfield : Keeper.field? fields name with
      | none =>
          rw [hshape.field_sorted_eq_none hfield]
          exact Or.inl ⟨rfl, rfl⟩
      | some found =>
          obtain ⟨i, field⟩ := found
          obtain ⟨field', hkeep, hfield'⟩ := hshape.field_sorted hnodup hkeeper hwanted hfield
          rw [keep_eq] at hkeep
          rw [hfield']
          exact Or.inr ⟨b, hb, htail, field, field', rfl, rfl, hkeep⟩

/-- A step that finds nothing ends the path. -/
theorem follow_of_none {container : Value} (hnone : first.selector.apply container = .ok none) :
    first.follow rest container =
      .ok (if first.required then .miss container else .fallback container) := by
  cases rest <;> rw [Step.follow, hnone] <;> rfl

/-- A step that finds nothing in two containers ends alike in both. -/
theorem sameEnd_of_none {container container' : Value}
    (hnone : first.selector.apply container = .ok none)
    (hnone' : first.selector.apply container' = .ok none) :
    Selection.SameEnd (first.follow rest container) (first.follow rest container') := by
  rw [follow_of_none hnone, follow_of_none hnone']
  cases first.required
  · exact .fallback container container'
  · exact .miss container container'

/-- What is kept of a value answers every way of the branches as the value does. A way that ends
ends at a leaf, which keeps all of what is found. -/
theorem follow_keepBelow (hspans : Spans bs ways) (hfields : NamesFields ways)
    (hfree : PrefixFree ways) (hkept : Keeper.keepBelow mark node (keepers mark bs) v = .ok kept)
    (hway : first :: rest ∈ ways) :
    Selection.SameEnd (first.follow rest kept) (first.follow rest v) := by
  induction rest generalizing bs ways first node v kept with
  | nil =>
      rcases apply_keepBelow hspans hfields hkept hway with rfl | ⟨hnone', hnone⟩ |
        ⟨b, hb, htail, field, field', hfield', hfield, hbelow⟩
      · rfl
      · exact sameEnd_of_none hnone' hnone
      · have hleaf : b.children = [] :=
          (hfree.tails (hfields.plain hspans hb)).eq_nil (hspans.stands hb).below htail
        rw [hleaf] at hbelow
        cases hbelow
        rw [Step.follow, Step.follow, hfield', hfield]
        exact .hit kept v field
  | cons next rest ih =>
      rcases apply_keepBelow hspans hfields hkept hway with rfl | ⟨hnone', hnone⟩ |
        ⟨b, hb, htail, field, field', hfield', hfield, hbelow⟩
      · rfl
      · exact sameEnd_of_none hnone' hnone
      · rw [Step.follow, Step.follow, hfield', hfield]
        exact ih (hspans.stands hb).below (hfields.tails b.selector)
          (hfree.tails (hfields.plain hspans hb)) hbelow htail

end Following

end Branch

namespace PathTree

open Branch

variable {paths : List Path}

theorem namesFields_waysOf (hfields : ∀ p ∈ paths, p.NamesFields) :
    Branch.NamesFields (waysOf paths) := by
  rintro way ⟨p, hp, rfl⟩ step hstep
  obtain ⟨hproperty, hplain⟩ := hfields p hp step.selector (List.mem_map_of_mem hstep)
  rcases hselector : step.selector with (_ | name) | index
  · rw [hselector] at hplain
    cases hplain
  · exact ⟨name, rfl⟩
  · rw [hselector] at hproperty
    cases hproperty

theorem prefixFree_waysOf (hstops : ∀ p ∈ paths, ∀ q ∈ paths, ¬ p.StopsWithin q) :
    PrefixFree (waysOf paths) := by
  rintro way ⟨p, hp, rfl⟩ way' ⟨q, hq, rfl⟩ hon
  by_contra hne
  exact hstops p hp q hq ⟨hon, hne⟩

/-- **Paths after pruning.** Paths that name fields, and of which none stops on the way of another,
end alike in a document and in what their tree keeps of it. -/
theorem select_prune {t : PathTree} (ht : ofPaths paths = .ok t)
    (hfields : ∀ p ∈ paths, p.NamesFields) (hstops : ∀ p ∈ paths, ∀ q ∈ paths, ¬ p.StopsWithin q)
    {mark : String} {document kept : Value} (hkept : t.prune mark document = .ok kept) {p : Path}
    (hp : p ∈ paths) : Selection.SameEnd (p.select kept) (p.select document) := by
  have hspans := spans_merge paths
  rw [← (merge_of_ofPaths ht).1] at hspans
  exact follow_keepBelow hspans (namesFields_waysOf hfields) (prefixFree_waysOf hstops) hkept
    ⟨p, hp, rfl⟩

/-- Paths that name fields have a tree. -/
theorem exists_ofPaths_of_namesFields (hfields : ∀ p ∈ paths, p.NamesFields) :
    ∃ t, ofPaths paths = .ok t := by
  have hfields' := namesFields_waysOf hfields
  have hchecked := (spans_merge paths).checkAll hfields'
  have hfamily := hfields'.homogeneous (spans_merge paths)
  refine ⟨⟨merge paths⟩, ?_⟩
  simp only [ofPaths, hchecked, hfamily, if_true]
  rfl

end PathTree

end DocQuery
