import DocQuery.Proofs.PathTree.Arena.Plans
import DocQuery.Proofs.PathTree.Heights

/-!
# What attaching makes of branches

Attaching and absorbing end, and do to the branches that an arena holds what adding a branch does to
branches. A wildcard that absorbs its siblings is the reason why this has to be shown along with how
high the branches are: what it absorbs is lower than the siblings, and absorbing it is attaching
again. So the induction is on the height, and each height needs that lower ones can be absorbed.

Main names:

* `Ready` — branches that can be added to others;
* `Attached`, `exists_attached` — what attaching does, if what is lower can be absorbed;
* `exists_grafted` — attaching a child and then absorbing it adds one branch;
* `absorbs` — absorbing adds branch after branch, at every height.
-/

namespace DocQuery.Arena

open Plan Branch

/-! ## Branches that can be added -/

/-- Branches of which none stands for a sibling, and none has longer paths. -/
structure Ready (height : Nat) (bs : List Branch) : Prop where
  tidy : TidyAll (fun _ => True) bs
  low : Low height bs

variable {height : Nat} {bs : List Branch}

theorem ready_nil : Ready height [] :=
  ⟨tidyAll_nil, fun _ hnone => nomatch hnone⟩

theorem Ready.children (hbs : Ready (height + 1) bs) {b : Branch} (hb : b ∈ bs) :
    Ready height b.children :=
  ⟨(hbs.tidy.2 b hb).children, height_le_iff.mp (hbs.low b hb)⟩

theorem Ready.add (hbs : Ready height bs) {b : Branch} (hb : Ready height [b]) :
    Ready height (Branch.add height bs b) :=
  ⟨tidyAll_add height bs b hbs.tidy (hb.tidy.2 b (List.mem_singleton_self b)),
    low_add hbs.low (hb.low b (List.mem_singleton_self b))⟩

theorem Ready.foldl (hbs : Ready height bs) {more : List Branch} (hmore : Ready height more) :
    Ready height (more.foldl (Branch.add height) bs) :=
  ⟨tidyAll_foldl (tidyAll_add height) hbs.tidy hmore.tidy.2,
    low_foldl (fun _ _ hlow hheight => low_add hlow hheight) hbs.low hmore.low⟩

theorem Ready.of_sublist (hbs : Ready height bs) {some : List Branch} (hsome : some.Sublist bs) :
    Ready height some :=
  ⟨⟨List.Pairwise.sublist (hsome.map _) hbs.tidy.1, fun b hb => hbs.tidy.2 b (hsome.subset hb)⟩,
    fun b hb => hbs.low b (hsome.subset hb)⟩

theorem ready_mk {s : Selector} {r : Bool} {children : List Branch}
    (hchildren : Ready height children) : Ready (height + 1) [.mk s r children] := by
  refine ⟨⟨List.pairwise_singleton _ _, fun b hb => ?_⟩, fun b hb => ?_⟩
  · rw [List.mem_singleton.mp hb]
    exact .of_children trivial hchildren.tidy
  · rw [List.mem_singleton.mp hb]
    exact height_le_iff.mpr hchildren.low

/-! ## Attaching -/

variable {a a' : Arena} {m : Nat} {s : Option Selector} {r : Bool} {ps : List Plan}
  {selector : Selector} {required : Bool}

/-- Absorbing adds the branches that are absorbed, as long as none is higher than so much; each step
down takes two more levels of recursion. What is absorbed is part of the arena, but not of the node
that absorbs. -/
def Absorbs (height : Nat) : Prop :=
  ∀ {a : Arena} {m : Nat} {s : Option Selector} {r : Bool} {ps : List Plan} {q : Plan},
    Bears a m s r ps → Ready height (eraseAll ps) → Holds a q → Ready height (eraseAll q.children) →
    (∀ i ∈ q.indices, i ∉ m :: indicesAll ps) →
    ∃ a' ps', (∀ depth > 2 * height, absorb depth a m q.index = some a') ∧
      Changes a a' m s r ps ps' ∧
      eraseAll ps' = (eraseAll q.children).foldl (Branch.add height) (eraseAll ps)

/-- Attaching leaves one of the children open: whatever is added below it, has been added below the
new selector. -/
structure Attached (height : Nat) (a a' : Arena) (m : Nat) (s : Option Selector) (r : Bool)
    (ps : List Plan) (selector : Selector) (required : Bool) (before : List Plan) (p : Plan)
    (after : List Plan) : Prop where
  changes : Changes a a' m s r ps (before ++ p :: after)
  adds : ∀ cs, Ready height cs →
    Branch.add (height + 1) (eraseAll ps) (.mk selector required cs) =
      eraseAll before ++
        .mk p.selector p.required (cs.foldl (Branch.add height) (eraseAll p.children)) ::
          eraseAll after

theorem uncovered_erase (hnone : ∀ p ∈ ps, covers p.selector selector = false) :
    ∀ b ∈ eraseAll ps, covers b.selector selector = false := by
  rw [forall_mem_eraseAll]
  simpa only [selector_erase] using hnone

/-- The child that stands for the new selector is required with it. -/
theorem attached_of_covers {before after : List Plan} {p : Plan}
    (hbears : Bears a m s r (before ++ p :: after))
    (hready : Ready (height + 1) (eraseAll (before ++ p :: after)))
    (hcovers : covers p.selector selector = true) :
    Attached height a (a.require p.index required) m s r (before ++ p :: after) selector required
      before (p.requiring required) after := by
  have hp : Holds a p := hbears.holds p (by simp)
  refine ⟨(replaces_require hp hbears.nodup_child required).changes hbears, fun cs _ => ?_⟩
  have hapart := hready.tidy.1
  rw [eraseAll_append, eraseAll] at hapart ⊢
  rw [add_of_covers hapart (by rwa [selector_erase]), selector_erase, required_erase,
    children_erase]
  rfl

/-- What a wildcard does with each sibling of its family. -/
def takeIn (depth wildcard : Nat) (a : Arena) (sibling : Nat × Draft) : Option Arena := do
  let draft ← a.nodes[sibling.1]?
  absorb depth (a.require wildcard draft.required) wildcard sibling.1

/-- A wildcard takes in its siblings one by one. -/
theorem exists_takenIn (habsorbs : Absorbs height) {todo : List Plan} {w : Plan} (hw : Holds a w)
    (hnodup : w.indices.Nodup) (hready : Ready height (eraseAll w.children))
    (htodo : ∀ q ∈ todo, Holds a q ∧ Ready height (eraseAll q.children) ∧
      ∀ i ∈ q.indices, i ∉ w.indices) :
    ∃ a' w', (∀ depth > 2 * height,
        (todo.map fun q => (q.index, q.draft)).foldlM (takeIn depth w.index) a = some a') ∧
      Replaces a a' w w' ∧ w'.selector = w.selector ∧
      w'.required = (w.required || (eraseAll todo).any Branch.required) ∧
      eraseAll w'.children = ((eraseAll todo).flatMap Branch.children).foldl (Branch.add height)
        (eraseAll w.children) := by
  induction todo generalizing a w with
  | nil =>
      have hstays : Replaces a a w w :=
        ⟨Nat.le_refl _, rfl, hw, hnodup, fun _ hi => Or.inl hi, fun _ _ _ => rfl⟩
      exact ⟨a, w, fun _ _ => rfl, hstays, rfl, (Bool.or_false _).symm, rfl⟩
  | cons q todo ih =>
      obtain ⟨hq, hqready, hqapart⟩ := htodo q (List.mem_cons_self ..)
      have hrequire := replaces_require hw hnodup q.required
      -- Absorbing starts from the required wildcard.
      have hq₁ : Holds (a.require w.index q.required) q := hrequire.keeps hq hqapart
      have hbears := hrequire.holds.bears hrequire.nodup
      have hqapart₁ := hrequire.apart hq hqapart
      simp only [indices_eq (w.requiring q.required)] at hqapart₁
      obtain ⟨b, below, habsorb, hchanges, hbelow⟩ := habsorbs hbears hready hq₁ hqready hqapart₁
      have hreplaces := hrequire.trans hchanges.replaces
      obtain ⟨a', w', hrest, hreplaces', hselector, hrequired, hchildren⟩ :=
        ih hreplaces.holds hreplaces.nodup (hbelow ▸ hready.foldl hqready) fun q' hq' => by
          obtain ⟨hheld, hready', hapart⟩ := htodo q' (List.mem_cons_of_mem _ hq')
          exact ⟨hreplaces.keeps hheld hapart, hready', hreplaces.apart hheld hapart⟩
      refine ⟨a', w', fun depth hdepth => ?_, hreplaces.trans hreplaces', hselector, ?_, ?_⟩
      · rw [List.map_cons, List.foldlM_cons]
        have hfirst : takeIn depth w.index a (q.index, q.draft) = some b := by
          unfold takeIn
          rw [hq.node]
          exact habsorb depth hdepth
        rw [hfirst]
        exact hrest depth hdepth
      · rw [hrequired, eraseAll, List.any_cons, required_erase]
        exact Bool.or_assoc ..
      · rw [hchildren, eraseAll, List.flatMap_cons, List.foldl_append, children_erase]
        exact congrArg (List.foldl _ · _) hbelow

/-- A selector that is no wildcard, and that none stands for, gets a node of its own. -/
theorem attached_plain (hbears : Bears a m s r ps) (hplain : selector.isWildcard = false)
    (hnone : ∀ p ∈ ps, covers p.selector selector = false) (required : Bool) :
    Attached height a (a.adopt m (ps.map index) selector required) m s r ps selector required ps
      (.mk a.size selector required []) [] := by
  refine ⟨changes_adopt hbears (.refl ps) selector required, fun cs hcs => ?_⟩
  rw [add_of_plain (uncovered_erase hnone) hplain]
  exact congrArg (fun below => eraseAll ps ++ [Branch.mk selector required below])
    (foldl_add_nil hcs.tidy hcs.low).symm

/-- A wildcard that none stands for takes in the siblings of its family. -/
theorem exists_attached_wildcard (habsorbs : Absorbs height) (hbears : Bears a m s r ps)
    (hready : Ready (height + 1) (eraseAll ps)) (hwildcard : selector.isWildcard = true)
    (hnone : ∀ p ∈ ps, covers p.selector selector = false) (required : Bool) :
    ∃ a' kept w, (∀ depth > 2 * height,
        ((ps.filter fun p => sameFamily p.selector selector).map fun p =>
          (p.index, p.draft)).foldlM (takeIn depth a.size)
          (a.adopt m ((ps.filter fun p => !sameFamily p.selector selector).map index) selector
            required) = some a') ∧
      w.index = a.size ∧ Attached height a a' m s r ps selector required kept w [] := by
  let absorbed := ps.filter fun p => sameFamily p.selector selector
  let kept := ps.filter fun p => !sameFamily p.selector selector
  let w : Plan := .mk a.size selector required []
  have hm : m < a.size := lt_size_of_node hbears.node
  have hadopt := changes_adopt hbears (List.filter_sublist : kept.Sublist ps) selector required
  have hbears₁ := hadopt.bears
  have hw : Holds (a.adopt m (kept.map index) selector required) w := hbears₁.holds w (by simp [w])
  -- The siblings that are taken in still hang together after the node of the wildcard is there, and
  -- none of their nodes is that node.
  have htodo (q : Plan) (hq : q ∈ absorbed) :
      Holds (a.adopt m (kept.map index) selector required) q ∧
        Ready height (eraseAll q.children) ∧ ∀ i ∈ q.indices, i ∉ w.indices := by
    have hq : q ∈ ps := (List.mem_filter.mp hq).1
    have hheld := hbears.holds q hq
    refine ⟨hheld.adopt hm (fun hi => ?_) _ _ _, ?_, fun i hi hnew => ?_⟩
    · exact (List.nodup_cons.mp hbears.nodup).1 (mem_indicesAll.mpr ⟨q, hq, hi⟩)
    · rw [← children_erase]
      exact hready.children (erase_mem_eraseAll hq)
    · have heq : i = a.size := List.mem_singleton.mp hnew
      exact Nat.lt_irrefl _ (heq ▸ hheld.lt_size hi)
  -- The loop replaces the plan of the wildcard, one sibling after the other.
  obtain ⟨a', w', hloop, hreplaces, hselector, hrequired, hchildren⟩ :=
    exists_takenIn habsorbs hw (List.pairwise_singleton _ _) ready_nil htodo
  refine ⟨a', kept, w', hloop, hreplaces.index_eq, hadopt.trans (hreplaces.changes hbears₁), ?_⟩
  have habsorbed : eraseAll absorbed = _ := eraseAll_filter (fun t => sameFamily t selector) ps
  have hkept : eraseAll kept = _ := eraseAll_filter (fun t => !sameFamily t selector) ps
  intro cs _
  rw [add_of_wildcard (uncovered_erase hnone) hwildcard, hselector, hrequired, hchildren, habsorbed,
    hkept]
  rfl

/-- Attaching, in terms of the plans below the node. -/
theorem attach_eq (hbears : Bears a m s r ps) (selector : Selector) (required : Bool)
    (depth : Nat) : attach (depth + 1) a m selector required =
      match ps.find? fun p => p.selector.isWildcard && sameFamily p.selector selector with
      | some p => some (a.require p.index required, p.index)
      | none =>
        if selector.isWildcard then
          (((ps.filter fun p => sameFamily p.selector selector).map fun p =>
            (p.index, p.draft)).foldlM (takeIn depth a.size)
            (a.adopt m ((ps.filter fun p => !sameFamily p.selector selector).map index) selector
              required)).map fun a' => (a', a.size)
        else
          match ps.find? fun p => p.selector == selector with
          | some p => some (a.require p.index required, p.index)
          | none => some (a.adopt m (ps.map index) selector required, a.size) := by
  rw [attach, children_eq hbears.node hbears.holds]
  simp only [Option.bind_eq_bind, Option.bind_some, List.find?_map, List.partition_eq_filter_filter,
    List.filter_map, List.map_map, Option.map_eq_bind]
  have hwildcard : (fun c : Nat × Draft => c.2.isWildcardOf selector) ∘
      (fun p : Plan => (p.index, p.draft)) =
      fun p => p.selector.isWildcard && sameFamily p.selector selector := rfl
  have hequal : (fun c : Nat × Draft => c.2.selector == some selector) ∘
      (fun p : Plan => (p.index, p.draft)) = fun p => p.selector == selector := rfl
  rw [hwildcard, hequal]
  cases ps.find? fun p => p.selector.isWildcard && sameFamily p.selector selector with
  | some p => rfl
  | none =>
      cases selector.isWildcard with
      | true => rfl
      | false => cases ps.find? fun p => p.selector == selector <;> rfl

/-- Attaching ends, with the branch that adding would end with. -/
theorem exists_attached (habsorbs : Absorbs height) (hbears : Bears a m s r ps)
    (hready : Ready (height + 1) (eraseAll ps)) (selector : Selector) (required : Bool) :
    ∃ a' before p after,
      (∀ depth > 2 * height, attach (depth + 1) a m selector required = some (a', p.index)) ∧
      Attached height a a' m s r ps selector required before p after := by
  simp only [attach_eq hbears]
  cases hwildcard : ps.find? fun p => p.selector.isWildcard && sameFamily p.selector selector with
  | some p =>
      obtain ⟨hp, before, after, rfl, _⟩ := List.find?_eq_some_iff_append.mp hwildcard
      refine ⟨_, before, p.requiring required, after, fun _ _ => rfl,
        attached_of_covers hbears hready ?_⟩
      unfold covers
      rw [hp, Bool.or_true]
  | none =>
      -- Without a wildcard of the family only an equal selector stands for the new one.
      have hcovers (p : Plan) (hp : p ∈ ps) :
          covers p.selector selector = (p.selector == selector) := by
        unfold covers
        rw [Bool.eq_false_iff.mpr (List.find?_eq_none.mp hwildcard p hp), Bool.or_false]
      cases hkind : selector.isWildcard with
      | true =>
          have hnone (p : Plan) (hp : p ∈ ps) : covers p.selector selector = false := by
            rw [hcovers p hp, beq_eq_false_iff_ne]
            intro heq
            refine List.find?_eq_none.mp hwildcard p hp ?_
            rw [heq, hkind, sameFamily, beq_self_eq_true, Bool.and_self]
          obtain ⟨a', kept, w, hloop, hindex, hattached⟩ :=
            exists_attached_wildcard habsorbs hbears hready hkind hnone required
          refine ⟨a', kept, w, [], fun depth hdepth => ?_, hattached⟩
          rw [if_pos rfl, hloop depth hdepth, hindex, Option.map_some]
      | false =>
          cases hequal : ps.find? fun p => p.selector == selector with
          | some p =>
              obtain ⟨hp, before, after, rfl, _⟩ := List.find?_eq_some_iff_append.mp hequal
              refine ⟨_, before, p.requiring required, after, fun _ _ => rfl,
                attached_of_covers hbears hready ?_⟩
              rw [hcovers p (by simp)]
              exact hp
          | none =>
              have hnone (p : Plan) (hp : p ∈ ps) : covers p.selector selector = false := by
                rw [hcovers p hp]
                exact Bool.eq_false_iff.mpr (List.find?_eq_none.mp hequal p hp)
              exact ⟨_, ps, _, [], fun _ _ => rfl, attached_plain hbears hkind hnone required⟩

/-! ## Absorbing -/

theorem Attached.ready {before after : List Plan} {p : Plan}
    (hattached : Attached height a a' m s r ps selector required before p after)
    (hready : Ready (height + 1) (eraseAll ps)) : Ready height (eraseAll p.children) := by
  have hadded := hready.add (ready_mk (s := selector) (r := required) ready_nil)
  rw [hattached.adds [] ready_nil] at hadded
  exact hadded.children (List.mem_append_right _ (List.mem_cons_self ..))

/-- What is done below the child that attaching leaves open is done to the branch that is added. -/
theorem Attached.grow {before after below : List Plan} {p : Plan} {cs : List Branch} {a'' : Arena}
    (hattached : Attached height a a' m s r ps selector required before p after)
    (hchanges : Changes a' a'' p.index (some p.selector) p.required p.children below)
    (hcs : Ready height cs)
    (hbelow : eraseAll below = cs.foldl (Branch.add height) (eraseAll p.children)) :
    Changes a a'' m s r ps (before ++ p.withChildren below :: after) ∧
      eraseAll (before ++ p.withChildren below :: after) =
        Branch.add (height + 1) (eraseAll ps) (.mk selector required cs) := by
  refine ⟨hattached.changes.trans (hchanges.replaces.changes hattached.changes.bears), ?_⟩
  rw [hattached.adds cs hcs, ← hbelow, eraseAll_append, eraseAll, erase_eq]
  rfl

/-- What absorbing does with each child of what is absorbed. -/
def graft (depth target : Nat) (a : Arena) (child : Nat × Draft) : Option Arena := do
  let draft ← a.nodes[child.1]?
  match draft.selector with
  | none => return a
  | some selector =>
    let (a, merged) ← attach depth a target selector draft.required
    absorb depth a merged child.1

/-- A child that is absorbed is added as one branch. -/
theorem exists_grafted (habsorbs : Absorbs height) (hbears : Bears a m s r ps)
    (hready : Ready (height + 1) (eraseAll ps)) {c : Plan} (hc : Holds a c)
    (hcready : Ready (height + 1) [c.erase]) (hapart : ∀ i ∈ c.indices, i ∉ m :: indicesAll ps) :
    ∃ a' ps', (∀ depth > 2 * height, graft (depth + 1) m a (c.index, c.draft) = some a') ∧
      Changes a a' m s r ps ps' ∧
      eraseAll ps' = Branch.add (height + 1) (eraseAll ps) c.erase := by
  obtain ⟨b, before, p, after, hattach, hattached⟩ :=
    exists_attached habsorbs hbears hready c.selector c.required
  have hchanges := hattached.changes
  have hp : Holds b p := hchanges.bears.holds p (by simp)
  have hcs : Ready height (eraseAll c.children) := by
    rw [← children_erase]
    exact hcready.children (List.mem_singleton_self _)
  have hout : ∀ i ∈ c.indices, i ∉ p.index :: indicesAll p.children := by
    intro i hi hi'
    rw [← indices_eq] at hi'
    refine hchanges.apart hc hapart i hi (List.mem_cons_of_mem _ ?_)
    exact mem_indicesAll.mpr ⟨p, by simp, hi'⟩
  -- Attaching has found or made the node; what hangs below the child is merged into it.
  obtain ⟨a', below, habsorb, hchanges', hbelow⟩ :=
    habsorbs (hp.bears hchanges.bears.nodup_child) (hattached.ready hready)
      (hchanges.holds hc hapart) hcs hout
  obtain ⟨hall, hall'⟩ := hattached.grow hchanges' hcs hbelow
  refine ⟨a', _, fun depth hdepth => ?_, hall, ?_⟩
  · unfold graft
    rw [hc.node]
    show (attach (depth + 1) a m c.selector c.required).bind
      (fun found => absorb (depth + 1) found.1 found.2 c.index) = _
    rw [hattach depth hdepth]
    exact habsorb (depth + 1) (Nat.lt_succ_of_lt hdepth)
  · rw [hall', erase_eq c]

/-- Children are absorbed one by one. -/
theorem exists_allGrafted (habsorbs : Absorbs height) {todo : List Plan} (hbears : Bears a m s r ps)
    (hready : Ready (height + 1) (eraseAll ps)) (htodo : Ready (height + 1) (eraseAll todo))
    (hheld : ∀ c ∈ todo, Holds a c ∧ ∀ i ∈ c.indices, i ∉ m :: indicesAll ps) :
    ∃ a' ps', (∀ depth > 2 * height,
        (todo.map fun c => (c.index, c.draft)).foldlM (graft (depth + 1) m) a = some a') ∧
      Changes a a' m s r ps ps' ∧
      eraseAll ps' = (eraseAll todo).foldl (Branch.add (height + 1)) (eraseAll ps) := by
  induction todo generalizing a ps with
  | nil => exact ⟨a, ps, fun _ _ => rfl, .refl hbears, rfl⟩
  | cons c todo ih =>
      obtain ⟨hc, hcapart⟩ := hheld c (List.mem_cons_self ..)
      rw [eraseAll] at htodo
      have hcready : Ready (height + 1) [c.erase] := htodo.of_sublist (by simp)
      obtain ⟨b, ps', hgraft, hchanges, hps'⟩ :=
        exists_grafted habsorbs hbears hready hc hcready hcapart
      -- What is left to absorb is still where it was.
      have hheld' (c' : Plan) (hc' : c' ∈ todo) :
          Holds b c' ∧ ∀ i ∈ c'.indices, i ∉ m :: indicesAll ps' := by
        obtain ⟨hheld', hapart'⟩ := hheld c' (List.mem_cons_of_mem _ hc')
        exact ⟨hchanges.holds hheld' hapart', hchanges.apart hheld' hapart'⟩
      obtain ⟨a', ps'', hrest, hchanges', hps''⟩ :=
        ih hchanges.bears (hps' ▸ hready.add hcready)
          (htodo.of_sublist (List.sublist_cons_self ..)) hheld'
      refine ⟨a', ps'', fun depth hdepth => ?_, hchanges.trans hchanges', ?_⟩
      · rw [List.map_cons, List.foldlM_cons, hgraft depth hdepth]
        exact hrest depth hdepth
      · rw [hps'', hps', eraseAll, List.foldl_cons]

/-- Absorbing, in terms of the plan that is absorbed. -/
theorem absorb_eq {q : Plan} (hq : Holds a q) (m depth : Nat) :
    absorb (depth + 1) a m q.index =
      (q.children.map fun c => (c.index, c.draft)).foldlM (graft depth m) a := by
  rw [absorb, children_eq hq.node fun c hc => hq.child hc]
  rfl

theorem absorbs_zero : Absorbs 0 := by
  intro a m s r ps q hbears hready hq hqready _
  have hnone : q.children = [] := by
    have hnone := low_zero hqready.low
    rw [eraseAll_eq_map, List.map_eq_nil_iff] at hnone
    exact hnone
  refine ⟨a, ps, fun depth hdepth => ?_, .refl hbears, ?_⟩
  · obtain ⟨depth, rfl⟩ := Nat.exists_eq_add_one_of_ne_zero (Nat.ne_zero_of_lt hdepth)
    rw [absorb_eq hq, hnone]
    rfl
  · rw [hnone]
    rfl

theorem absorbs_succ (habsorbs : Absorbs height) : Absorbs (height + 1) := by
  intro a m s r ps q hbears hready hq hqready hapart
  have hheld : ∀ c ∈ q.children, Holds a c ∧ ∀ i ∈ c.indices, i ∉ m :: indicesAll ps := by
    refine fun c hc => ⟨hq.child hc, fun i hi => hapart i ?_⟩
    rw [indices_eq]
    exact List.mem_cons_of_mem _ (mem_indicesAll.mpr ⟨c, hc, hi⟩)
  obtain ⟨a', ps', hgraft, hchanges, hps'⟩ :=
    exists_allGrafted habsorbs hbears hready hqready hheld
  refine ⟨a', ps', fun depth hdepth => ?_, hchanges, hps'⟩
  obtain ⟨depth, rfl⟩ : ∃ d, depth = d + 2 := ⟨depth - 2, by omega⟩
  rw [absorb_eq hq]
  exact hgraft depth (by omega)

/-- Absorbing ends, whatever the height of what is absorbed. -/
theorem absorbs (height : Nat) : Absorbs height := by
  induction height with
  | zero => exact absorbs_zero
  | succ height ih => exact absorbs_succ ih

end DocQuery.Arena
