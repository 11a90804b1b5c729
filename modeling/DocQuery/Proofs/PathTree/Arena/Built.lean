import DocQuery.Proofs.PathTree.Arena.Attaching
import DocQuery.Proofs.PathTree.Exits

/-!
# Trees that arenas are frozen to

Adding paths to an arena ends, and so does freezing it; what comes out is the tree that merging the
branches of the paths makes, or the same failure. Both follow the arena along with the branches that
its root bears: a path that is added attaches a node for each step, and freezing reads the branches
back, each with the check of what is below it.

Main names:

* `exists_ofPaths` — the arena of paths, and the branches that its root bears;
* `run_freeze`, `Bears.build` — what freezing a node ends with, and freezing the arena;
* `exists_built` — the shape of the arena, and of the tree.
-/

namespace DocQuery.Arena

open Plan Branch

variable {a : Arena} {m height : Nat} {s : Option Selector} {r : Bool} {ps : List Plan}
  {paths : List Path}

/-! ## Adding paths -/

theorem ready_ofSteps {step : Step} {steps : List Step} (hheight : steps.length < height) :
    Ready height [ofSteps step steps] := by
  obtain ⟨height, rfl⟩ := Nat.exists_eq_add_one_of_ne_zero (Nat.ne_zero_of_lt hheight)
  induction steps generalizing step height with
  | nil => exact ready_mk ready_nil
  | cons next steps ih =>
      have hlength : steps.length < height := Nat.lt_of_succ_lt_succ hheight
      obtain ⟨height, rfl⟩ := Nat.exists_eq_add_one_of_ne_zero (Nat.ne_zero_of_lt hlength)
      exact ready_mk (ih height hlength)

/-- Steps that are attached one below the other add the branch of the steps. -/
theorem exists_stepsAttached (hbears : Bears a m s r ps) (hready : Ready height (eraseAll ps))
    (step : Step) {steps : List Step} (hheight : steps.length < height) :
    ∃ found ps',
      (∀ depth ≥ 2 * height, (step :: steps).foldlM (attachStep depth) (a, m) = some found) ∧
      Changes a found.1 m s r ps ps' ∧
      eraseAll ps' = Branch.add height (eraseAll ps) (ofSteps step steps) := by
  -- Each step is attached below the node that the step before it has found, so the plans and the
  -- branches that are left shrink together.
  induction steps generalizing a m s r ps step height with
  | nil =>
      obtain ⟨height, rfl⟩ := Nat.exists_eq_add_one_of_ne_zero (Nat.ne_zero_of_lt hheight)
      obtain ⟨a', before, p, after, hattach, hattached⟩ :=
        exists_attached (absorbs height) hbears hready step.selector step.required
      refine ⟨(a', p.index), _, fun depth hdepth => ?_, hattached.changes, ?_⟩
      · obtain ⟨depth, rfl⟩ : ∃ d, depth = d + 1 := ⟨depth - 1, by omega⟩
        rw [List.foldlM_cons, attachStep, hattach depth (by omega)]
        rfl
      · rw [ofSteps, hattached.adds [] ready_nil, eraseAll_append, eraseAll, erase_eq]
        rfl
  | cons next steps ih =>
      obtain ⟨height, rfl⟩ := Nat.exists_eq_add_one_of_ne_zero (Nat.ne_zero_of_lt hheight)
      obtain ⟨a', before, p, after, hattach, hattached⟩ :=
        exists_attached (absorbs height) hbears hready step.selector step.required
      have hlength : steps.length < height := Nat.lt_of_succ_lt_succ hheight
      have hp : Holds a' p := hattached.changes.bears.holds p (by simp)
      obtain ⟨found, below, hfound, hchanges, hbelow⟩ :=
        ih (hp.bears hattached.changes.bears.nodup_child) (hattached.ready hready) next hlength
      obtain ⟨hall, hall'⟩ := hattached.grow hchanges (ready_ofSteps hlength) hbelow
      refine ⟨found, _, fun depth hdepth => ?_, hall, hall'⟩
      obtain ⟨depth, rfl⟩ : ∃ d, depth = d + 1 := ⟨depth - 1, by omega⟩
      rw [List.foldlM_cons, attachStep, hattach depth (by omega)]
      exact hfound (depth + 1) (by omega)

/-- Paths that are added one by one add their branches. -/
theorem exists_pathsAdded (hpaths : ∀ p ∈ paths, p.steps.length ≤ height)
    (hbears : Bears a root none true ps) (hready : Ready height (eraseAll ps)) :
    ∃ a' ps', (∀ depth ≥ 2 * height, paths.foldlM (addPath depth) a = some a') ∧
      Bears a' root none true ps' ∧ Ready height (eraseAll ps') ∧
      eraseAll ps' =
        (paths.map fun p => ofSteps p.first p.rest).foldl (Branch.add height) (eraseAll ps) := by
  induction paths generalizing a ps with
  | nil => exact ⟨a, ps, fun _ _ => rfl, hbears, hready, rfl⟩
  | cons p paths ih =>
      have hheight : p.rest.length < height := hpaths p (List.mem_cons_self ..)
      obtain ⟨found, ps', hfound, hchanges, hps'⟩ :=
        exists_stepsAttached hbears hready p.first hheight
      obtain ⟨a', ps'', hrest, hbears', hready', hps''⟩ :=
        ih (fun p' hp' => hpaths p' (List.mem_cons_of_mem _ hp')) hchanges.bears
          (hps' ▸ hready.add (ready_ofSteps hheight))
      refine ⟨a', ps'', fun depth hdepth => ?_, hbears', hready', ?_⟩
      · have hadd : addPath depth a p = some found.1 := by
          rw [addPath, Path.steps, hfound depth hdepth, Option.map_some]
        rw [List.foldlM_cons, hadd]
        exact hrest depth hdepth
      · rw [hps'', hps', List.map_cons, List.foldl_cons]

theorem bears_empty : Bears empty root none true [] :=
  ⟨rfl, (fun _ hnone => nomatch hnone), List.pairwise_singleton _ _⟩

/-- How many steps the longest of the paths has. -/
def longest (paths : List Path) : Nat :=
  (paths.map (·.steps.length)).foldl max 0

/-- Adding paths ends, with the branches that merging the paths ends with. -/
theorem exists_ofPaths (paths : List Path) :
    ∃ a ps, (∀ depth ≥ 2 * longest paths, ofPaths depth paths = some a) ∧
      Bears a root none true ps ∧ Low (longest paths) (eraseAll ps) ∧
      eraseAll ps = PathTree.merge paths := by
  have hpaths : ∀ p ∈ paths, p.steps.length ≤ longest paths :=
    fun p hp => PathTree.le_foldl_max (Or.inr (List.mem_map_of_mem hp))
  obtain ⟨a, ps, hadded, hbears, hready, hmerged⟩ := exists_pathsAdded hpaths bears_empty ready_nil
  exact ⟨a, ps, hadded, hbears, hready.low, hmerged⟩

/-! ## Freezing -/

/-- The check of the branches below a node. -/
def settle (node : Option Selector) (bs : List Branch) : Except TreeError Unit := do
  checkAll bs
  if homogeneous bs then return () else throw (.mixed node)

/-- What freezing a node does with each child. -/
def freezeChild (depth : Nat) (a : Arena) (child : Nat) : ExceptT TreeError Option Branch := do
  let draft ← (a.nodes[child]? : Option Draft)
  let selector ← draft.selector
  return Branch.mk selector draft.required (← freeze depth a child)

theorem mapM_freezeChild {depth : Nat}
    (hchildren : ∀ p ∈ ps,
      (freezeChild depth a p.index).run = some (p.erase.check.map fun _ => p.erase)) :
    ((ps.map index).mapM (freezeChild depth a)).run =
      some ((checkAll (eraseAll ps)).map fun _ => eraseAll ps) := by
  induction ps with
  | nil => rfl
  | cons p ps ih =>
      have hrest := ih fun q hq => hchildren q (List.mem_cons_of_mem _ hq)
      rw [List.map_cons, List.mapM_cons, ExceptT.run_bind, hchildren p (List.mem_cons_self ..),
        eraseAll, checkAll]
      cases p.erase.check with
      | error e => rfl
      | ok done =>
          show ExceptT.run ((ps.map index).mapM (freezeChild depth a) >>= _) = _
          rw [ExceptT.run_bind, hrest]
          cases checkAll (eraseAll ps) <;> rfl

theorem run_freezeChild {depth : Nat} {p : Plan} (hp : Holds a p)
    (hfreeze : (freeze depth a p.index).run =
      some ((settle (some p.selector) (eraseAll p.children)).map fun _ => eraseAll p.children)) :
    (freezeChild depth a p.index).run = some (p.erase.check.map fun _ => p.erase) := by
  unfold freezeChild
  rw [ExceptT.run_bind]
  simp only [hp.node]
  show ExceptT.run (freeze depth a p.index >>= fun below =>
    pure (Branch.mk p.selector p.required below)) = _
  rw [ExceptT.run_bind, hfreeze, erase_eq, check, settle]
  cases checkAll (eraseAll p.children) with
  | error e => rfl
  | ok done => cases homogeneous (eraseAll p.children) <;> rfl

/-- A node is frozen to the branches that it bears, if they and all below them pass the check.
Recursion goes as deep as they are high. -/
theorem run_freeze {depth : Nat} (hlow : Low depth (eraseAll ps))
    (hnode : a.nodes[m]? = some ⟨s, r, ps.map index⟩) (hholds : ∀ p ∈ ps, Holds a p) :
    (freeze (depth + 1) a m).run = some ((settle s (eraseAll ps)).map fun _ => eraseAll ps) := by
  -- The depth bounds the height of what is frozen; without depth there is nothing below the node.
  induction depth generalizing m s r ps with
  | zero =>
      have hnone : ps = [] := by
        rw [← List.map_eq_nil_iff, ← eraseAll_eq_map]
        exact low_zero hlow
      subst hnone
      rw [freeze, ExceptT.run_bind]
      simp only [hnode]
      rfl
  | succ depth ih =>
      have hchildren (p : Plan) (hp : p ∈ ps) :
          (freezeChild (depth + 1) a p.index).run = some (p.erase.check.map fun _ => p.erase) := by
        have hheld := hholds p hp
        have hheight := height_le_iff.mp (hlow p.erase (erase_mem_eraseAll hp))
        rw [children_erase] at hheight
        exact run_freezeChild hheld (ih hheight hheld.node fun q hq => hheld.child hq)
      rw [freeze, ExceptT.run_bind]
      simp only [hnode]
      show ExceptT.run ((ps.map index).mapM (freezeChild (depth + 1) a) >>= _) = _
      rw [ExceptT.run_bind, mapM_freezeChild hchildren, settle]
      cases checkAll (eraseAll ps) with
      | error e => rfl
      | ok done =>
          show ExceptT.run (if homogeneous (eraseAll ps) = true then _ else _) =
            some (Except.map _ (if homogeneous (eraseAll ps) = true then _ else _))
          split <;> rfl

theorem ofPaths_eq_settle (paths : List Path) :
    PathTree.ofPaths paths =
      (settle none (PathTree.merge paths)).map fun _ => ⟨PathTree.merge paths⟩ := by
  unfold PathTree.ofPaths settle
  generalize PathTree.merge paths = bs
  show (checkAll bs >>= fun _ => _) = Except.map _ (checkAll bs >>= fun _ => _)
  cases checkAll bs with
  | error e => rfl
  | ok done =>
      show (if homogeneous bs = true then _ else _) =
        Except.map _ (if homogeneous bs = true then _ else _)
      split <;> rfl

/-- Freezing an arena ends, with the tree of the branches that the root bears. -/
theorem Bears.build (hbears : Bears a root none true ps) (hlow : Low height (eraseAll ps))
    (hmerged : eraseAll ps = PathTree.merge paths) {depth : Nat} (hdepth : depth > height) :
    build depth a = some (PathTree.ofPaths paths) := by
  obtain ⟨depth, rfl⟩ := Nat.exists_eq_add_one_of_ne_zero (Nat.ne_zero_of_lt hdepth)
  have hlow' : Low depth (eraseAll ps) :=
    fun b hb => Nat.le_trans (hlow b hb) (Nat.le_of_lt_succ hdepth)
  rw [Arena.build, ExceptT.run_map, run_freeze hlow' hbears.node hbears.holds, hmerged,
    ofPaths_eq_settle]
  cases settle none (PathTree.merge paths) <;> rfl

/-! ## The shape of the arena -/

/-- Nodes that refer to each other as those of a tree, the wildcards alone in their families. -/
structure WellFormed (a : Arena) : Prop where
  /-- A child is a node that comes after its parent. -/
  ascending : ∀ {i : Nat} {d : Draft}, a.nodes[i]? = some d → ∀ c ∈ d.children, i < c ∧ c < a.size
  /-- A node that is reached has one parent that is. -/
  parent : ∀ {c : Nat}, a.Reached c → c ≠ root → ∃! i, a.Reached i ∧ a.IsParent i c
  /-- Siblings have different selectors. -/
  distinct : ∀ {i : Nat} {d : Draft}, a.nodes[i]? = some d → (d.children.map a.selector?).Nodup
  /-- A wildcard has no sibling of its family. -/
  alone : ∀ {i c c' : Nat} {d : Draft} {s t : Selector}, a.nodes[i]? = some d → c ∈ d.children →
    c' ∈ d.children → a.selector? c = some s → s.isWildcard = true → a.selector? c' = some t →
    sameFamily s t = true → c' = c

theorem Sound.wellFormed (ha : a.Sound) : a.WellFormed := by
  refine ⟨ha.ascending, ha.existsUnique_parent, fun {i d} hd => ?_, ha.eq_of_wildcard⟩
  refine List.pairwise_map.mpr ((ha.nodup hd).imp_of_mem fun hc hc' hne => ?_)
  exact ha.selector_ne hd hc hc' hne

/-- However many paths are added, this ends, with an arena of the shape of a tree; freezing it ends
as merging the paths does, and below every node of the tree there is what pruning relies on. No
recursion goes deeper than twice the longest path. -/
theorem exists_built (paths : List Path) :
    ∃ a, (∀ depth ≥ 2 * longest paths, ofPaths depth paths = some a) ∧ a.WellFormed ∧
      ∀ depth > longest paths, build depth a = some (PathTree.ofPaths paths) ∧
        ∀ t, build depth a = some (.ok t) → ∀ node bs, t.Below node bs →
          ∀ mark, Definite mark bs := by
  obtain ⟨a, ps, hadded, hbears, hlow, hmerged⟩ := exists_ofPaths paths
  have hshape := (sound_ofPaths (hadded _ (Nat.le_refl _))).wellFormed
  refine ⟨a, hadded, hshape, fun depth hdepth => ?_⟩
  have hbuild := hbears.build hlow hmerged hdepth
  refine ⟨hbuild, fun t ht node bs hbelow mark => ?_⟩
  rw [hbuild, Option.some_inj] at ht
  exact PathTree.definite_of_below ht hbelow mark

/-- The wildcard of `/a/[*]/k?` takes in what is below `[2]` in `/a/[2]/id`, and `/a` is shared. -/
theorem exists_built_absorbed :
    let a : Step := ⟨.property (some "a"), true⟩
    let id : Branch := .mk (.property (some "id")) true []
    let k : Branch := .mk (.property (some "k")) false []
    ∃ arena t, ofPaths 6 [⟨a, [⟨.item (some 2), true⟩, ⟨.property (some "id"), true⟩]⟩,
        ⟨a, [⟨.item none, true⟩, ⟨.property (some "k"), false⟩]⟩] = some arena ∧
      arena.WellFormed ∧ build 4 arena = some (.ok t) ∧
      t.branches = [.mk a.selector true [.mk (.item none) true [id, k]]] ∧
      Definite Provenance.defaultMark [id, k] := by
  intro a id k
  obtain ⟨arena, hadded, hshape, hbuilt⟩ := exists_built
    [⟨a, [⟨.item (some 2), true⟩, ⟨.property (some "id"), true⟩]⟩,
      ⟨a, [⟨.item none, true⟩, ⟨.property (some "k"), false⟩]⟩]
  obtain ⟨hbuild, hdefinite⟩ := hbuilt 4 (by decide)
  refine ⟨arena, ⟨[.mk a.selector true [.mk (.item none) true [id, k]]]⟩,
    hadded 6 (by decide), hshape, hbuild, rfl, ?_⟩
  have hroot : PathTree.Below ⟨[.mk a.selector true [.mk (.item none) true [id, k]]]⟩ _ _ := .root
  exact hdefinite _ hbuild _ _ ((hroot.branch (List.mem_singleton_self _)).branch
    (List.mem_singleton_self _)) _

end DocQuery.Arena
