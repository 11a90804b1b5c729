import DocQuery.Proofs.PathTree.Arena.Sound
import Mathlib.Data.List.Flatten
import Mathlib.Data.List.Nodup

/-!
# Branches in an arena

A branch stands in an arena where its indices say so. A plan is a branch with these indices; an
arena holds it if every node of it is there. What an operation does below a node is said by the
plans of the children before and after: the nodes after it are those from before and new ones, and
nodes that belong to neither are left alone. So what happens below one child leaves its siblings as
they are, and what has been absorbed can still be read.

Main names:

* `Plan`, `Plan.erase`, `Plan.indices` — branches with indices;
* `Holds`, `Bears` — plans that stand in an arena, and the children that a node bears;
* `Replaces`, `Changes` — what an operation makes of a plan, and of the children of a node;
* `Replaces.changes`, `Changes.replaces` — from a child to its parent, and back;
* `replaces_require`, `changes_adopt` — the two steps.
-/

namespace DocQuery.Arena

/-- A branch with the index of every node. -/
inductive Plan
  | mk (index : Nat) (selector : Selector) (required : Bool) (children : List Plan)

namespace Plan

/-- The index of the highest node. -/
def index : Plan → Nat
  | mk index _ _ _ => index

/-- The selector of the highest node. -/
def selector : Plan → Selector
  | mk _ selector _ _ => selector

/-- Whether the highest node is required. -/
def required : Plan → Bool
  | mk _ _ required _ => required

/-- The plans below the highest node. -/
def children : Plan → List Plan
  | mk _ _ _ children => children

mutual

/-- The branch without indices. -/
def erase : Plan → Branch
  | mk _ selector required children => .mk selector required (eraseAll children)

/-- Branches without indices. -/
def eraseAll : List Plan → List Branch
  | [] => []
  | p :: ps => p.erase :: eraseAll ps

end

mutual

/-- The indices of all nodes of a branch. -/
def indices : Plan → List Nat
  | mk index _ _ children => index :: indicesAll children

/-- The indices of all nodes of branches. -/
def indicesAll : List Plan → List Nat
  | [] => []
  | p :: ps => p.indices ++ indicesAll ps

end

/-- The highest node, as it stands in an arena. -/
def draft (p : Plan) : Draft :=
  ⟨some p.selector, p.required, p.children.map index⟩

/-- The plan with other plans below the highest node. -/
def withChildren (p : Plan) (children : List Plan) : Plan :=
  mk p.index p.selector p.required children

/-- The plan, required if asked to. -/
def requiring (p : Plan) (required : Bool) : Plan :=
  mk p.index p.selector (p.required || required) p.children

variable {p : Plan} {ps qs : List Plan}

theorem erase_eq (p : Plan) : p.erase = .mk p.selector p.required (eraseAll p.children) := by
  cases p
  rw [erase]
  rfl

theorem indices_eq (p : Plan) : p.indices = p.index :: indicesAll p.children := by
  cases p
  rw [indices]
  rfl

theorem eraseAll_eq_map (ps : List Plan) : eraseAll ps = ps.map erase := by
  induction ps with
  | nil => rfl
  | cons p ps ih => rw [eraseAll, ih, List.map_cons]

theorem indicesAll_eq_flatMap (ps : List Plan) : indicesAll ps = ps.flatMap indices := by
  induction ps with
  | nil => rfl
  | cons p ps ih => rw [indicesAll, ih, List.flatMap_cons]

@[simp] theorem eraseAll_append : eraseAll (ps ++ qs) = eraseAll ps ++ eraseAll qs := by
  rw [eraseAll_eq_map, eraseAll_eq_map, eraseAll_eq_map, List.map_append]

@[simp] theorem indicesAll_append : indicesAll (ps ++ qs) = indicesAll ps ++ indicesAll qs := by
  rw [indicesAll_eq_flatMap, indicesAll_eq_flatMap, indicesAll_eq_flatMap, List.flatMap_append]

@[simp] theorem selector_erase (p : Plan) : p.erase.selector = p.selector := by
  rw [erase_eq]
  rfl

@[simp] theorem required_erase (p : Plan) : p.erase.required = p.required := by
  rw [erase_eq]
  rfl

@[simp] theorem children_erase (p : Plan) : p.erase.children = eraseAll p.children := by
  rw [erase_eq]
  rfl

/-- What is said of the branches is said of each plan. -/
theorem forall_mem_eraseAll {property : Branch → Prop} :
    (∀ b ∈ eraseAll ps, property b) ↔ ∀ p ∈ ps, property p.erase := by
  rw [eraseAll_eq_map, List.forall_mem_map]

theorem erase_mem_eraseAll (hp : p ∈ ps) : p.erase ∈ eraseAll ps :=
  forall_mem_eraseAll.mp (fun _ hb => hb) p hp

/-- Plans and branches are chosen by what is said of their selectors. -/
theorem eraseAll_filter (choose : Selector → Bool) (ps : List Plan) :
    eraseAll (ps.filter fun p => choose p.selector) =
      (eraseAll ps).filter fun b => choose b.selector := by
  rw [eraseAll_eq_map, eraseAll_eq_map, List.filter_map]
  refine congrArg _ (congrArg (List.filter · ps) (funext fun p => ?_))
  exact congrArg choose (selector_erase p).symm

theorem mem_indicesAll {i : Nat} : i ∈ indicesAll ps ↔ ∃ p ∈ ps, i ∈ p.indices := by
  rw [indicesAll_eq_flatMap, List.mem_flatMap]

theorem index_mem_indices (p : Plan) : p.index ∈ p.indices := by
  rw [indices_eq]
  exact List.mem_cons_self ..

end Plan

open Plan

/-! ## Plans that an arena holds -/

/-- Every node of a plan is where its index says. -/
inductive Holds (a : Arena) : Plan → Prop
  | intro {p : Plan} (hnode : a.nodes[p.index]? = some p.draft)
      (hbelow : ∀ q ∈ p.children, Holds a q) : Holds a p

variable {a a' a'' : Arena} {p p' : Plan} {m : Nat} {s : Option Selector} {r : Bool}
  {ps ps' ps'' before after : List Plan}

theorem Holds.node (hp : Holds a p) : a.nodes[p.index]? = some p.draft := by
  cases hp with
  | intro hnode _ => exact hnode

theorem Holds.child (hp : Holds a p) {q : Plan} (hq : q ∈ p.children) : Holds a q := by
  cases hp with
  | intro _ hbelow => exact hbelow q hq

theorem Holds.lt_size (hp : Holds a p) {i : Nat} (hi : i ∈ p.indices) : i < a.size := by
  induction hp with
  | intro hnode _ ih =>
      rw [indices_eq, List.mem_cons, mem_indicesAll] at hi
      rcases hi with rfl | ⟨q, hq, hi⟩
      · exact lt_size_of_node hnode
      · exact ih q hq hi

/-- A plan is held as long as its own nodes stay as they are. -/
theorem Holds.congr (hp : Holds a p) (hsame : ∀ i ∈ p.indices, a'.nodes[i]? = a.nodes[i]?) :
    Holds a' p := by
  induction hp with
  | @intro p hnode _ ih =>
      rw [indices_eq] at hsame
      refine .intro ((hsame p.index (List.mem_cons_self ..)).trans hnode) fun q hq => ?_
      refine ih q hq fun i hi => hsame i (List.mem_cons_of_mem _ ?_)
      exact mem_indicesAll.mpr ⟨q, hq, hi⟩

/-- A node bears plans: these are its children, and no index is used twice. -/
structure Bears (a : Arena) (m : Nat) (s : Option Selector) (r : Bool) (ps : List Plan) : Prop where
  node : a.nodes[m]? = some ⟨s, r, ps.map index⟩
  holds : ∀ p ∈ ps, Holds a p
  nodup : (m :: indicesAll ps).Nodup

theorem Bears.lt_size (hbears : Bears a m s r ps) {i : Nat} (hi : i ∈ m :: indicesAll ps) :
    i < a.size := by
  rcases List.mem_cons.mp hi with rfl | hi
  · exact lt_size_of_node hbears.node
  · obtain ⟨p, hp, hi⟩ := mem_indicesAll.mp hi
    exact (hbears.holds p hp).lt_size hi

theorem Bears.nodup_child (hbears : Bears a m s r (before ++ p :: after)) : p.indices.Nodup := by
  have hnodup := hbears.nodup
  rw [indicesAll_append, indicesAll, List.nodup_cons, List.nodup_append,
    List.nodup_append] at hnodup
  exact hnodup.2.2.1.1

/-- A plan that is held is borne by its highest node, if no index is used twice. -/
theorem Holds.bears (hp : Holds a p) (hnodup : p.indices.Nodup) :
    Bears a p.index (some p.selector) p.required p.children := by
  rw [indices_eq] at hnodup
  exact ⟨hp.node, fun q hq => hp.child hq, hnodup⟩

/-- The children of a node as they are read. -/
theorem children_eq (hnode : a.nodes[m]? = some ⟨s, r, ps.map index⟩)
    (hholds : ∀ p ∈ ps, Holds a p) : a.children? m = some (ps.map fun p => (p.index, p.draft)) := by
  have hread : ∀ qs : List Plan, (∀ q ∈ qs, Holds a q) →
      (qs.map index).mapM (fun child => (a.nodes[child]?).map (child, ·)) =
        some (qs.map fun p => (p.index, p.draft)) := by
    intro qs hqs
    induction qs with
    | nil => rfl
    | cons q qs ih =>
        rw [List.map_cons, List.mapM_cons, (hqs q (List.mem_cons_self ..)).node,
          ih fun q' hq' => hqs q' (List.mem_cons_of_mem _ hq')]
        rfl
  unfold children?
  rw [hnode]
  exact hread ps hholds

/-! ## What operations do -/

/-- An operation makes one plan of another one, at the same place. -/
structure Replaces (a a' : Arena) (p p' : Plan) : Prop where
  size_le : a.size ≤ a'.size
  index_eq : p'.index = p.index
  holds : Holds a' p'
  nodup : p'.indices.Nodup
  fresh : ∀ i ∈ p'.indices, i ∈ p.indices ∨ a.size ≤ i
  frame : ∀ i < a.size, i ∉ p.indices → a'.nodes[i]? = a.nodes[i]?

/-- An operation makes plans of others below a node. -/
structure Changes (a a' : Arena) (m : Nat) (s : Option Selector) (r : Bool) (ps ps' : List Plan) :
    Prop where
  size_le : a.size ≤ a'.size
  bears : Bears a' m s r ps'
  fresh : ∀ i ∈ indicesAll ps', i ∈ indicesAll ps ∨ a.size ≤ i
  frame : ∀ i < a.size, i ∉ m :: indicesAll ps → a'.nodes[i]? = a.nodes[i]?

theorem Changes.refl (hbears : Bears a m s r ps) : Changes a a m s r ps ps :=
  ⟨Nat.le_refl _, hbears, fun _ hi => Or.inl hi, fun _ _ _ => rfl⟩

theorem Changes.trans (hchanges : Changes a a' m s r ps ps')
    (hchanges' : Changes a' a'' m s r ps' ps'') : Changes a a'' m s r ps ps'' := by
  refine ⟨Nat.le_trans hchanges.size_le hchanges'.size_le, hchanges'.bears, ?_, ?_⟩
  · intro i hi
    rcases hchanges'.fresh i hi with hi | hi
    · exact hchanges.fresh i hi
    · exact Or.inr (Nat.le_trans hchanges.size_le hi)
  · intro i hi hout
    have hout' : i ∉ m :: indicesAll ps' := by
      rw [List.mem_cons, not_or] at hout ⊢
      refine ⟨hout.1, fun hi' => ?_⟩
      rcases hchanges.fresh i hi' with hi' | hi'
      · exact hout.2 hi'
      · omega
    exact (hchanges'.frame i (Nat.lt_of_lt_of_le hi hchanges.size_le) hout').trans
      (hchanges.frame i hi hout)

theorem Replaces.trans {p'' : Plan} (hreplaces : Replaces a a' p p')
    (hreplaces' : Replaces a' a'' p' p'') : Replaces a a'' p p'' := by
  refine ⟨Nat.le_trans hreplaces.size_le hreplaces'.size_le,
    hreplaces'.index_eq.trans hreplaces.index_eq, hreplaces'.holds, hreplaces'.nodup, ?_, ?_⟩
  · intro i hi
    rcases hreplaces'.fresh i hi with hi | hi
    · exact hreplaces.fresh i hi
    · exact Or.inr (Nat.le_trans hreplaces.size_le hi)
  · intro i hi hout
    have hout' : i ∉ p'.indices := fun hi' => by
      rcases hreplaces.fresh i hi' with hi' | hi'
      · exact hout hi'
      · omega
    exact (hreplaces'.frame i (Nat.lt_of_lt_of_le hi hreplaces.size_le) hout').trans
      (hreplaces.frame i hi hout)

/-- Plans that are apart from what is changed are still held. -/
theorem Changes.holds (hchanges : Changes a a' m s r ps ps') {q : Plan} (hq : Holds a q)
    (hout : ∀ i ∈ q.indices, i ∉ m :: indicesAll ps) : Holds a' q :=
  hq.congr fun i hi => hchanges.frame i (hq.lt_size hi) (hout i hi)

/-- Nor does what is made of it share any node with them. -/
theorem Changes.apart (hchanges : Changes a a' m s r ps ps') {q : Plan} (hq : Holds a q)
    (hout : ∀ i ∈ q.indices, i ∉ m :: indicesAll ps) :
    ∀ i ∈ q.indices, i ∉ m :: indicesAll ps' := by
  intro i hi hi'
  have hold := hout i hi
  rw [List.mem_cons, not_or] at hold
  rcases List.mem_cons.mp hi' with rfl | hi'
  · exact hold.1 rfl
  rcases hchanges.fresh i hi' with hi' | hi'
  · exact hold.2 hi'
  · exact Nat.not_lt.mpr hi' (hq.lt_size hi)

/-- A plan that is apart from one that is replaced is still held. -/
theorem Replaces.keeps {p p' : Plan} (hreplaces : Replaces a a' p p') {q : Plan} (hq : Holds a q)
    (hout : ∀ i ∈ q.indices, i ∉ p.indices) : Holds a' q :=
  hq.congr fun i hi => hreplaces.frame i (hq.lt_size hi) (hout i hi)

/-- Nor does what replaces it share any node with the plan. -/
theorem Replaces.apart {p p' : Plan} (hreplaces : Replaces a a' p p') {q : Plan} (hq : Holds a q)
    (hout : ∀ i ∈ q.indices, i ∉ p.indices) : ∀ i ∈ q.indices, i ∉ p'.indices := by
  intro i hi hi'
  rcases hreplaces.fresh i hi' with hi' | hi'
  · exact hout i hi hi'
  · exact Nat.not_lt.mpr hi' (hq.lt_size hi)

/-- An operation on the children of the highest node of a plan. -/
theorem Changes.replaces
    (hchanges : Changes a a' p.index (some p.selector) p.required p.children ps') :
    Replaces a a' p (p.withChildren ps') := by
  refine ⟨hchanges.size_le, rfl, ?_, ?_, ?_, ?_⟩
  · exact .intro hchanges.bears.node hchanges.bears.holds
  · rw [indices_eq]
    exact hchanges.bears.nodup
  · intro i hi
    rw [indices_eq] at hi ⊢
    rcases List.mem_cons.mp hi with rfl | hi
    · exact Or.inl (List.mem_cons_self ..)
    · exact (hchanges.fresh i hi).imp_left (List.mem_cons_of_mem _)
  · intro i hi hout
    rw [indices_eq] at hout
    exact hchanges.frame i hi hout

theorem nodup_of_replaced {xs ys ys' zs : List Nat} (hnodup : (xs ++ (ys ++ zs)).Nodup)
    (hys' : ys'.Nodup) (hfresh : ∀ i ∈ ys', i ∈ ys ∨ (i ∉ xs ∧ i ∉ zs)) :
    (xs ++ (ys' ++ zs)).Nodup := by
  rw [List.nodup_append', List.nodup_append'] at hnodup ⊢
  obtain ⟨hxs, ⟨_, hzs, hyz⟩, hout⟩ := hnodup
  refine ⟨hxs, ⟨hys', hzs, fun i hi hiz => ?_⟩, fun i hix hi => ?_⟩
  · rcases hfresh i hi with hi | hi
    · exact hyz hi hiz
    · exact hi.2 hiz
  · rcases List.mem_append.mp hi with hi | hi
    · rcases hfresh i hi with hi | hi
      · exact hout hix (List.mem_append_left _ hi)
      · exact hi.1 hix
    · exact hout hix (List.mem_append_right _ hi)

/-- What replaces one child leaves the others as they are. -/
theorem Replaces.changes (hreplaces : Replaces a a' p p')
    (hbears : Bears a m s r (before ++ p :: after)) :
    Changes a a' m s r (before ++ p :: after) (before ++ p' :: after) := by
  have hindices (q : Plan) :
      m :: indicesAll (before ++ q :: after) =
        (m :: indicesAll before) ++ (q.indices ++ indicesAll after) := by
    rw [indicesAll_append, indicesAll, List.cons_append]
  have hnodup := hbears.nodup
  rw [hindices] at hnodup
  have hdisjoint := List.nodup_append'.mp hnodup
  have hdisjoint' := (List.nodup_append'.mp hdisjoint.2.1).2.2
  -- What belongs to the node or to the other children is there, and not part of this one.
  have hother (i : Nat) (hi : i ∈ m :: indicesAll before ∨ i ∈ indicesAll after) :
      i < a.size ∧ i ∉ p.indices := by
    refine ⟨hbears.lt_size ?_, fun hip => ?_⟩
    · rw [hindices]
      rcases hi with hi | hi
      · exact List.mem_append_left _ hi
      · exact List.mem_append_right _ (List.mem_append_right _ hi)
    · rcases hi with hi | hi
      · exact hdisjoint.2.2 hi (List.mem_append_left _ hip)
      · exact hdisjoint' hip hi
  have hsame (i : Nat) (hi : i ∈ m :: indicesAll before ∨ i ∈ indicesAll after) :
      a'.nodes[i]? = a.nodes[i]? :=
    hreplaces.frame i (hother i hi).1 (hother i hi).2
  refine ⟨hreplaces.size_le, ⟨?_, ?_, ?_⟩, ?_, ?_⟩
  · rw [hsame m (Or.inl (List.mem_cons_self ..)), hbears.node, List.map_append, List.map_append,
      List.map_cons, List.map_cons, hreplaces.index_eq]
  · intro q hq
    rcases List.mem_append.mp hq with hq | hq
    · refine (hbears.holds q (List.mem_append_left _ hq)).congr fun i hi => ?_
      exact hsame i (Or.inl (List.mem_cons_of_mem _ (mem_indicesAll.mpr ⟨q, hq, hi⟩)))
    rcases List.mem_cons.mp hq with rfl | hq
    · exact hreplaces.holds
    · refine (hbears.holds q (by simp [hq])).congr fun i hi => ?_
      exact hsame i (Or.inr (mem_indicesAll.mpr ⟨q, hq, hi⟩))
  · rw [hindices]
    refine nodup_of_replaced hnodup hreplaces.nodup fun i hi => ?_
    refine (hreplaces.fresh i hi).imp_right fun hlarge => ⟨fun hi => ?_, fun hi => ?_⟩
    · exact absurd (hother i (Or.inl hi)).1 (Nat.not_lt.mpr hlarge)
    · exact absurd (hother i (Or.inr hi)).1 (Nat.not_lt.mpr hlarge)
  · intro i hi
    rw [indicesAll_append, indicesAll, List.mem_append, List.mem_append] at hi ⊢
    rcases hi with hi | hi | hi
    · exact Or.inl (Or.inl hi)
    · exact (hreplaces.fresh i hi).imp_left fun hi => Or.inr (Or.inl hi)
    · exact Or.inl (Or.inr (Or.inr hi))
  · intro i hi hout
    refine hreplaces.frame i hi fun hip => hout ?_
    rw [hindices]
    exact List.mem_append_right _ (List.mem_append_left _ hip)

/-! ## The two steps -/

/-- Requiring the highest node of a plan. -/
theorem replaces_require (hp : Holds a p) (hnodup : p.indices.Nodup) (required : Bool) :
    Replaces a (a.require p.index required) p (p.requiring required) := by
  have hindices : (p.requiring required).indices = p.indices := by
    rw [indices_eq, indices_eq]
    rfl
  have hother {i : Nat} (hi : p.index ≠ i) :
      (a.require p.index required).nodes[i]? = a.nodes[i]? := by
    rw [node_require]
    simp only [if_neg hi]
    exact Option.map_id'
  rw [indices_eq] at hnodup
  refine ⟨Nat.le_of_eq (a.size_require _ _).symm, rfl, .intro ?_ fun q hq => ?_, ?_, ?_, ?_⟩
  · show (a.require p.index required).nodes[p.index]? = _
    rw [node_require, hp.node, Option.map_some, if_pos rfl]
    rfl
  · refine (hp.child hq).congr fun i hi => hother fun heq => ?_
    exact (List.nodup_cons.mp hnodup).1 (heq ▸ mem_indicesAll.mpr ⟨q, hq, hi⟩)
  · rwa [hindices, indices_eq]
  · intro i hi
    rw [hindices] at hi
    exact Or.inl hi
  · intro i _ hout
    exact hother fun heq => hout (heq ▸ p.index_mem_indices)

/-- A plan to which the parent does not belong is still held after it has adopted a node. -/
theorem Holds.adopt {q : Plan} (hq : Holds a q) (hm : m < a.size) (hout : m ∉ q.indices)
    (kept : List Nat) (selector : Selector) (required : Bool) :
    Holds (a.adopt m kept selector required) q := by
  refine hq.congr fun i hi => ?_
  rw [node_adopt a hm, if_neg (Nat.ne_of_lt (hq.lt_size hi))]
  have hne : m ≠ i := fun heq => hout (heq ▸ hi)
  simp only [if_neg hne]
  exact Option.map_id'

/-- Adopting a node in the place of some children. -/
theorem changes_adopt (hbears : Bears a m s r ps) {kept : List Plan} (hkept : kept.Sublist ps)
    (selector : Selector) (required : Bool) :
    Changes a (a.adopt m (kept.map index) selector required) m s r ps
      (kept ++ [.mk a.size selector required []]) := by
  have hm : m < a.size := lt_size_of_node hbears.node
  have hsublist : (indicesAll kept).Sublist (indicesAll ps) := by
    rw [indicesAll_eq_flatMap, indicesAll_eq_flatMap]
    exact hkept.flatMap indices
  have hother {i : Nat} (hi : i < a.size) (hne : m ≠ i) :
      (a.adopt m (kept.map index) selector required).nodes[i]? = a.nodes[i]? := by
    rw [node_adopt a hm, if_neg (Nat.ne_of_lt hi)]
    simp only [if_neg hne]
    exact Option.map_id'
  have hm_out : m ∉ indicesAll ps := (List.nodup_cons.mp hbears.nodup).1
  refine ⟨?_, ⟨?_, ?_, ?_⟩, ?_, ?_⟩
  · rw [size_adopt]
    exact Nat.le_succ _
  · rw [node_adopt a hm, if_neg (Nat.ne_of_lt hm), hbears.node, Option.map_some, if_pos rfl,
      List.map_append]
    rfl
  · intro q hq
    rcases List.mem_append.mp hq with hq | hq
    · exact (hbears.holds q (hkept.subset hq)).adopt hm (fun hi => hm_out (mem_indicesAll.mpr
        ⟨q, hkept.subset hq, hi⟩)) _ _ _
    · rw [List.mem_singleton.mp hq]
      refine .intro ?_ fun q hq => nomatch hq
      show (a.adopt m (kept.map index) selector required).nodes[a.size]? = _
      rw [node_adopt a hm, if_pos rfl]
      rfl
  · rw [indicesAll_append, ← List.cons_append]
    refine List.nodup_append'.mpr ⟨hbears.nodup.sublist (hsublist.cons_cons m), ?_, ?_⟩
    · exact List.pairwise_singleton _ _
    · intro i hi hnew
      have hlt : i < a.size := hbears.lt_size ((hsublist.cons_cons m).subset hi)
      have heq : i = a.size := List.mem_singleton.mp hnew
      omega
  · intro i hi
    rw [indicesAll_append, List.mem_append] at hi
    rcases hi with hi | hi
    · exact Or.inl (hsublist.subset hi)
    · exact Or.inr (Nat.le_of_eq (List.mem_singleton.mp hi).symm)
  · intro i hi hout
    rw [List.mem_cons, not_or] at hout
    exact hother hi (Ne.symm hout.1)

end DocQuery.Arena
