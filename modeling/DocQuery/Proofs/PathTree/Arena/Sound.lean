import DocQuery.PathTree.Arena
import DocQuery.Proofs.PathTree.Spans
import Mathlib.Data.List.Pairwise

/-!
# Sound arenas

Whatever is attached to an arena, the children of a node come after it, every node has one parent
at most, and of the siblings below a node none stands for another one. This holds of every node,
also of those that a wildcard has absorbed and which are not reached any more. All that an arena is
ever changed by are two steps: a node is required, or a new one is adopted in the place of some
children of its parent. Absorbing is nothing but attaching, so that it is enough to look at these
steps.

Main names:

* `Arena.Sound` — the invariant;
* `Arena.Sound.require`, `Arena.Sound.adopt` — the steps keep it;
* `Arena.keptWithin`, `Arena.sound_ofPaths` — attaching keeps it, however deep it goes, and so do all
  paths that are added;
* `Arena.Sound.existsUnique_parent` — a node that is reached has one parent that is.
-/

namespace DocQuery.Arena

open Branch

variable {a : Arena}

/-- The selector of a node. -/
def selector? (a : Arena) (index : Nat) : Option Selector :=
  a.nodes[index]?.bind Draft.selector

/-- None of two nodes stands for the other one. -/
def ApartAt (a : Arena) (i j : Nat) : Prop :=
  ∀ s t, a.selector? i = some s → a.selector? j = some t → covers s t = false ∧ covers t s = false

/-- What holds of an arena at all times. -/
structure Sound (a : Arena) : Prop where
  ascending : ∀ {i : Nat} {d : Draft}, a.nodes[i]? = some d → ∀ c ∈ d.children, i < c ∧ c < a.size
  nodup : ∀ {i : Nat} {d : Draft}, a.nodes[i]? = some d → d.children.Nodup
  oneParent : ∀ {i j : Nat} {d e : Draft}, a.nodes[i]? = some d → a.nodes[j]? = some e →
    ∀ c ∈ d.children, c ∈ e.children → i = j
  selected : ∀ {i : Nat} {d : Draft}, a.nodes[i]? = some d → (d.selector = none ↔ i = root)
  apart : ∀ {i : Nat} {d : Draft}, a.nodes[i]? = some d → d.children.Pairwise a.ApartAt

/-- An arena that was made from another one: no node is lost, and none gets another selector. -/
structure Extends (a a' : Arena) : Prop where
  size_le : a.size ≤ a'.size
  selector_eq : ∀ i < a.size, a'.selector? i = a.selector? i

theorem Extends.refl (a : Arena) : Extends a a :=
  ⟨Nat.le_refl _, fun _ _ => rfl⟩

theorem Extends.trans {a a' a'' : Arena} (h : Extends a a') (h' : Extends a' a'') : Extends a a'' :=
  ⟨Nat.le_trans h.size_le h'.size_le, fun i hi =>
    (h'.selector_eq i (Nat.lt_of_lt_of_le hi h.size_le)).trans (h.selector_eq i hi)⟩

theorem Extends.apartAt {a a' : Arena} (h : Extends a a') {i j : Nat} (hi : i < a.size)
    (hj : j < a.size) (hapart : a.ApartAt i j) : a'.ApartAt i j := by
  intro s t hs ht
  rw [h.selector_eq i hi] at hs
  rw [h.selector_eq j hj] at ht
  exact hapart s t hs ht

theorem lt_size_of_node {i : Nat} {d : Draft} (hd : a.nodes[i]? = some d) : i < a.size :=
  (Array.getElem?_eq_some_iff.mp hd).1

theorem sound_empty : empty.Sound := by
  have hroot {i : Nat} {d : Draft} (hd : empty.nodes[i]? = some d) :
      i = root ∧ d = ⟨none, true, []⟩ := by
    have hlt : i < 1 := lt_size_of_node hd
    obtain rfl : i = 0 := by omega
    cases hd
    exact ⟨rfl, rfl⟩
  refine ⟨?_, ?_, ?_, ?_, ?_⟩
  · intro i d hd
    rw [(hroot hd).2]
    exact fun c hc => nomatch hc
  · intro i d hd
    rw [(hroot hd).2]
    exact List.nodup_nil
  · intro i j d e hd he
    rw [(hroot hd).2]
    exact fun c hc => nomatch hc
  · intro i d hd
    rw [(hroot hd).2, (hroot hd).1]
    exact iff_of_true rfl rfl
  · intro i d hd
    rw [(hroot hd).2]
    exact List.Pairwise.nil

/-! ## Requiring a node -/

@[simp] theorem size_require (a : Arena) (i : Nat) (r : Bool) : (a.require i r).size = a.size :=
  Array.size_modify

/-- Requiring a node changes nothing but that it is required. -/
theorem node_require (a : Arena) (i : Nat) (r : Bool) (j : Nat) :
    (a.require i r).nodes[j]? =
      a.nodes[j]?.map fun d => if i = j then { d with required := d.required || r } else d := by
  show (a.nodes.modify i _)[j]? = _
  rw [Array.getElem?_modify]
  split
  · rfl
  · rw [Option.map_id']

theorem selector_require (a : Arena) (i : Nat) (r : Bool) (j : Nat) :
    (a.require i r).selector? j = a.selector? j := by
  unfold selector?
  rw [node_require]
  cases a.nodes[j]? with
  | none => rfl
  | some d =>
      show (if i = j then _ else d).selector = d.selector
      split <;> rfl

theorem extends_require (a : Arena) (i : Nat) (r : Bool) : Extends a (a.require i r) :=
  ⟨Nat.le_of_eq (a.size_require i r).symm, fun j _ => a.selector_require i r j⟩

/-- Every node has the children and the selector that it had. -/
theorem exists_node_of_require {i j : Nat} {r : Bool} {d : Draft}
    (hd : (a.require i r).nodes[j]? = some d) :
    ∃ e, a.nodes[j]? = some e ∧ e.children = d.children ∧ e.selector = d.selector := by
  rw [node_require, Option.map_eq_some_iff] at hd
  obtain ⟨e, he, rfl⟩ := hd
  refine ⟨e, he, ?_, ?_⟩ <;> split <;> rfl

theorem Sound.require (ha : a.Sound) (i : Nat) (r : Bool) : (a.require i r).Sound := by
  refine ⟨?_, ?_, ?_, ?_, ?_⟩
  · intro j d hd
    obtain ⟨e, he, hchildren, _⟩ := exists_node_of_require hd
    rw [size_require, ← hchildren]
    exact ha.ascending he
  · intro j d hd
    obtain ⟨e, he, hchildren, _⟩ := exists_node_of_require hd
    rw [← hchildren]
    exact ha.nodup he
  · intro j k d d' hd hd'
    obtain ⟨e, he, hchildren, _⟩ := exists_node_of_require hd
    obtain ⟨e', he', hchildren', _⟩ := exists_node_of_require hd'
    rw [← hchildren, ← hchildren']
    exact ha.oneParent he he'
  · intro j d hd
    obtain ⟨e, he, _, hselector⟩ := exists_node_of_require hd
    rw [← hselector]
    exact ha.selected he
  · intro j d hd
    obtain ⟨e, he, hchildren, _⟩ := exists_node_of_require hd
    rw [← hchildren]
    refine (ha.apart he).imp_of_mem fun hc hc' hapart => ?_
    exact (a.extends_require i r).apartAt (ha.ascending he _ hc).2 (ha.ascending he _ hc').2 hapart

/-! ## Adopting a node -/

section Adopt

variable {parent : Nat} {kept : List Nat} {s : Selector} {r : Bool}

@[simp] theorem size_adopt (a : Arena) (parent : Nat) (kept : List Nat) (s : Selector) (r : Bool) :
    (a.adopt parent kept s r).size = a.size + 1 := by
  show (Array.modify (Array.push a.nodes _) _ _).size = _
  rw [Array.size_modify, Array.size_push]
  rfl

/-- The new node is the last one; its parent has other children, and all else is as it was. -/
theorem node_adopt (a : Arena) {parent : Nat} (hparent : parent < a.size) (kept : List Nat)
    (s : Selector) (r : Bool) (j : Nat) :
    (a.adopt parent kept s r).nodes[j]? =
      if j = a.size then some ⟨some s, r, []⟩
      else a.nodes[j]?.map fun d =>
        if parent = j then { d with children := kept ++ [a.size] } else d := by
  have hsize : a.nodes.size = a.size := rfl
  show (Array.modify (Array.push a.nodes _) _ _)[j]? = _
  rw [Array.getElem?_modify, Array.getElem?_push, hsize]
  by_cases hlast : j = a.size
  · subst hlast
    have hne : parent ≠ a.size := Nat.ne_of_lt hparent
    rw [if_neg hne, if_pos rfl, if_pos rfl]
  · rw [if_neg hlast, if_neg hlast]
    split
    · rfl
    · rw [Option.map_id']

theorem selector_adopt (a : Arena) {parent : Nat} (hparent : parent < a.size) (kept : List Nat)
    (s : Selector) (r : Bool) (j : Nat) :
    (a.adopt parent kept s r).selector? j = if j = a.size then some s else a.selector? j := by
  unfold selector?
  rw [node_adopt a hparent]
  split
  · rfl
  · cases a.nodes[j]? with
    | none => rfl
    | some d =>
        show (if parent = j then _ else d).selector = d.selector
        split <;> rfl

theorem extends_adopt (a : Arena) {parent : Nat} (hparent : parent < a.size) (kept : List Nat)
    (s : Selector) (r : Bool) : Extends a (a.adopt parent kept s r) := by
  refine ⟨?_, fun j hj => ?_⟩
  · rw [size_adopt]
    exact Nat.le_succ _
  · rw [selector_adopt a hparent, if_neg (Nat.ne_of_lt hj)]

/-- After a node has been adopted, a node is the new one, or its parent, or one from before. -/
theorem node_of_adopt {p : Draft} (hp : a.nodes[parent]? = some p) {j : Nat} {d : Draft}
    (hd : (a.adopt parent kept s r).nodes[j]? = some d) :
    (j = a.size ∧ d = ⟨some s, r, []⟩) ∨
      (j = parent ∧ d = { p with children := kept ++ [a.size] }) ∨ a.nodes[j]? = some d := by
  rw [node_adopt a (lt_size_of_node hp)] at hd
  split at hd
  · rename_i hnew
    exact Or.inl ⟨hnew, (Option.some.inj hd).symm⟩
  · rw [Option.map_eq_some_iff] at hd
    obtain ⟨e, he, rfl⟩ := hd
    split
    · rename_i hj
      subst hj
      obtain rfl : p = e := Option.some.inj (hp.symm.trans he)
      exact Or.inr (Or.inl ⟨rfl, rfl⟩)
    · exact Or.inr (Or.inr he)

/-- Every child was one before, or is the new node. -/
theorem child_of_adopt {p : Draft} (hp : a.nodes[parent]? = some p)
    (hkept : kept.Sublist p.children) {j : Nat} {d : Draft}
    (hd : (a.adopt parent kept s r).nodes[j]? = some d) {c : Nat} (hc : c ∈ d.children) :
    (c = a.size ∧ j = parent) ∨ ∃ e, a.nodes[j]? = some e ∧ c ∈ e.children := by
  rcases node_of_adopt hp hd with ⟨_, rfl⟩ | ⟨rfl, rfl⟩ | hd
  · cases hc
  · rcases List.mem_append.mp hc with hmem | hmem
    · exact Or.inr ⟨p, hp, hkept.subset hmem⟩
    · exact Or.inl ⟨List.mem_singleton.mp hmem, rfl⟩
  · exact Or.inr ⟨d, hd, hc⟩

/-- Adopting a node keeps an arena sound if none of the children that are kept stands for it, and it
stands for none of them. -/
theorem Sound.adopt (ha : a.Sound) {p : Draft} (hp : a.nodes[parent]? = some p)
    (hkept : kept.Sublist p.children)
    (hapart : ∀ c ∈ kept, ∀ t, a.selector? c = some t → covers t s = false ∧ covers s t = false) :
    (a.adopt parent kept s r).Sound := by
  have hparent : parent < a.size := lt_size_of_node hp
  have hextends := a.extends_adopt hparent kept s r
  have hfresh {j : Nat} {d : Draft} (hd : a.nodes[j]? = some d) : a.size ∉ d.children :=
    fun hmem => Nat.lt_irrefl _ (ha.ascending hd _ hmem).2
  refine ⟨?_, ?_, ?_, ?_, ?_⟩
  · intro j d hd c hc
    rw [size_adopt]
    rcases child_of_adopt hp hkept hd hc with ⟨rfl, rfl⟩ | ⟨e, he, hc⟩
    · exact ⟨hparent, Nat.lt_succ_self _⟩
    · have hbounds := ha.ascending he c hc
      exact ⟨hbounds.1, Nat.lt_succ_of_lt hbounds.2⟩
  · intro j d hd
    rcases node_of_adopt hp hd with ⟨_, rfl⟩ | ⟨_, rfl⟩ | hd
    · exact List.nodup_nil
    · refine List.nodup_append.mpr ⟨(ha.nodup hp).sublist hkept, List.pairwise_singleton _ _, ?_⟩
      intro c hc c' hc' heq
      rw [List.mem_singleton.mp hc'] at heq
      exact hfresh hp (hkept.subset (heq ▸ hc))
    · exact ha.nodup hd
  · intro j k d d' hd hd' c hc hc'
    rcases child_of_adopt hp hkept hd hc with ⟨hnew, hj⟩ | ⟨e, he, hce⟩
    · rcases child_of_adopt hp hkept hd' hc' with ⟨_, hk⟩ | ⟨e', he', hce'⟩
      · exact hj.trans hk.symm
      · exact absurd (hnew ▸ hce') (hfresh he')
    · rcases child_of_adopt hp hkept hd' hc' with ⟨hnew, _⟩ | ⟨e', he', hce'⟩
      · exact absurd (hnew ▸ hce) (hfresh he)
      · exact ha.oneParent he he' c hce hce'
  · intro j d hd
    rcases node_of_adopt hp hd with ⟨hj, rfl⟩ | ⟨rfl, rfl⟩ | hd
    · refine iff_of_false (Option.some_ne_none s) fun hroot => ?_
      -- The root comes before every other node.
      have hzero : a.size = 0 := hj.symm.trans hroot
      omega
    · have hselected := ha.selected hp
      exact hselected
    · exact ha.selected hd
  · intro j d hd
    rcases node_of_adopt hp hd with ⟨_, rfl⟩ | ⟨_, rfl⟩ | hd
    · exact List.Pairwise.nil
    · refine List.pairwise_append.mpr ⟨?_, List.pairwise_singleton _ _, ?_⟩
      · refine ((ha.apart hp).sublist hkept).imp_of_mem fun hc hc' hapart => ?_
        exact hextends.apartAt (ha.ascending hp _ (hkept.subset hc)).2
          (ha.ascending hp _ (hkept.subset hc')).2 hapart
      · intro c hc c' hc' t t' ht ht'
        rw [List.mem_singleton.mp hc', selector_adopt a hparent, if_pos rfl] at ht'
        cases ht'
        have hlt := (ha.ascending hp c (hkept.subset hc)).2
        rw [selector_adopt a hparent, if_neg (Nat.ne_of_lt hlt)] at ht
        exact hapart c hc t ht
    · refine (ha.apart hd).imp_of_mem fun hc hc' hapart => ?_
      exact hextends.apartAt (ha.ascending hd _ hc).2 (ha.ascending hd _ hc').2 hapart

end Adopt

/-! ## Runs -/

theorem children_eq_some {i : Nat} {children : List (Nat × Draft)}
    (hchildren : a.children? i = some children) :
    ∃ d, a.nodes[i]? = some d ∧ children.map Prod.fst = d.children ∧
      ∀ c ∈ children, a.nodes[c.1]? = some c.2 := by
  unfold children? at hchildren
  obtain ⟨d, hd, hread⟩ := Option.bind_eq_some_iff.mp hchildren
  refine ⟨d, hd, ?_⟩
  clear hd hchildren
  generalize d.children = indices at hread ⊢
  induction indices generalizing children with
  | nil =>
      cases hread
      exact ⟨rfl, fun c hc => nomatch hc⟩
  | cons index indices ih =>
      rw [List.mapM_cons] at hread
      obtain ⟨first, hfirst, hread⟩ := Option.bind_eq_some_iff.mp hread
      obtain ⟨rest, hrest, hread⟩ := Option.bind_eq_some_iff.mp hread
      cases hread
      obtain ⟨child, hchild, rfl⟩ := Option.map_eq_some_iff.mp hfirst
      obtain ⟨hindices, hnodes⟩ := ih hrest
      refine ⟨by rw [List.map_cons, hindices], fun c hc => ?_⟩
      rcases List.mem_cons.mp hc with rfl | hc
      · exact hchild
      · exact hnodes c hc

/-- What a run makes of a sound arena. -/
structure Kept (a a' : Arena) : Prop where
  sound : a'.Sound
  extended : Extends a a'

theorem Kept.trans {a a' a'' : Arena} (h : Kept a a') (h' : Kept a' a'') : Kept a a'' :=
  ⟨h'.sound, h.extended.trans h'.extended⟩

/-- A loop keeps what each of its rounds keeps. -/
theorem kept_foldlM {α : Type} {f : Arena → α → Option Arena} {todo : List α}
    (hround : ∀ a' x a'', x ∈ todo → Kept a a' → f a' x = some a'' → Kept a' a'')
    (ha : a.Sound) {a' : Arena} (hrun : todo.foldlM f a = some a') : Kept a a' := by
  have hrun' : ∀ b, Kept a b → todo.foldlM f b = some a' → Kept a a' := by
    clear hrun
    induction todo with
    | nil =>
        intro b hb hrun
        cases hrun
        exact hb
    | cons x todo ih =>
        intro b hb hrun
        rw [List.foldlM_cons] at hrun
        obtain ⟨c, hc, hrun⟩ := Option.bind_eq_some_iff.mp hrun
        have hkept := hround b x c (List.mem_cons_self ..) hb hc
        exact ih (fun a' y a'' hy => hround a' y a'' (List.mem_cons_of_mem _ hy)) c
          (hb.trans hkept) hrun
  exact hrun' a ⟨ha, .refl a⟩ hrun

/-- Whether a node stands for others is said by its selector. -/
theorem isWildcardOf_iff {s : Selector} {d : Draft} :
    d.isWildcardOf s = true ↔
      ∃ t, d.selector = some t ∧ t.isWildcard = true ∧ sameFamily t s = true := by
  unfold Draft.isWildcardOf
  rw [Option.any_eq_true]
  simp [Bool.and_eq_true]

/-- A node of another family than a new one and the new one do not stand for each other. -/
theorem apart_of_isOf {s t : Selector} {d : Draft} (hd : d.isOf s = false)
    (ht : d.selector = some t) : covers t s = false ∧ covers s t = false := by
  have hfamily : sameFamily t s = false := by
    rwa [Draft.isOf, ht] at hd
  refine ⟨Bool.eq_false_iff.mpr fun hcovers => ?_, Bool.eq_false_iff.mpr fun hcovers => ?_⟩
  · rw [sameFamily_of_covers hcovers] at hfamily
    cases hfamily
  · rw [sameFamily_comm, sameFamily_of_covers hcovers] at hfamily
    cases hfamily

/-- A plain selector and another one of which neither is a wildcard for it nor equal to it do not
stand for each other. -/
theorem apart_of_plain {s t : Selector} {d : Draft} (hplain : s.isWildcard = false)
    (hwildcard : d.isWildcardOf s = false) (hother : d.selector ≠ some s)
    (ht : d.selector = some t) : covers t s = false ∧ covers s t = false := by
  have hne : t ≠ s := fun heq => hother (heq ▸ ht)
  refine ⟨Bool.eq_false_iff.mpr fun hcovers => ?_, Bool.eq_false_iff.mpr fun hcovers => ?_⟩
  · cases ht' : t.isWildcard with
    | false => exact hne (eq_of_covers hcovers ht')
    | true =>
        rw [isWildcardOf_iff.mpr ⟨t, ht, ht', sameFamily_of_covers hcovers⟩] at hwildcard
        cases hwildcard
  · exact hne (eq_of_covers hcovers hplain).symm

/-- What attaching does to a sound arena, if it ends, and what absorbing does. -/
structure KeptWithin (depth : Nat) : Prop where
  attach : ∀ {a : Arena} {parent : Nat} {s : Selector} {r : Bool} {found : Arena × Nat},
    attach depth a parent s r = some found → a.Sound → Kept a found.1
  absorb : ∀ {a : Arena} {target source : Nat} {a' : Arena},
    absorb depth a target source = some a' → a.Sound → Kept a a'

theorem KeptWithin.attach_succ {depth : Nat} (hdepth : KeptWithin depth) {parent : Nat} {s : Selector}
    {r : Bool} {found : Arena × Nat} (hrun : Arena.attach (depth + 1) a parent s r = some found)
    (ha : a.Sound) : Kept a found.1 := by
  rw [Arena.attach] at hrun
  obtain ⟨children, hchildren, hrun⟩ := Option.bind_eq_some_iff.mp hrun
  obtain ⟨d, hd, hindices, hnodes⟩ := children_eq_some hchildren
  have hselector {c : Nat × Draft} (hc : c ∈ children) : a.selector? c.1 = c.2.selector := by
    rw [selector?, hnodes c hc, Option.bind_some]
  split at hrun
  -- A wildcard that covers the selector is there, and at most becomes required.
  · cases hrun
    exact ⟨ha.require _ _, a.extends_require _ _⟩
  · rename_i hwildcard
    rw [List.find?_eq_none] at hwildcard
    split at hrun
    -- A wildcard takes the place of the siblings of its family; none of those that stay is one of
    -- them.
    · rw [List.partition_eq_filter_filter] at hrun
      obtain ⟨a', hloop, hrun⟩ := Option.bind_eq_some_iff.mp hrun
      cases hrun
      have hkept : ((children.filter (not ∘ (·.2.isOf s))).map Prod.fst).Sublist d.children := by
        rw [← hindices]
        exact List.filter_sublist.map _
      have hadopt : Kept a
          (a.adopt parent ((children.filter (not ∘ (·.2.isOf s))).map Prod.fst) s r) := by
        refine ⟨ha.adopt hd hkept fun c hc t ht => ?_, a.extends_adopt (lt_size_of_node hd) _ _ _⟩
        obtain ⟨child, hchild, rfl⟩ := List.mem_map.mp hc
        obtain ⟨hchild, hother⟩ := List.mem_filter.mp hchild
        rw [hselector hchild] at ht
        exact apart_of_isOf (by simpa using hother) ht
      refine hadopt.trans (kept_foldlM (fun b sibling b' _ hb hround => ?_) hadopt.sound hloop)
      obtain ⟨draft, _, hround⟩ := Option.bind_eq_some_iff.mp hround
      have hrequire : Kept b (b.require a.size draft.required) :=
        ⟨hb.sound.require _ _, b.extends_require _ _⟩
      exact hrequire.trans (hdepth.absorb hround hrequire.sound)
    -- A plain selector finds its own node or gets a new one, apart from all siblings.
    · rename_i hplain
      rw [Bool.not_eq_true] at hplain
      split at hrun
      · cases hrun
        exact ⟨ha.require _ _, a.extends_require _ _⟩
      · rename_i hequal
        cases hrun
        rw [List.find?_eq_none] at hequal
        refine ⟨ha.adopt hd (hindices ▸ .refl _) fun c hc t ht => ?_,
          a.extends_adopt (lt_size_of_node hd) _ _ _⟩
        obtain ⟨child, hchild, rfl⟩ := List.mem_map.mp hc
        rw [hselector hchild] at ht
        refine apart_of_plain hplain ?_ ?_ ht
        · simpa using hwildcard child hchild
        · simpa using hequal child hchild

theorem KeptWithin.absorb_succ {depth : Nat} (hdepth : KeptWithin depth) {target source : Nat}
    {a' : Arena} (hrun : Arena.absorb (depth + 1) a target source = some a') (ha : a.Sound) :
    Kept a a' := by
  rw [Arena.absorb] at hrun
  obtain ⟨children, _, hrun⟩ := Option.bind_eq_some_iff.mp hrun
  refine kept_foldlM (fun b child b' _ hb hround => ?_) ha hrun
  obtain ⟨draft, _, hround⟩ := Option.bind_eq_some_iff.mp hround
  split at hround
  · cases hround
    exact ⟨hb.sound, .refl b⟩
  · obtain ⟨⟨c, merged⟩, hfirst, hround⟩ := Option.bind_eq_some_iff.mp hround
    have hkept := hdepth.attach hfirst hb.sound
    exact hkept.trans (hdepth.absorb hround hkept.sound)

/-- Attaching and absorbing keep an arena sound, however deep they go. -/
theorem keptWithin (depth : Nat) : KeptWithin depth := by
  induction depth with
  | zero =>
      refine ⟨fun hrun => ?_, fun hrun => ?_⟩
      · rw [Arena.attach] at hrun
        cases hrun
      · rw [Arena.absorb] at hrun
        cases hrun
  | succ depth ih => exact ⟨ih.attach_succ, ih.absorb_succ⟩

theorem kept_addPath {depth : Nat} (ha : a.Sound) {p : Path} {a' : Arena}
    (hrun : addPath depth a p = some a') : Kept a a' := by
  have hsteps {b : Arena} {parent : Nat} {steps : List Step} {found : Arena × Nat} (hb : Kept a b)
      (hfound : steps.foldlM (attachStep depth) (b, parent) = some found) : Kept a found.1 := by
    induction steps generalizing b parent with
    | nil =>
        cases hfound
        exact hb
    | cons step steps ih =>
        rw [List.foldlM_cons] at hfound
        obtain ⟨⟨b', child⟩, hattach, hfound⟩ := Option.bind_eq_some_iff.mp hfound
        exact ih (hb.trans ((keptWithin depth).attach hattach hb.sound)) hfound
  obtain ⟨found, hfound, rfl⟩ := Option.map_eq_some_iff.mp hrun
  exact hsteps ⟨ha, .refl a⟩ hfound

/-- Paths that are added make an arena that is sound. -/
theorem sound_ofPaths {depth : Nat} {paths : List Path} (hrun : ofPaths depth paths = some a) :
    a.Sound :=
  (kept_foldlM (fun _ _ _ _ hb hround => kept_addPath hb.sound hround) sound_empty hrun).sound

/-! ## Nodes that are reached -/

/-- The children of a node point to it as their parent. -/
def IsParent (a : Arena) (i c : Nat) : Prop :=
  ∃ d, a.nodes[i]? = some d ∧ c ∈ d.children

/-- A node that is the root, or a child of one that is reached. -/
inductive Reached (a : Arena) : Nat → Prop
  | root : Reached a root
  | child {i c : Nat} (hi : Reached a i) (hc : a.IsParent i c) : Reached a c

theorem Sound.existsUnique_parent (ha : a.Sound) {c : Nat} (hc : a.Reached c) (hroot : c ≠ root) :
    ∃! i, a.Reached i ∧ a.IsParent i c := by
  cases hc with
  | root => exact absurd rfl hroot
  | @child i _ hi hparent =>
      refine ⟨i, ⟨hi, hparent⟩, fun j hj => ?_⟩
      obtain ⟨d, hd, hcd⟩ := hparent
      obtain ⟨e, he, hce⟩ := hj.2
      exact ha.oneParent he hd c hce hcd

/-! ## Siblings -/

theorem Sound.apartAt (ha : a.Sound) {i c c' : Nat} {d : Draft} (hd : a.nodes[i]? = some d)
    (hc : c ∈ d.children) (hc' : c' ∈ d.children) (hne : c ≠ c') : a.ApartAt c c' := by
  have : Std.Symm a.ApartAt := ⟨fun _ _ hapart s t hs ht => (hapart t s ht hs).symm⟩
  exact (ha.apart hd).forall hc hc' hne

theorem Sound.exists_selector (ha : a.Sound) {i c : Nat} {d : Draft} (hd : a.nodes[i]? = some d)
    (hc : c ∈ d.children) : ∃ s, a.selector? c = some s := by
  obtain ⟨hlt, hsize⟩ := ha.ascending hd c hc
  have hchild : a.nodes[c]? = some a.nodes[c] := Array.getElem?_eq_getElem hsize
  have hne : c ≠ root := Nat.ne_of_gt (Nat.lt_of_le_of_lt (Nat.zero_le i) hlt)
  rw [selector?, hchild, Option.bind_some, ← Option.ne_none_iff_exists']
  exact (not_congr (ha.selected hchild)).mpr hne

/-- Siblings have different selectors. -/
theorem Sound.selector_ne (ha : a.Sound) {i c c' : Nat} {d : Draft} (hd : a.nodes[i]? = some d)
    (hc : c ∈ d.children) (hc' : c' ∈ d.children) (hne : c ≠ c') :
    a.selector? c ≠ a.selector? c' := by
  intro heq
  obtain ⟨s, hs⟩ := ha.exists_selector hd hc
  have hself := (ha.apartAt hd hc hc' hne s s hs (heq ▸ hs)).1
  rw [covers_self] at hself
  cases hself

/-- A wildcard has no sibling of its family. -/
theorem Sound.eq_of_wildcard (ha : a.Sound) {i c c' : Nat} {d : Draft} {s t : Selector}
    (hd : a.nodes[i]? = some d) (hc : c ∈ d.children) (hc' : c' ∈ d.children)
    (hs : a.selector? c = some s) (hwildcard : s.isWildcard = true) (ht : a.selector? c' = some t)
    (hfamily : sameFamily s t = true) : c' = c := by
  refine Decidable.byContradiction fun hne => ?_
  have hapart := (ha.apartAt hd hc hc' (Ne.symm hne) s t hs ht).1
  rw [covers_of_isWildcard hwildcard, hfamily] at hapart
  cases hapart

end DocQuery.Arena
