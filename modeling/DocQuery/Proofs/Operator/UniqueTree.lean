import DocQuery.Proofs.Operator.Precedence

/-!
# One tree for one sequence

Where the operators of each tier share their associativity, the sequence of a grouped tree leaves
no choice: the root is the last of the loosest operators, or the first where they nest to the
right (`root_split`).  So grouping gives *the* grouped tree of a sequence, and combining operands
while reading is the fold of that tree.
-/

namespace DocQuery.Operator

variable {α ο : Type}

/-! ## One tree for one reading -/

section Unique

variable [BEq ο] {tiers : List (List ο)} {associativity : ο → Associativity}

/-- The root of a tree is as loose as any operator in it. -/
theorem NoLooserChild.tier_le_root {t : OperatorTree α ο} (h : NoLooserChild tiers t) {p : ο}
    (hp : Item.operator p ∈ t.items) : ∃ c ∈ t.root?, tier tiers p ≤ tier tiers c := by
  induction t with
  | leaf a => simp [OperatorTree.items] at hp
  | node left o right ihl ihr =>
      obtain ⟨hleft, hright, hl, hr⟩ := h
      refine ⟨o, rfl, ?_⟩
      simp only [OperatorTree.items, List.mem_append, List.mem_cons] at hp
      rcases hp with hp | hp | hp
      · obtain ⟨c, hc, hle⟩ := ihl hl hp
        exact Nat.le_trans hle (hleft c hc)
      · exact Nat.le_of_eq (congrArg (tier tiers) (Item.operator.inj hp))
      · obtain ⟨c, hc, hle⟩ := ihr hr hp
        exact Nat.le_trans hle (hright c hc)

/-- Trees that respect the tiers, with equal operators on the side of their associativity. -/
def Grouped (tiers : List (List ο)) (associativity : ο → Associativity) (t : OperatorTree α ο) :
    Prop :=
  NoLooserChild tiers t ∧
    t.EveryChild fun side o c => tier tiers c = tier tiers o → side = (associativity o).side

/-- An operator anywhere below another one is tighter, or equal and on the proper side. -/
theorem tier_of_mem_below {o p : ο} {side : Side} {t : OperatorTree α ο}
    (hbelow : ∀ c ∈ t.root?, tier tiers c ≤ tier tiers o)
    (hside : ∀ c ∈ t.root?, tier tiers c = tier tiers o → side = (associativity o).side)
    (ht : NoLooserChild tiers t) (hp : Item.operator p ∈ t.items) :
    tier tiers p ≤ tier tiers o ∧
      (tier tiers p = tier tiers o → side = (associativity o).side) := by
  obtain ⟨c, hc, hle⟩ := ht.tier_le_root hp
  have hco := hbelow c hc
  exact ⟨Nat.le_trans hle hco, fun heq => hside c hc (by omega)⟩

/-- Of two grouped trees with one reading, neither has its root to the left of the other's. -/
theorem root_not_left {left left' right right' : OperatorTree α ο} {o o' : ο}
    {between : List (Item α ο)} (hleft' : left'.items = left.items ++ .operator o :: between)
    (hright : right.items = between ++ .operator o' :: right'.items)
    (hsame : tier tiers o = tier tiers o' → associativity o = associativity o')
    (h : Grouped tiers associativity (.node left o right))
    (h' : Grouped tiers associativity (.node left' o' right')) : False := by
  obtain ⟨⟨-, hloose, -, hr⟩, -, hside, -, -⟩ := h
  obtain ⟨⟨hloose', -, hl', -⟩, hside', -, -, -⟩ := h'
  obtain ⟨hle, hle_side⟩ := tier_of_mem_below hloose hside hr (p := o') (by simp [hright])
  obtain ⟨hge, hge_side⟩ := tier_of_mem_below hloose' hside' hl' (p := o) (by simp [hleft'])
  have heq : tier tiers o = tier tiers o' := by omega
  have hcontra := (hle_side heq.symm).trans
    ((congrArg Associativity.side (hsame heq)).trans (hge_side heq).symm)
  cases hcontra

/-- Two grouped trees with one reading split it at one operator. -/
theorem root_split {left left' right right' : OperatorTree α ο} {o o' : ο}
    (hitems : (OperatorTree.node left o right).items = (OperatorTree.node left' o' right').items)
    (hsame : tier tiers o = tier tiers o' → associativity o = associativity o')
    (h : Grouped tiers associativity (.node left o right))
    (h' : Grouped tiers associativity (.node left' o' right')) :
    left.items = left'.items ∧ o = o' ∧ right.items = right'.items := by
  rcases List.append_eq_append_iff.mp hitems with ⟨between, hl, hr⟩ | ⟨between, hl, hr⟩
  · cases between with
    | nil => simpa [hl] using hr
    | cons entry between =>
        simp only [List.cons_append, List.cons.injEq] at hr
        obtain ⟨rfl, hr⟩ := hr
        exact (root_not_left hl hr hsame h h').elim
  · cases between with
    | nil => simpa [hl, eq_comm] using hr
    | cons entry between =>
        simp only [List.cons_append, List.cons.injEq] at hr
        obtain ⟨rfl, hr⟩ := hr
        exact (root_not_left hl hr (fun heq => (hsame heq.symm).symm) h' h).elim

/-- Two grouped trees that read alike are equal, when operators of one tier have one
associativity. -/
theorem eq_of_items_eq {t t' : OperatorTree α ο} (hitems : t.items = t'.items)
    (hsame : ∀ o o', Item.operator o ∈ t.items → Item.operator o' ∈ t.items →
      tier tiers o = tier tiers o' → associativity o = associativity o')
    (h : Grouped tiers associativity t) (h' : Grouped tiers associativity t') : t = t' := by
  induction t generalizing t' with
  | leaf a =>
      cases t' with
      | leaf b => simpa [OperatorTree.items] using hitems
      | node left o right => exact absurd hitems.symm OperatorTree.items_node_ne
  | node left o right ihl ihr =>
      cases t' with
      | leaf b => exact absurd hitems OperatorTree.items_node_ne
      | node left' o' right' =>
          have ho' : Item.operator o' ∈ (OperatorTree.node left o right).items := by
            rw [hitems]
            simp [OperatorTree.items]
          have hroots := hsame o o' (by simp [OperatorTree.items]) ho'
          obtain ⟨hleft, rfl, hright⟩ := root_split hitems hroots h h'
          have hl : left = left' :=
            ihl hleft (fun p q hp hq => hsame p q (by simp [OperatorTree.items, hp])
              (by simp [OperatorTree.items, hq])) ⟨h.1.2.2.1, h.2.2.2.1⟩
              ⟨h'.1.2.2.1, h'.2.2.2.1⟩
          have hr : right = right' :=
            ihr hright (fun p q hp hq => hsame p q (by simp [OperatorTree.items, hp])
              (by simp [OperatorTree.items, hq])) ⟨h.1.2.2.2, h.2.2.2.2⟩
              ⟨h'.1.2.2.2, h'.2.2.2.2⟩
          rw [hl, hr]

/-- When every tier has one associativity, trees on whose proper sides equal operators stand are
grouped in the sense of `Grouped`. -/
theorem OneSided.grouped {t : OperatorTree α ο} {items : List (Item α ο)}
    (hitems : t.items = items) (htiers : ∀ k, ∃ a, TierAssociates tiers associativity items k a)
    (hloose : NoLooserChild tiers t) (h : OneSided tiers associativity items t) :
    Grouped tiers associativity t := by
  subst hitems
  refine ⟨hloose, h.imp t fun side o c ho hc hside heq => ?_⟩
  obtain ⟨a, ha⟩ := htiers (tier tiers o)
  rw [hside heq a ha, ha o ho rfl]

end Unique

/-! ## Grouping a sequence -/

section Group

variable [BEq ο] {tiers : List (List ο)} {associativity : ο → Associativity}

/-- A sequence with links is combined from its first operand on. -/
theorem groupWith_links {m : Type → Type} [Monad m] (build : α → α → ο → m α)
    (refuse : GroupingError ο → m α) {first : α} {found : List (Link α ο)} (hfound : found ≠ [])
    (hranked : ∀ link ∈ found, strength? tiers link.operator = some link.strength) :
    groupWith build associativity refuse tiers (.operand first :: found.flatMap Link.items) =
      combine build associativity [] first found := by
  cases found with
  | nil => exact absurd rfl hfound
  | cons link rest => simp only [groupWith, links_flatMap_items 1 (link :: rest) hranked]

omit [BEq ο] in
theorem map_links {β : Type} (f : α → β) (found : List (Link α ο)) :
    (found.flatMap Link.items).map (Item.map f) =
      (found.map (Link.map f)).flatMap Link.items := by
  induction found with
  | nil => rfl
  | cons link rest ih => simp [Link.items, Link.map, Item.map, ih]

/-- Grouping gives the tree of the run with nodes. -/
theorem group_links {first : α} {found : List (Link α ο)} (hfound : found ≠ [])
    (hranked : ∀ link ∈ found, strength? tiers link.operator = some link.strength) :
    group tiers associativity (.operand first :: found.flatMap Link.items) =
      .ok (grow associativity [] (.leaf first) found) := by
  have hmapped : ∀ link ∈ found.map (Link.map (OperatorTree.leaf : α → OperatorTree α ο)),
      strength? tiers link.operator = some link.strength := by
    intro link hlink
    obtain ⟨origin, horigin, rfl⟩ := List.mem_map.mp hlink
    exact hranked origin horigin
  rw [group, List.map_cons, map_links, Item.map,
    groupWith_links _ _ (by simpa using hfound) hmapped]
  exact combine_total join associativity [] (.leaf first) _

/-- A sequence of at least two operands and ranked operators has one tree.  It reads as the
sequence, no operator has a looser one below it, and equal ones stand on the side of their
associativity; where the operators of each tier share one, no other tree is like that.
Combining with any `build` while reading is the fold of this tree. -/
theorem group_unique_tree (tiers : List (List ο)) (associativity : ο → Associativity)
    (items : List (Item α ο)) (halternates : Alternates items) (htwo : 3 ≤ items.length)
    (hranked : ∀ o, Item.operator o ∈ items → Ranked tiers o) :
    ∃ t, group tiers associativity items = .ok t ∧
      t.items = items ∧
      NoLooserChild tiers t ∧
      OneSided tiers associativity items t ∧
      ((∀ k, ∃ a, TierAssociates tiers associativity items k a) →
        ∀ t', t'.items = items → NoLooserChild tiers t' →
          OneSided tiers associativity items t' → t' = t) ∧
      ∀ {m : Type → Type} [Monad m] [LawfulMonad m] (build : α → α → ο → m α)
        (refuse : GroupingError ο → m α),
        groupWith build associativity refuse tiers items = t.foldM build := by
  obtain ⟨first, found, hitems, hlinks⟩ := halternates.exists_links hranked
  have hfound : found ≠ [] := by
    rintro rfl
    simp [hitems] at htwo
  have hstrength : ∀ link ∈ found, strength? tiers link.operator = some link.strength := by
    intro link hlink
    obtain ⟨hmem, hlinkStrength⟩ := hlinks link hlink
    rw [hlinkStrength]
    exact (hranked link.operator hmem).strength?_eq
  have hreading : (grow associativity [] (.leaf first) found).items = items := by
    simp [items_grow, stackItems, OperatorTree.items, hitems]
  have hallowed : (grow associativity [] (.leaf first) found).EveryChild
      (Allowed (strengthOf tiers) associativity fun o => Item.operator o ∈ items) :=
    grow_grouped hlinks trivial trivial rfl
  have hloose := noLooserChild_of_allowed hreading hranked hallowed
  have hside := oneSided_of_allowed hreading hranked hallowed
  refine ⟨grow associativity [] (.leaf first) found, ?_, hreading, hloose, hside, ?_, ?_⟩
  · rw [hitems]
    exact group_links hfound hstrength
  -- Operators of one tier associate alike, so both trees are grouped by the same rule.
  · intro htiers t' hreading' hloose' hside'
    refine eq_of_items_eq (hreading'.trans hreading.symm) (fun o o' ho ho' heq => ?_)
      (hside'.grouped hreading' htiers hloose') (hside.grouped hreading htiers hloose)
    rw [hreading'] at ho ho'
    obtain ⟨a, ha⟩ := htiers (tier tiers o)
    rw [ha o ho rfl, ha o' ho' heq.symm]
  · intro m _ _ build refuse
    rw [hitems, groupWith_links build refuse hfound hstrength]
    exact combine_eq_foldM build associativity first found

/-- In `1 + 2 ^ 3 ^ 4` the powers nest to the right below the sum. -/
theorem group_unique_tree_sum_of_powers :
    let tiers := [['^'], ['*', '/'], ['+', '-']]
    let associativity : Char → Associativity :=
      fun o => if o = '^' then .rightToLeft else .leftToRight
    let items : List (Item Nat Char) :=
      [.operand 1, .operator '+', .operand 2, .operator '^', .operand 3, .operator '^',
        .operand 4]
    Alternates items ∧ 3 ≤ items.length ∧ (∀ o, Item.operator o ∈ items → Ranked tiers o) ∧
      ∃ t, group tiers associativity items = .ok t ∧
        t.items = items ∧ NoLooserChild tiers t ∧ OneSided tiers associativity items t ∧
        t = .node (.leaf 1) '+' (.node (.leaf 2) '^' (.node (.leaf 3) '^' (.leaf 4))) := by
  intro tiers associativity items
  have halternates : Alternates items :=
    .more 1 '+' (.more 2 '^' (.more 3 '^' (.last 4)))
  have hranked : ∀ o, Item.operator o ∈ items → Ranked tiers o := by
    intro o ho
    simp only [items, List.mem_cons, List.not_mem_nil, or_false, reduceCtorEq, false_or,
      Item.operator.injEq] at ho
    rcases ho with rfl | rfl | rfl
    · exact ⟨['+', '-'], by simp [tiers], by decide⟩
    · exact ⟨['^'], by simp [tiers], by decide⟩
    · exact ⟨['^'], by simp [tiers], by decide⟩
  obtain ⟨t, hgroup, hitems, hloose, hside, -⟩ :=
    group_unique_tree tiers associativity items halternates (by decide) hranked
  refine ⟨halternates, by decide, hranked, t, hgroup, hitems, hloose, hside, ?_⟩
  exact Except.ok.inj (hgroup.symm.trans (by rfl))

end Group

end DocQuery.Operator
