import DocQuery.Proofs.Operator.Fold

/-!
# The tree of a grouped sequence

The tree of a sequence of operands and ranked operators reads as the sequence, and no operator in
it has a looser one directly below.  The invariant of the stack is `StackOk`: what waits on it is
grouped already, and `RightOf` says which operators may still come to stand on the right of a
waiting one.  It mentions the operators of the whole sequence, because between operators of one
tier the associativity of the *later* one decides.

* `items_grow` — no entry is lost, repeated or moved.
* `grow_grouped` — the invariant, stated with strengths.
* `noLooserChild_of_allowed`, `oneSided_of_allowed` — what it says about tiers.
-/

namespace DocQuery.Operator

variable {α ο : Type}

/-! ## Trees and sequences -/

/-- The two sides of an operator. -/
inductive Side
  | left
  | right
  deriving DecidableEq, Repr

/-- The side on which operators of one tier stand below each other. -/
def Associativity.side : Associativity → Side
  | leftToRight => .left
  | rightToLeft => .right

namespace OperatorTree

/-- The operator of the topmost node. -/
def root? : OperatorTree α ο → Option ο
  | leaf _ => none
  | node _ o _ => some o

/-- Every operator stands below another one only where `rel` allows it: on a side of the upper
operator. -/
def EveryChild (rel : Side → ο → ο → Prop) : OperatorTree α ο → Prop
  | leaf _ => True
  | node left o right =>
    (∀ c ∈ left.root?, rel .left o c) ∧ (∀ c ∈ right.root?, rel .right o c) ∧
      left.EveryChild rel ∧ right.EveryChild rel

theorem EveryChild.imp {rel rel' : Side → ο → ο → Prop} (t : OperatorTree α ο)
    (himp : ∀ side o c, Item.operator o ∈ t.items → Item.operator c ∈ t.items →
      rel side o c → rel' side o c)
    (h : t.EveryChild rel) : t.EveryChild rel' := by
  induction t with
  | leaf a => trivial
  | node left o right ihl ihr =>
      obtain ⟨hleft, hright, hl, hr⟩ := h
      have mem_root (t : OperatorTree α ο) (c : ο) (hc : c ∈ t.root?) :
          Item.operator c ∈ t.items := by
        cases t with
        | leaf a => simp [root?] at hc
        | node l c' r =>
            have hroot : c' = c := by simpa [root?] using hc
            simp [items, hroot]
      refine ⟨fun c hc => ?_, fun c hc => ?_, ?_, ?_⟩
      · exact himp _ _ _ (by simp [items]) (by simp [items, mem_root left c hc]) (hleft c hc)
      · exact himp _ _ _ (by simp [items]) (by simp [items, mem_root right c hc]) (hright c hc)
      · exact ihl (fun side p c hp hc => himp side p c (by simp [items, hp])
          (by simp [items, hc])) hl
      · exact ihr (fun side p c hp hc => himp side p c (by simp [items, hp])
          (by simp [items, hc])) hr

theorem items_node_ne {left right : OperatorTree α ο} {o : ο} {a : α} :
    (node left o right).items ≠ [.operand a] := by
  intro h
  have hmem : Item.operator o ∈ (node left o right).items := by
    simp [items]
  simp [h] at hmem

end OperatorTree

/-- Operand, operator, operand and so on, up to a last operand. -/
inductive Alternates : List (Item α ο) → Prop
  | last (a : α) : Alternates [.operand a]
  | more (a : α) (o : ο) {rest : List (Item α ο)} (h : Alternates rest) :
      Alternates (.operand a :: .operator o :: rest)

/-- The entries of a link. -/
def Link.items (link : Link α ο) : List (Item α ο) :=
  [.operator link.operator, .operand link.operand]

/-- The entries that have gone onto a stack, the lowest frame first. -/
def stackItems : List (Frame (OperatorTree α ο) ο) → List (Item α ο)
  | [] => []
  | f :: below => stackItems below ++ f.left.items ++ [.operator f.operator]

section Reading

variable (associativity : ο → Associativity)

theorem stackItems_push (o : ο) (strength : Nat) (right : OperatorTree α ο)
    (stack : List (Frame (OperatorTree α ο) ο)) :
    stackItems (Id.run (push join associativity o strength right stack)) =
      stackItems stack ++ right.items ++ [.operator o] := by
  induction stack generalizing right with
  | nil => simp [push_nil, stackItems]
  | cons f below ih =>
      rcases push_cases f strength o associativity with hstronger | ⟨heq, hright⟩ | ⟨hle, hleft⟩
      · simp [push_stronger hstronger, stackItems]
      · simp [push_nested heq hright, stackItems]
      · rw [push_joined hle hleft]
        by_cases hminimum : f.minimum ≤ strength
        · simp [hminimum, join, stackItems, OperatorTree.items]
        · simpa [hminimum, join, stackItems, OperatorTree.items] using
            ih (.node f.left f.operator right)

theorem items_close (right : OperatorTree α ο) (stack : List (Frame (OperatorTree α ο) ο)) :
    (Id.run (close join right stack)).items = stackItems stack ++ right.items := by
  induction stack generalizing right with
  | nil => simp [close, stackItems]
  | cons f below ih =>
      simpa [close, join, stackItems, OperatorTree.items] using
        ih (.node f.left f.operator right)

/-- No entry is lost, repeated or moved. -/
theorem items_grow (found : List (Link α ο)) (stack : List (Frame (OperatorTree α ο) ο))
    (right : OperatorTree α ο) :
    (grow associativity stack right found).items =
      stackItems stack ++ right.items ++ found.flatMap Link.items := by
  induction found generalizing stack right with
  | nil => simpa [grow, combine] using items_close right stack
  | cons link rest ih =>
      have hstep := ih (Id.run (push join associativity link.operator link.strength right stack))
        (.leaf link.operand)
      rw [stackItems_push] at hstep
      simpa [grow, combine, Link.map, Link.items, OperatorTree.items] using hstep

end Reading

/-! ## The invariant of the stack -/

section Invariant

variable (strength : ο → Nat) (associativity : ο → Associativity) (present : ο → Prop)

/-- Some operator of this strength nests to the right. -/
def NestsRight (k : Nat) : Prop :=
  ∃ o, present o ∧ strength o = k ∧ associativity o = .rightToLeft

/-- An operator of strength `n` may stand on the right of one of strength `k`. -/
def RightOf (k n : Nat) : Prop :=
  k < n ∨ (k = n ∧ NestsRight strength associativity present k)

/-- The operator `c` may stand on the left of `o`. -/
def LeftOf (o c : ο) : Prop :=
  strength o < strength c ∨ (strength o = strength c ∧ associativity o = .leftToRight)

/-- Where operators may stand below each other in the trees of the machine. -/
def Allowed : Side → ο → ο → Prop
  | .left, o, c => LeftOf strength associativity o c
  | .right, o, c => RightOf strength associativity present (strength o) (strength c)

/-- A tree whose root has strength `n` may become the right operand of the top of a stack. -/
def Fits : List (Frame (OperatorTree α ο) ο) → Nat → Prop
  | [], _ => True
  | f :: _, n => RightOf strength associativity present f.strength n

/-- Every frame waits with a grouped left operand that may stand on its left, and everything
from its `minimum` on may become the right operand of the frame below it. -/
def StackOk : List (Frame (OperatorTree α ο) ο) → Prop
  | [] => True
  | f :: below =>
    f.strength = strength f.operator ∧
      f.left.EveryChild (Allowed strength associativity present) ∧
      (∀ c ∈ f.left.root?, LeftOf strength associativity f.operator c) ∧
      f.minimum ≤ f.strength ∧
      Fits strength associativity present below f.minimum ∧ StackOk below

variable {strength associativity present}

theorem RightOf.mono {k n n' : Nat} (h : RightOf strength associativity present k n)
    (hle : n ≤ n') : RightOf strength associativity present k n' := by
  rcases h with hlt | ⟨heq, hnests⟩
  · exact Or.inl (by omega)
  · subst heq
    rcases Nat.lt_or_eq_of_le hle with hlt | heq
    · exact Or.inl hlt
    · exact Or.inr ⟨heq, hnests⟩

theorem Fits.mono {stack : List (Frame (OperatorTree α ο) ο)} {n n' : Nat}
    (h : Fits strength associativity present stack n) (hle : n ≤ n') :
    Fits strength associativity present stack n' := by
  cases stack with
  | nil => trivial
  | cons f below => exact RightOf.mono h hle

/-- Joining the top of the stack gives a grouped tree that fits what is below. -/
theorem StackOk.join {f : Frame (OperatorTree α ο) ο}
    {below : List (Frame (OperatorTree α ο) ο)} {right : OperatorTree α ο}
    (hstack : StackOk strength associativity present (f :: below))
    (hright : right.EveryChild (Allowed strength associativity present))
    (hfits : ∀ c ∈ right.root?, Fits strength associativity present (f :: below) (strength c)) :
    (OperatorTree.node f.left f.operator right).EveryChild
        (Allowed strength associativity present) ∧
      Fits strength associativity present below (strength f.operator) := by
  obtain ⟨hstrength, hleft, hroot, hminimum, hbelow, -⟩ := hstack
  refine ⟨⟨hroot, fun c hc => ?_, hleft, hright⟩, hbelow.mono (by omega)⟩
  have hc' : RightOf strength associativity present f.strength (strength c) := hfits c hc
  rw [hstrength] at hc'
  exact hc'

/-- A push keeps the invariant, and an operand that has just been read fits every stack. -/
theorem StackOk.push {o : ο} (ho : present o) {right : OperatorTree α ο}
    {stack : List (Frame (OperatorTree α ο) ο)}
    (hstack : StackOk strength associativity present stack)
    (hright : right.EveryChild (Allowed strength associativity present))
    (hroot : ∀ c ∈ right.root?, LeftOf strength associativity o c)
    (hfits : ∀ c ∈ right.root?, Fits strength associativity present stack (strength c)) :
    StackOk strength associativity present
      (Id.run (Operator.push Operator.join associativity o (strength o) right stack)) := by
  induction stack generalizing right with
  | nil => exact ⟨rfl, hright, hroot, Nat.zero_le _, trivial, trivial⟩
  | cons f below ih =>
      rcases push_cases f (strength o) o associativity with
        hstronger | ⟨heq, hnests⟩ | ⟨hle, hleft⟩
      · rw [push_stronger hstronger]
        exact ⟨rfl, hright, hroot, hstronger, Or.inl (Nat.lt_succ_self _), hstack⟩
      · rw [push_nested heq hnests]
        exact ⟨rfl, hright, hroot, Nat.le_of_eq heq.symm, Or.inr ⟨rfl, o, ho, heq, hnests⟩, hstack⟩
      -- The frame is complete: its operator becomes the root of the operand that the new one gets.
      · obtain ⟨hjoined, hbelow⟩ := StackOk.join hstack hright hfits
        have hleftOf : LeftOf strength associativity o f.operator := by
          have hstrength : f.strength = strength f.operator := hstack.1
          rcases Nat.lt_or_eq_of_le hle with hlt | heq
          · exact Or.inl (by omega)
          · refine Or.inr ⟨by omega, ?_⟩
            cases hassociativity : associativity o with
            | leftToRight => rfl
            | rightToLeft => exact absurd ⟨heq, hassociativity⟩ hleft
        have hrootJoined : ∀ c ∈ (OperatorTree.node f.left f.operator right).root?,
            LeftOf strength associativity o c := by
          intro c hc
          rwa [← Option.some.inj (Option.mem_def.mp hc)]
        rw [push_joined hle hleft]
        by_cases hminimum : f.minimum ≤ strength o
        · simp only [Operator.join, pure_bind, hminimum, if_true, Id.run_pure]
          exact ⟨rfl, hjoined, hrootJoined, hminimum, hstack.2.2.2.2.1, hstack.2.2.2.2.2⟩
        · simp only [Operator.join, pure_bind, hminimum, if_false]
          refine ih hstack.2.2.2.2.2 hjoined hrootJoined ?_
          intro c hc
          rwa [← Option.some.inj (Option.mem_def.mp hc)]

theorem StackOk.close {right : OperatorTree α ο} {stack : List (Frame (OperatorTree α ο) ο)}
    (hstack : StackOk strength associativity present stack)
    (hright : right.EveryChild (Allowed strength associativity present))
    (hfits : ∀ c ∈ right.root?, Fits strength associativity present stack (strength c)) :
    (Id.run (Operator.close Operator.join right stack)).EveryChild
      (Allowed strength associativity present) := by
  induction stack generalizing right with
  | nil => exact hright
  | cons f below ih =>
      obtain ⟨hjoined, hbelow⟩ := StackOk.join hstack hright hfits
      refine ih hstack.2.2.2.2.2 hjoined ?_
      intro c hc
      rwa [← Option.some.inj (Option.mem_def.mp hc)]

/-- Whatever waits on the stack, the tree of the links to come is grouped. -/
theorem grow_grouped {found : List (Link α ο)} {stack : List (Frame (OperatorTree α ο) ο)}
    {right : OperatorTree α ο}
    (hfound : ∀ link ∈ found, present link.operator ∧ link.strength = strength link.operator)
    (hstack : StackOk strength associativity present stack)
    (hright : right.EveryChild (Allowed strength associativity present))
    (hleaf : right.root? = none) :
    (grow associativity stack right found).EveryChild
      (Allowed strength associativity present) := by
  induction found generalizing stack right with
  | nil => exact hstack.close hright (by simp [hleaf])
  | cons link rest ih =>
      obtain ⟨hpresent, hstrength⟩ := hfound link List.mem_cons_self
      have hpushed := hstack.push hpresent hright (by simp [hleaf]) (by simp [hleaf])
      have hleaf : OperatorTree.EveryChild (Allowed strength associativity present)
          (.leaf link.operand : OperatorTree α ο) := trivial
      have hrest := ih (fun link' h => hfound link' (List.mem_cons_of_mem _ h)) hpushed hleaf rfl
      rw [← hstrength] at hrest
      simpa [grow, combine, Link.map] using hrest

end Invariant

/-! ## Tiers -/

/-- The place of an operator's tier in the table; larger is looser. -/
def tier [BEq ο] (tiers : List (List ο)) (o : ο) : Nat :=
  tiers.findIdx (·.contains o)

/-- The strength of a ranked operator. -/
def strengthOf [BEq ο] (tiers : List (List ο)) (o : ο) : Nat :=
  tiers.length - tier tiers o

/-- An operator stands in some tier. -/
def Ranked [BEq ο] (tiers : List (List ο)) (o : ο) : Prop :=
  ∃ members ∈ tiers, members.contains o

/-- No operator has one of a looser tier directly below it. -/
def NoLooserChild [BEq ο] (tiers : List (List ο)) (t : OperatorTree α ο) : Prop :=
  t.EveryChild fun _ o c => tier tiers c ≤ tier tiers o

/-- All operators of the tier `k` in a sequence have the associativity `a`. -/
def TierAssociates [BEq ο] (tiers : List (List ο)) (associativity : ο → Associativity)
    (items : List (Item α ο)) (k : Nat) (a : Associativity) : Prop :=
  ∀ o, Item.operator o ∈ items → tier tiers o = k → associativity o = a

/-- Where the operators of a tier share one associativity, they stand directly below each other
only on its side. -/
def OneSided [BEq ο] (tiers : List (List ο)) (associativity : ο → Associativity)
    (items : List (Item α ο)) (t : OperatorTree α ο) : Prop :=
  t.EveryChild fun side o c => tier tiers c = tier tiers o →
    ∀ a, TierAssociates tiers associativity items (tier tiers o) a → side = a.side

section Tiers

variable [BEq ο] {tiers : List (List ο)} {associativity : ο → Associativity}

theorem Ranked.tier_lt {o : ο} (h : Ranked tiers o) : tier tiers o < tiers.length := by
  obtain ⟨members, hmem, hcontains⟩ := h
  exact List.findIdx_lt_length_of_exists ⟨members, hmem, hcontains⟩

theorem Ranked.strength?_eq {o : ο} (h : Ranked tiers o) :
    strength? tiers o = some (strengthOf tiers o) := by
  obtain ⟨members, hmem, hcontains⟩ := h
  rw [strength?, List.findIdx?_eq_some_of_exists ⟨members, hmem, hcontains⟩]
  rfl

/-- The links of a sequence are read off it when its operators are ranked. -/
theorem links_flatMap_items (position : Nat) (found : List (Link α ο))
    (hranked : ∀ link ∈ found, strength? tiers link.operator = some link.strength) :
    links tiers position (found.flatMap Link.items) = .ok found := by
  induction found generalizing position with
  | nil => rfl
  | cons link rest ih =>
      have hrest := ih (position + 2) fun l hl => hranked l (List.mem_cons_of_mem _ hl)
      have hlink := hranked link List.mem_cons_self
      simp only [List.flatMap_cons, Link.items, List.cons_append, List.nil_append, links, hlink,
        hrest]
      rfl

/-- A sequence that alternates is a first operand with links. -/
theorem Alternates.exists_links {items : List (Item α ο)} (h : Alternates items)
    (hranked : ∀ o, Item.operator o ∈ items → Ranked tiers o) :
    ∃ (first : α) (found : List (Link α ο)),
      items = .operand first :: found.flatMap Link.items ∧
        ∀ link ∈ found, Item.operator link.operator ∈ items ∧
          link.strength = strengthOf tiers link.operator := by
  induction h with
  | last a => exact ⟨a, [], rfl, by simp⟩
  | @more a o rest _ ih =>
      obtain ⟨first, found, hrest, hlinks⟩ :=
        ih fun p hp => hranked p (by simp [hp])
      refine ⟨a, ⟨o, strengthOf tiers o, first⟩ :: found, ?_, ?_⟩
      · simp [hrest, Link.items]
      · intro link hlink
        rcases List.mem_cons.mp hlink with rfl | hlink
        · exact ⟨by simp, rfl⟩
        · obtain ⟨hmem, hstrength⟩ := hlinks link hlink
          exact ⟨by simp [hmem], hstrength⟩

/-- Grouping by strengths respects the tiers. -/
theorem noLooserChild_of_allowed {t : OperatorTree α ο} {items : List (Item α ο)}
    (hitems : t.items = items) (hranked : ∀ o, Item.operator o ∈ items → Ranked tiers o)
    (h : t.EveryChild (Allowed (strengthOf tiers) associativity
      fun o => Item.operator o ∈ items)) :
    NoLooserChild tiers t := by
  subst hitems
  refine h.imp t fun side o c ho hc hallowed => ?_
  have hto := (hranked o ho).tier_lt
  have htc := (hranked c hc).tier_lt
  have hstrength : strengthOf tiers o ≤ strengthOf tiers c := by
    cases side with
    | left => exact hallowed.elim Nat.le_of_lt fun h => Nat.le_of_eq h.1
    | right => exact hallowed.elim Nat.le_of_lt fun h => Nat.le_of_eq h.1
  unfold strengthOf at hstrength
  omega

/-- Grouping by strengths puts equal operators on the side of their associativity. -/
theorem oneSided_of_allowed {t : OperatorTree α ο} {items : List (Item α ο)}
    (hitems : t.items = items) (hranked : ∀ o, Item.operator o ∈ items → Ranked tiers o)
    (h : t.EveryChild (Allowed (strengthOf tiers) associativity
      fun o => Item.operator o ∈ items)) :
    OneSided tiers associativity items t := by
  subst hitems
  refine h.imp t fun side o c ho hc hallowed htier a hassociates => ?_
  cases side with
  | left =>
      rcases hallowed with hlt | ⟨-, hleft⟩
      · simp [strengthOf, htier] at hlt
      · rw [← hassociates o ho rfl, hleft]
        rfl
  | right =>
      rcases hallowed with hlt | ⟨-, p, hp, hstrength, hright⟩
      · simp [strengthOf, htier] at hlt
      · have hto := (hranked o ho).tier_lt
        have htp := (hranked p hp).tier_lt
        unfold strengthOf at hstrength
        rw [← hassociates p hp (by omega), hright]
        rfl

end Tiers

end DocQuery.Operator
