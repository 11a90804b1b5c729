import DocQuery.Operator.Grouping
import DocQuery.Proofs.Sequencing

/-!
# Grouping is a fold of a tree

`groupWith` combines operands while it reads, so what it does depends on the monad of `build`.
This module splits that off: the same run with nodes in place of `build` leaves a tree, and
`combine_eq_foldM` says that the run with any `build` is the fold of this tree.  Nothing here
depends on the tiers; which tree it is, is the matter of `DocQuery.Proofs.Operator.Precedence`.
-/

namespace DocQuery.Operator

variable {α ο : Type}

/-- The same link with another operand. -/
def Link.map {β : Type} (f : α → β) (link : Link α ο) : Link β ο :=
  ⟨link.operator, link.strength, f link.operand⟩

/-- Combining that makes a node. -/
def join (left right : OperatorTree α ο) (o : ο) : Id (OperatorTree α ο) :=
  pure (.node left o right)

/-- The tree that a run leaves when combining makes nodes. -/
def grow (associativity : ο → Associativity) (stack : List (Frame (OperatorTree α ο) ο))
    (right : OperatorTree α ο) (found : List (Link α ο)) : OperatorTree α ο :=
  Id.run (combine join associativity stack right (found.map (Link.map .leaf)))

/-! ## One step of the machine -/

section Step

variable {m : Type → Type} [Monad m] {build : α → α → ο → m α}
  {associativity : ο → Associativity} {o : ο} {strength : Nat} {right : α} {f : Frame α ο}
  {below : List (Frame α ο)}

theorem push_nil :
    push build associativity o strength right [] = pure [⟨right, o, strength, 0⟩] := rfl

/-- A stronger operator goes on top. -/
theorem push_stronger (h : f.strength < strength) :
    push build associativity o strength right (f :: below) =
      pure (⟨right, o, strength, f.strength + 1⟩ :: f :: below) := by
  rw [push, if_pos h]

/-- So does one of the same strength that nests to the right. -/
theorem push_nested (h : strength = f.strength) (hright : associativity o = .rightToLeft) :
    push build associativity o strength right (f :: below) =
      pure (⟨right, o, strength, f.strength⟩ :: f :: below) := by
  rw [push, if_neg (by omega), if_pos ⟨h, hright⟩]

/-- In every other case the waiting operator is joined. -/
theorem push_joined (hle : strength ≤ f.strength)
    (hleft : ¬(strength = f.strength ∧ associativity o = .rightToLeft)) :
    push build associativity o strength right (f :: below) = (do
      let joined ← build f.left right f.operator
      if f.minimum ≤ strength then return ⟨joined, o, strength, f.minimum⟩ :: below
      else push build associativity o strength joined below) := by
  rw [push, if_neg (by omega), if_neg hleft]

/-- What `push` can do: the new operator goes on top of a weaker one or of an equal one, or the
waiting operator is joined first. -/
theorem push_cases (f : Frame α ο) (strength : Nat) (o : ο)
    (associativity : ο → Associativity) :
    f.strength < strength ∨ (strength = f.strength ∧ associativity o = .rightToLeft) ∨
      (strength ≤ f.strength ∧ ¬(strength = f.strength ∧ associativity o = .rightToLeft)) := by
  by_cases hstronger : f.strength < strength
  · exact Or.inl hstronger
  · by_cases hnested : strength = f.strength ∧ associativity o = .rightToLeft
    · exact Or.inr (Or.inl hnested)
    · exact Or.inr (Or.inr ⟨by omega, hnested⟩)

end Step

/-! ## Folding what is on the stack -/

section Simulation

variable {m : Type → Type} [Monad m] (build : α → α → ο → m α)

/-- Folds the trees on a stack, the lowest first. -/
def foldStack : List (Frame (OperatorTree α ο) ο) → m (List (Frame α ο))
  | [] => pure []
  | f :: below => do
    let values ← foldStack below
    let left ← f.left.foldM build
    return ⟨left, f.operator, f.strength, f.minimum⟩ :: values

variable [LawfulMonad m] (associativity : ο → Associativity)

/-- Folding the stack and then pushing is pushing and then folding the stack. -/
theorem foldStack_push (o : ο) (strength : Nat) (right : OperatorTree α ο)
    (stack : List (Frame (OperatorTree α ο) ο)) :
    (do
      let values ← foldStack build stack
      let value ← right.foldM build
      push build associativity o strength value values) =
      foldStack build (Id.run (push join associativity o strength right stack)) := by
  induction stack generalizing right with
  | nil => simp [foldStack, push_nil]
  | cons f below ih =>
      -- The folded stack has the same strengths, so both sides take the same branch.
      rcases push_cases f strength o associativity with hstronger | ⟨heq, hright⟩ | ⟨hle, hleft⟩
      · have hvalues (left value : α) (values : List (Frame α ο)) :
            push build associativity o strength value
                (⟨left, f.operator, f.strength, f.minimum⟩ :: values) =
              pure (⟨value, o, strength, f.strength + 1⟩ ::
                ⟨left, f.operator, f.strength, f.minimum⟩ :: values) :=
          push_stronger hstronger
        simp [foldStack, push_stronger hstronger, hvalues]
      · have hvalues (left value : α) (values : List (Frame α ο)) :
            push build associativity o strength value
                (⟨left, f.operator, f.strength, f.minimum⟩ :: values) =
              pure (⟨value, o, strength, f.strength⟩ ::
                ⟨left, f.operator, f.strength, f.minimum⟩ :: values) :=
          push_nested heq hright
        simp [foldStack, push_nested heq hright, hvalues]
      · have hvalues (left value : α) (values : List (Frame α ο)) :
            push build associativity o strength value
                (⟨left, f.operator, f.strength, f.minimum⟩ :: values) = (do
              let joined ← build left value f.operator
              if f.minimum ≤ strength then return ⟨joined, o, strength, f.minimum⟩ :: values
              else push build associativity o strength joined values) :=
          push_joined hle hleft
        rw [push_joined hle hleft]
        by_cases hminimum : f.minimum ≤ strength
        · simp [foldStack, hvalues, hminimum, join, OperatorTree.foldM]
        · simpa [foldStack, hvalues, hminimum, join, OperatorTree.foldM] using
            ih (.node f.left f.operator right)

theorem foldStack_close (right : OperatorTree α ο) (stack : List (Frame (OperatorTree α ο) ο)) :
    (do
      let values ← foldStack build stack
      let value ← right.foldM build
      close build value values) =
      (Id.run (close join right stack)).foldM build := by
  induction stack generalizing right with
  | nil => simp [foldStack, close]
  | cons f below ih =>
      simpa [foldStack, close, join, OperatorTree.foldM] using ih (.node f.left f.operator right)

/-- A run from a folded stack is the fold of the tree that the run with nodes leaves. -/
theorem foldStack_combine (found : List (Link α ο)) (stack : List (Frame (OperatorTree α ο) ο))
    (right : OperatorTree α ο) :
    (do
      let values ← foldStack build stack
      let value ← right.foldM build
      combine build associativity values value found) =
      (grow associativity stack right found).foldM build := by
  induction found generalizing stack right with
  | nil => exact foldStack_close build right stack
  | cons link rest ih =>
      have hstep := ih (Id.run (push join associativity link.operator link.strength right stack))
        (.leaf link.operand)
      rw [← foldStack_push] at hstep
      simpa [combine, OperatorTree.foldM, grow, Link.map] using hstep

/-- Combining while reading is the fold of the tree that the run with nodes leaves: left side,
right side, then the operator, up to the first failure of `build`. -/
theorem combine_eq_foldM (first : α) (found : List (Link α ο)) :
    combine build associativity [] first found =
      (grow associativity [] (.leaf first) found).foldM build := by
  rw [← foldStack_combine build associativity found [] (.leaf first)]
  simp [foldStack, OperatorTree.foldM]

end Simulation

/-! ## Combining that cannot fail -/

section Total

variable {m : Type → Type} [Monad m] [LawfulMonad m] (build : α → α → ο → Id α)
  (associativity : ο → Associativity)

theorem push_total (o : ο) (strength : Nat) (right : α) (stack : List (Frame α ο)) :
    push (fun l r o => (pure (Id.run (build l r o)) : m α)) associativity o strength right stack =
      pure (Id.run (push build associativity o strength right stack)) := by
  induction stack generalizing right with
  | nil => simp [push_nil]
  | cons f below ih =>
      rcases push_cases f strength o associativity with hstronger | ⟨heq, hright⟩ | ⟨hle, hleft⟩
      · simp [push_stronger hstronger]
      · simp [push_nested heq hright]
      · rw [push_joined hle hleft, push_joined hle hleft]
        by_cases hminimum : f.minimum ≤ strength
        · simp [hminimum]
        · simpa [hminimum] using ih _

theorem close_total (right : α) (stack : List (Frame α ο)) :
    close (fun l r o => (pure (Id.run (build l r o)) : m α)) right stack =
      pure (Id.run (close build right stack)) := by
  induction stack generalizing right with
  | nil => simp [close]
  | cons f below ih => simpa [close] using ih _

theorem combine_total (stack : List (Frame α ο)) (right : α) (found : List (Link α ο)) :
    combine (fun l r o => (pure (Id.run (build l r o)) : m α)) associativity stack right found =
      pure (Id.run (combine build associativity stack right found)) := by
  induction found generalizing stack right with
  | nil => exact close_total build right stack
  | cons link rest ih => simpa [combine, push_total] using ih _ _

end Total

/-! ## What combining keeps -/

section Keeping

variable {ε : Type} {holds : α → Prop} {build : α → α → ο → Except ε α}
  (hbuild : ∀ {l r o a}, holds l → holds r → build l r o = .ok a → holds a)
  {associativity : ο → Associativity}

include hbuild

theorem push_keeps {o : ο} {strength : Nat} {right : α} {stack pushed : List (Frame α ο)}
    (hright : holds right) (hstack : ∀ f ∈ stack, holds f.left)
    (hpushed : push build associativity o strength right stack = .ok pushed) :
    ∀ f ∈ pushed, holds f.left := by
  induction stack generalizing right with
  | nil =>
      cases hpushed
      simpa using hright
  | cons f below ih =>
      rw [List.forall_mem_cons] at hstack
      rcases push_cases f strength o associativity with hstronger | ⟨heq, hassociative⟩ | ⟨hle, hleft⟩
      · rw [push_stronger hstronger] at hpushed
        cases hpushed
        exact List.forall_mem_cons.mpr ⟨hright, List.forall_mem_cons.mpr hstack⟩
      · rw [push_nested heq hassociative] at hpushed
        cases hpushed
        exact List.forall_mem_cons.mpr ⟨hright, List.forall_mem_cons.mpr hstack⟩
      -- What waits is combined with the operand, and the result takes its place or goes on below
      -- it.
      · rw [push_joined hle hleft] at hpushed
        obtain ⟨joined, hjoined, hpushed⟩ := bind_eq_ok hpushed
        have hholds := hbuild hstack.1 hright hjoined
        by_cases hminimum : f.minimum ≤ strength
        · simp only [hminimum, if_true] at hpushed
          cases hpushed
          exact List.forall_mem_cons.mpr ⟨hholds, hstack.2⟩
        · simp only [hminimum, if_false] at hpushed
          exact ih hholds hstack.2 hpushed

theorem close_keeps {right a : α} {stack : List (Frame α ο)} (hright : holds right)
    (hstack : ∀ f ∈ stack, holds f.left) (ha : close build right stack = .ok a) : holds a := by
  induction stack generalizing right with
  | nil =>
      cases ha
      exact hright
  | cons f below ih =>
      rw [List.forall_mem_cons] at hstack
      rw [close] at ha
      obtain ⟨joined, hjoined, ha⟩ := bind_eq_ok ha
      exact ih (hbuild hstack.1 hright hjoined) hstack.2 ha

theorem combine_keeps {right a : α} {stack : List (Frame α ο)} {found : List (Link α ο)}
    (hright : holds right) (hstack : ∀ f ∈ stack, holds f.left)
    (hfound : ∀ link ∈ found, holds link.operand)
    (ha : combine build associativity stack right found = .ok a) : holds a := by
  induction found generalizing stack right with
  | nil => exact close_keeps hbuild hright hstack ha
  | cons link rest ih =>
      rw [List.forall_mem_cons] at hfound
      rw [combine] at ha
      obtain ⟨pushed, hpushed, ha⟩ := bind_eq_ok ha
      exact ih hfound.1 (push_keeps hbuild hright hstack hpushed) hfound.2 ha

omit hbuild in
theorem links_operand [BEq ο] {tiers : List (List ο)} {position : Nat} {items : List (Item α ο)}
    {found : List (Link α ο)} (hitems : ∀ a, .operand a ∈ items → holds a)
    (hfound : links tiers position items = .ok found) : ∀ link ∈ found, holds link.operand := by
  fun_induction links tiers position items generalizing found with
  | case1 =>
      cases hfound
      simp
  | case8 position o a rest strength hstrength ih =>
      obtain ⟨others, hothers, hfound⟩ := bind_eq_ok hfound
      cases hfound
      refine List.forall_mem_cons.mpr ⟨hitems a (by simp), ih ?_ hothers⟩
      intro b hb
      exact hitems b (by simp [hb])
  | _ => cases hfound

/-- Grouping keeps what holds of all operands, if every combination of two keeps it. -/
theorem groupWith_keeps [BEq ο] {refuse : GroupingError ο → Except ε α}
    (hrefuse : ∀ {e a}, refuse e ≠ .ok a) {tiers : List (List ο)} {items : List (Item α ο)} {a : α}
    (hitems : ∀ a, .operand a ∈ items → holds a)
    (ha : groupWith build associativity refuse tiers items = .ok a) : holds a := by
  unfold groupWith at ha
  split at ha
  · exact absurd ha hrefuse
  · exact absurd ha hrefuse
  · rename_i first rest
    split at ha
    · exact absurd ha hrefuse
    · exact absurd ha hrefuse
    · rename_i found _ hfound
      refine combine_keeps hbuild (hitems first (by simp)) (by simp) ?_ ha
      exact links_operand (fun b hb => hitems b (by simp [hb])) hfound

end Keeping

end DocQuery.Operator
