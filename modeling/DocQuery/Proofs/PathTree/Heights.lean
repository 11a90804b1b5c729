import DocQuery.Proofs.PathTree.Spans

/-!
# Adding branches one by one

What adding a branch to siblings does depends on which of them stands for it: this one is extended,
or the new branch takes the place of all siblings of its family, or it is put after them. If none
stands for another one, there is only one that can be extended. Branches that are added to none are
what they were, and none gets higher than the branches that it is made of.

Main names:

* `Branch.add_of_covers`, `Branch.add_of_wildcard`, `Branch.add_of_plain` — the three cases;
* `Branch.low_add` — no branch gets higher;
* `Branch.foldl_add_nil` — branches that are added to none.
-/

namespace DocQuery.Branch

variable {allowed : Selector → Prop} {height : Nat} {s : Selector} {r : Bool}
  {siblings children : List Branch}

/-! ## The three cases -/

theorem updateCovering_of_uncovered {f : Branch → Branch}
    (huncovered : ∀ b ∈ siblings, covers b.selector s = false) :
    updateCovering f s siblings = none := by
  induction siblings with
  | nil => rfl
  | cons b rest ih =>
      have hb := huncovered b (List.mem_cons_self ..)
      rw [updateCovering, hb, if_neg Bool.false_ne_true,
        ih fun b' hb' => huncovered b' (List.mem_cons_of_mem _ hb')]
      rfl

/-- Of siblings that are apart, only one stands for a selector. -/
theorem updateCovering_of_covers {f : Branch → Branch} {before after : List Branch} {b : Branch}
    (hapart : Apart (before ++ b :: after)) (hcovers : covers b.selector s = true) :
    updateCovering f s (before ++ b :: after) = some (before ++ f b :: after) := by
  induction before with
  | nil => rw [List.nil_append, updateCovering, if_pos hcovers, List.nil_append]
  | cons first before ih =>
      rw [Apart, List.cons_append, List.map_cons, ApartSelectors, List.pairwise_cons] at hapart
      have hfirst : covers first.selector s = false := by
        refine Bool.eq_false_iff.mpr fun hfirst => ?_
        have hne := hapart.1 b.selector (List.mem_map_of_mem (by simp))
        rcases covers_or_covers hfirst hcovers with h | h
        · exact Bool.false_ne_true (hne.1.symm.trans h)
        · exact Bool.false_ne_true (hne.2.symm.trans h)
      rw [List.cons_append, updateCovering, hfirst, if_neg Bool.false_ne_true, ih hapart.2]
      rfl

/-- The branch that stands for the new one is extended. -/
theorem add_of_covers {before after : List Branch} {b : Branch}
    (hapart : Apart (before ++ b :: after)) (hcovers : covers b.selector s = true) :
    add (height + 1) (before ++ b :: after) (mk s r children) =
      before ++
        mk b.selector (b.required || r) (children.foldl (add height) b.children) :: after := by
  rw [add, addWith]
  simp only [selector, updateCovering_of_covers hapart hcovers]
  cases b
  rfl

/-- A wildcard for which none stands takes the place of its family. -/
theorem add_of_wildcard (huncovered : ∀ b ∈ siblings, covers b.selector s = false)
    (hwildcard : s.isWildcard = true) :
    add (height + 1) siblings (mk s r children) =
      siblings.filter (fun b => !sameFamily b.selector s) ++
        [mk s (r || (siblings.filter fun b => sameFamily b.selector s).any required)
          (children.foldl (add height)
            (((siblings.filter fun b => sameFamily b.selector s).flatMap Branch.children).foldl
              (add height) []))] := by
  rw [add, addWith]
  simp only [selector, updateCovering_of_uncovered huncovered, hwildcard, if_true]
  rfl

/-- Another branch for which none stands is put after its siblings. -/
theorem add_of_plain (huncovered : ∀ b ∈ siblings, covers b.selector s = false)
    (hplain : s.isWildcard = false) :
    add (height + 1) siblings (mk s r children) = siblings ++ [mk s r children] := by
  rw [add, addWith]
  simp only [selector, updateCovering_of_uncovered huncovered, hplain, Bool.false_eq_true, if_false]

/-! ## Heights -/

/-- Branches of which none has longer paths. -/
def Low (height : Nat) (bs : List Branch) : Prop :=
  ∀ b ∈ bs, b.height ≤ height

theorem heights_le_iff {bs : List Branch} : heights bs ≤ height ↔ Low height bs := by
  induction bs with
  | nil => exact iff_of_true (Nat.zero_le _) fun b hb => nomatch hb
  | cons b rest ih =>
      rw [heights, Nat.max_le, ih]
      unfold Low
      rw [List.forall_mem_cons]

theorem height_le_iff {b : Branch} : b.height ≤ height + 1 ↔ Low height b.children := by
  cases b with
  | mk s r children =>
      rw [Branch.height, Nat.succ_le_succ_iff]
      exact heights_le_iff

theorem low_zero {bs : List Branch} (hlow : Low 0 bs) : bs = [] := by
  refine List.eq_nil_iff_forall_not_mem.mpr fun b hb => ?_
  have hheight := hlow b hb
  cases b
  rw [Branch.height] at hheight
  omega

theorem low_foldl {more : List Branch → Branch → List Branch} {bs : List Branch}
    (hmore : ∀ siblings b, Low height siblings → b.height ≤ height → Low height (more siblings b))
    (hsiblings : Low height siblings) (hbs : Low height bs) :
    Low height (bs.foldl more siblings) := by
  induction bs generalizing siblings with
  | nil => exact hsiblings
  | cons b rest ih =>
      exact ih (hmore siblings b hsiblings (hbs b (List.mem_cons_self ..)))
        fun b' hb' => hbs b' (List.mem_cons_of_mem _ hb')

/-- Adding makes no branch higher than it was or than the added one is. -/
theorem low_add {b : Branch} (hsiblings : Low height siblings) (hb : b.height ≤ height) :
    Low height (add height siblings b) := by
  induction height generalizing siblings b with
  | zero => exact hsiblings
  | succ height ih =>
      have hbelow := height_le_iff.mp hb
      have hfold {into bs : List Branch} (hinto : Low height into) (hbs : Low height bs) :
          Low height (bs.foldl (add height) into) :=
        low_foldl (fun _ _ hlow hheight => ih hlow hheight) hinto hbs
      rw [add]
      have hadds := adds_addWith (add height) siblings b
      generalize addWith (add height) siblings b = updated at hadds ⊢
      cases hadds with
      | @merged before after b' =>
          -- The sibling takes the children of the branch, which are no higher.
          unfold Low at hsiblings ⊢
          rw [List.forall_mem_append, List.forall_mem_cons] at hsiblings ⊢
          refine ⟨hsiblings.1, ?_, hsiblings.2.2⟩
          have hb' := height_le_iff.mp hsiblings.2.1
          cases b'
          exact height_le_iff.mpr (hfold hb' hbelow)
      | wildcard =>
          refine List.forall_mem_append.mpr ⟨fun c hc => hsiblings c (List.mem_filter.mp hc).1, ?_⟩
          rw [List.forall_mem_singleton]
          cases b
          refine height_le_iff.mpr (hfold (hfold (fun _ hnone => nomatch hnone) ?_) hbelow)
          intro child hchild
          obtain ⟨sibling, hsibling, hchild⟩ := List.mem_flatMap.mp hchild
          exact height_le_iff.mp (hsiblings sibling (List.mem_filter.mp hsibling).1) child hchild
      | plain =>
          exact List.forall_mem_append.mpr ⟨hsiblings, List.forall_mem_singleton.mpr hb⟩

/-! ## Adding to none -/

/-- A branch that is apart from its siblings is put after them. -/
theorem add_concat {b : Branch} (hapart : Apart (siblings ++ [b]))
    (hbelow : b.children.foldl (add height) [] = b.children) :
    add (height + 1) siblings b = siblings ++ [b] := by
  cases b with
  | mk s r children =>
      rw [Apart, List.map_append, ApartSelectors, List.pairwise_append] at hapart
      have huncovered (b : Branch) (hb : b ∈ siblings) :
          covers b.selector s = false ∧ covers s b.selector = false :=
        hapart.2.2 b.selector (List.mem_map_of_mem hb) s (List.mem_singleton_self s)
      cases hwildcard : s.isWildcard with
      | false => exact add_of_plain (fun b hb => (huncovered b hb).1) hwildcard
      | true =>
          -- No sibling is of the family of the wildcard, so it takes none of them in.
          have hfamily (b : Branch) (hb : b ∈ siblings) : sameFamily b.selector s = false := by
            rw [sameFamily_comm, ← covers_of_isWildcard hwildcard]
            exact (huncovered b hb).2
          have hnone : siblings.filter (fun b => sameFamily b.selector s) = [] := by
            rw [List.filter_eq_nil_iff]
            intro b hb
            rw [hfamily b hb]
            exact Bool.false_ne_true
          have hall : siblings.filter (fun b => !sameFamily b.selector s) = siblings := by
            rw [List.filter_eq_self]
            intro b hb
            rw [hfamily b hb]
            rfl
          rw [add_of_wildcard (fun b hb => (huncovered b hb).1) hwildcard, hnone, hall]
          change siblings ++ [mk s (r || false) (children.foldl (add height) [])] = _
          rw [Bool.or_false]
          exact congrArg (fun below => siblings ++ [mk s r below]) hbelow

/-- Branches that are added to none one by one are what they were. -/
theorem foldl_add_nil {bs : List Branch} (htidy : TidyAll allowed bs) (hlow : Low height bs) :
    bs.foldl (add height) [] = bs := by
  induction height generalizing bs with
  | zero =>
      rw [low_zero hlow]
      rfl
  | succ height ih =>
      -- The induction on the list needs what has been added so far.
      have hafter : ∀ before, TidyAll allowed (before ++ bs) →
          bs.foldl (add (height + 1)) before = before ++ bs := by
        clear htidy
        induction bs with
        | nil => exact fun before _ => (List.append_nil before).symm
        | cons b rest ihrest =>
            intro before htidy
            have hsplit : before ++ b :: rest = before ++ [b] ++ rest := by
              rw [List.append_assoc, List.singleton_append]
            have hb := htidy.2 b (by simp)
            have hapart : Apart (before ++ [b]) := by
              have hall := htidy.1
              rw [hsplit, Apart, List.map_append] at hall
              exact (List.pairwise_append.mp hall).1
            have hbelow := ih hb.children (height_le_iff.mp (hlow b (List.mem_cons_self ..)))
            rw [List.foldl_cons, add_concat hapart hbelow, hsplit]
            rw [hsplit] at htidy
            exact ihrest (fun b' hb' => hlow b' (List.mem_cons_of_mem _ hb')) (before ++ [b]) htidy
      exact hafter [] htidy

end DocQuery.Branch
