import DocQuery.Proofs.Operator.UniqueTree
import DocQuery.Proofs.Sequencing

/-!
# The leftmost defect of a sequence

Why a sequence cannot be grouped can be read off its entries one by one: operands belong at even
places and ranked operators at odd ones, and a sequence that ends after an operator lacks an entry
at its end.  The scan goes over the entries two at a time, and still the first place with a defect
decides (`links_verdict`); only a sequence without any can have too few operands.

Main names:

* `DefectAt` — what is wrong at a place, whatever stands elsewhere;
* `Refused` — the leftmost defect, or too few operands where there is none;
* `links_verdict` — what the scan finds, from the entries before it on;
* `groupWith_leftmost_defect` — the error, whatever the operands are combined with.
-/

namespace DocQuery.Operator

variable {α ο : Type} [BEq ο] {tiers : List (List ο)} {items : List (Item α ο)}

/-- What is wrong at a place of a sequence: an entry of the wrong sort, an operator in no tier, or
the end where an operand is needed. -/
inductive DefectAt (tiers : List (List ο)) (items : List (Item α ο)) :
    Nat → GroupingError ο → Prop
  | operatorFound {i : Nat} {o : ο} (heven : i % 2 = 0) (hentry : items[i]? = some (.operator o)) :
      DefectAt tiers items i (.malformed i .operand)
  | operandFound {i : Nat} {a : α} (hodd : i % 2 = 1) (hentry : items[i]? = some (.operand a)) :
      DefectAt tiers items i (.malformed i .operator)
  | unranked {i : Nat} {o : ο} (hodd : i % 2 = 1) (hentry : items[i]? = some (.operator o))
      (hunranked : ¬ Ranked tiers o) : DefectAt tiers items i (.unranked o)
  | endFound (heven : items.length % 2 = 0) (hsome : items ≠ []) :
      DefectAt tiers items items.length (.malformed items.length .lastOperand)

/-- There is no defect before a place. -/
def SoundUpTo (tiers : List (List ο)) (items : List (Item α ο)) (i : Nat) : Prop :=
  ∀ j < i, ∀ e, ¬ DefectAt tiers items j e

/-- The defect at the first place that has one. -/
def LeftmostDefect (tiers : List (List ο)) (items : List (Item α ο)) (e : GroupingError ο) : Prop :=
  ∃ i, DefectAt tiers items i e ∧ SoundUpTo tiers items i

/-- Why a sequence cannot be grouped. -/
inductive Refused (tiers : List (List ο)) : List (Item α ο) → GroupingError ο → Prop
  | defect {items : List (Item α ο)} {e : GroupingError ο}
      (hleftmost : LeftmostDefect tiers items e) : Refused tiers items e
  | empty : Refused tiers [] (.insufficient 0)
  | lone (a : α) : Refused tiers [.operand a] (.insufficient 1)

/-! ## Single places -/

theorem strength?_eq_none_iff (o : ο) : strength? tiers o = none ↔ ¬ Ranked tiers o := by
  simp [strength?, Ranked, List.findIdx?_eq_none_iff]

theorem ranked_of_strength? {o : ο} {strength : Nat}
    (hstrength : strength? tiers o = some strength) : Ranked tiers o := by
  refine Classical.byContradiction fun hunranked => ?_
  rw [(strength?_eq_none_iff o).mpr hunranked] at hstrength
  cases hstrength

/-- A place has one defect at most. -/
theorem DefectAt.unique {i : Nat} {e e' : GroupingError ο} (he : DefectAt tiers items i e)
    (he' : DefectAt tiers items i e') : e = e' := by
  cases he <;> cases he' <;> simp_all

/-- An operand at an even place is in order. -/
theorem not_defectAt_operand {i : Nat} {a : α} (heven : i % 2 = 0)
    (hentry : items[i]? = some (.operand a)) (e : GroupingError ο) :
    ¬ DefectAt tiers items i e := by
  intro he
  cases he <;> simp_all

/-- So is a ranked operator at an odd one. -/
theorem not_defectAt_operator {i : Nat} {o : ο} (hodd : i % 2 = 1)
    (hentry : items[i]? = some (.operator o)) (hranked : Ranked tiers o) (e : GroupingError ο) :
    ¬ DefectAt tiers items i e := by
  intro he
  cases he <;> simp_all

/-- Beyond an odd end there is nothing left that could be wrong. -/
theorem not_defectAt_beyond {i : Nat} (hodd : items.length % 2 = 1) (hi : items.length ≤ i)
    (e : GroupingError ο) : ¬ DefectAt tiers items i e := by
  intro he
  cases he <;> simp_all

theorem SoundUpTo.succ {i : Nat} (hsound : SoundUpTo tiers items i)
    (hplace : ∀ e, ¬ DefectAt tiers items i e) : SoundUpTo tiers items (i + 1) := by
  intro j hj
  rcases Nat.lt_succ_iff_lt_or_eq.mp hj with hlt | rfl
  · exact hsound j hlt
  · exact hplace

/-! ## The scan -/

/-- What the scan says of the entries from a place on: the leftmost defect, or that there is
none. -/
def Verdict (tiers : List (List ο)) (items : List (Item α ο)) :
    Except (GroupingError ο) (List (Link α ο)) → Prop
  | .ok _ => ∀ i e, ¬ DefectAt tiers items i e
  | .error e => LeftmostDefect tiers items e

theorem verdict_cons_iff (link : Link α ο)
    (result : Except (GroupingError ο) (List (Link α ο))) :
    Verdict tiers items (List.cons link <$> result) ↔ Verdict tiers items result := by
  cases result <;> rfl

/-- An unranked operator is found before anything that stands after it. -/
theorem leftmostDefect_unranked {position : Nat} {o : ο} {before rest : List (Item α ο)}
    (hposition : before.length = position) (hodd : position % 2 = 1)
    (hsound : SoundUpTo tiers (before ++ .operator o :: rest) position)
    (hstrength : strength? tiers o = none) :
    LeftmostDefect tiers (before ++ .operator o :: rest) (.unranked o) :=
  ⟨position, .unranked hodd (by simp [← hposition]) ((strength?_eq_none_iff o).mp hstrength),
    hsound⟩

/-- A ranked operator leaves the scan at the place after it. -/
theorem soundUpTo_operator {position strength : Nat} {o : ο} {before rest : List (Item α ο)}
    (hposition : before.length = position) (hodd : position % 2 = 1)
    (hsound : SoundUpTo tiers (before ++ .operator o :: rest) position)
    (hstrength : strength? tiers o = some strength) :
    SoundUpTo tiers (before ++ .operator o :: rest) (position + 1) :=
  hsound.succ (not_defectAt_operator (o := o) hodd (by simp [← hposition])
    (ranked_of_strength? hstrength))

/-- The scan finds the leftmost defect, if what stands before it is in order.  It begins at an odd
place and goes on two entries at a time. -/
theorem links_verdict {position : Nat} {before rest : List (Item α ο)}
    (hposition : before.length = position) (hodd : position % 2 = 1)
    (hsound : SoundUpTo tiers (before ++ rest) position) :
    Verdict tiers (before ++ rest) (links tiers position rest) := by
  fun_induction links tiers position rest generalizing before with
  | case1 position =>
      intro i e
      rcases Nat.lt_or_ge i position with hlt | hge
      · exact hsound i hlt e
      · exact not_defectAt_beyond (by simp [hposition, hodd]) (by simp [hposition, hge]) e
  | case2 position a rest =>
      exact ⟨position, .operandFound (a := a) hodd (by simp [← hposition]), hsound⟩
  | case3 position o hstrength => exact leftmostDefect_unranked hposition hodd hsound hstrength
  | case4 position o strength hstrength =>
      have hlength : (before ++ [.operator o] : List (Item α ο)).length = position + 1 := by
        simp [hposition]
      have hdefect : DefectAt tiers (before ++ [.operator o]) (position + 1)
          (.malformed (position + 1) .lastOperand) := by
        rw [← hlength]
        exact .endFound (by omega) (by simp)
      exact ⟨position + 1, hdefect, soundUpTo_operator hposition hodd hsound hstrength⟩
  | case5 position o p rest hstrength =>
      exact leftmostDefect_unranked hposition hodd hsound hstrength
  | case6 position o p rest strength hstrength =>
      exact ⟨position + 1, .operatorFound (o := p) (by omega) (by simp [← hposition]),
        soundUpTo_operator hposition hodd hsound hstrength⟩
  | case7 position o a rest hstrength =>
      exact leftmostDefect_unranked hposition hodd hsound hstrength
  | case8 position o a rest strength hstrength ih =>
      -- The operator and the operand after it join what is known to be in order.
      have hentry : (before ++ .operator o :: .operand a :: rest)[position + 1]? =
          some (.operand a) := by
        simp [← hposition]
      have hnext := (soundUpTo_operator hposition hodd hsound hstrength).succ
        (not_defectAt_operand (by omega) hentry)
      have hsplit : before ++ .operator o :: .operand a :: rest =
          (before ++ [.operator o, .operand a]) ++ rest := by
        simp
      rw [hsplit] at hnext ⊢
      exact (verdict_cons_iff _ _).mpr (ih (by simp [hposition]) (by omega) hnext)

/-- After a first operand the scan decides. -/
theorem verdict_operand (first : α) (rest : List (Item α ο)) :
    Verdict tiers (.operand first :: rest) (links tiers 1 rest) := by
  have hsound : SoundUpTo tiers ([.operand first] ++ rest) 1 := by
    intro j hj e
    obtain rfl : j = 0 := by omega
    exact not_defectAt_operand (a := first) rfl rfl e
  exact links_verdict rfl rfl hsound

/-! ## Whole sequences -/

/-- What has been scanned without an error alternates, and its operators are ranked. -/
theorem alternates_of_links {position : Nat} {rest : List (Item α ο)} {found : List (Link α ο)}
    (hfound : links tiers position rest = .ok found) :
    rest = found.flatMap Link.items ∧
      ∀ link ∈ found, strength? tiers link.operator = some link.strength := by
  fun_induction links tiers position rest generalizing found with
  | case1 =>
      cases hfound
      simp
  | case8 position o a rest strength hstrength ih =>
      obtain ⟨others, hothers, rfl⟩ := map_eq_ok hfound
      obtain ⟨hrest, hranked⟩ := ih hothers
      exact ⟨by simp [Link.items, hrest], List.forall_mem_cons.mpr ⟨hstrength, hranked⟩⟩
  | _ => cases hfound

/-- A sequence has one reason at most for which it cannot be grouped. -/
theorem Refused.unique {e e' : GroupingError ο} (he : Refused tiers items e)
    (he' : Refused tiers items e') : e = e' := by
  have hempty : ∀ e, ¬ LeftmostDefect tiers ([] : List (Item α ο)) e := by
    rintro e ⟨i, hdefect, _⟩
    cases hdefect <;> simp_all
  have hlone : ∀ (a : α) e, ¬ LeftmostDefect tiers [Item.operand a] e := by
    rintro a e ⟨i, hdefect, _⟩
    rcases i with _ | i
    · exact not_defectAt_operand (a := a) rfl rfl e hdefect
    · exact not_defectAt_beyond rfl (by simp) e hdefect
  cases he with
  | defect hleftmost =>
      cases he' with
      | defect hleftmost' =>
          obtain ⟨i, hdefect, hsound⟩ := hleftmost
          obtain ⟨j, hdefect', hsound'⟩ := hleftmost'
          -- Two leftmost defects stand at one place, and there is one defect at a place.
          rcases Nat.lt_trichotomy i j with hlt | rfl | hlt
          · exact absurd hdefect (hsound' i hlt e)
          · exact hdefect.unique hdefect'
          · exact absurd hdefect' (hsound j hlt e')
      | empty => exact absurd hleftmost (hempty e)
      | lone a => exact absurd hleftmost (hlone a e)
  | empty =>
      cases he' with
      | defect hleftmost => exact absurd hleftmost (hempty e')
      | empty => rfl
  | lone a =>
      cases he' with
      | defect hleftmost => exact absurd hleftmost (hlone a e')
      | lone => rfl

/-- A sequence is refused, whatever its operands are combined with, or it is a first operand with
links.  Then it has no defect. -/
theorem refused_or_links (tiers : List (List ο)) (associativity : ο → Associativity)
    (items : List (Item α ο)) :
    (∃ e, Refused tiers items e ∧ ∀ {m : Type → Type} [Monad m] (build : α → α → ο → m α)
        (refuse : GroupingError ο → m α),
        groupWith build associativity refuse tiers items = refuse e) ∨
      ∃ (first : α) (found : List (Link α ο)), found ≠ [] ∧
        items = .operand first :: found.flatMap Link.items ∧
        (∀ link ∈ found, strength? tiers link.operator = some link.strength) ∧
        ∀ i e, ¬ DefectAt tiers items i e := by
  match items with
  | [] => exact Or.inl ⟨_, .empty, fun _ _ => rfl⟩
  | .operator o :: rest =>
      refine Or.inl ⟨_, .defect ⟨0, .operatorFound (o := o) rfl rfl, ?_⟩, fun _ _ => rfl⟩
      intro j hj
      exact absurd hj (Nat.not_lt_zero j)
  | .operand first :: rest =>
      have hverdict : Verdict tiers _ _ := verdict_operand first rest
      cases hlinks : links tiers 1 rest with
      | error e =>
          rw [hlinks] at hverdict
          refine Or.inl ⟨e, .defect hverdict, fun build refuse => ?_⟩
          simp only [groupWith, hlinks]
      | ok found =>
          rw [hlinks] at hverdict
          obtain ⟨rfl, hranked⟩ := alternates_of_links hlinks
          cases found with
          | nil => exact Or.inl ⟨_, .lone first, fun _ _ => rfl⟩
          | cons link found => exact Or.inr ⟨first, link :: found, by simp, rfl, hranked, hverdict⟩

omit [BEq ο] in
theorem alternates_flatMap_items (first : α) (found : List (Link α ο)) :
    Alternates (.operand first :: found.flatMap Link.items) := by
  induction found generalizing first with
  | nil => exact .last first
  | cons link rest ih => exact .more first link.operator (ih link.operand)

/-- A sequence that alternates, with ranked operators, has no defect. -/
theorem Alternates.not_defectAt (halternates : Alternates items)
    (hranked : ∀ o, Item.operator o ∈ items → Ranked tiers o) (i : Nat) (e : GroupingError ο) :
    ¬ DefectAt tiers items i e := by
  obtain ⟨first, found, rfl, hlinks⟩ := halternates.exists_links hranked
  have hstrength : ∀ link ∈ found, strength? tiers link.operator = some link.strength := by
    intro link hlink
    obtain ⟨hmem, hlinkStrength⟩ := hlinks link hlink
    rw [hlinkStrength]
    exact (hranked link.operator hmem).strength?_eq
  have hverdict : Verdict tiers _ _ := verdict_operand first (found.flatMap Link.items)
  rw [links_flatMap_items 1 found hstrength] at hverdict
  exact hverdict i e

/-- Why a sequence of operands and operators cannot be grouped.  The leftmost defect decides: an
entry of the wrong sort, an operator in no tier, or the end where an operand is needed; a sequence
without a defect has too few operands when it is empty or a lone operand.  No two operands are then
combined, in any monad.  Every other sequence alternates, has two operands at least and ranked
operators only, and combining is the fold of a tree that reads as the sequence. -/
theorem groupWith_leftmost_defect (tiers : List (List ο)) (associativity : ο → Associativity)
    (items : List (Item α ο)) :
    (∀ e, Refused tiers items e →
      ∀ {m : Type → Type} [Monad m] (build : α → α → ο → m α) (refuse : GroupingError ο → m α),
        groupWith build associativity refuse tiers items = refuse e) ∧
    ((∀ e, ¬ Refused tiers items e) ↔
      Alternates items ∧ 3 ≤ items.length ∧ ∀ o, Item.operator o ∈ items → Ranked tiers o) ∧
    ((∀ e, ¬ Refused tiers items e) →
      ∃ t : OperatorTree α ο, t.items = items ∧
        ∀ {m : Type → Type} [Monad m] [LawfulMonad m] (build : α → α → ο → m α)
          (refuse : GroupingError ο → m α),
          groupWith build associativity refuse tiers items = t.foldM build) := by
  -- Either the sequence is refused, or it is linked without a defect. Each case settles all three.
  rcases refused_or_links tiers associativity items with
    ⟨e, hrefused, hgroup⟩ | ⟨first, found, hfound, rfl, hranked, hsound⟩
  · refine ⟨fun e' he' => ?_, ⟨fun hnone => absurd hrefused (hnone e), ?_⟩,
      fun hnone => absurd hrefused (hnone e)⟩
    · obtain rfl := hrefused.unique he'
      exact hgroup
    · rintro ⟨halternates, hlength, hall⟩ e' he'
      cases he' with
      | defect hleftmost =>
          obtain ⟨i, hdefect, _⟩ := hleftmost
          exact halternates.not_defectAt hall i e' hdefect
      | empty => simp at hlength
      | lone a => simp at hlength
  · obtain ⟨link, rest, rfl⟩ := List.exists_cons_of_ne_nil hfound
    have hnone : ∀ e, ¬ Refused tiers (.operand first :: (link :: rest).flatMap Link.items) e := by
      intro e he
      cases he with
      | defect hleftmost =>
          obtain ⟨i, hdefect, _⟩ := hleftmost
          exact hsound i e hdefect
    refine ⟨fun e he => absurd he (hnone e), iff_of_true hnone ⟨?_, ?_, ?_⟩, fun _ => ?_⟩
    · exact alternates_flatMap_items first (link :: rest)
    · simp [Link.items]
    · intro o ho
      simp only [List.mem_cons, reduceCtorEq, List.mem_flatMap, Link.items, Item.operator.injEq,
        List.not_mem_nil, or_false, false_or] at ho
      obtain ⟨link', hlink, rfl⟩ := ho
      exact ranked_of_strength? (hranked link' (List.mem_cons.mpr hlink))
    · refine ⟨grow associativity [] (.leaf first) (link :: rest), ?_, fun build refuse => ?_⟩
      · simp [items_grow, stackItems, OperatorTree.items]
      · rw [groupWith_links build refuse hfound hranked]
        exact combine_eq_foldM build associativity first (link :: rest)

/-- The unranked operator of `1 ? + 2` stands before the operator that should be an operand. -/
theorem groupWith_leftmost_defect_unranked :
    let build : Nat → Nat → Char → Except (GroupingError Char) Nat := fun l r _ => .ok (l + r)
    let items : List (Item Nat Char) := [.operand 1, .operator '?', .operator '+', .operand 2]
    Refused [['+']] items (.unranked '?') ∧
      groupWith build (fun _ => .leftToRight) .error [['+']] items = .error (.unranked '?') := by
  intro build items
  have hunranked : ¬ Ranked [['+']] '?' := by
    simp [Ranked]
  have hrefused : Refused [['+']] items (.unranked '?') := by
    refine .defect ⟨1, .unranked rfl rfl hunranked, fun j hj e => ?_⟩
    obtain rfl : j = 0 := by omega
    exact not_defectAt_operand (a := 1) rfl rfl e
  exact ⟨hrefused, (groupWith_leftmost_defect [['+']] (fun _ => .leftToRight) items).1 _ hrefused
    build .error⟩

end DocQuery.Operator
