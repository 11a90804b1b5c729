import DocQuery.Expression.Matching
import DocQuery.Regex.Match
import DocQuery.Regex.Reader

/-!
# Patterns for texts as they stand

A quoted text is read as its characters, one after the other, whatever they mean in patterns. Such a
pattern moves the marked spots of a text over the characters that it asks for, and the anchors at
its ends leave only the spots at the ends of the text.

Main names:

* `Regex.run_quote`, `Regex.read_startsWith`, … — what the patterns are read as;
* `Regex.marked_one`, `Regex.marked_anchor`, `Regex.marked_chars` — where their matches end;
* `Regex.isMatch_startsWith`, `Regex.isMatch_endsWith`, `Regex.isMatch_contains` — which texts match.
-/

namespace DocQuery.Regex

/-! ## Reading quoted texts -/

/-- The parts of a pattern whose characters mean themselves. -/
def chars (cs : List Char) : List Regex :=
  cs.map fun c => .one (.single c)

/-- A pattern without groups, branches or modes has been read, and these are its parts, the last one
first. -/
structure Plain (state : Reading) (parts : List Regex) : Prop where
  modes : state.top.modes = .initial
  branches : state.top.branches = []
  parts : state.top.parts = parts
  outer : state.outer = []

theorem plain_start : Plain .start [] :=
  ⟨rfl, rfl, rfl, rfl⟩

section Reading

variable {state : Reading} {parts : List Regex} {c : Char}

theorem Plain.push (hstate : Plain state parts) (r : Regex) : Plain (state.push r) (r :: parts) :=
  ⟨hstate.modes, hstate.branches, congrArg (r :: ·) hstate.parts, hstate.outer⟩

/-- A character without a meaning of its own is a part. -/
theorem Plain.step_plain (hstate : Plain state parts) (hc : c ∉ metaChars) (rest : List Char) :
    state.step c rest = some (state.push (.one (.single c)), rest) := by
  have hliteral : state.top.modes.literal c = .single c := by
    rw [hstate.modes]
    rfl
  unfold Reading.step
  dsimp only
  split
  case h_13 => rw [hliteral]
  all_goals exact absurd (by decide) hc

/-- A character with a meaning stands for itself behind a backslash. -/
theorem Plain.step_quoted (hstate : Plain state parts) (hc : c ∈ metaChars) (rest : List Char) :
    state.step '\\' (c :: rest) = some (state.push (.one (.single c)), rest) := by
  have hread : Atom.read state.top.modes (c :: rest) = some (.literal c, rest) := by
    unfold Atom.read
    dsimp only
    rw [List.contains_iff_mem.mpr hc, Bool.true_or, if_pos rfl]
  have hliteral : state.top.modes.literal c = .single c := by
    rw [hstate.modes]
    rfl
  show (Atom.read state.top.modes (c :: rest)).bind _ = _
  rw [hread]
  show some (state.push (.one (state.top.modes.literal c)), rest) = _
  rw [hliteral]

theorem Plain.run_step (hstate : Plain state parts) (fuel : Nat) (rest : List Char) :
    Reading.run (fuel + 1) state (c :: rest) =
      (state.step c rest).bind fun next => Reading.run fuel next.1 next.2 := by
  have hskip : state.top.modes.skip (c :: rest) = c :: rest := by
    rw [hstate.modes]
    rfl
  rw [Reading.run, hskip]
  rfl

theorem Plain.run_end (hstate : Plain state parts) (fuel : Nat) :
    Reading.run (fuel + 1) state [] = some (sequenceAll parts.reverse) := by
  have hskip : state.top.modes.skip [] = [] := by
    rw [hstate.modes]
    rfl
  rw [Reading.run, hskip]
  unfold Reading.finish? Level.close Level.branch
  rw [hstate.outer, hstate.branches, hstate.parts]
  rfl

/-- A quoted text is read as its characters. -/
theorem run_quote (cs : List Char) (hstate : Plain state parts) (fuel : Nat) (rest : List Char) :
    ∃ state', Plain state' ((chars cs).reverse ++ parts) ∧
      Reading.run (fuel + cs.length) state (quote cs ++ rest) = Reading.run fuel state' rest := by
  induction cs generalizing state parts with
  | nil => exact ⟨state, hstate, rfl⟩
  | cons c cs ih =>
      obtain ⟨state', hstate', hrun⟩ := ih (hstate.push (.one (.single c)))
      have hparts : (chars (c :: cs)).reverse ++ parts =
          (chars cs).reverse ++ .one (.single c) :: parts := by
        simp [chars]
      refine ⟨state', hparts ▸ hstate', ?_⟩
      rw [List.length_cons, ← Nat.add_assoc, quote, List.flatMap_cons, ← quote]
      by_cases hc : c ∈ metaChars
      · rw [if_pos (List.contains_iff_mem.mpr hc)]
        show Reading.run (fuel + cs.length + 1) state ('\\' :: c :: (quote cs ++ rest)) = _
        rw [hstate.run_step, hstate.step_quoted hc]
        exact hrun
      · rw [if_neg fun hmem => hc (List.contains_iff_mem.mp hmem)]
        show Reading.run (fuel + cs.length + 1) state (c :: (quote cs ++ rest)) = _
        rw [hstate.run_step, hstate.step_plain hc]
        exact hrun

theorem Plain.step_start (hstate : Plain state parts) (rest : List Char) :
    state.step '^' rest = some (state.push (.anchor .textStart), rest) := by
  show some (state.push (.anchor (if state.top.modes.multiLine then _ else .textStart)), rest) = _
  rw [hstate.modes]
  rfl

theorem Plain.step_end (hstate : Plain state parts) (rest : List Char) :
    state.step '$' rest = some (state.push (.anchor .textEnd), rest) := by
  show some (state.push (.anchor (if state.top.modes.multiLine then _ else .textEnd)), rest) = _
  rw [hstate.modes]
  rfl

end Reading

theorem length_le_quote (cs : List Char) : cs.length ≤ (quote cs).length := by
  induction cs with
  | nil => exact Nat.le_refl 0
  | cons c cs ih =>
      rw [quote, List.flatMap_cons, ← quote, List.length_append, List.length_cons]
      split <;> simp only [List.length_cons, List.length_nil] <;> omega

/-- The patterns of the operators that take their argument as it stands are read, and mean what they
are made of. -/
theorem read_startsWith (wanted : String) :
    read (MatchOperator.startsWith.pattern wanted) =
      some (sequenceAll (.anchor .textStart :: chars wanted.toList)) := by
  obtain ⟨more, hmore⟩ := Nat.exists_eq_add_of_le (length_le_quote wanted.toList)
  have hpush := plain_start.push (Regex.anchor .textStart)
  obtain ⟨state, hstate, hrun⟩ := run_quote wanted.toList hpush (more + 1) []
  have hread : Reading.run (more + 1 + wanted.toList.length + 1) .start
      ('^' :: (quote wanted.toList ++ [])) =
        some (sequenceAll ((chars wanted.toList).reverse ++ [Regex.anchor .textStart]).reverse) := by
    rw [plain_start.run_step, plain_start.step_start]
    exact hrun.trans (hstate.run_end more)
  rw [List.append_nil, List.reverse_append, List.reverse_reverse] at hread
  unfold read MatchOperator.pattern
  dsimp only
  have hfuel : wanted.toList.length + more + 1 + 1 = more + 1 + wanted.toList.length + 1 := by
    omega
  rw [String.toList_ofList, List.length_cons, hmore, hfuel]
  exact hread

theorem read_endsWith (wanted : String) :
    read (MatchOperator.endsWith.pattern wanted) =
      some (sequenceAll (chars wanted.toList ++ [.anchor .textEnd])) := by
  obtain ⟨more, hmore⟩ := Nat.exists_eq_add_of_le (length_le_quote wanted.toList)
  obtain ⟨state, hstate, hrun⟩ := run_quote wanted.toList plain_start (more + 2) ['$']
  have hread : Reading.run (more + 2 + wanted.toList.length) .start (quote wanted.toList ++ ['$']) =
      some (sequenceAll (Regex.anchor .textEnd :: ((chars wanted.toList).reverse ++ [])).reverse) := by
    rw [hrun, hstate.run_step, hstate.step_end]
    exact (hstate.push _).run_end more
  rw [List.append_nil, List.reverse_cons, List.reverse_reverse] at hread
  unfold read MatchOperator.pattern
  dsimp only
  have hfuel : wanted.toList.length + more + 1 + 1 = more + 2 + wanted.toList.length := by
    omega
  rw [String.toList_ofList, List.length_append, List.length_singleton, hmore, hfuel]
  exact hread

theorem read_contains (wanted : String) :
    read (MatchOperator.contains.pattern wanted) = some (sequenceAll (chars wanted.toList)) := by
  obtain ⟨more, hmore⟩ := Nat.exists_eq_add_of_le (length_le_quote wanted.toList)
  obtain ⟨state, hstate, hrun⟩ := run_quote wanted.toList plain_start (more + 1) []
  have hread := hrun.trans (hstate.run_end more)
  rw [List.append_nil, List.append_nil, List.reverse_reverse] at hread
  unfold read MatchOperator.pattern
  dsimp only
  have hfuel : wanted.toList.length + more + 1 = more + 1 + wanted.toList.length := by
    omega
  rw [String.toList_ofList, hmore, hfuel]
  exact hread

/-! ## Marked spots -/

section Matching

variable {text : List Char} {m : Marks} {i j : Nat}

theorem getElem?_ofText (before : Option Char) (cs : List Char) (i : Nat) :
    (Spot.ofText before cs)[i]? =
      if i ≤ cs.length then some ⟨if i = 0 then before else cs[i - 1]?, cs[i]?⟩ else none := by
  induction cs generalizing before i with
  | nil =>
      cases i with
      | zero => rfl
      | succ i => rfl
  | cons c cs ih =>
      cases i with
      | zero => rfl
      | succ i =>
          rw [Spot.ofText, List.getElem?_cons_succ, ih, List.length_cons]
          cases i with
          | zero => simp
          | succ i => simp

/-- The spots of a text, with the characters on their sides. -/
theorem exists_spot (hi : i ≤ text.length) :
    (Spot.ofText none text)[i]? = some ⟨if i = 0 then none else text[i - 1]?, text[i]?⟩ := by
  rw [getElem?_ofText, if_pos hi]

/-- A spot is marked. -/
def Marked (m : Marks) (i : Nat) : Prop :=
  m[i]? = some true

/-- There is a mark for each spot of a text. -/
abbrev Covers (text : List Char) (m : Marks) : Prop :=
  m.length = text.length + 1

/-- A set of characters moves marks over the characters that belong to it. -/
theorem marked_one (hm : Covers text m) (s : CharSet) :
    Marked (advance (Spot.ofText none text) (.one s) m) j ↔
      ∃ i c, j = i + 1 ∧ Marked m i ∧ text[i]? = some c ∧ s.contains c = true := by
  cases j with
  | zero => exact ⟨nofun, fun ⟨i, c, hzero, _⟩ => absurd hzero (Nat.succ_ne_zero i).symm⟩
  | succ i =>
      unfold Marked advance
      rw [List.getElem?_cons_succ, List.getElem?_dropLast, List.length_zipWith, Spot.length_ofText,
        hm, Nat.min_self, Nat.add_sub_cancel]
      split
      · rename_i hlt
        have hindex : i < m.length := by omega
        have hmark := List.getElem?_eq_getElem hindex
        rw [List.getElem?_zipWith, exists_spot (Nat.le_of_lt hlt), hmark,
          List.getElem?_eq_getElem hlt]
        simp [CharSet.holdsAt, hmark, hlt]
      · rename_i hge
        refine ⟨nofun, fun ⟨i', c, heq, _, hc, _⟩ => ?_⟩
        obtain rfl : i = i' := by omega
        exact absurd (List.getElem?_eq_some_iff.mp hc).1 hge

/-- An anchor leaves the marks where it holds. -/
theorem marked_anchor (hm : Covers text m) (a : Anchor) :
    Marked (advance (Spot.ofText none text) (.anchor a) m) j ↔
      Marked m j ∧ a.holds ⟨if j = 0 then none else text[j - 1]?, text[j]?⟩ = true := by
  unfold Marked advance
  rw [List.getElem?_zipWith, getElem?_ofText]
  by_cases hle : j ≤ text.length
  · rw [if_pos hle]
    cases m[j]? <;> simp
  · have hnone : m[j]? = none := List.getElem?_eq_none (by omega)
    rw [if_neg hle, hnone]
    simp

theorem holds_textStart (hi : i ≤ text.length) :
    Anchor.textStart.holds ⟨if i = 0 then none else text[i - 1]?, text[i]?⟩ = true ↔ i = 0 := by
  cases i with
  | zero => simp [Anchor.holds]
  | succ i => simp [Anchor.holds, List.getElem?_eq_getElem (show i < text.length by omega)]

theorem holds_textEnd (hi : i ≤ text.length) :
    Anchor.textEnd.holds ⟨if i = 0 then none else text[i - 1]?, text[i]?⟩ = true ↔
      i = text.length := by
  simp [Anchor.holds]
  omega

theorem covers_one (hm : Covers text m) (s : CharSet) :
    Covers text (advance (Spot.ofText none text) (.one s) m) := by
  rw [Covers, advance, List.length_cons, List.length_dropLast, List.length_zipWith,
    Spot.length_ofText, hm, Nat.min_self, Nat.add_sub_cancel]

theorem covers_anchor (hm : Covers text m) (a : Anchor) :
    Covers text (advance (Spot.ofText none text) (.anchor a) m) := by
  rw [Covers, advance, List.length_zipWith, Spot.length_ofText, hm, Nat.min_self]

/-- Parts move marks one after the other. -/
def advanceAll (spots : List Spot) (rs : List Regex) (m : Marks) : Marks :=
  rs.foldl (fun m r => advance spots r m) m

theorem advance_sequenceAll (spots : List Spot) (rs : List Regex) (m : Marks) :
    advance spots (sequenceAll rs) m = advanceAll spots rs m := by
  induction rs generalizing m with
  | nil => rfl
  | cons r rs ih =>
      cases rs with
      | nil => rfl
      | cons r' rs =>
          rw [sequenceAll, advance, ih, advanceAll, List.foldl_cons]
          · rfl
          · exact List.cons_ne_nil _ _

theorem contains_single {c d : Char} : (CharSet.single c).contains d = true ↔ d = c := by
  unfold CharSet.single CharSet.contains
  rw [Bool.and_eq_true, decide_eq_true_eq, decide_eq_true_eq]
  exact ⟨fun hle => Char.le_antisymm hle.2 hle.1, fun heq => heq ▸ ⟨Char.le_refl _, Char.le_refl _⟩⟩

/-- Characters move marks over the places where they stand. -/
theorem marked_chars (cs : List Char) (hm : Covers text m) :
    Covers text (advanceAll (Spot.ofText none text) (chars cs) m) ∧
      ∀ j, Marked (advanceAll (Spot.ofText none text) (chars cs) m) j ↔
        ∃ i, Marked m i ∧ j = i + cs.length ∧ cs <+: text.drop i := by
  induction cs generalizing m with
  | nil => exact ⟨hm, fun j => ⟨fun hj => ⟨j, hj, rfl, List.nil_prefix⟩,
      fun ⟨i, hi, hj, _⟩ => hj ▸ hi⟩⟩
  | cons c cs ih =>
      obtain ⟨hcovers, hmarked⟩ := ih (covers_one hm (.single c))
      refine ⟨hcovers, fun j => (hmarked j).trans ⟨?_, ?_⟩⟩
      · rintro ⟨k, hk, rfl, hprefix⟩
        obtain ⟨i, d, rfl, hi, hd, hcontains⟩ := (marked_one hm _).mp hk
        obtain rfl := contains_single.mp hcontains
        refine ⟨i, hi, by rw [List.length_cons]; omega, ?_⟩
        obtain ⟨hlt, hget⟩ := List.getElem?_eq_some_iff.mp hd
        rw [List.drop_eq_getElem_cons hlt, hget]
        exact List.cons_prefix_cons.mpr ⟨rfl, hprefix⟩
      · rintro ⟨i, hi, rfl, hprefix⟩
        have hlt : i < text.length := Nat.lt_of_not_le fun hle => by
          rw [List.drop_eq_nil_of_le hle] at hprefix
          exact absurd (List.prefix_nil.mp hprefix) (List.cons_ne_nil _ _)
        rw [List.drop_eq_getElem_cons hlt] at hprefix
        obtain ⟨hc, hprefix⟩ := List.cons_prefix_cons.mp hprefix
        refine ⟨i + 1, (marked_one hm _).mpr ⟨i, text[i], rfl, hi, List.getElem?_eq_getElem hlt,
          contains_single.mpr hc.symm⟩, by rw [List.length_cons]; omega, hprefix⟩

/-! ## Matches -/

/-- At the start every spot is marked. -/
theorem marked_all : Marked ((Spot.ofText none text).map fun _ => true) i ↔ i ≤ text.length := by
  rw [Marked, List.getElem?_map, getElem?_ofText]
  split <;> simp_all

theorem covers_all (text : List Char) : Covers text ((Spot.ofText none text).map fun _ => true) := by
  rw [Covers, List.length_map, Spot.length_ofText]

theorem isMatch_iff {rs : List Regex} {text : String} :
    (sequenceAll rs).isMatch text = true ↔ ∃ j, Marked (advanceAll (Spot.ofText none text.toList) rs
      ((Spot.ofText none text.toList).map fun _ => true)) j := by
  unfold isMatch
  dsimp only
  rw [advance_sequenceAll, List.any_eq_true]
  constructor
  · rintro ⟨mark, hmem, rfl⟩
    obtain ⟨j, hj⟩ := List.mem_iff_getElem?.mp hmem
    exact ⟨j, hj⟩
  · rintro ⟨j, hj⟩
    exact ⟨true, List.mem_of_getElem? hj, rfl⟩

/-- A text begins with another one where that one follows the start of the text. -/
theorem isMatch_startsWith (wanted : List Char) (text : String) :
    (sequenceAll (.anchor .textStart :: chars wanted)).isMatch text = true ↔
      wanted <+: text.toList := by
  have hall := covers_all text.toList
  have hstart := covers_anchor hall .textStart
  rw [isMatch_iff]
  show (∃ j, Marked (advanceAll _ (chars wanted) (advance _ (.anchor .textStart) _)) j) ↔ _
  simp only [(marked_chars wanted hstart).2, marked_anchor hall, marked_all]
  constructor
  · rintro ⟨j, i, ⟨hi, hholds⟩, rfl, hprefix⟩
    obtain rfl := (holds_textStart hi).mp hholds
    exact hprefix
  · intro hprefix
    exact ⟨_, 0, ⟨Nat.zero_le _, rfl⟩, rfl, hprefix⟩

/-- A text ends with another one where the end of the text follows that one. -/
theorem isMatch_endsWith (wanted : List Char) (text : String) :
    (sequenceAll (chars wanted ++ [.anchor .textEnd])).isMatch text = true ↔
      wanted <:+ text.toList := by
  obtain ⟨hcovers, hmarked⟩ := marked_chars wanted (covers_all text.toList)
  rw [isMatch_iff, advanceAll, List.foldl_append]
  show (∃ j, Marked (advance _ (.anchor .textEnd) (advanceAll _ (chars wanted) _)) j) ↔ _
  simp only [marked_anchor hcovers, hmarked, marked_all]
  constructor
  · rintro ⟨j, ⟨i, hi, rfl, hprefix⟩, hholds⟩
    have hlength := hprefix.length_le
    rw [List.length_drop] at hlength
    have hend := (holds_textEnd (by omega)).mp hholds
    have hwhole : wanted = text.toList.drop i :=
      hprefix.eq_of_length (by rw [List.length_drop]; omega)
    rw [hwhole]
    exact List.drop_suffix i _
  · rintro ⟨before, hbefore⟩
    have hlength := congrArg List.length hbefore
    rw [List.length_append] at hlength
    refine ⟨before.length + wanted.length, ⟨before.length, by omega, rfl, ?_⟩,
      (holds_textEnd (by omega)).mpr hlength⟩
    exact ⟨[], by rw [← hbefore, List.drop_left, List.append_nil]⟩

/-- A text contains another one where that one follows any of its spots. -/
theorem isMatch_contains (wanted : List Char) (text : String) :
    (sequenceAll (chars wanted)).isMatch text = true ↔ wanted <:+: text.toList := by
  rw [isMatch_iff]
  simp only [(marked_chars wanted (covers_all text.toList)).2, marked_all]
  constructor
  · rintro ⟨j, i, _, _, hprefix⟩
    exact hprefix.isInfix.trans (List.drop_suffix i _).isInfix
  · rintro ⟨before, after, htext⟩
    have hlength := congrArg List.length htext
    rw [List.length_append, List.length_append] at hlength
    refine ⟨_, before.length, by omega, rfl, ?_⟩
    rw [← htext, List.append_assoc, List.drop_left]
    exact List.prefix_append _ _

end Matching

end DocQuery.Regex
