import DocQuery.Proofs.Language.Durations
import DocQuery.Proofs.Language.Shape
import DocQuery.Proofs.Sequencing
import DocQuery.Proofs.Time.Components

/-!
# The texts of durations

Whatever the rule for durations matches, wherever it is called, is the spelling of a duration: a
sign, numbers with units, and a `T` before those below a day. So every node of the rule has a sum of
its components, and its text is read as that sum or not at all.

Main names:

* `matches_digits`, `SpellsOne` — what the rules of the components match;
* `matches_clock`, `matches_components` — several components;
* `exists_spelling` — a node of the rule for durations has a spelling;
* `read_durationNode` — how it is read.
-/

namespace DocQuery.Language

open Grammar Text Text.Digits Time Time.Duration

variable {text rest : List Char} {nodes : List (Node Rule)}

/-! ## Components -/

/-- A text begins with all the digits that are there. -/
theorem exists_digits (text : List Char) :
    ∃ digits rest, text = digits ++ rest ∧ (∀ c ∈ digits, c.isDigit = true) ∧
      Avoids .digit rest := by
  refine ⟨text.takeWhile Char.isDigit, text.dropWhile Char.isDigit, ?_, ?_, ?_⟩
  · exact List.takeWhile_append_dropWhile.symm
  · exact fun c hc => List.all_eq_true.mp List.all_takeWhile c hc
  · intro c tail hdrop
    have hhead := List.head?_dropWhile_not Char.isDigit text
    rw [hdrop] at hhead
    simpa [CharClass.contains] using hhead

theorem matches_digits (hrun : Matches (grammar.call .token .digits) text rest nodes) :
    ∃ count : Count, text = count.digits := by
  obtain ⟨digits, after, hinput, hdigits, hafter⟩ := exists_digits (text ++ rest)
  by_cases hsome : digits = []
  · have hnone : Avoids .digit (text ++ rest) := by
      rw [hinput, hsome]
      exact hafter
    have hrefuses := Refuses.call grammar_grounded (refuses_digits hnone 0 .token)
    exact absurd hrun hrefuses.not_matches
  · have htakes := Takes.call grammar_grounded (takes_digits hsome hdigits hafter 0)
    obtain ⟨hsame, _, _⟩ := htakes.eq_of_matches hrun hinput.symm
    exact ⟨⟨digits, hsome, hdigits⟩, hsame.symm⟩

/-- Everything that a rule matches is one component, on this or the other side of the `T`. -/
def SpellsOne (clock : Bool) (rule : Rule) : Prop :=
  ∀ text rest nodes, Matches (grammar.call .token rule) text rest nodes →
    ∃ c : Component, c.clock = clock ∧ text = c.text

theorem spellsOne_unit (unit : WholeUnit) {rule : Rule} (hrule : UnitRule rule unit.letter) :
    SpellsOne unit.clock rule := by
  intro text rest nodes hrun
  have hbody := matches_silent grammar_grounded hrule.mode hrun
  unfold Grammar.callBody at hbody
  rw [hrule.mode, hrule.body] at hbody
  obtain ⟨_, _, _, _, rfl, _, hdigits, hletter⟩ :=
    matches_seq_tight (call_splits grammar _) (tight_token true) hbody
  obtain ⟨count, rfl⟩ := matches_digits hdigits
  obtain ⟨rfl, _⟩ := matches_text hletter
  exact ⟨.whole unit count, rfl, rfl⟩

theorem spellsOne_days : SpellsOne false .durationDays :=
  spellsOne_unit .day unitRule_days

theorem spellsOne_hours : SpellsOne true .durationHours :=
  spellsOne_unit .hour unitRule_hours

theorem spellsOne_minutes : SpellsOne true .durationMinutes :=
  spellsOne_unit .minute unitRule_minutes

theorem spellsOne_seconds : SpellsOne true .durationSeconds := by
  intro text rest nodes hrun
  have hsplits := call_splits grammar Atomicity.token
  have htight := tight_token true
  have hbody : Matches ((Pattern.seq (.rule .digits) (.seq fractionPattern (.text ['S']))).run
      grammar.blank ⟨.token, true⟩ (grammar.call .token)) text rest nodes :=
    matches_silent grammar_grounded rfl hrun
  obtain ⟨_, _, _, _, rfl, _, hwhole, hbody⟩ := matches_seq_tight hsplits htight hbody
  obtain ⟨_, _, _, _, rfl, _, hfraction, hletter⟩ := matches_seq_tight hsplits htight hbody
  obtain ⟨count, rfl⟩ := matches_digits hwhole
  obtain ⟨rfl, _⟩ := matches_text hletter
  rcases matches_optional hfraction with hpoint | ⟨rfl, _, _⟩
  · obtain ⟨_, _, _, _, rfl, _, hpoint, hdigits⟩ := matches_seq_tight hsplits htight hpoint
    obtain ⟨rfl, _⟩ := matches_text hpoint
    obtain ⟨fraction, rfl⟩ := matches_digits hdigits
    refine ⟨.seconds ⟨count.digits, fraction.digits, count.digits_ne_nil, count.isDigit_digits,
      fraction.isDigit_digits⟩, rfl, ?_⟩
    simp [Component.text, Component.amount, Component.letter, PointedDigits.text,
      PointedDigits.tail, fraction.digits_ne_nil]
  · refine ⟨.seconds ⟨count.digits, [], count.digits_ne_nil, count.isDigit_digits, by simp⟩, rfl,
      ?_⟩
    simp [Component.text, Component.amount, Component.letter, PointedDigits.text,
      PointedDigits.tail]

/-! ## Several components -/

/-- A text of components on one side of the `T`. -/
def SpellsAll (clock : Bool) (text : List Char) : Prop :=
  ∃ components : List Component, (∀ c ∈ components, c.clock = clock) ∧ text = texts components

theorem spellsAll_nil (clock : Bool) : SpellsAll clock [] :=
  ⟨[], by simp, rfl⟩

theorem SpellsAll.append {clock : Bool} {text' : List Char} (hfirst : SpellsAll clock text)
    (hsecond : SpellsAll clock text') : SpellsAll clock (text ++ text') := by
  obtain ⟨first, hclock, rfl⟩ := hfirst
  obtain ⟨second, hclock', rfl⟩ := hsecond
  exact ⟨first ++ second, List.forall_mem_append.mpr ⟨hclock, hclock'⟩, by simp [texts]⟩

section

variable {clock : Bool} {rule : Rule} {context : Grammar.Context}

theorem SpellsOne.spellsAll (hrule : SpellsOne clock rule)
    (hrun : Matches (grammar.call .token rule) text rest nodes) : SpellsAll clock text := by
  obtain ⟨c, hclock, rfl⟩ := hrule text rest nodes hrun
  exact ⟨[c], by simpa using hclock, by simp [texts]⟩

theorem SpellsOne.optional (hrule : SpellsOne clock rule)
    (hrun : Matches ((Pattern.optional (.rule rule)).run grammar.blank context
      (grammar.call .token)) text rest nodes) : SpellsAll clock text := by
  rcases matches_optional hrun with hsome | ⟨rfl, _, _⟩
  · exact hrule.spellsAll hsome
  · exact spellsAll_nil clock

end

/-- A first component and what follows it are components, and not none. -/
theorem SpellsOne.followed {rule : Rule} {others : List Char} (hrule : SpellsOne true rule)
    (hrun : Matches (grammar.call .token rule) text rest nodes) (hothers : SpellsAll true others) :
    ∃ time : List Component, time ≠ [] ∧ (∀ c ∈ time, c.clock = true) ∧
      text ++ others = texts time := by
  obtain ⟨c, hclock, rfl⟩ := hrule text rest nodes hrun
  obtain ⟨components, hclocks, rfl⟩ := hothers
  exact ⟨c :: components, by simp, List.forall_mem_cons.mpr ⟨hclock, hclocks⟩, by simp [texts]⟩

theorem matches_clock (hrun : Matches (grammar.call .token .durationClock) text rest nodes) :
    ∃ time : List Component, time ≠ [] ∧ (∀ c ∈ time, c.clock = true) ∧
      text = 'T' :: texts time := by
  have hsplits := call_splits grammar Atomicity.token
  have htight := tight_token true
  have hbody : Matches ((Pattern.seq (.text ['T']) clockPattern).run grammar.blank ⟨.token, true⟩
      (grammar.call .token)) text rest nodes := matches_silent grammar_grounded rfl hrun
  obtain ⟨_, after, _, _, rfl, _, hmark, hclock⟩ := matches_seq_tight hsplits htight hbody
  obtain ⟨rfl, _⟩ := matches_text hmark
  suffices hsome : ∃ time : List Component, time ≠ [] ∧ (∀ c ∈ time, c.clock = true) ∧
      after = texts time by
    obtain ⟨time, hne, hclocks, rfl⟩ := hsome
    exact ⟨time, hne, hclocks, rfl⟩
  -- The first component may be of any unit; smaller ones may follow it.
  rcases matches_choice hclock with hhours | ⟨_, hclock⟩
  · obtain ⟨_, _, _, _, rfl, _, hhours, hothers⟩ := matches_seq_tight hsplits htight hhours
    obtain ⟨_, _, _, _, rfl, _, hminutes, hseconds⟩ := matches_seq_tight hsplits htight hothers
    exact spellsOne_hours.followed hhours
      ((spellsOne_minutes.optional hminutes).append (spellsOne_seconds.optional hseconds))
  · rcases matches_choice hclock with hminutes | ⟨_, hseconds⟩
    · obtain ⟨_, _, _, _, rfl, _, hminutes, hseconds⟩ := matches_seq_tight hsplits htight hminutes
      exact spellsOne_minutes.followed hminutes (spellsOne_seconds.optional hseconds)
    · have hsome := spellsOne_seconds.followed hseconds (spellsAll_nil true)
      rwa [List.append_nil] at hsome

/-- A text of components on both sides of the `T`. -/
def SpellsBody (text : List Char) : Prop :=
  ∃ date time : List Component, (∀ c ∈ date, c.clock = false) ∧ (∀ c ∈ time, c.clock = true) ∧
    text = texts date ++ if time.isEmpty then [] else 'T' :: texts time

theorem SpellsAll.spellsBody {after : List Char} (hdate : SpellsAll false text)
    (hafter : after = [] ∨ ∃ time : List Component, time ≠ [] ∧ (∀ c ∈ time, c.clock = true) ∧
      after = 'T' :: texts time) : SpellsBody (text ++ after) := by
  obtain ⟨date, hclock, rfl⟩ := hdate
  rcases hafter with rfl | ⟨time, hne, hclocks, rfl⟩
  · exact ⟨date, [], hclock, by simp, rfl⟩
  · refine ⟨date, time, hclock, hclocks, ?_⟩
    simp [hne]

theorem matches_components {context : Grammar.Context} (htight : context.Tight)
    (hrun : Matches (componentsPattern.run grammar.blank context (grammar.call .token)) text rest
      nodes) : SpellsBody text := by
  have hsplits := call_splits grammar Atomicity.token
  rcases matches_choice hrun with hweeks | ⟨_, hrun⟩
  · obtain ⟨_, _, _, _, rfl, _, hdigits, hletter⟩ := matches_seq_tight hsplits htight hweeks
    obtain ⟨count, rfl⟩ := matches_digits hdigits
    obtain ⟨rfl, _⟩ := matches_text hletter
    exact ⟨[.whole .week count], [], by simp [Component.clock, WholeUnit.clock], by simp,
      by simp [texts, Component.text, Component.amount, Component.letter, WholeUnit.letter]⟩
  · rcases matches_choice hrun with hdays | ⟨_, hclock⟩
    · obtain ⟨_, _, _, _, rfl, _, hdays, hafter⟩ := matches_seq_tight hsplits htight hdays
      refine (spellsOne_days.spellsAll hdays).spellsBody ?_
      rcases matches_optional hafter with hclock | ⟨rfl, _, _⟩
      · exact Or.inr (matches_clock hclock)
      · exact Or.inl rfl
    · exact (spellsAll_nil false).spellsBody (Or.inr (matches_clock hclock))

/-! ## Whole durations -/

/-- A node of the rule for durations, wherever it stands, has a spelling. -/
theorem exists_spelling {tree : Tree} (htree : Grown grammar tree)
    (hrule : tree.rule = .durationLiteral) : ∃ s : Spelling, tree.text = s.text := by
  obtain ⟨outer, _, rest, hbody⟩ := htree
  rw [hrule] at hbody
  have hsplits := call_splits grammar Atomicity.token
  have htight := tight_token false
  have hrun : Matches ((Pattern.seq (.optional (.text ['-'])) (.seq (.text ['P'])
      (.seq componentsPattern Rule.wordEnd))).run grammar.blank ⟨.token, false⟩
      (grammar.call .token)) tree.text rest tree.children := hbody
  obtain ⟨sign, _, _, _, hsign, _, hminus, hrun⟩ := matches_seq_tight hsplits htight hrun
  obtain ⟨_, _, _, _, rfl, _, hmark, hrun⟩ := matches_seq_tight hsplits htight hrun
  obtain ⟨_, _, _, _, rfl, _, hcomponents, hend⟩ := matches_seq_tight hsplits htight hrun
  obtain ⟨rfl, _⟩ := matches_text hmark
  obtain ⟨rfl, _, _⟩ := matches_absent hend
  obtain ⟨date, time, hdate, htime, rfl⟩ := matches_components htight hcomponents
  rcases matches_optional hminus with hnegative | ⟨rfl, _, _⟩
  · obtain ⟨rfl, _⟩ := matches_text hnegative
    exact ⟨⟨true, date, time, hdate, htime⟩, by rw [hsign, List.append_nil]; rfl⟩
  · exact ⟨⟨false, date, time, hdate, htime⟩, by rw [hsign, List.append_nil]; rfl⟩

/-- A node of the rule for durations is read as the exact signed sum of the components that its
text spells, if the sum is in range and the whole seconds fit a 32-bit word, and not at all
elsewhere. -/
theorem read_durationNode {tree : Tree} (htree : Grown grammar tree)
    (hrule : tree.rule = .durationLiteral) :
    (∃ s : Spelling, tree.text = s.text) ∧
      ∀ s : Spelling, tree.text = s.text →
        (s.Readable → ∃ d, Duration.read tree.text = .ok d ∧ d.nanoseconds = s.worth) ∧
          (¬ s.Readable → ∃ e, Duration.read tree.text = .error e) := by
  refine ⟨exists_spelling htree hrule, fun s hs => ?_⟩
  rw [hs]
  exact read_spelling s

/-- An hour and two and a half seconds, with more digits than count. -/
theorem read_durationNode_hour :
    ∃ tree d, Tree.parse .durationLiteral "-PT1H2.5000000009S".toList = .ok tree ∧
      Duration.read tree.text = .ok d ∧ d.nanoseconds = -3602500000000 := by
  have hparse : (Tree.parse .durationLiteral "-PT1H2.5000000009S".toList).toOption.any
      (fun tree => tree.rule == .durationLiteral && tree.text == "-PT1H2.5000000009S".toList) =
        true := by
    decide +kernel
  obtain ⟨tree, htree, hfound⟩ := exists_of_any hparse
  rw [Bool.and_eq_true, beq_iff_eq, beq_iff_eq] at hfound
  obtain ⟨d, hd, hworth⟩ := ((read_durationNode (grown_of_parse htree) hfound.1).2
    ⟨true, [], [.whole .hour ⟨['1'], by decide, by decide⟩,
      .seconds ⟨['2'], "5000000009".toList, by decide, by decide, by decide⟩],
      by decide, by decide⟩ hfound.2).1 (by decide)
  exact ⟨tree, d, htree, hd, hworth⟩

/-- A 32-bit word holds too few seconds: the longest duration is two thousand times as long, but the
text fails. As minutes and seconds the same length is read. -/
theorem read_fails_beyond_word :
    ∃ tree, Tree.parse .durationLiteral "PT4294967296S".toList = .ok tree ∧
      (∃ s : Spelling, tree.text = s.text ∧ s.worth = 4294967296000000000 ∧
        s.worth.natAbs ≤ longest) ∧
      Duration.read tree.text = .error (.component "4294967296".toList 'S') ∧
      ∃ d, Duration.read "PT71582788M16S".toList = .ok d ∧
        d.nanoseconds = 4294967296000000000 := by
  have hparse : (Tree.parse .durationLiteral "PT4294967296S".toList).toOption.any
      (fun tree => tree.text == "PT4294967296S".toList) = true := by
    decide +kernel
  obtain ⟨tree, htree, hfound⟩ := exists_of_any hparse
  have htext : tree.text = "PT4294967296S".toList := beq_iff_eq.mp hfound
  refine ⟨tree, htree, ⟨⟨false, [], [.seconds ⟨"4294967296".toList, [], by decide, by decide,
    by decide⟩], by decide, by decide⟩, htext, by decide, by decide⟩, ?_, ?_⟩
  · rw [htext]
    decide +kernel
  · exact ⟨⟨4294967296000000000, by decide⟩, by decide +kernel, rfl⟩

end DocQuery.Language
