import DocQuery.Grammar.Run

/-!
# What a pattern takes

To prove that a written text is read back one shows, pattern by pattern, which part of a text is
taken and which alternatives refuse it. The two judgments of this file speak about every place at
which a text may begin and about every record of attempts, so that neither has to be followed
through a proof.

Main names:

* `Takes` — a runner takes a text that is followed by some rest, and leaves certain nodes;
* `Refuses` — a runner fails on a text;
* `takes_seq`, `takes_choice_left`, `takes_star`, … — one rule for every pattern;
* `Repeats` — the rounds of a repetition;
* `takes_rule`, `takes_node`, `refuses_rule` — calls of rules.

Nodes are described by a property and not listed, because they carry places.
-/

namespace DocQuery.Grammar

variable {ρ : Type}

-- The rules below are read off the equations of the runner.
attribute [local simp] Pattern.run

/-- The place after a text. -/
def Place.past (place : Place) (text : List Char) : Place :=
  text.foldl Place.after place

@[simp] theorem Place.past_nil (place : Place) : place.past [] = place := rfl

@[simp] theorem Place.past_cons (place : Place) (c : Char) (text : List Char) :
    place.past (c :: text) = (place.after c).past text := rfl

theorem Place.past_append (place : Place) (text text' : List Char) :
    place.past (text ++ text') = (place.past text).past text' := by
  unfold Place.past
  rw [List.foldl_append]

theorem Place.offset_after (place : Place) (c : Char) :
    (place.after c).offset = place.offset + 1 := by
  unfold Place.after
  split <;> rfl

theorem Place.offset_past (place : Place) (text : List Char) :
    (place.past text).offset = place.offset + text.length := by
  induction text generalizing place with
  | nil => rfl
  | cons c text ih =>
      rw [Place.past_cons, ih, Place.offset_after, List.length_cons]
      omega

/-- A runner takes a text if a rest follows it, and leaves nodes with a property. -/
def Takes (run : Runner ρ) (text rest : List Char) (good : List (Node ρ) → Prop) : Prop :=
  ∀ (place : Place) (attempts : Attempts ρ), ∃ nodes attempts',
    run ⟨place, text ++ rest⟩ attempts = (.matched ⟨place.past text, rest⟩ nodes, attempts') ∧
      good nodes

/-- A runner fails on a text. -/
def Refuses (run : Runner ρ) (text : List Char) : Prop :=
  ∀ (place : Place) (attempts : Attempts ρ), ∃ attempts',
    run ⟨place, text⟩ attempts = (.failed, attempts')

theorem Takes.imp {run : Runner ρ} {text rest : List Char} {good good' : List (Node ρ) → Prop}
    (htakes : Takes run text rest good) (himp : ∀ nodes, good nodes → good' nodes) :
    Takes run text rest good' := by
  intro place attempts
  obtain ⟨nodes, attempts', hrun, hgood⟩ := htakes place attempts
  exact ⟨nodes, attempts', hrun, himp nodes hgood⟩

/-- Nothing is left. -/
abbrev Leafless (nodes : List (Node ρ)) : Prop := nodes = []

/-- Nodes with one property and then nodes with another. -/
def Then (good good' : List (Node ρ) → Prop) (nodes : List (Node ρ)) : Prop :=
  ∃ before after, nodes = before ++ after ∧ good before ∧ good' after

theorem then_intro {good good' : List (Node ρ) → Prop} (nodes nodes' : List (Node ρ))
    (hnodes : good nodes) (hnodes' : good' nodes') : Then good good' (nodes ++ nodes') :=
  ⟨nodes, nodes', rfl, hnodes, hnodes'⟩

/-- One node, with a property. -/
def IsOne (good : Node ρ → Prop) (nodes : List (Node ρ)) : Prop :=
  ∃ node, nodes = [node] ∧ good node

/-- Nothing before nodes with a property. -/
theorem leafless_then {good : List (Node ρ) → Prop} (nodes nodes' : List (Node ρ))
    (hnodes : Leafless nodes) (hnodes' : good nodes') : good (nodes ++ nodes') := by
  rw [Leafless] at hnodes
  rw [hnodes]
  exact hnodes'

/-- Nothing after nodes with a property. -/
theorem then_leafless {good : List (Node ρ) → Prop} (nodes nodes' : List (Node ρ))
    (hnodes : good nodes) (hnodes' : Leafless nodes') : good (nodes ++ nodes') := by
  rw [hnodes', List.append_nil]
  exact hnodes

/-! ## Single characters -/

theorem skipText_append (chars rest : List Char) (place : Place) :
    Cursor.skipText? chars place (chars ++ rest) = some ⟨place.past chars, rest⟩ := by
  induction chars generalizing place with
  | nil => rfl
  | cons c chars ih =>
      rw [List.cons_append, Cursor.skipText?, if_pos rfl, ih]
      rfl

/-- A text that begins with a character does not begin with another one. -/
theorem not_prefix_cons {c d : Char} (hne : d ≠ c) (chars text : List Char) :
    ¬ (d :: chars) <+: c :: text := by
  intro hstart
  exact hne (List.cons_prefix_cons.mp hstart).1

theorem skipText_eq_none {chars text : List Char} (hstart : ¬ chars <+: text) (place : Place) :
    Cursor.skipText? chars place text = none := by
  induction chars generalizing text place with
  | nil => exact absurd (List.nil_prefix) hstart
  | cons t chars ih =>
      cases text with
      | nil => rfl
      | cons c text =>
          unfold Cursor.skipText?
          split
          · rename_i heq
            subst heq
            apply ih
            intro hrest
            exact hstart (List.cons_prefix_cons.mpr ⟨rfl, hrest⟩)
          · rfl

section Patterns

variable {blank : CharClass} {context : Context} {call : ρ → Runner ρ}
  {text text' rest : List Char} {p q : Pattern ρ}

theorem takes_text (chars : List Char) :
    Takes ((Pattern.text chars).run blank context call) chars rest Leafless := by
  intro place attempts
  refine ⟨[], attempts, ?_, rfl⟩
  rw [Pattern.run, skipText_append]

theorem refuses_text {chars : List Char} (hstart : ¬ chars <+: text) :
    Refuses ((Pattern.text chars).run blank context call) text := by
  intro place attempts
  refine ⟨attempts, ?_⟩
  rw [Pattern.run, skipText_eq_none hstart]

theorem takes_one {members : CharClass} {c : Char} (hc : members.contains c = true) :
    Takes ((Pattern.one members).run blank context call) [c] rest Leafless := by
  intro place attempts
  refine ⟨[], attempts, ?_, rfl⟩
  rw [Pattern.run, List.singleton_append]
  simp only [hc, if_true]
  rfl

/-- A text does not begin with a character of a class. -/
def Avoids (members : CharClass) (text : List Char) : Prop :=
  ∀ c rest, text = c :: rest → members.contains c = false

theorem avoids_nil (members : CharClass) : Avoids members [] := by
  intro c rest hnil
  cases hnil

theorem avoids_cons {members : CharClass} {c : Char} (hc : members.contains c = false)
    (rest : List Char) : Avoids members (c :: rest) := by
  intro c' rest' heq
  cases heq
  exact hc

theorem Avoids.left {members members' : CharClass}
    (htext : Avoids (.either members members') text) : Avoids members text := by
  intro c rest heq
  have hc := htext c rest heq
  simp only [CharClass.contains, Bool.or_eq_false_iff] at hc
  exact hc.1

theorem Avoids.right {members members' : CharClass}
    (htext : Avoids (.either members members') text) : Avoids members' text := by
  intro c rest heq
  have hc := htext c rest heq
  simp only [CharClass.contains, Bool.or_eq_false_iff] at hc
  exact hc.2

theorem Avoids.not_prefix {members : CharClass} (htext : Avoids members text) {c : Char}
    (hc : members.contains c = true) (chars : List Char) : ¬ (c :: chars) <+: text := by
  intro hstart
  cases text with
  | nil => exact List.cons_ne_nil _ _ (List.prefix_nil.mp hstart)
  | cons c' text =>
      obtain ⟨rfl, _⟩ := List.cons_prefix_cons.mp hstart
      rw [htext c text rfl] at hc
      cases hc

theorem refuses_one {members : CharClass} (htext : Avoids members text) :
    Refuses ((Pattern.one members).run blank context call) text := by
  intro place attempts
  refine ⟨attempts, ?_⟩
  cases text with
  | nil => rfl
  | cons c text => simp only [Pattern.run, htext c text rfl, Bool.false_eq_true, if_false]

theorem takes_absent {members : CharClass} (hrest : Avoids members rest) :
    Takes ((Pattern.absent members).run blank context call) [] rest Leafless := by
  intro place attempts
  refine ⟨[], attempts, ?_, rfl⟩
  rw [List.nil_append]
  cases rest with
  | nil => rfl
  | cons c rest =>
      simp only [Pattern.run, hrest c rest rfl, Bool.false_eq_true, if_false]
      rfl

theorem refuses_absent {members : CharClass} {c : Char} (hc : members.contains c = true)
    (text : List Char) :
    Refuses ((Pattern.absent members).run blank context call) (c :: text) := by
  intro place attempts
  exact ⟨attempts, by simp only [Pattern.run, hc, if_true]⟩

theorem takes_stop : Takes ((Pattern.stop : Pattern ρ).run blank context call) [] [] Leafless := by
  intro place attempts
  exact ⟨[], attempts, rfl, rfl⟩

theorem refuses_stop (c : Char) (text : List Char) :
    Refuses ((Pattern.stop : Pattern ρ).run blank context call) (c :: text) := by
  intro place attempts
  exact ⟨attempts, rfl⟩

/-- A pattern that is a rule takes what the rule takes. -/
theorem takes_call {rule : ρ} {good : List (Node ρ) → Prop} (hrule : Takes (call rule) text rest good) :
    Takes ((Pattern.rule rule).run blank context call) text rest good := hrule

theorem refuses_call {rule : ρ} (hrule : Refuses (call rule) text) :
    Refuses ((Pattern.rule rule).run blank context call) text := hrule

/-! ## Sequences -/

/-- What may stand between two parts of a sequence: nothing, or all blanks there are where the
surroundings allow them. -/
def Between (blank : CharClass) (context : Context) (gap rest : List Char) : Prop :=
  if context.spaced && context.atomicity == .loose then
    (∀ c ∈ gap, blank.contains c = true) ∧ Avoids blank rest
  else gap = []

theorem skip_between {gap : List Char} (hgap : Between blank context gap rest) (place : Place) :
    context.skip blank ⟨place, gap ++ rest⟩ = ⟨place.past gap, rest⟩ := by
  unfold Between at hgap
  unfold Context.skip
  split at hgap
  · rename_i hloose
    rw [if_pos hloose]
    obtain ⟨hblank, hrest⟩ := hgap
    induction gap generalizing place with
    | nil =>
        cases rest with
        | nil => rfl
        | cons c rest =>
            show Cursor.skipWhile blank.contains place (c :: rest) = _
            rw [Cursor.skipWhile, hrest c rest rfl]
            rfl
    | cons c gap ih =>
        show Cursor.skipWhile blank.contains place (c :: (gap ++ rest)) = _
        rw [Cursor.skipWhile, hblank c (List.mem_cons_self ..), if_pos rfl]
        exact ih (place.after c) fun c' hc' => hblank c' (List.mem_cons_of_mem _ hc')
  · rename_i htight
    rw [if_neg htight, hgap]
    rfl

/-- One pattern after the other, with blanks between them where they may stand. -/
theorem takes_seq (gap : List Char) {good good' good'' : List (Node ρ) → Prop}
    (hp : Takes (p.run blank context call) text (gap ++ (text' ++ rest)) good)
    (hgap : Between blank context gap (text' ++ rest))
    (hq : Takes (q.run blank context call) text' rest good')
    (hgood : ∀ nodes nodes', good nodes → good' nodes' → good'' (nodes ++ nodes')) :
    Takes ((p.seq q).run blank context call) (text ++ (gap ++ text')) rest good'' := by
  intro place attempts
  obtain ⟨nodes, attempts₁, hrun, hnodes⟩ := hp place attempts
  obtain ⟨nodes', attempts₂, hrun', hnodes'⟩ := hq ((place.past text).past gap) attempts₁
  refine ⟨nodes ++ nodes', attempts₂, ?_, hgood nodes nodes' hnodes hnodes'⟩
  rw [Pattern.run, List.append_assoc, List.append_assoc, hrun]
  simp only [Run.andThen, skip_between hgap, hrun', Place.past_append]

theorem refuses_seq_left (hp : Refuses (p.run blank context call) text) :
    Refuses ((p.seq q).run blank context call) text := by
  intro place attempts
  obtain ⟨attempts', hrun⟩ := hp place attempts
  refine ⟨attempts', ?_⟩
  rw [Pattern.run, hrun]
  rfl

theorem refuses_seq_right (gap : List Char) {good : List (Node ρ) → Prop}
    (hp : Takes (p.run blank context call) text (gap ++ rest) good)
    (hgap : Between blank context gap rest) (hq : Refuses (q.run blank context call) rest) :
    Refuses ((p.seq q).run blank context call) (text ++ (gap ++ rest)) := by
  intro place attempts
  obtain ⟨nodes, attempts₁, hrun, _⟩ := hp place attempts
  obtain ⟨attempts₂, hrun'⟩ := hq ((place.past text).past gap) attempts₁
  refine ⟨attempts₂, ?_⟩
  rw [Pattern.run, hrun]
  simp only [Run.andThen, skip_between hgap, hrun']

/-! ## Alternatives -/

theorem takes_choice_left {good : List (Node ρ) → Prop}
    (hp : Takes (p.run blank context call) text rest good) :
    Takes ((p.choice q).run blank context call) text rest good := by
  intro place attempts
  obtain ⟨nodes, attempts', hrun, hgood⟩ := hp place attempts
  refine ⟨nodes, attempts', ?_, hgood⟩
  rw [Pattern.run, hrun]
  rfl

theorem takes_choice_right {good : List (Node ρ) → Prop}
    (hp : Refuses (p.run blank context call) (text ++ rest))
    (hq : Takes (q.run blank context call) text rest good) :
    Takes ((p.choice q).run blank context call) text rest good := by
  intro place attempts
  obtain ⟨attempts₁, hrun⟩ := hp place attempts
  obtain ⟨nodes, attempts₂, hrun', hgood⟩ := hq place attempts₁
  refine ⟨nodes, attempts₂, ?_, hgood⟩
  rw [Pattern.run, hrun]
  exact hrun'

theorem refuses_choice (hp : Refuses (p.run blank context call) text)
    (hq : Refuses (q.run blank context call) text) :
    Refuses ((p.choice q).run blank context call) text := by
  intro place attempts
  obtain ⟨attempts₁, hrun⟩ := hp place attempts
  obtain ⟨attempts₂, hrun'⟩ := hq place attempts₁
  refine ⟨attempts₂, ?_⟩
  rw [Pattern.run, hrun]
  exact hrun'

/-- Of several patterns the first one that does not refuse a text takes it. -/
theorem takes_firstOf {good : List (Node ρ) → Prop} {before after : List (Pattern ρ)}
    (hbefore : ∀ q ∈ before, Refuses (q.run blank context call) (text ++ rest))
    (hp : Takes (p.run blank context call) text rest good) :
    Takes ((Pattern.firstOf (before ++ p :: after)).run blank context call) text rest good := by
  induction before with
  | nil =>
      cases after with
      | nil => exact hp
      | cons next after => exact takes_choice_left hp
  | cons q before ih =>
      have hrest := ih fun q' hq' => hbefore q' (List.mem_cons_of_mem _ hq')
      rw [List.cons_append]
      cases hcases : before ++ p :: after with
      | nil => simp at hcases
      | cons next others =>
          rw [hcases] at hrest
          exact takes_choice_right (hbefore q (List.mem_cons_self ..)) hrest

/-- The rules before a rule, and the rule itself. -/
theorem exists_after [BEq ρ] [LawfulBEq ρ] {rules : List ρ} {rule : ρ} (hrule : rule ∈ rules) :
    ∃ after, rules = rules.takeWhile (· != rule) ++ rule :: after := by
  induction rules with
  | nil => cases hrule
  | cons r rules ih =>
      by_cases hsame : r = rule
      · subst hsame
        exact ⟨rules, by simp⟩
      · obtain ⟨after, hafter⟩ := ih ((List.mem_cons.mp hrule).resolve_left (Ne.symm hsame))
        refine ⟨after, ?_⟩
        rw [List.takeWhile_cons_of_pos (by simpa using hsame), List.cons_append, ← hafter]

/-- Of several rules the first one that does not refuse a text takes it. -/
theorem takes_firstOf_rules [BEq ρ] [LawfulBEq ρ] {good : List (Node ρ) → Prop} {rules : List ρ}
    {rule : ρ} (hrule : rule ∈ rules)
    (hbefore : ∀ r ∈ rules.takeWhile (· != rule), Refuses (call r) (text ++ rest))
    (htakes : Takes (call rule) text rest good) :
    Takes ((Pattern.firstOf (rules.map .rule)).run blank context call) text rest good := by
  obtain ⟨after, hafter⟩ := exists_after hrule
  rw [hafter, List.map_append, List.map_cons]
  refine takes_firstOf (fun q hq => ?_) (takes_call htakes)
  obtain ⟨r, hr, rfl⟩ := List.mem_map.mp hq
  exact refuses_call (hbefore r hr)

theorem refuses_firstOf {ps : List (Pattern ρ)} {c : Char}
    (hps : ∀ q ∈ ps, Refuses (q.run blank context call) (c :: text)) :
    Refuses ((Pattern.firstOf ps).run blank context call) (c :: text) := by
  induction ps with
  | nil => exact refuses_seq_left (refuses_stop c text)
  | cons q ps ih =>
      have hrest := ih fun q' hq' => hps q' (List.mem_cons_of_mem _ hq')
      cases ps with
      | nil => exact hps q (List.mem_cons_self ..)
      | cons next others => exact refuses_choice (hps q (List.mem_cons_self ..)) hrest

/-! ## Options and repetitions -/

theorem takes_optional_some {good : List (Node ρ) → Prop}
    (hp : Takes (p.run blank context call) text rest good) :
    Takes (p.optional.run blank context call) text rest good := by
  intro place attempts
  obtain ⟨nodes, attempts', hrun, hgood⟩ := hp place attempts
  refine ⟨nodes, attempts', ?_, hgood⟩
  rw [Pattern.run, hrun]
  rfl

theorem takes_optional_none (hp : Refuses (p.run blank context call) rest) :
    Takes (p.optional.run blank context call) [] rest Leafless := by
  intro place attempts
  obtain ⟨attempts', hrun⟩ := hp place attempts
  refine ⟨[], attempts', ?_, rfl⟩
  rw [Pattern.run, List.nil_append, hrun]
  rfl

/-- The rounds of a repetition after the first one, up to where no further round is possible. The
blanks before a round that fails are given back. -/
inductive Repeats (step : Runner ρ) (blank : CharClass) (context : Context) :
    List Char → List Char → (List (Node ρ) → Prop) → Prop
  | done (gap : List Char) {rest : List Char} {good : List (Node ρ) → Prop}
      (hgap : Between blank context gap rest) (hrefuses : Refuses step rest) (hgood : good []) :
      Repeats step blank context [] (gap ++ rest) good
  | round (gap text : List Char) {text' rest : List Char} {good good' good'' : List (Node ρ) → Prop}
      (hgap : Between blank context gap (text ++ (text' ++ rest))) (hsome : text ≠ [])
      (htakes : Takes step text (text' ++ rest) good)
      (hrepeats : Repeats step blank context text' rest good')
      (hgood : ∀ nodes nodes', good nodes → good' nodes' → good'' (nodes ++ nodes')) :
      Repeats step blank context (gap ++ (text ++ text')) rest good''

/-- The rounds of a repetition end, as every round takes a character. -/
theorem Repeats.iterate {step : Runner ρ} {good : List (Node ρ) → Prop}
    (hrepeats : Repeats step blank context text rest good) {fuel : Nat}
    (hfuel : text.length < fuel) (place : Place) (nodes : List (Node ρ)) (attempts : Attempts ρ) :
    ∃ nodes' attempts', Grammar.iterate step (context.skip blank) fuel ⟨place, text ++ rest⟩ nodes
      attempts = (.matched ⟨place.past text, rest⟩ (nodes ++ nodes'), attempts') ∧ good nodes' := by
  -- Every round takes a character, so a bound above the length of the text lasts to its end.
  induction hrepeats generalizing fuel place nodes attempts with
  | done gap hgap hrefuses hgood =>
      cases fuel with
      | zero => cases hfuel
      | succ fuel =>
          obtain ⟨attempts', hrun⟩ := hrefuses (place.past gap) attempts
          refine ⟨[], attempts', ?_, hgood⟩
          unfold Grammar.iterate
          rw [List.nil_append, skip_between hgap, hrun, List.append_nil]
          rfl
  | round gap text hgap hsome htakes hrepeats hgood ih =>
      rename_i text' rest good good' good''
      cases fuel with
      | zero => cases hfuel
      | succ fuel =>
          have hlength : text'.length < fuel := by
            have hpos : 0 < text.length := List.length_pos_iff.mpr hsome
            simp only [List.length_append] at hfuel
            omega
          obtain ⟨nodes₁, attempts₁, hrun, hnodes⟩ := htakes (place.past gap) attempts
          obtain ⟨nodes₂, attempts₂, hrun', hnodes'⟩ :=
            ih hlength ((place.past gap).past text) (nodes ++ nodes₁) attempts₁
          refine ⟨nodes₁ ++ nodes₂, attempts₂, ?_, hgood nodes₁ nodes₂ hnodes hnodes'⟩
          unfold Grammar.iterate
          rw [List.append_assoc, List.append_assoc, skip_between hgap, hrun]
          simp only [hrun', Place.past_append, List.append_assoc]

theorem takes_star {good good' good'' : List (Node ρ) → Prop}
    (hp : Takes (p.run blank context call) text (text' ++ rest) good)
    (hrepeats : Repeats (p.run blank context call) blank context text' rest good')
    (hgood : ∀ nodes nodes', good nodes → good' nodes' → good'' (nodes ++ nodes')) :
    Takes (p.star.run blank context call) (text ++ text') rest good'' := by
  intro place attempts
  obtain ⟨nodes, attempts₁, hrun, hnodes⟩ := hp place attempts
  have hfuel : text'.length < (text' ++ rest).length + 1 := by
    rw [List.length_append]
    omega
  obtain ⟨nodes', attempts₂, hrun', hnodes'⟩ :=
    hrepeats.iterate hfuel (place.past text) nodes attempts₁
  refine ⟨nodes ++ nodes', attempts₂, ?_, hgood nodes nodes' hnodes hnodes'⟩
  rw [Pattern.run, List.append_assoc, hrun]
  simp only [Run.andThen, hrun', Run.orElse, Place.past_append]

theorem takes_star_none (hp : Refuses (p.run blank context call) rest) :
    Takes (p.star.run blank context call) [] rest Leafless := by
  intro place attempts
  obtain ⟨attempts', hrun⟩ := hp place attempts
  refine ⟨[], attempts', ?_, rfl⟩
  rw [Pattern.run, List.nil_append, hrun]
  rfl

/-- Where no blanks may stand, patterns follow each other immediately. -/
def Context.Tight (context : Context) : Prop :=
  (context.spaced && context.atomicity == .loose) = false

theorem tight_token (spaced : Bool) : (⟨.token, spaced⟩ : Context).Tight := by
  cases spaced <;> rfl

theorem tight_compound (spaced : Bool) : (⟨.compound, spaced⟩ : Context).Tight := by
  cases spaced <;> rfl

theorem between_tight (htight : context.Tight) : Between blank context [] rest := by
  unfold Between
  rw [htight]
  rfl

theorem takes_seq_tight {good good' good'' : List (Node ρ) → Prop} (htight : context.Tight)
    (hp : Takes (p.run blank context call) text (text' ++ rest) good)
    (hq : Takes (q.run blank context call) text' rest good')
    (hgood : ∀ nodes nodes', good nodes → good' nodes' → good'' (nodes ++ nodes')) :
    Takes ((p.seq q).run blank context call) (text ++ text') rest good'' :=
  takes_seq [] hp (between_tight htight) hq hgood

theorem refuses_seq_tight {good : List (Node ρ) → Prop} (htight : context.Tight)
    (hp : Takes (p.run blank context call) text rest good)
    (hq : Refuses (q.run blank context call) rest) :
    Refuses ((p.seq q).run blank context call) (text ++ rest) :=
  refuses_seq_right [] hp (between_tight htight) hq

/-- What may stand before a text that begins with no blank is nothing. -/
theorem eq_nil_of_between {gap : List Char} (hfirst : Between blank context [] (gap ++ rest))
    (hgap : Between blank context gap rest) : gap = [] := by
  unfold Between at hfirst hgap
  split at hgap
  · rename_i hloose
    rw [if_pos hloose] at hfirst
    cases gap with
    | nil => rfl
    | cons c gap =>
        have hblank := hgap.1 c (List.mem_cons_self ..)
        rw [hfirst.2 c (gap ++ rest) rfl] at hblank
        cases hblank
  · exact hgap

/-- Where no blank comes first, the first round is like the others. -/
theorem takes_star_of_repeats {good : List (Node ρ) → Prop}
    (hfirst : Between blank context [] (text ++ rest))
    (hrepeats : Repeats (p.run blank context call) blank context text rest good) :
    Takes (p.star.run blank context call) text rest good := by
  cases hrepeats with
  | done gap hgap hrefuses hgood =>
      rw [List.nil_append] at hfirst
      rw [eq_nil_of_between hfirst hgap, List.nil_append]
      refine (takes_star_none hrefuses).imp ?_
      rintro nodes rfl
      exact hgood
  | round gap text hgap hsome htakes hrepeats hgood =>
      rw [List.append_assoc, List.append_assoc] at hfirst
      rw [eq_nil_of_between hfirst hgap, List.nil_append]
      exact takes_star htakes hrepeats hgood

/-- A pattern of single characters is repeated over all characters that it takes. -/
theorem takes_star_chars (htight : context.Tight)
    (htext : ∀ c ∈ text, ∀ rest, Takes (p.run blank context call) [c] rest Leafless)
    (hrest : Refuses (p.run blank context call) rest) :
    Takes (p.star.run blank context call) text rest Leafless := by
  refine takes_star_of_repeats (between_tight htight) ?_
  induction text with
  | nil => exact Repeats.done [] (between_tight htight) hrest rfl
  | cons c text ih =>
      exact .round [] [c] (between_tight htight) (List.cons_ne_nil _ _)
        (htext c (List.mem_cons_self ..) _)
        (ih fun c' hc' => htext c' (List.mem_cons_of_mem _ hc')) leafless_then

theorem takes_times {members : CharClass} (htight : context.Tight) {c : Char}
    (htext : ∀ d ∈ c :: text, members.contains d = true) :
    Takes ((Pattern.times (text.length + 1) (.one members)).run blank context call) (c :: text)
      rest Leafless := by
  have hc : members.contains c = true := htext c (List.mem_cons_self ..)
  induction text generalizing c with
  | nil => exact takes_one hc
  | cons d text ih =>
      have hothers : ∀ e ∈ d :: text, members.contains e = true := fun e he =>
        htext e (List.mem_cons_of_mem c he)
      have hfirst : Takes ((Pattern.one members).run blank context call) [c]
          ((d :: text) ++ rest) Leafless := takes_one hc
      exact takes_seq_tight htight hfirst (ih hothers (hothers d (List.mem_cons_self ..)))
        leafless_then

/-- Too few characters of a class are refused. -/
theorem refuses_times {members : CharClass} (htight : context.Tight) {count : Nat}
    (htext : ∀ d ∈ text, members.contains d = true) (hrest : Avoids members rest)
    (hcount : text.length < count) :
    Refuses ((Pattern.times count (.one members)).run blank context call) (text ++ rest) := by
  induction text generalizing count with
  | nil =>
      obtain ⟨count, rfl⟩ := Nat.exists_eq_add_one_of_ne_zero (Nat.ne_of_gt hcount)
      cases count with
      | zero => exact refuses_one hrest
      | succ count => exact refuses_seq_left (refuses_one hrest)
  | cons c text ih =>
      rw [List.length_cons] at hcount
      obtain ⟨more, rfl⟩ : ∃ more, count = more + 2 := ⟨count - 2, by omega⟩
      have hothers : ∀ e ∈ text, members.contains e = true := fun e he =>
        htext e (List.mem_cons_of_mem c he)
      have hfirst : Takes ((Pattern.one members).run blank context call) [c] (text ++ rest)
          Leafless := takes_one (htext c (List.mem_cons_self ..))
      have hmore : text.length < more + 1 := by omega
      show Refuses _ ([c] ++ (text ++ rest))
      exact refuses_seq_tight htight hfirst (ih hothers hmore)

end Patterns

/-! ## Rules -/

/-- What the body of a rule allows, given what the caller of the rule allows. -/
def Mode.context : Mode → Atomicity → Context
  | .silent, outer => ⟨outer, true⟩
  | .normal, outer => ⟨outer, true⟩
  | .token, _ => ⟨.token, false⟩
  | .compound, _ => ⟨.compound, false⟩
  | .spaced, _ => ⟨.loose, true⟩

/-- The body of a rule as it is run where the caller of the rule allows `outer`. -/
def Grammar.runBody (g : Grammar ρ) (fuel : Nat) (outer : Atomicity) (rule : ρ) : Runner ρ :=
  (g.body rule).run g.blank ((g.mode rule).context outer)
    (runRule g fuel ((g.mode rule).context outer).atomicity)

/-- What a rule makes of its body: by its mode it leaves a node, or what the body leaves. -/
def Grammar.leave (g : Grammar ρ) (outer : Atomicity) (rule : ρ) (body : Runner ρ) : Runner ρ :=
  match g.mode rule with
  | .silent => body
  | .normal | .token => tracked outer rule body
  | .compound => tracked .compound rule body
  | .spaced => tracked .loose rule body

theorem runRule_succ (g : Grammar ρ) (fuel : Nat) (outer : Atomicity) (rule : ρ) :
    runRule g (fuel + 1) outer rule = g.leave outer rule (g.runBody fuel outer rule) := by
  unfold runRule Grammar.leave Grammar.runBody
  cases g.mode rule <;> rfl

/-- A rule of a mode leaves a node where its caller allows `outer`. -/
def Mode.LeavesNode (mode : Mode) (outer : Atomicity) : Prop :=
  mode ≠ .silent ∧ (outer ≠ .token ∨ mode = .compound ∨ mode = .spaced)

instance (mode : Mode) (outer : Atomicity) : Decidable (mode.LeavesNode outer) :=
  inferInstanceAs (Decidable (_ ∧ _))

section Rules

variable {g : Grammar ρ} {fuel : Nat} {outer : Atomicity} {rule : ρ} {text rest : List Char}
  {good : List (Node ρ) → Prop}

/-- The nodes of a rule that leaves one. -/
def IsNode (rule : ρ) (text : List Char) (good : List (Node ρ) → Prop) (nodes : List (Node ρ)) :
    Prop :=
  ∃ place children, nodes = [.mk rule text place children] ∧ good children

theorem takes_tracked {body : Runner ρ} (houter : outer ≠ .token)
    (hbody : Takes body text rest good) :
    Takes (tracked outer rule body) text rest (IsNode rule text good) := by
  intro place attempts
  obtain ⟨nodes, attempts', hrun, hgood⟩ := hbody place attempts
  have htext : (⟨place, text ++ rest⟩ : Cursor).upTo ⟨place.past text, rest⟩ = text := by
    unfold Cursor.upTo
    rw [Place.offset_past]
    simp
  refine ⟨[.mk rule text place nodes], attempts', ?_, place, nodes, rfl, hgood⟩
  unfold tracked
  simp only [hrun, houter, if_false, htext]

theorem takes_tracked_token {body : Runner ρ} (hbody : Takes body text rest good) :
    Takes (tracked .token rule body) text rest good := by
  intro place attempts
  obtain ⟨nodes, attempts', hrun, hgood⟩ := hbody place attempts
  refine ⟨nodes, attempts', ?_, hgood⟩
  unfold tracked
  simp only [hrun, if_true]

theorem refuses_tracked {body : Runner ρ} (hbody : Refuses body text) :
    Refuses (tracked outer rule body) text := by
  intro place attempts
  obtain ⟨attempts', hrun⟩ := hbody place attempts
  unfold tracked
  simp only [hrun]
  exact ⟨_, rfl⟩

theorem Grammar.leave_eq_of_silent {body : Runner ρ} (hmode : g.mode rule = .silent) :
    g.leave outer rule body = body := by
  unfold Grammar.leave
  rw [hmode]

/-- A rule with a node takes what its body takes, unless a token is being matched. -/
theorem takes_leave {body : Runner ρ} (hleaves : (g.mode rule).LeavesNode outer)
    (hbody : Takes body text rest good) :
    Takes (g.leave outer rule body) text rest (IsNode rule text good) := by
  obtain ⟨hmode, houter⟩ := hleaves
  unfold Grammar.leave
  cases hrule : g.mode rule with
  | silent => exact absurd hrule hmode
  | normal | token =>
      simp [hrule] at houter
      exact takes_tracked houter hbody
  | compound | spaced => exact takes_tracked (by decide) hbody

/-- Within a token a rule leaves what its body leaves. -/
theorem takes_leave_token {body : Runner ρ} (hmode : g.mode rule = .silent ∨ g.mode rule = .token)
    (hbody : Takes body text rest good) : Takes (g.leave .token rule body) text rest good := by
  unfold Grammar.leave
  rcases hmode with hmode | hmode
  · rw [hmode]
    exact hbody
  · rw [hmode]
    exact takes_tracked_token hbody

/-- A rule refuses what its body refuses. -/
theorem refuses_leave {body : Runner ρ} (hbody : Refuses body text) :
    Refuses (g.leave outer rule body) text := by
  unfold Grammar.leave
  cases g.mode rule with
  | silent => exact hbody
  | normal | token | compound | spaced => exact refuses_tracked hbody

/-- A rule without a node takes what its body takes. -/
theorem takes_silent (hmode : g.mode rule = .silent)
    (hbody : Takes (g.runBody fuel outer rule) text rest good) :
    Takes (runRule g (fuel + 1) outer rule) text rest good := by
  rw [runRule_succ, Grammar.leave_eq_of_silent hmode]
  exact hbody

theorem takes_node (hmode : g.mode rule ≠ .silent)
    (houter : outer ≠ .token ∨ g.mode rule = .compound ∨ g.mode rule = .spaced)
    (hbody : Takes (g.runBody fuel outer rule) text rest good) :
    Takes (runRule g (fuel + 1) outer rule) text rest (IsNode rule text good) := by
  rw [runRule_succ]
  exact takes_leave ⟨hmode, houter⟩ hbody

theorem takes_within_token (hmode : g.mode rule = .silent ∨ g.mode rule = .token)
    (hbody : Takes (g.runBody fuel .token rule) text rest good) :
    Takes (runRule g (fuel + 1) .token rule) text rest good := by
  rw [runRule_succ]
  exact takes_leave_token hmode hbody

theorem refuses_rule (hbody : Refuses (g.runBody fuel outer rule) text) :
    Refuses (runRule g (fuel + 1) outer rule) text := by
  rw [runRule_succ]
  exact refuses_leave hbody

/-- What follows the start of a text in the rule for whole texts takes the whole text. -/
theorem tracked_of_takes {call : ρ → Runner ρ} {p : Pattern ρ} (htext : Avoids g.blank text)
    (hp : Takes (p.run g.blank ⟨.loose, true⟩ call) text [] good) :
    ∃ nodes attempts, tracked .loose rule ((Pattern.seq .start p).run g.blank ⟨.loose, true⟩ call)
      (.ofText text) .none =
        (.matched ⟨Place.first.past text, []⟩ [.mk rule text .first nodes], attempts) ∧
          good nodes := by
  obtain ⟨nodes, attempts, hrun, hgood⟩ := hp .first .none
  rw [List.append_nil] at hrun
  have hgap : Between g.blank ⟨.loose, true⟩ [] text := by
    refine ⟨?_, htext⟩
    intro c hc
    cases hc
  have hskip : Context.skip ⟨.loose, true⟩ g.blank ⟨.first, text⟩ = ⟨.first, text⟩ :=
    skip_between hgap .first
  have hseq : (Pattern.seq .start p).run g.blank ⟨.loose, true⟩ call
      (.ofText text) .none = (.matched ⟨Place.first.past text, []⟩ nodes, attempts) := by
    show ((p.run g.blank ⟨.loose, true⟩ call (Context.skip ⟨.loose, true⟩ g.blank
      ⟨.first, text⟩) .none).andThen fun last more attempts => (.matched last ([] ++ more), attempts))
      = _
    rw [hskip, hrun]
    rfl
  have hcovered : (Cursor.ofText text).upTo ⟨Place.first.past text, []⟩ = text := by
    unfold Cursor.upTo Cursor.ofText
    rw [Place.offset_past]
    simp
  refine ⟨nodes, attempts, ?_, hgood⟩
  unfold tracked
  simp only [hseq, hcovered]
  rfl

theorem Grammar.parse_of_takes {p : Pattern ρ} (hmode : g.mode rule = .normal)
    (hbody : g.body rule = .seq .start p) (htext : Avoids g.blank text)
    (hfuel : depthBound text.length = fuel + 1)
    (hp : Takes (p.run g.blank ⟨.loose, true⟩ (runRule g fuel .loose)) text [] good) :
    ∃ nodes attempts, g.parse rule text =
      (.matched ⟨Place.first.past text, []⟩ [.mk rule text .first nodes], attempts) ∧
        good nodes := by
  unfold Grammar.parse
  rw [hfuel]
  unfold runRule
  simp only [hmode, hbody]
  exact tracked_of_takes htext hp

end Rules

end DocQuery.Grammar
