import DocQuery.Proofs.Grammar.Unbounded

/-!
# What a match was made of

Where `Takes` and `Refuses` say what a runner does wherever a text begins, `Matches` and `Declines`
say what it has done somewhere.  A match of a pattern is made of matches of its parts, and of
refusals of the alternatives before the one that was taken; a node is left by a match of the body
of its rule.

Main names:

* `Matches`, `Declines` — a runner has matched a text, or failed on it;
* `matches_seq`, `matches_choice`, `matches_star`, … — one rule for every pattern;
* `matches_node`, `matches_silent` — rules from their bodies;
* `Grown` — nodes that a rule has left, with `Grown.child` and `Grown.body`.
-/

namespace DocQuery.Grammar

variable {ρ : Type}

/-- A runner has matched a text that a rest followed, and left nodes. -/
def Matches (run : Runner ρ) (text rest : List Char) (nodes : List (Node ρ)) : Prop :=
  ∃ place attempts attempts',
    run ⟨place, text ++ rest⟩ attempts = (.matched ⟨place.past text, rest⟩ nodes, attempts')

/-- A runner has failed on a text. -/
def Declines (run : Runner ρ) (text : List Char) : Prop :=
  ∃ place attempts attempts', run ⟨place, text⟩ attempts = (.failed, attempts')

section Runners

variable {run : Runner ρ} {text rest text' rest' : List Char} {nodes : List (Node ρ)}
  {good : List (Node ρ) → Prop}

theorem Passes.matches {cursor next : Cursor} {attempts attempts' : Attempts ρ}
    (hpasses : Passes cursor text next)
    (hrun : run cursor attempts = (.matched next nodes, attempts')) :
    Matches run text next.rest nodes := by
  rw [hpasses.eq_left, hpasses.eq_right] at hrun
  exact ⟨_, _, _, hrun⟩

/-- What a runner takes everywhere is what it has matched somewhere. -/
theorem Takes.eq_of_matches (htakes : Takes run text rest good)
    (hmatches : Matches run text' rest' nodes) (hinput : text ++ rest = text' ++ rest') :
    text = text' ∧ rest = rest' ∧ good nodes := by
  obtain ⟨place, attempts, attempts', hrun⟩ := hmatches
  obtain ⟨nodes', between, hrun', hgood⟩ := htakes place attempts
  rw [hinput, hrun, Prod.mk.injEq, Outcome.matched.injEq, Cursor.mk.injEq] at hrun'
  obtain ⟨⟨⟨_, hrest⟩, hnodes⟩, _⟩ := hrun'
  subst hrest
  exact ⟨List.append_cancel_right hinput, rfl, hnodes ▸ hgood⟩

theorem Refuses.not_matches (hrefuses : Refuses run (text ++ rest)) : ¬ Matches run text rest nodes := by
  rintro ⟨place, attempts, attempts', hrun⟩
  obtain ⟨between, hrun'⟩ := hrefuses place attempts
  rw [hrun] at hrun'
  cases hrun'

theorem Takes.not_declines (htakes : Takes run text rest good) : ¬ Declines run (text ++ rest) := by
  rintro ⟨place, attempts, attempts', hrun⟩
  obtain ⟨nodes, between, hrun', _⟩ := htakes place attempts
  rw [hrun] at hrun'
  cases hrun'

end Runners

/-! ## Patterns -/

section Patterns

variable {blank : CharClass} {context : Context} {call : ρ → Runner ρ}
  {text rest : List Char} {nodes : List (Node ρ)} {p q : Pattern ρ}

theorem matches_text {chars : List Char}
    (hrun : Matches ((Pattern.text chars).run blank context call) text rest nodes) :
    text = chars ∧ nodes = [] := by
  obtain ⟨place, attempts, attempts', hrun⟩ := hrun
  rw [Pattern.run] at hrun
  split at hrun
  · rename_i next hskip
    cases hrun
    exact ⟨List.append_cancel_right (passes_skipText hskip).rest, rfl⟩
  · cases hrun

theorem matches_one {members : CharClass}
    (hrun : Matches ((Pattern.one members).run blank context call) text rest nodes) :
    ∃ c, text = [c] ∧ members.contains c = true ∧ nodes = [] := by
  obtain ⟨place, attempts, attempts', hrun⟩ := hrun
  cases hinput : text ++ rest with
  | nil =>
      rw [hinput] at hrun
      cases hrun
  | cons c tail =>
      rw [hinput] at hrun
      simp only [Pattern.run] at hrun
      split at hrun
      · rename_i hc
        rw [Prod.mk.injEq, Outcome.matched.injEq, Cursor.mk.injEq] at hrun
        obtain ⟨⟨⟨_, rfl⟩, rfl⟩, _⟩ := hrun
        exact ⟨c, List.append_cancel_right (hinput.trans (List.singleton_append ..).symm), hc, rfl⟩
      · cases hrun

/-- A cursor that has not moved has taken nothing. -/
theorem eq_nil_of_stays {place : Place}
    (hsame : (⟨place, text ++ rest⟩ : Cursor) = ⟨place.past text, rest⟩) : text = [] := by
  simpa using congrArg Cursor.rest hsame

theorem matches_absent {members : CharClass}
    (hrun : Matches ((Pattern.absent members).run blank context call) text rest nodes) :
    text = [] ∧ nodes = [] ∧ Avoids members rest := by
  obtain ⟨place, attempts, attempts', hrun⟩ := hrun
  rw [Pattern.run] at hrun
  split at hrun
  · rename_i c tail hinput
    split at hrun
    · cases hrun
    · rename_i hc
      rw [Prod.mk.injEq, Outcome.matched.injEq] at hrun
      obtain ⟨⟨hsame, rfl⟩, _⟩ := hrun
      obtain rfl := eq_nil_of_stays hsame
      refine ⟨rfl, rfl, ?_⟩
      obtain rfl : rest = c :: tail := hinput
      exact avoids_cons (by simpa using hc) tail
  · rename_i hinput
    rw [Prod.mk.injEq, Outcome.matched.injEq] at hrun
    obtain ⟨⟨hsame, rfl⟩, _⟩ := hrun
    obtain rfl := eq_nil_of_stays hsame
    obtain rfl : rest = [] := hinput
    exact ⟨rfl, rfl, avoids_nil members⟩

theorem matches_start (hrun : Matches (Pattern.start.run blank context call) text rest nodes) :
    text = [] ∧ nodes = [] := by
  obtain ⟨place, attempts, attempts', hrun⟩ := hrun
  rw [Pattern.run] at hrun
  split at hrun
  · rw [Prod.mk.injEq, Outcome.matched.injEq] at hrun
    obtain ⟨⟨hsame, rfl⟩, _⟩ := hrun
    exact ⟨eq_nil_of_stays hsame, rfl⟩
  · cases hrun

theorem matches_stop (hrun : Matches (Pattern.stop.run blank context call) text rest nodes) :
    text = [] ∧ nodes = [] ∧ rest = [] := by
  obtain ⟨place, attempts, attempts', hrun⟩ := hrun
  rw [Pattern.run] at hrun
  split at hrun
  · rename_i hempty
    rw [Prod.mk.injEq, Outcome.matched.injEq] at hrun
    obtain ⟨⟨hsame, rfl⟩, _⟩ := hrun
    obtain rfl := eq_nil_of_stays hsame
    exact ⟨rfl, rfl, List.isEmpty_iff.mp hempty⟩
  · cases hrun

variable (hcall : ∀ r, Splits (call r))

include hcall in
/-- A sequence that has matched is made of a match of each part, with what may stand between. -/
theorem matches_seq (hrun : Matches ((p.seq q).run blank context call) text rest nodes) :
    ∃ text₁ gap text₂ nodes₁ nodes₂, text = text₁ ++ (gap ++ text₂) ∧ nodes = nodes₁ ++ nodes₂ ∧
      Matches (p.run blank context call) text₁ (gap ++ (text₂ ++ rest)) nodes₁ ∧
      Between blank context gap (text₂ ++ rest) ∧
      Matches (q.run blank context call) text₂ rest nodes₂ := by
  obtain ⟨place, attempts, attempts', hrun⟩ := hrun
  obtain ⟨next, nodes₁, nodes₂, between, hnodes, hfirst, hsecond⟩ := matched_seq hrun
  obtain ⟨text₁, hpasses₁⟩ := p.splits hcall _ _ _ _ _ hfirst
  obtain ⟨gap, hgap, hbetween⟩ := passes_skip context blank next
  obtain ⟨text₂, hpasses₂⟩ := q.splits hcall _ _ _ _ _ hsecond
  have hnext : next.rest = gap ++ (text₂ ++ rest) := by rw [hgap.rest, hpasses₂.rest]
  refine ⟨text₁, gap, text₂, nodes₁, nodes₂, ?_, hnodes, ?_, ?_, hpasses₂.matches hsecond⟩
  · have hinput : text ++ rest = text₁ ++ next.rest := hpasses₁.rest
    rw [hnext, ← List.append_assoc gap, ← List.append_assoc text₁] at hinput
    exact List.append_cancel_right hinput
  · rw [← hnext]
    exact hpasses₁.matches hfirst
  · rw [← show (context.skip blank next).rest = text₂ ++ rest from hpasses₂.rest]
    exact hbetween

include hcall in
/-- Where no blanks may stand, nothing is between the parts. -/
theorem matches_seq_tight (htight : context.Tight)
    (hrun : Matches ((p.seq q).run blank context call) text rest nodes) :
    ∃ text₁ text₂ nodes₁ nodes₂, text = text₁ ++ text₂ ∧ nodes = nodes₁ ++ nodes₂ ∧
      Matches (p.run blank context call) text₁ (text₂ ++ rest) nodes₁ ∧
      Matches (q.run blank context call) text₂ rest nodes₂ := by
  obtain ⟨text₁, gap, text₂, nodes₁, nodes₂, rfl, rfl, hfirst, hgap, hsecond⟩ :=
    matches_seq hcall hrun
  unfold Between at hgap
  rw [htight] at hgap
  obtain rfl : gap = [] := hgap
  exact ⟨text₁, text₂, nodes₁, nodes₂, rfl, rfl, hfirst, hsecond⟩

include hcall in
/-- Where no blanks may stand, so many characters of a class are what was taken. -/
theorem matches_times (htight : context.Tight) {members : CharClass} {count : Nat}
    (hrun : Matches ((Pattern.times (count + 1) (.one members)).run blank context call) text rest
      nodes) : text.length = count + 1 ∧ ∀ c ∈ text, members.contains c = true := by
  induction count generalizing text nodes with
  | zero =>
      obtain ⟨c, rfl, hc, _⟩ := matches_one hrun
      exact ⟨rfl, by simpa using hc⟩
  | succ count ih =>
      obtain ⟨text₁, text₂, _, _, rfl, _, hfirst, hothers⟩ := matches_seq_tight hcall htight hrun
      obtain ⟨c, rfl, hc, _⟩ := matches_one hfirst
      obtain ⟨hlength, hall⟩ := ih hothers
      exact ⟨by simp [hlength], List.forall_mem_cons.mpr ⟨hc, hall⟩⟩

/-- An alternative that has matched was the first one, or the first one had failed. -/
theorem matches_choice (hrun : Matches ((p.choice q).run blank context call) text rest nodes) :
    Matches (p.run blank context call) text rest nodes ∨
      (Declines (p.run blank context call) (text ++ rest) ∧
        Matches (q.run blank context call) text rest nodes) := by
  obtain ⟨place, attempts, attempts', hrun⟩ := hrun
  rw [Pattern.run] at hrun
  rcases Run.orElse_eq_matched hrun with hrun | ⟨_, hfirst, hrun⟩
  · exact Or.inl ⟨_, _, _, hrun⟩
  · exact Or.inr ⟨⟨_, _, _, hfirst⟩, ⟨_, _, _, hrun⟩⟩

include hcall in
/-- Of several patterns one has matched after all before it had failed. -/
theorem matches_firstOf {ps : List (Pattern ρ)}
    (hrun : Matches ((Pattern.firstOf ps).run blank context call) text rest nodes) :
    ∃ before p after, ps = before ++ p :: after ∧
      (∀ q ∈ before, Declines (q.run blank context call) (text ++ rest)) ∧
      Matches (p.run blank context call) text rest nodes := by
  induction ps with
  | nil =>
      obtain ⟨text₁, gap, text₂, _, _, rfl, _, hstop, _, hone⟩ := matches_seq hcall hrun
      obtain ⟨c, rfl, _, _⟩ := matches_one hone
      have hnil := (matches_stop hstop).2.2
      simp at hnil
  | cons p ps ih =>
      cases ps with
      | nil => exact ⟨[], p, [], rfl, by simp, hrun⟩
      | cons next others =>
          rcases matches_choice hrun with hfirst | ⟨hdeclines, hothers⟩
          · exact ⟨[], p, next :: others, rfl, by simp, hfirst⟩
          · obtain ⟨before, found, after, hps, hbefore, hfound⟩ := ih hothers
            refine ⟨p :: before, found, after, by rw [hps, List.cons_append], ?_, hfound⟩
            exact List.forall_mem_cons.mpr ⟨hdeclines, hbefore⟩

/-- An option that has matched has matched its body, or taken nothing where that had failed. -/
theorem matches_optional (hrun : Matches (p.optional.run blank context call) text rest nodes) :
    Matches (p.run blank context call) text rest nodes ∨
      (text = [] ∧ nodes = [] ∧ Declines (p.run blank context call) rest) := by
  obtain ⟨place, attempts, attempts', hrun⟩ := hrun
  rw [Pattern.run] at hrun
  rcases Run.orElse_eq_matched hrun with hrun | ⟨_, hfirst, hrun⟩
  · exact Or.inl ⟨_, _, _, hrun⟩
  · rw [Prod.mk.injEq, Outcome.matched.injEq] at hrun
    obtain ⟨⟨hsame, rfl⟩, _⟩ := hrun
    obtain rfl := eq_nil_of_stays hsame
    exact Or.inr ⟨rfl, rfl, ⟨_, _, _, hfirst⟩⟩

/-- The rounds of a repetition that has matched, after its first one, and the failure that ended
them. The blanks before a round that fails are given back. -/
inductive Repeated (step : Runner ρ) (blank : CharClass) (context : Context) :
    List Char → List Char → List (Node ρ) → Prop
  | done (gap : List Char) {rest : List Char} (hgap : Between blank context gap rest)
      (hdeclines : Declines step rest) : Repeated step blank context [] (gap ++ rest) []
  | round (gap text : List Char) {text' rest : List Char} {nodes more : List (Node ρ)}
      (hgap : Between blank context gap (text ++ (text' ++ rest)))
      (hmatches : Matches step text (text' ++ rest) nodes)
      (hrepeated : Repeated step blank context text' rest more) :
      Repeated step blank context (gap ++ (text ++ text')) rest (nodes ++ more)

include hcall in
theorem repeated_of_rounds {cursor last : Cursor}
    (hrounds : Rounds (p.run blank context call) (context.skip blank) cursor last nodes) :
    ∃ text, Passes cursor text last ∧
      Repeated (p.run blank context call) blank context text last.rest nodes := by
  induction hrounds with
  | @done cursor attempts attempts' hstep =>
      obtain ⟨gap, hgap, hbetween⟩ := passes_skip context blank cursor
      refine ⟨[], .refl _, ?_⟩
      rw [hgap.rest]
      exact .done gap hbetween ⟨_, _, _, hstep⟩
  | @round cursor next last _ _ found more hround _ ih =>
      obtain ⟨gap, hgap, hbetween⟩ := passes_skip context blank cursor
      obtain ⟨text, htext⟩ := p.splits hcall _ _ _ _ _ hround
      obtain ⟨text', htext', hrepeated⟩ := ih
      have hmatches := htext.matches hround
      rw [htext.rest, htext'.rest] at hbetween
      rw [htext'.rest] at hmatches
      exact ⟨gap ++ (text ++ text'), hgap.trans (htext.trans htext'),
        .round gap text hbetween hmatches hrepeated⟩

include hcall in
/-- A repetition that has matched is made of its rounds, or its body had failed. -/
theorem matches_star (hrun : Matches (p.star.run blank context call) text rest nodes) :
    (∃ text₁ text₂ nodes₁ nodes₂, text = text₁ ++ text₂ ∧ nodes = nodes₁ ++ nodes₂ ∧
      Matches (p.run blank context call) text₁ (text₂ ++ rest) nodes₁ ∧
      Repeated (p.run blank context call) blank context text₂ rest nodes₂) ∨
    (text = [] ∧ nodes = [] ∧ Declines (p.run blank context call) rest) := by
  obtain ⟨place, attempts, attempts', hrun⟩ := hrun
  rcases matched_star hrun with
    ⟨next, nodes₁, nodes₂, between, hnodes, hfirst, hrounds⟩ | ⟨hsame, hnodes, between, hfirst⟩
  · obtain ⟨text₁, hpasses⟩ := p.splits hcall _ _ _ _ _ hfirst
    obtain ⟨text₂, hpasses', hrepeated⟩ := repeated_of_rounds hcall hrounds
    have hmatches := hpasses.matches hfirst
    rw [hpasses'.rest] at hmatches
    refine Or.inl ⟨text₁, text₂, nodes₁, nodes₂, ?_, hnodes, hmatches, hrepeated⟩
    exact List.append_cancel_right (hpasses.trans hpasses').rest
  · obtain rfl := eq_nil_of_stays hsame.symm
    exact Or.inr ⟨rfl, hnodes, ⟨_, _, _, hfirst⟩⟩

/-- The nodes of the rounds of a repetition. -/
theorem Repeated.exists_rounds {step : Runner ρ}
    (hrepeated : Repeated step blank context text rest nodes) :
    ∃ rounds : List (List (Node ρ)), nodes = rounds.flatten ∧
      ∀ round ∈ rounds, ∃ text' rest', Matches step text' rest' round := by
  induction hrepeated with
  | done gap hgap hdeclines => exact ⟨[], rfl, by simp⟩
  | @round gap text text' rest found more hgap hmatches hrepeated ih =>
      obtain ⟨rounds, rfl, hrounds⟩ := ih
      exact ⟨found :: rounds, rfl, List.forall_mem_cons.mpr ⟨⟨_, _, hmatches⟩, hrounds⟩⟩

include hcall in
theorem nodes_of_matches_star (hrun : Matches (p.star.run blank context call) text rest nodes) :
    ∃ rounds : List (List (Node ρ)), nodes = rounds.flatten ∧
      ∀ round ∈ rounds, ∃ text' rest', Matches (p.run blank context call) text' rest' round := by
  rcases matches_star hcall hrun with
    ⟨text₁, text₂, nodes₁, nodes₂, _, rfl, hfirst, hrepeated⟩ | ⟨_, rfl, _⟩
  · obtain ⟨rounds, rfl, hrounds⟩ := hrepeated.exists_rounds
    exact ⟨nodes₁ :: rounds, rfl, List.forall_mem_cons.mpr ⟨⟨_, _, hfirst⟩, hrounds⟩⟩
  · exact ⟨[], rfl, by simp⟩

/-- The rules that a pattern calls. -/
def Pattern.callees : Pattern ρ → List ρ
  | .text _ | .one _ | .absent _ | .start | .stop => []
  | .rule r => [r]
  | .seq first second | .choice first second => first.callees ++ second.callees
  | .optional body | .star body => body.callees

include hcall in
/-- The nodes of a pattern are those of the rules it has called. -/
theorem nodes_of_calls (hrun : Matches (p.run blank context call) text rest nodes) {node : Node ρ}
    (hnode : node ∈ nodes) :
    ∃ r ∈ p.callees, ∃ text' rest' nodes', Matches (call r) text' rest' nodes' ∧ node ∈ nodes' := by
  induction p generalizing text rest nodes with
  | text chars =>
      rw [(matches_text hrun).2] at hnode
      cases hnode
  | one members =>
      obtain ⟨c, _, _, rfl⟩ := matches_one hrun
      cases hnode
  | absent members =>
      rw [(matches_absent hrun).2.1] at hnode
      cases hnode
  | start =>
      rw [(matches_start hrun).2] at hnode
      cases hnode
  | stop =>
      rw [(matches_stop hrun).2.1] at hnode
      cases hnode
  | rule r => exact ⟨r, List.mem_singleton.mpr rfl, _, _, _, hrun, hnode⟩
  | seq first second ihFirst ihSecond =>
      obtain ⟨_, _, _, _, _, _, rfl, hfirst, _, hsecond⟩ := matches_seq hcall hrun
      rcases List.mem_append.mp hnode with hnode | hnode
      · obtain ⟨r, hr, hfound⟩ := ihFirst hfirst hnode
        exact ⟨r, List.mem_append_left _ hr, hfound⟩
      · obtain ⟨r, hr, hfound⟩ := ihSecond hsecond hnode
        exact ⟨r, List.mem_append_right _ hr, hfound⟩
  | choice first second ihFirst ihSecond =>
      rcases matches_choice hrun with hfirst | ⟨_, hsecond⟩
      · obtain ⟨r, hr, hfound⟩ := ihFirst hfirst hnode
        exact ⟨r, List.mem_append_left _ hr, hfound⟩
      · obtain ⟨r, hr, hfound⟩ := ihSecond hsecond hnode
        exact ⟨r, List.mem_append_right _ hr, hfound⟩
  | optional body ih =>
      rcases matches_optional hrun with hbody | ⟨_, rfl, _⟩
      · exact ih hbody hnode
      · cases hnode
  | star body ih =>
      obtain ⟨rounds, rfl, hrounds⟩ := nodes_of_matches_star hcall hrun
      obtain ⟨round, hround, hnode⟩ := List.mem_flatten.mp hnode
      obtain ⟨_, _, hbody⟩ := hrounds round hround
      exact ih hbody hnode

end Patterns

/-! ## Rules -/

section Rules

variable {g : Grammar ρ} {outer : Atomicity} {rule : ρ} {text rest : List Char}
  {nodes : List (Node ρ)}

/-- A rule that leaves a node has matched its body. -/
theorem matches_node (hg : g.Grounded) (hleaves : (g.mode rule).LeavesNode outer)
    (hrun : Matches (g.call outer rule) text rest nodes) :
    ∃ place children, nodes = [.mk rule text place children] ∧
      Matches (g.callBody outer rule) text rest children := by
  obtain ⟨place, attempts, attempts', hrun⟩ := hrun
  have hpasses : Passes ⟨place, text ++ rest⟩ text ⟨place.past text, rest⟩ := ⟨rfl, rfl⟩
  rw [hg.call_eq] at hrun
  obtain ⟨children, between, hbody, hnodes⟩ := matched_leave hrun
  rw [if_pos hleaves, hpasses.upTo] at hnodes
  exact ⟨place, children, hnodes, ⟨_, _, _, hbody⟩⟩

/-- A rule that leaves no node has matched its body, and leaves what the body leaves. -/
theorem matches_through (hg : g.Grounded) (hleaves : ¬ (g.mode rule).LeavesNode outer)
    (hrun : Matches (g.call outer rule) text rest nodes) :
    Matches (g.callBody outer rule) text rest nodes := by
  obtain ⟨place, attempts, attempts', hrun⟩ := hrun
  rw [hg.call_eq] at hrun
  obtain ⟨children, between, hbody, hnodes⟩ := matched_leave hrun
  rw [if_neg hleaves] at hnodes
  exact ⟨_, _, _, hnodes ▸ hbody⟩

theorem matches_silent (hg : g.Grounded) (hmode : g.mode rule = .silent)
    (hrun : Matches (g.call outer rule) text rest nodes) :
    Matches (g.callBody outer rule) text rest nodes :=
  matches_through hg (fun hleaves => hleaves.1 hmode) hrun

/-! ## Grown trees -/

/-- A node that its rule has left, where the caller allowed `outer`: its children are what the body
of the rule has left. -/
def GrownIn (g : Grammar ρ) (outer : Atomicity) (node : Node ρ) : Prop :=
  (g.mode node.rule).LeavesNode outer ∧
    ∃ rest, Matches (g.callBody outer node.rule) node.text rest node.children

/-- A node that its rule has left. -/
def Grown (g : Grammar ρ) (node : Node ρ) : Prop :=
  ∃ outer, GrownIn g outer node

theorem grown_of_matches_runRule (hg : g.Grounded) {fuel : Nat}
    (hrun : Matches (runRule g fuel outer rule) text rest nodes) {node : Node ρ}
    (hnode : node ∈ nodes) : Grown g node := by
  induction fuel generalizing outer rule text rest nodes with
  | zero =>
      obtain ⟨place, attempts, attempts', hrun⟩ := hrun
      cases hrun
  | succ fuel ih =>
      obtain ⟨place, attempts, attempts', hrun⟩ := hrun
      have hpasses : Passes ⟨place, text ++ rest⟩ text ⟨place.past text, rest⟩ := ⟨rfl, rfl⟩
      rw [runRule_succ] at hrun
      obtain ⟨children, between, hbody, hnodes⟩ := matched_leave hrun
      split at hnodes
      · rename_i hleaves
        rw [hnodes, List.mem_singleton] at hnode
        rw [hpasses.upTo] at hnode
        subst hnode
        have hextends : Extends (g.runBody fuel outer rule) (g.callBody outer rule) :=
          (g.body rule).extends fun r => hg.extends_call fuel _ r
        have hcall := hextends ⟨place, text ++ rest⟩ attempts (by rw [hbody]; exact nofun)
        exact ⟨outer, hleaves, rest, place, attempts, between, hcall.trans hbody⟩
      · rw [hnodes] at hnode
        obtain ⟨r, _, text', rest', nodes', hcall, hmem⟩ :=
          nodes_of_calls (runRule_splits g fuel _) ⟨_, _, _, hbody⟩ hnode
        exact ih hcall hmem

theorem grown_of_matches (hg : g.Grounded) (hrun : Matches (g.call outer rule) text rest nodes)
    {node : Node ρ} (hnode : node ∈ nodes) : Grown g node := by
  obtain ⟨place, attempts, attempts', hrun⟩ := hrun
  exact grown_of_matches_runRule hg ⟨place, attempts, attempts', hrun⟩ hnode

/-- The children of a grown node are grown. -/
theorem Grown.child (hg : g.Grounded) {node child : Node ρ} (hnode : Grown g node)
    (hchild : child ∈ node.children) : Grown g child := by
  obtain ⟨outer, _, rest, hbody⟩ := hnode
  obtain ⟨r, _, text', rest', nodes', hcall, hmem⟩ :=
    nodes_of_calls (call_splits g _) hbody hchild
  exact grown_of_matches hg hcall hmem

/-- The children of a node of a rule that is no token are what its body has left, each with a node
of its own. -/
theorem Grown.body {place : Place} {children : List (Node ρ)}
    (hnode : Grown g (.mk rule text place children)) (hmode : g.mode rule ≠ .token) :
    ∃ context rest, context.atomicity ≠ .token ∧
      Matches ((g.body rule).run g.blank context (g.call context.atomicity)) text rest
        children := by
  obtain ⟨outer, ⟨hsilent, houter⟩, rest, hbody⟩ := hnode
  refine ⟨(g.mode rule).context outer, rest, ?_, hbody⟩
  dsimp only [Node.rule] at hsilent houter
  cases hrule : g.mode rule with
  | silent => exact absurd hrule hsilent
  | normal =>
      have hloose : outer ≠ .token := by simpa [hrule] using houter
      exact hloose
  | token => exact absurd hrule hmode
  | compound | spaced => exact nofun

end Rules

end DocQuery.Grammar
