import DocQuery.Proofs.Grammar.Progress

/-!
# Rules without a bound

Where a run does not reach the bound on nested rules, a larger bound changes nothing. In a grounded
grammar the bound that goes with a text is never reached, so a rule may be called as if there were
none: `Grammar.call` matches a rule as deep as its text needs, and satisfies the equation of the
rules with itself in place of the calls within.

Main names:

* `Extends`, `runRule_extends` — larger bounds extend runs;
* `Grammar.call`, `Grammar.Grounded.call_eq` — a rule without a bound, and its equation;
* `Takes.call`, `Refuses.call` — what was shown with a bound holds without one;
* `takes_call_node`, `takes_call_silent`, `refuses_call_of_body` — rules from their bodies;
* `Grammar.Grounded.parse_of_takes` — whole texts.
-/

namespace DocQuery.Grammar

variable {ρ : Type}

/-- A runner does what another one does, where that one ends. -/
def Extends (run run' : Runner ρ) : Prop :=
  ∀ cursor attempts, (run cursor attempts).1 ≠ .exhausted →
    run' cursor attempts = run cursor attempts

theorem Run.ends_of_andThen {r : Run ρ} {next : Cursor → List (Node ρ) → Attempts ρ → Run ρ}
    (hends : (r.andThen next).1 ≠ .exhausted) : r.1 ≠ .exhausted := by
  intro hexhausted
  obtain ⟨outcome, attempts⟩ := r
  obtain rfl : outcome = .exhausted := hexhausted
  exact hends rfl

theorem Run.ends_of_orElse {r : Run ρ} {next : Attempts ρ → Run ρ}
    (hends : (r.orElse next).1 ≠ .exhausted) : r.1 ≠ .exhausted := by
  intro hexhausted
  obtain ⟨outcome, attempts⟩ := r
  obtain rfl : outcome = .exhausted := hexhausted
  exact hends rfl

section Patterns

variable {blank : CharClass} {context : Context} {call call' : ρ → Runner ρ}

theorem iterate_extends {step step' : Runner ρ} (hstep : Extends step step')
    {skip : Cursor → Cursor} {fuel : Nat} {cursor : Cursor} {nodes : List (Node ρ)}
    {attempts : Attempts ρ} (hends : (iterate step skip fuel cursor nodes attempts).1 ≠ .exhausted) :
    iterate step' skip fuel cursor nodes attempts = iterate step skip fuel cursor nodes attempts := by
  induction fuel generalizing cursor nodes attempts with
  | zero => rfl
  | succ fuel ih =>
      have hround : (step (skip cursor) attempts).1 ≠ .exhausted := by
        intro hround
        unfold iterate at hends
        split at hends
        · rename_i hrun
          rw [hrun] at hround
          cases hround
        · rename_i hrun
          rw [hrun] at hround
          cases hround
        · exact hends rfl
      unfold iterate at hends ⊢
      rw [hstep _ _ hround]
      split
      · rename_i next more between hrun
        rw [hrun] at hends
        exact ih hends
      · rfl
      · rfl

/-- A pattern that ends does the same when the rules do that end. -/
theorem Pattern.extends (hcall : ∀ r, Extends (call r) (call' r)) (p : Pattern ρ) :
    Extends (p.run blank context call) (p.run blank context call') := by
  induction p with
  | text chars => exact fun _ _ _ => rfl
  | one members => exact fun _ _ _ => rfl
  | absent members => exact fun _ _ _ => rfl
  | start => exact fun _ _ _ => rfl
  | stop => exact fun _ _ _ => rfl
  | rule r => exact hcall r
  | seq first second ihFirst ihSecond =>
      intro cursor attempts hends
      rw [Pattern.run] at hends ⊢
      rw [Pattern.run, ihFirst _ _ (Run.ends_of_andThen hends)]
      unfold Run.andThen at hends ⊢
      split
      · rename_i next nodes between hrun
        rw [hrun] at hends
        dsimp only at hends ⊢
        rw [ihSecond _ _ (Run.ends_of_andThen hends)]
      · rfl
      · rfl
  | choice first second ihFirst ihSecond =>
      intro cursor attempts hends
      rw [Pattern.run] at hends ⊢
      rw [Pattern.run, ihFirst _ _ (Run.ends_of_orElse hends)]
      unfold Run.orElse at hends ⊢
      split
      · rename_i between hrun
        rw [hrun] at hends
        exact ihSecond _ _ hends
      · rfl
  | optional body ih =>
      intro cursor attempts hends
      rw [Pattern.run] at hends ⊢
      rw [Pattern.run, ih _ _ (Run.ends_of_orElse hends)]
  | star body ih =>
      intro cursor attempts hends
      rw [Pattern.run] at hends ⊢
      rw [Pattern.run, ih _ _ (Run.ends_of_andThen (Run.ends_of_orElse hends))]
      unfold Run.andThen at hends ⊢
      split
      · rename_i next nodes between hrun
        rw [hrun] at hends
        dsimp only at hends ⊢
        rw [iterate_extends ih (Run.ends_of_orElse hends)]
      · rfl
      · rfl

end Patterns

section Rules

variable {g : Grammar ρ} {fuel : Nat} {outer : Atomicity} {rule : ρ}

theorem tracked_extends {body body' : Runner ρ} (hbody : Extends body body') :
    Extends (tracked outer rule body) (tracked outer rule body') := by
  intro cursor attempts hends
  have hends' : (body cursor attempts).1 ≠ .exhausted := by
    intro hexhausted
    apply hends
    unfold tracked
    dsimp only
    split
    · rename_i hrun
      rw [hrun] at hexhausted
      cases hexhausted
    · rename_i hrun
      rw [hrun] at hexhausted
      cases hexhausted
    · rfl
  unfold tracked
  rw [hbody _ _ hends']

theorem Extends.leave {body body' : Runner ρ} (hbody : Extends body body') :
    Extends (g.leave outer rule body) (g.leave outer rule body') := by
  unfold Grammar.leave
  cases g.mode rule with
  | silent => exact hbody
  | normal | token | compound | spaced => exact tracked_extends hbody

/-- A larger bound on nested rules changes nothing where a smaller one is not reached. -/
theorem runRule_extends (g : Grammar ρ) {fuel fuel' : Nat} (hfuel : fuel ≤ fuel')
    (outer : Atomicity) (rule : ρ) : Extends (runRule g fuel outer rule) (runRule g fuel' outer rule) := by
  induction fuel generalizing fuel' outer rule with
  | zero => exact fun _ _ hends => absurd rfl hends
  | succ fuel ih =>
      obtain ⟨fuel', rfl⟩ : ∃ more, fuel' = more + 1 := ⟨fuel' - 1, by omega⟩
      rw [runRule_succ, runRule_succ]
      exact Extends.leave ((g.body rule).extends fun r => ih (Nat.le_of_succ_le_succ hfuel) _ r)

/-- Matches a rule as deep as its text needs. -/
def Grammar.call (g : Grammar ρ) (outer : Atomicity) (rule : ρ) : Runner ρ :=
  fun cursor attempts => runRule g (depthBound cursor.rest.length) outer rule cursor attempts

/-- The body of a rule where the rules within are matched as deep as need be. -/
def Grammar.callBody (g : Grammar ρ) (outer : Atomicity) (rule : ρ) : Runner ρ :=
  (g.body rule).run g.blank ((g.mode rule).context outer)
    (g.call ((g.mode rule).context outer).atomicity)

theorem Grammar.parse_eq_call (g : Grammar ρ) (rule : ρ) (text : List Char) :
    g.parse rule text = g.call .loose rule (.ofText text) .none := rfl

namespace Grammar.Grounded

theorem extends_call (hg : g.Grounded) (fuel : Nat) (outer : Atomicity) (rule : ρ) :
    Extends (runRule g fuel outer rule) (g.call outer rule) := by
  intro cursor attempts hends
  unfold call
  have hbound := hg.ends outer rule cursor (Nat.le_refl _) attempts
  generalize depthBound cursor.rest.length = bound at hbound
  -- Both agree with the run under the larger one of their bounds.
  have hleft := runRule_extends g (Nat.le_max_left fuel bound) outer rule cursor attempts hends
  have hright := runRule_extends g (Nat.le_max_right fuel bound) outer rule cursor attempts hbound
  rw [← hleft, hright]

/-- The equation of a rule, with itself in place of the calls within. -/
theorem call_eq (hg : g.Grounded) (outer : Atomicity) (rule : ρ) :
    g.call outer rule = g.leave outer rule (g.callBody outer rule) := by
  funext cursor attempts
  have hbound := hg.ends outer rule cursor (Nat.le_refl _) attempts
  have hsome : 0 < depthBound cursor.rest.length := by
    unfold depthBound
    omega
  unfold call
  generalize depthBound cursor.rest.length = bound at hbound hsome
  obtain ⟨fuel, rfl⟩ : ∃ fuel, bound = fuel + 1 := ⟨bound - 1, by omega⟩
  rw [runRule_succ] at hbound ⊢
  have hbody : Extends (g.runBody fuel outer rule) (g.callBody outer rule) :=
    (g.body rule).extends fun r => hg.extends_call fuel _ r
  exact (hbody.leave cursor attempts hbound).symm

theorem call_eq_of_silent (hg : g.Grounded) (hmode : g.mode rule = .silent) :
    g.call outer rule = g.callBody outer rule := by
  rw [hg.call_eq, Grammar.leave_eq_of_silent hmode]

theorem call_ends (hg : g.Grounded) (outer : Atomicity) (rule : ρ) (cursor : Cursor) :
    Ends (g.call outer rule) cursor := by
  intro attempts
  exact hg.ends outer rule cursor (Nat.le_refl _) attempts

end Grammar.Grounded

theorem call_splits (g : Grammar ρ) (outer : Atomicity) (rule : ρ) :
    Splits (g.call outer rule) :=
  fun cursor => runRule_splits g (depthBound cursor.rest.length) outer rule cursor

/-! ## What rules take and refuse -/

variable {text rest : List Char} {good : List (Node ρ) → Prop}

theorem Takes.call (hg : g.Grounded) (htakes : Takes (runRule g fuel outer rule) text rest good) :
    Takes (g.call outer rule) text rest good := by
  intro place attempts
  obtain ⟨nodes, attempts', hrun, hgood⟩ := htakes place attempts
  refine ⟨nodes, attempts', ?_, hgood⟩
  rw [hg.extends_call fuel outer rule _ _ (by rw [hrun]; exact nofun), hrun]

theorem Refuses.call (hg : g.Grounded) (hrefuses : Refuses (runRule g fuel outer rule) text) :
    Refuses (g.call outer rule) text := by
  intro place attempts
  obtain ⟨attempts', hrun⟩ := hrefuses place attempts
  refine ⟨attempts', ?_⟩
  rw [hg.extends_call fuel outer rule _ _ (by rw [hrun]; exact nofun), hrun]

theorem takes_call_silent (hg : g.Grounded) (hmode : g.mode rule = .silent)
    (hbody : Takes (g.callBody outer rule) text rest good) :
    Takes (g.call outer rule) text rest good := by
  rw [hg.call_eq_of_silent hmode]
  exact hbody

theorem takes_call_node (hg : g.Grounded) (hleaves : (g.mode rule).LeavesNode outer)
    (hbody : Takes (g.callBody outer rule) text rest good) :
    Takes (g.call outer rule) text rest (IsNode rule text good) := by
  rw [hg.call_eq]
  exact takes_leave hleaves hbody

theorem refuses_call_of_body (hg : g.Grounded) (hbody : Refuses (g.callBody outer rule) text) :
    Refuses (g.call outer rule) text := by
  rw [hg.call_eq]
  exact refuses_leave hbody

/-- A rule that takes a character with every match refuses the end of a text. -/
theorem refuses_call_nil (hg : g.Grounded) {depth : Nat} (hsolid : g.isSolid depth rule = true)
    (outer : Atomicity) : Refuses (g.call outer rule) [] := by
  intro place attempts
  have hends := hg.call_ends outer rule ⟨place, []⟩ attempts
  rcases hrun : g.call outer rule ⟨place, []⟩ attempts with ⟨outcome, attempts'⟩
  cases outcome with
  | matched next nodes =>
      have hless := g.solid_of_isSolid hsolid _ _ _ _ _ hrun
      cases hless
  | failed => exact ⟨attempts', rfl⟩
  | exhausted =>
      rw [hrun] at hends
      exact absurd rfl hends

/-- A rule for whole texts matches what the pattern after the start takes. -/
theorem Grammar.Grounded.parse_of_takes (hg : g.Grounded) {p : Pattern ρ}
    (hmode : g.mode rule = .normal) (hbody : g.body rule = .seq .start p)
    (htext : Avoids g.blank text)
    (hp : Takes (p.run g.blank ⟨.loose, true⟩ (g.call .loose)) text [] good) :
    ∃ nodes attempts, g.parse rule text =
      (.matched ⟨Place.first.past text, []⟩ [.mk rule text .first nodes], attempts) ∧
        good nodes := by
  rw [g.parse_eq_call, hg.call_eq]
  unfold Grammar.leave Grammar.callBody
  simp only [hmode, hbody]
  exact tracked_of_takes htext hp

end Rules

end DocQuery.Grammar
