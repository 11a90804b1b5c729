import DocQuery.Proofs.Grammar.Unbounded

/-!
# Matching without regard to earlier attempts

Runs pass on a record of the attempts made so far, which only says what was expected where a text
is refused.  What is matched does not depend on it.  So a rule matches at a cursor what it has
matched there before, whichever rules have been tried in between: this carries a match from one
rule of a grammar to another one that comes to the same place.

Main names:

* `Oblivious`, `call_oblivious` — runs whose outcome does not depend on the record;
* `Meets`, `meets_seq`, `meets_node`, … — what is matched at one cursor, pattern by pattern.
-/

namespace DocQuery.Grammar

variable {ρ : Type}

/-- The outcome does not depend on the attempts made before. -/
def Oblivious (run : Runner ρ) : Prop :=
  ∀ cursor attempts attempts', (run cursor attempts).1 = (run cursor attempts').1

section Patterns

variable {blank : CharClass} {context : Context} {call : ρ → Runner ρ}

theorem Run.oblivious_andThen {r r' : Run ρ} {next : Cursor → List (Node ρ) → Attempts ρ → Run ρ}
    (hr : r.1 = r'.1) (hnext : ∀ cursor nodes attempts attempts',
      (next cursor nodes attempts).1 = (next cursor nodes attempts').1) :
    (r.andThen next).1 = (r'.andThen next).1 := by
  obtain ⟨outcome, attempts⟩ := r
  obtain ⟨outcome', attempts'⟩ := r'
  obtain rfl : outcome = outcome' := hr
  cases outcome with
  | matched cursor nodes => exact hnext cursor nodes attempts attempts'
  | failed => rfl
  | exhausted => rfl

theorem Run.oblivious_orElse {r r' : Run ρ} {next : Attempts ρ → Run ρ} (hr : r.1 = r'.1)
    (hnext : ∀ attempts attempts', (next attempts).1 = (next attempts').1) :
    (r.orElse next).1 = (r'.orElse next).1 := by
  obtain ⟨outcome, attempts⟩ := r
  obtain ⟨outcome', attempts'⟩ := r'
  obtain rfl : outcome = outcome' := hr
  cases outcome with
  | matched cursor nodes => rfl
  | failed => exact hnext attempts attempts'
  | exhausted => rfl

theorem iterate_oblivious {step : Runner ρ} (hstep : Oblivious step) (skip : Cursor → Cursor)
    (fuel : Nat) (cursor : Cursor) (nodes : List (Node ρ)) (attempts attempts' : Attempts ρ) :
    (iterate step skip fuel cursor nodes attempts).1 =
      (iterate step skip fuel cursor nodes attempts').1 := by
  induction fuel generalizing cursor nodes attempts attempts' with
  | zero => rfl
  | succ fuel ih =>
      have hround := hstep (skip cursor) attempts attempts'
      unfold iterate
      generalize step (skip cursor) attempts = first at hround ⊢
      generalize step (skip cursor) attempts' = first' at hround ⊢
      obtain ⟨outcome, between⟩ := first
      obtain ⟨outcome', between'⟩ := first'
      obtain rfl : outcome = outcome' := hround
      cases outcome with
      | matched next more => exact ih next (nodes ++ more) between between'
      | failed => rfl
      | exhausted => rfl

/-- Patterns pass on the record without looking into it. -/
theorem Pattern.oblivious (hcall : ∀ r, Oblivious (call r)) (p : Pattern ρ) :
    Oblivious (p.run blank context call) := by
  induction p with
  | text chars | one members | absent members | start | stop =>
      intro cursor attempts attempts'
      simp only [Pattern.run]
      split
      · first | rfl | (split <;> rfl)
      · rfl
  | rule r => exact hcall r
  | seq p q ihp ihq =>
      intro cursor attempts attempts'
      rw [Pattern.run]
      refine Run.oblivious_andThen (ihp cursor attempts attempts') ?_
      intro next nodes between between'
      exact Run.oblivious_andThen (ihq _ between between') fun _ _ _ _ => rfl
  | choice p q ihp ihq =>
      intro cursor attempts attempts'
      rw [Pattern.run]
      exact Run.oblivious_orElse (ihp cursor attempts attempts') (ihq cursor)
  | optional p ih =>
      intro cursor attempts attempts'
      rw [Pattern.run]
      exact Run.oblivious_orElse (ih cursor attempts attempts') fun _ _ => rfl
  | star p ih =>
      intro cursor attempts attempts'
      rw [Pattern.run]
      refine Run.oblivious_orElse ?_ fun _ _ => rfl
      refine Run.oblivious_andThen (ih cursor attempts attempts') ?_
      intro next nodes between between'
      exact iterate_oblivious ih _ _ next nodes between between'

end Patterns

section Rules

variable {g : Grammar ρ} {outer : Atomicity} {rule : ρ}

theorem tracked_oblivious {body : Runner ρ} (hbody : Oblivious body) :
    Oblivious (tracked outer rule body) := by
  intro cursor attempts attempts'
  have hrun := hbody cursor attempts attempts'
  unfold tracked
  dsimp only
  generalize body cursor attempts = first at hrun ⊢
  generalize body cursor attempts' = first' at hrun ⊢
  obtain ⟨outcome, between⟩ := first
  obtain ⟨outcome', between'⟩ := first'
  obtain rfl : outcome = outcome' := hrun
  cases outcome with
  | matched next nodes =>
      dsimp only
      split <;> rfl
  | failed => rfl
  | exhausted => rfl

theorem Oblivious.leave {body : Runner ρ} (hbody : Oblivious body) :
    Oblivious (g.leave outer rule body) := by
  unfold Grammar.leave
  cases g.mode rule with
  | silent => exact hbody
  | normal | token | compound | spaced => exact tracked_oblivious hbody

theorem runRule_oblivious (g : Grammar ρ) (fuel : Nat) (outer : Atomicity) (rule : ρ) :
    Oblivious (runRule g fuel outer rule) := by
  induction fuel generalizing outer rule with
  | zero => exact fun _ _ _ => rfl
  | succ fuel ih =>
      rw [runRule_succ]
      exact Oblivious.leave (Pattern.oblivious (fun r => ih _ r) _)

/-- What a rule matches does not depend on the attempts made before. -/
theorem call_oblivious (g : Grammar ρ) (outer : Atomicity) (rule : ρ) :
    Oblivious (g.call outer rule) :=
  fun cursor => runRule_oblivious g _ outer rule cursor

end Rules

/-! ## Matches at one cursor -/

/-- At a cursor a runner matches up to another one and leaves nodes, whatever has been attempted. -/
def Meets (run : Runner ρ) (cursor next : Cursor) (nodes : List (Node ρ)) : Prop :=
  ∀ attempts, (run cursor attempts).1 = .matched next nodes

section Meets

variable {run : Runner ρ} {cursor next last : Cursor} {nodes nodes' : List (Node ρ)}

/-- What has been matched once is matched again. -/
theorem Oblivious.meets (hrun : Oblivious run) {attempts attempts' : Attempts ρ}
    (hmatched : run cursor attempts = (.matched next nodes, attempts')) :
    Meets run cursor next nodes := by
  intro between
  rw [hrun cursor between attempts, hmatched]

theorem Meets.exists_run (hmeets : Meets run cursor next nodes) (attempts : Attempts ρ) :
    ∃ attempts', run cursor attempts = (.matched next nodes, attempts') :=
  ⟨(run cursor attempts).2, Prod.ext (hmeets attempts) rfl⟩

variable {blank : CharClass} {context : Context} {call : ρ → Runner ρ} {p q : Pattern ρ}

theorem meets_call {rule : ρ} (hrule : Meets (call rule) cursor next nodes) :
    Meets ((Pattern.rule rule).run blank context call) cursor next nodes :=
  hrule

theorem meets_seq (hp : Meets (p.run blank context call) cursor next nodes)
    (hq : Meets (q.run blank context call) (context.skip blank next) last nodes') :
    Meets ((p.seq q).run blank context call) cursor last (nodes ++ nodes') := by
  intro attempts
  obtain ⟨between, hfirst⟩ := hp.exists_run attempts
  obtain ⟨after, hsecond⟩ := hq.exists_run between
  rw [Pattern.run, hfirst]
  show ((q.run blank context call (context.skip blank next) between).andThen _).1 = _
  rw [hsecond]
  rfl

theorem meets_choice_left (hp : Meets (p.run blank context call) cursor next nodes) :
    Meets ((p.choice q).run blank context call) cursor next nodes := by
  intro attempts
  obtain ⟨between, hfirst⟩ := hp.exists_run attempts
  rw [Pattern.run, hfirst]
  rfl

theorem meets_choice_right (hp : Refuses (p.run blank context call) cursor.rest)
    (hq : Meets (q.run blank context call) cursor next nodes) :
    Meets ((p.choice q).run blank context call) cursor next nodes := by
  intro attempts
  obtain ⟨between, hfirst⟩ := hp cursor.place attempts
  rw [Pattern.run, hfirst]
  exact hq between

theorem meets_optional_none (hp : Refuses (p.run blank context call) cursor.rest) :
    Meets (p.optional.run blank context call) cursor cursor [] := by
  intro attempts
  obtain ⟨between, hfirst⟩ := hp cursor.place attempts
  rw [Pattern.run, hfirst]
  rfl

theorem meets_star_none (hp : Refuses (p.run blank context call) cursor.rest) :
    Meets (p.star.run blank context call) cursor cursor [] := by
  intro attempts
  obtain ⟨between, hfirst⟩ := hp cursor.place attempts
  rw [Pattern.run, hfirst]
  rfl

theorem meets_stop (hrest : cursor.rest = []) :
    Meets ((Pattern.stop : Pattern ρ).run blank context call) cursor cursor [] := by
  intro attempts
  simp [Pattern.run, hrest]

/-- At the end of a text there are no blanks to pass over. -/
theorem skip_of_nil (context : Context) (blank : CharClass) (hrest : cursor.rest = []) :
    context.skip blank cursor = cursor := by
  obtain ⟨place, rest⟩ := cursor
  obtain rfl : rest = [] := hrest
  unfold Context.skip
  split <;> rfl

theorem meets_seq_end (hp : Meets (p.run blank context call) cursor next nodes)
    (hrest : next.rest = []) (hq : Meets (q.run blank context call) next last nodes') :
    Meets ((p.seq q).run blank context call) cursor last (nodes ++ nodes') :=
  meets_seq hp ((skip_of_nil context blank hrest).symm ▸ hq)

variable {g : Grammar ρ}

theorem meets_silent (rule : ρ) (hg : g.Grounded) (hmode : g.mode rule = .silent)
    (hbody : Meets ((g.body rule).run g.blank ⟨.loose, true⟩ (g.call .loose)) cursor next nodes) :
    Meets (g.call .loose rule) cursor next nodes := by
  rw [hg.call_eq_of_silent hmode, Grammar.callBody, hmode]
  exact hbody

theorem meets_node (rule : ρ) (hg : g.Grounded) (hmode : g.mode rule = .normal)
    (hbody : Meets ((g.body rule).run g.blank ⟨.loose, true⟩ (g.call .loose)) cursor next nodes) :
    ∃ text place, Meets (g.call .loose rule) cursor next [.mk rule text place nodes] := by
  refine ⟨cursor.upTo next, cursor.place, fun attempts => ?_⟩
  obtain ⟨between, hrun⟩ := hbody.exists_run attempts
  rw [hg.call_eq, Grammar.callBody]
  unfold Grammar.leave
  rw [hmode]
  unfold tracked Mode.context
  simp [hrun]

end Meets

end DocQuery.Grammar
