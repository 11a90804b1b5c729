import Mathlib.Data.List.Forall2

/-!
# Sequences of steps that may fail

Reading and evaluating are sequences of steps that may fail, with patterns that are kept between
them.  This module says what holds of the results of such a sequence and of its failures: of a
result what the last step makes of the earlier ones, of a failure what holds of that of one step,
after the steps before it have succeeded.

Main names:

* `bind_eq_ok`, `bind_eq_error` — the results and the failures of two steps;
* `mapM_eq_ok`, `mapM_of_forall₂`, `mapM_eq_error` — the same for a step for every member of a list;
* `Gives`, `gives_bind` — what holds of every result;
* `Fails`, `fails_bind` — what holds of every failure;
* `Secures`, `secures_bind` — results from states that are kept within an invariant;
* `Yields`, `yields_bind` — the outcome from every state within an invariant;
* `Steady`, `steady_bind` — it is the same from all of them.
-/

namespace DocQuery

variable {ε σ α β : Type}

/-! ## Without state -/

/-- A sequence of two steps has a result only where both steps have one. -/
theorem bind_eq_ok {result : Except ε α} {f : α → Except ε β} {b : β}
    (hresult : result >>= f = .ok b) : ∃ a, result = .ok a ∧ f a = .ok b := by
  cases result with
  | ok a => exact ⟨a, rfl, hresult⟩
  | error e => cases hresult

/-- A result that passes a test is there. -/
theorem exists_of_any {result : Except ε α} {test : α → Bool}
    (hresult : result.toOption.any test = true) : ∃ a, result = .ok a ∧ test a = true := by
  cases result with
  | ok a => exact ⟨a, rfl, hresult⟩
  | error e => cases hresult

/-- A mapped result comes from a result. -/
theorem map_eq_ok {f : α → β} {result : Except ε α} {b : β} (hresult : f <$> result = .ok b) :
    ∃ a, result = .ok a ∧ f a = b := by
  cases result with
  | ok a =>
      cases hresult
      exact ⟨a, rfl, rfl⟩
  | error e => cases hresult

/-- A result whose failures are renamed is a result. -/
theorem ok_of_mapError {ε' : Type} {f : ε → ε'} {result : Except ε α} {a : α}
    (hresult : result.mapError f = .ok a) : result = .ok a := by
  cases result with
  | ok _ =>
      cases hresult
      rfl
  | error e => cases hresult

/-- A sequence of two steps fails where one of them does. -/
theorem bind_eq_error {result : Except ε α} {f : α → Except ε β} {e : ε}
    (hresult : result >>= f = .error e) :
    result = .error e ∨ ∃ a, result = .ok a ∧ f a = .error e := by
  cases result with
  | ok a => exact Or.inr ⟨a, rfl, hresult⟩
  | error e' =>
      cases hresult
      exact Or.inl rfl

theorem map_eq_error {f : α → β} {result : Except ε α} {e : ε}
    (hresult : f <$> result = .error e) : result = .error e := by
  cases result with
  | ok a => cases hresult
  | error e' =>
      cases hresult
      rfl

/-- A step for every member of a list has results where all of them have one. -/
theorem mapM_eq_ok {f : α → Except ε β} {as : List α} {bs : List β} (hresult : as.mapM f = .ok bs) :
    List.Forall₂ (fun a b => f a = .ok b) as bs := by
  induction as generalizing bs with
  | nil =>
      cases hresult
      exact .nil
  | cons a as ih =>
      rw [List.mapM_cons] at hresult
      obtain ⟨b, hfirst, hresult⟩ := bind_eq_ok hresult
      obtain ⟨others, hothers, hresult⟩ := bind_eq_ok hresult
      cases hresult
      exact .cons hfirst (ih hothers)

theorem mapM_of_forall₂ {f : α → Except ε β} {as : List α} {bs : List β}
    (hall : List.Forall₂ (fun a b => f a = .ok b) as bs) : as.mapM f = .ok bs := by
  induction hall with
  | nil => rfl
  | cons hfirst _ ih =>
      rw [List.mapM_cons, hfirst, ih]
      rfl

theorem exists_of_forall₂ {R : α → β → Prop} {as : List α} {bs : List β}
    (hall : List.Forall₂ R as bs) {a : α} (ha : a ∈ as) : ∃ b ∈ bs, R a b := by
  induction hall with
  | nil => cases ha
  | @cons first b as bs hR _ ih =>
      rcases List.mem_cons.mp ha with rfl | hmem
      · exact ⟨b, List.mem_cons_self .., hR⟩
      · obtain ⟨b', hb', hR'⟩ := ih hmem
        exact ⟨b', List.mem_cons_of_mem _ hb', hR'⟩

theorem exists_of_mem_mapM {f : α → Except ε β} {as : List α} {bs : List β}
    (hresult : as.mapM f = .ok bs) {b : β} (hb : b ∈ bs) : ∃ a ∈ as, f a = .ok b :=
  exists_of_forall₂ (mapM_eq_ok hresult).flip hb

/-- It fails where one of them does. -/
theorem mapM_eq_error {f : α → Except ε β} {as : List α} {e : ε}
    (hresult : as.mapM f = .error e) : ∃ a ∈ as, f a = .error e := by
  induction as with
  | nil => cases hresult
  | cons a as ih =>
      rw [List.mapM_cons] at hresult
      rcases bind_eq_error hresult with hfirst | ⟨b, _, hresult⟩
      · exact ⟨a, List.mem_cons_self .., hfirst⟩
      · rcases bind_eq_error hresult with hothers | ⟨bs, _, hresult⟩
        · obtain ⟨a', ha', hfails⟩ := ih hothers
          exact ⟨a', List.mem_cons_of_mem _ ha', hfails⟩
        · cases hresult

/-! ## With state -/

/-- What a sequence of two steps does, from what the first one does. -/
theorem run_bind (x : ExceptT ε (StateM σ) α) (f : α → ExceptT ε (StateM σ) β) (s : σ) :
    (x >>= f).run.run s =
      match x.run.run s with
      | (.ok a, between) => (f a).run.run between
      | (.error e, between) => (.error e, between) := by
  show (ExceptT.bindCont f (x.run.run s).1).run (x.run.run s).2 = _
  rcases x.run.run s with ⟨result, between⟩
  cases result <;> rfl

/-! ## Results -/

/-- Every result, from whatever state, has a property. -/
def Gives (x : ExceptT ε (StateM σ) α) (holds : α → Prop) : Prop :=
  ∀ (s s' : σ) (a : α), x.run.run s = (.ok a, s') → holds a

theorem gives_pure {holds : α → Prop} {a : α} (ha : holds a) :
    Gives (pure a : ExceptT ε (StateM σ) α) holds := by
  intro s s' b hrun
  cases hrun
  exact ha

theorem gives_lift {holds : α → Prop} {result : Except ε α}
    (hresult : ∀ a, result = .ok a → holds a) :
    Gives (ExceptT.mk (pure result) : ExceptT ε (StateM σ) α) holds := by
  intro s s' a hrun
  cases hrun
  exact hresult a rfl

/-- The rule of sequencing: what holds of the first result may be used of the second. -/
theorem gives_bind {holds : α → Prop} {holds' : β → Prop} {x : ExceptT ε (StateM σ) α}
    {f : α → ExceptT ε (StateM σ) β} (hx : Gives x holds) (hf : ∀ a, holds a → Gives (f a) holds') :
    Gives (x >>= f) holds' := by
  intro s s' b hrun
  rw [run_bind] at hrun
  split at hrun
  · rename_i a between hfirst
    exact hf a (hx s between a hfirst) between s' b hrun
  · cases hrun

theorem gives_true (x : ExceptT ε (StateM σ) α) : Gives x fun _ => True :=
  fun _ _ _ _ => trivial

/-! ## Failures -/

/-- Every failure, from whatever state, has a property. -/
def Fails (x : ExceptT ε (StateM σ) α) (holds : ε → Prop) : Prop :=
  ∀ (s s' : σ) (e : ε), x.run.run s = (.error e, s') → holds e

theorem fails_pure {holds : ε → Prop} (a : α) :
    Fails (pure a : ExceptT ε (StateM σ) α) holds := by
  intro s s' e hrun
  cases hrun

theorem fails_lift {holds : ε → Prop} {result : Except ε α}
    (hresult : ∀ e, result = .error e → holds e) :
    Fails (ExceptT.mk (pure result) : ExceptT ε (StateM σ) α) holds := by
  intro s s' e hrun
  cases hrun
  exact hresult e rfl

theorem Fails.imp {holds holds' : ε → Prop} {x : ExceptT ε (StateM σ) α} (hx : Fails x holds)
    (himp : ∀ e, holds e → holds' e) : Fails x holds' :=
  fun s s' e hrun => himp e (hx s s' e hrun)

/-- The rule of sequencing: where the second step fails, what holds of the first result may be
used. -/
theorem fails_bind {given : α → Prop} {holds : ε → Prop} {x : ExceptT ε (StateM σ) α}
    {f : α → ExceptT ε (StateM σ) β} (hx : Fails x holds) (hgives : Gives x given)
    (hf : ∀ a, given a → Fails (f a) holds) : Fails (x >>= f) holds := by
  intro s s' e hrun
  rw [run_bind] at hrun
  split at hrun
  · rename_i a between hfirst
    exact hf a (hgives s between a hfirst) between s' e hrun
  · rename_i e' between hfirst
    cases hrun
    exact hx s s' e hfirst

/-! ## Invariants of the state -/

section Invariants

variable {keeps : σ → Prop}

/-- From a state within an invariant every result has a property, and the state stays within. -/
def Secures (keeps : σ → Prop) (x : ExceptT ε (StateM σ) α) (holds : α → Prop) : Prop :=
  ∀ (s s' : σ) (a : α), keeps s → x.run.run s = (.ok a, s') → keeps s' ∧ holds a

theorem secures_pure {holds : α → Prop} {a : α} (ha : holds a) :
    Secures keeps (pure a : ExceptT ε (StateM σ) α) holds := by
  intro s s' b hs hrun
  cases hrun
  exact ⟨hs, ha⟩

theorem secures_lift {holds : α → Prop} {result : Except ε α}
    (hresult : ∀ a, result = .ok a → holds a) :
    Secures keeps (ExceptT.mk (pure result) : ExceptT ε (StateM σ) α) holds := by
  intro s s' a hs hrun
  cases hrun
  exact ⟨hs, hresult a rfl⟩

theorem secures_bind {holds : α → Prop} {holds' : β → Prop} {x : ExceptT ε (StateM σ) α}
    {f : α → ExceptT ε (StateM σ) β} (hx : Secures keeps x holds)
    (hf : ∀ a, holds a → Secures keeps (f a) holds') : Secures keeps (x >>= f) holds' := by
  intro s s' b hs hrun
  rw [run_bind] at hrun
  split at hrun
  · rename_i a between hfirst
    obtain ⟨hbetween, ha⟩ := hx s between a hs hfirst
    exact hf a ha between s' b hbetween hrun
  · cases hrun

/-- From a state within an invariant this is the outcome, and the state stays within. -/
def Yields (keeps : σ → Prop) (x : ExceptT ε (StateM σ) α) (result : Except ε α) : Prop :=
  ∀ s, keeps s → ∃ s', keeps s' ∧ x.run.run s = (result, s')

theorem yields_pure (a : α) : Yields keeps (pure a : ExceptT ε (StateM σ) α) (.ok a) :=
  fun s hs => ⟨s, hs, rfl⟩

theorem yields_lift (result : Except ε α) :
    Yields keeps (ExceptT.mk (pure result) : ExceptT ε (StateM σ) α) result :=
  fun s hs => ⟨s, hs, rfl⟩

theorem yields_bind {x : ExceptT ε (StateM σ) α} {f : α → ExceptT ε (StateM σ) β} {a : α}
    {result : Except ε β} (hx : Yields keeps x (.ok a)) (hf : Yields keeps (f a) result) :
    Yields keeps (x >>= f) result := by
  intro s hs
  obtain ⟨between, hbetween, hfirst⟩ := hx s hs
  obtain ⟨s', hs', hsecond⟩ := hf between hbetween
  refine ⟨s', hs', ?_⟩
  rw [run_bind, hfirst]
  exact hsecond

theorem yields_bind_error {x : ExceptT ε (StateM σ) α} (f : α → ExceptT ε (StateM σ) β) {e : ε}
    (hx : Yields keeps x (.error e)) : Yields keeps (x >>= f) (.error e) := by
  intro s hs
  obtain ⟨s', hs', hfirst⟩ := hx s hs
  refine ⟨s', hs', ?_⟩
  rw [run_bind, hfirst]

/-- From all states within an invariant there is the same outcome, and the state stays within. -/
def Steady (keeps : σ → Prop) (x : ExceptT ε (StateM σ) α) : Prop :=
  ∃ result, Yields keeps x result

theorem steady_pure (a : α) : Steady keeps (pure a : ExceptT ε (StateM σ) α) :=
  ⟨_, yields_pure a⟩

theorem steady_lift (result : Except ε α) :
    Steady keeps (ExceptT.mk (pure result) : ExceptT ε (StateM σ) α) :=
  ⟨_, yields_lift result⟩

/-- The rule of sequencing: one outcome of each step leaves one outcome of the sequence. -/
theorem steady_bind {x : ExceptT ε (StateM σ) α} {f : α → ExceptT ε (StateM σ) β}
    (hx : Steady keeps x) (hf : ∀ a, Steady keeps (f a)) : Steady keeps (x >>= f) := by
  obtain ⟨result, hx⟩ := hx
  cases result with
  | ok a =>
      obtain ⟨result, hf⟩ := hf a
      exact ⟨result, yields_bind hx hf⟩
  | error e => exact ⟨.error e, yields_bind_error f hx⟩

/-- The outcome of a sequence from a state. -/
def outcome (x : ExceptT ε (StateM σ) α) (s : σ) : Except ε α :=
  (x.run.run s).1

theorem exists_run_of_outcome {x : ExceptT ε (StateM σ) α} {s : σ} {result : Except ε α}
    (hresult : outcome x s = result) : ∃ s', x.run.run s = (result, s') :=
  ⟨(x.run.run s).2, Prod.ext hresult rfl⟩

theorem Yields.outcome_eq {x : ExceptT ε (StateM σ) α} {result : Except ε α}
    (hx : Yields keeps x result) {s : σ} (hs : keeps s) : outcome x s = result := by
  obtain ⟨s', _, hrun⟩ := hx s hs
  unfold outcome
  rw [hrun]

theorem Steady.yields {x : ExceptT ε (StateM σ) α} (hx : Steady keeps x) {s : σ} (hs : keeps s) :
    Yields keeps x (outcome x s) := by
  obtain ⟨result, hx⟩ := hx
  rw [hx.outcome_eq hs]
  exact hx

end Invariants

end DocQuery
