import DocQuery.Proofs.Grammar.Takes

/-!
# Rules do not nest without end

A run passes over a part of the text and leaves the rest. Between two characters that it takes,
rules can only be entered so often: where a pattern calls a rule before it has taken a character,
that rule enters fewer rules still. Both facts are found by evaluation for the rules of a given
grammar, and then the bound on nested rules is never reached.

Main names:

* `Passes`, `Splits` — what a match has passed over and what it leaves;
* `Pattern.isSolid`, `Grammar.isSolid` — every match takes a character;
* `Pattern.isSteady`, `Pattern.enters`, `Grammar.enters` — how rules nest before a character is
  taken;
* `Grammar.Grounded`, `Grammar.Grounded.ends` — runs of such a grammar end.
-/

namespace DocQuery.Grammar

variable {ρ : Type}

/-! ## What a match passes over -/

/-- The text between two cursors, the later one of which stands behind it. -/
structure Passes (before : Cursor) (text : List Char) (after : Cursor) : Prop where
  rest : before.rest = text ++ after.rest
  place : after.place = before.place.past text

namespace Passes

variable {before between after : Cursor} {text text' : List Char}

theorem refl (cursor : Cursor) : Passes cursor [] cursor := ⟨rfl, rfl⟩

theorem trans (hfirst : Passes before text between) (hsecond : Passes between text' after) :
    Passes before (text ++ text') after := by
  constructor
  · rw [hfirst.rest, hsecond.rest, List.append_assoc]
  · rw [hsecond.place, hfirst.place, Place.past_append]

theorem length (hpasses : Passes before text after) :
    before.rest.length = text.length + after.rest.length := by
  rw [hpasses.rest, List.length_append]

theorem upTo (hpasses : Passes before text after) : before.upTo after = text := by
  unfold Cursor.upTo
  rw [hpasses.place, Place.offset_past, hpasses.rest]
  simp

theorem eq_left (hpasses : Passes before text after) :
    before = ⟨before.place, text ++ after.rest⟩ := by
  rw [← hpasses.rest]

theorem eq_right (hpasses : Passes before text after) :
    after = ⟨before.place.past text, after.rest⟩ := by
  rw [← hpasses.place]

end Passes

/-- What a match leaves is the rest of the text. -/
def Splits (run : Runner ρ) : Prop :=
  ∀ cursor attempts next nodes attempts', run cursor attempts = (.matched next nodes, attempts') →
    ∃ text, Passes cursor text next

/-- Every match takes a character. -/
def Solid (run : Runner ρ) : Prop :=
  ∀ cursor attempts next nodes attempts', run cursor attempts = (.matched next nodes, attempts') →
    next.rest.length < cursor.rest.length

theorem passes_skipText {chars rest : List Char} {place : Place} {next : Cursor}
    (hskip : Cursor.skipText? chars place rest = some next) :
    Passes ⟨place, rest⟩ chars next := by
  induction chars generalizing place rest with
  | nil =>
      cases hskip
      exact .refl _
  | cons t chars ih =>
      cases rest with
      | nil => cases hskip
      | cons c rest =>
          unfold Cursor.skipText? at hskip
          split at hskip
          · rename_i heq
            subst heq
            obtain ⟨hrest, hplace⟩ := ih hskip
            exact ⟨congrArg (t :: ·) hrest, hplace⟩
          · cases hskip

theorem passes_skipWhile (f : Char → Bool) (place : Place) (rest : List Char) :
    ∃ gap, Passes ⟨place, rest⟩ gap (Cursor.skipWhile f place rest) ∧ (∀ c ∈ gap, f c = true) ∧
      ∀ c tail, (Cursor.skipWhile f place rest).rest = c :: tail → f c = false := by
  induction rest generalizing place with
  | nil =>
      refine ⟨[], .refl _, by simp, ?_⟩
      intro c tail hrest
      cases hrest
  | cons c rest ih =>
      unfold Cursor.skipWhile
      split
      · rename_i hc
        obtain ⟨gap, hpasses, hgap, hrest⟩ := ih (place.after c)
        refine ⟨c :: gap, ⟨congrArg (c :: ·) hpasses.rest, hpasses.place⟩, ?_, hrest⟩
        exact List.forall_mem_cons.mpr ⟨hc, hgap⟩
      · rename_i hc
        refine ⟨[], .refl _, by simp, ?_⟩
        intro c' tail hrest
        cases hrest
        simpa using hc

/-- What is passed over between two parts may stand there. -/
theorem passes_skip (context : Context) (blank : CharClass) (cursor : Cursor) :
    ∃ gap, Passes cursor gap (context.skip blank cursor) ∧
      Between blank context gap (context.skip blank cursor).rest := by
  unfold Context.skip Between
  split
  · obtain ⟨gap, hpasses, hgap, hrest⟩ :=
      passes_skipWhile blank.contains cursor.place cursor.rest
    exact ⟨gap, hpasses, hgap, hrest⟩
  · exact ⟨[], .refl _, rfl⟩

theorem length_skip_le (context : Context) (blank : CharClass) (cursor : Cursor) :
    (context.skip blank cursor).rest.length ≤ cursor.rest.length := by
  obtain ⟨gap, hpasses, _⟩ := passes_skip context blank cursor
  rw [hpasses.length]
  omega

section Patterns

variable {blank : CharClass} {context : Context} {call : ρ → Runner ρ}

section Runs

variable {r : Run ρ} {next : Cursor → List (Node ρ) → Attempts ρ → Run ρ}
  {other : Attempts ρ → Run ρ} {last : Cursor} {nodes : List (Node ρ)} {attempts : Attempts ρ}

theorem Run.andThen_eq_matched (hrun : r.andThen next = (.matched last nodes, attempts)) :
    ∃ cursor found between, r = (.matched cursor found, between) ∧
      next cursor found between = (.matched last nodes, attempts) := by
  obtain ⟨outcome, between⟩ := r
  cases outcome with
  | matched cursor found => exact ⟨cursor, found, between, rfl, hrun⟩
  | failed | exhausted => cases hrun

theorem Run.andThen_eq_failed (hrun : r.andThen next = (.failed, attempts)) :
    r = (.failed, attempts) ∨ ∃ cursor found between, r = (.matched cursor found, between) ∧
      next cursor found between = (.failed, attempts) := by
  obtain ⟨outcome, between⟩ := r
  cases outcome with
  | matched cursor found => exact Or.inr ⟨cursor, found, between, rfl, hrun⟩
  | failed => exact Or.inl hrun
  | exhausted => cases hrun

theorem Run.orElse_eq_matched (hrun : r.orElse other = (.matched last nodes, attempts)) :
    r = (.matched last nodes, attempts) ∨
      ∃ between, r = (.failed, between) ∧ other between = (.matched last nodes, attempts) := by
  obtain ⟨outcome, between⟩ := r
  cases outcome with
  | matched cursor found => exact Or.inl hrun
  | failed => exact Or.inr ⟨between, rfl, hrun⟩
  | exhausted => cases hrun

theorem Run.andThen_ends (hr : r.1 ≠ .exhausted) (hnext : ∀ cursor found between,
    r = (.matched cursor found, between) → (next cursor found between).1 ≠ .exhausted) :
    (r.andThen next).1 ≠ .exhausted := by
  obtain ⟨outcome, between⟩ := r
  cases outcome with
  | matched cursor found => exact hnext cursor found between rfl
  | failed => exact nofun
  | exhausted => exact absurd rfl hr

theorem Run.orElse_ends (hr : r.1 ≠ .exhausted)
    (hother : ∀ between, (other between).1 ≠ .exhausted) : (r.orElse other).1 ≠ .exhausted := by
  obtain ⟨outcome, between⟩ := r
  cases outcome with
  | matched cursor found => exact nofun
  | failed => exact hother between
  | exhausted => exact absurd rfl hr

end Runs

/-- A sequence that matches has matched both parts. -/
theorem matched_seq {p q : Pattern ρ} {cursor last : Cursor} {attempts attempts' : Attempts ρ}
    {nodes : List (Node ρ)}
    (hrun : (p.seq q).run blank context call cursor attempts = (.matched last nodes, attempts')) :
    ∃ next nodes₁ nodes₂ between, nodes = nodes₁ ++ nodes₂ ∧
      p.run blank context call cursor attempts = (.matched next nodes₁, between) ∧
      q.run blank context call (context.skip blank next) between =
        (.matched last nodes₂, attempts') := by
  rw [Pattern.run] at hrun
  obtain ⟨next, nodes₁, between, hfirst, hrun⟩ := Run.andThen_eq_matched hrun
  obtain ⟨_, nodes₂, _, hsecond, hrun⟩ := Run.andThen_eq_matched hrun
  cases hrun
  exact ⟨next, nodes₁, nodes₂, between, rfl, hfirst, hsecond⟩

/-- The rounds of a repetition after its first one, each with blanks before it; the blanks
before the round that fails are given back. -/
inductive Rounds (step : Runner ρ) (skip : Cursor → Cursor) :
    Cursor → Cursor → List (Node ρ) → Prop
  | done {cursor : Cursor} {attempts attempts' : Attempts ρ}
      (hstep : step (skip cursor) attempts = (.failed, attempts')) : Rounds step skip cursor cursor []
  | round {cursor next last : Cursor} {attempts attempts' : Attempts ρ} {nodes more : List (Node ρ)}
      (hstep : step (skip cursor) attempts = (.matched next nodes, attempts'))
      (hrounds : Rounds step skip next last more) : Rounds step skip cursor last (nodes ++ more)

theorem rounds_of_iterate {step : Runner ρ} {skip : Cursor → Cursor} {fuel : Nat}
    {cursor last : Cursor} {nodes nodes' : List (Node ρ)} {attempts attempts' : Attempts ρ}
    (hrun : iterate step skip fuel cursor nodes attempts = (.matched last nodes', attempts')) :
    ∃ more, nodes' = nodes ++ more ∧ Rounds step skip cursor last more := by
  induction fuel generalizing cursor nodes attempts with
  | zero => cases hrun
  | succ fuel ih =>
      unfold iterate at hrun
      split at hrun
      · rename_i next found between hstep
        obtain ⟨more, rfl, hrounds⟩ := ih hrun
        exact ⟨found ++ more, List.append_assoc .., .round hstep hrounds⟩
      · rename_i between hstep
        cases hrun
        exact ⟨[], (List.append_nil _).symm, .done hstep⟩
      · cases hrun

theorem iterate_ne_failed {step : Runner ρ} {skip : Cursor → Cursor} {fuel : Nat}
    {cursor : Cursor} {nodes : List (Node ρ)} {attempts attempts' : Attempts ρ} :
    iterate step skip fuel cursor nodes attempts ≠ (.failed, attempts') := by
  intro hrun
  induction fuel generalizing cursor nodes attempts with
  | zero => cases hrun
  | succ fuel ih =>
      unfold iterate at hrun
      split at hrun
      · exact ih hrun
      · cases hrun
      · cases hrun

/-- A repetition that matches has matched a first round and gone on, or was refused one. -/
theorem matched_star {p : Pattern ρ} {cursor last : Cursor} {attempts attempts' : Attempts ρ}
    {nodes : List (Node ρ)}
    (hrun : p.star.run blank context call cursor attempts = (.matched last nodes, attempts')) :
    (∃ next nodes₁ nodes₂ between, nodes = nodes₁ ++ nodes₂ ∧
      p.run blank context call cursor attempts = (.matched next nodes₁, between) ∧
      Rounds (p.run blank context call) (context.skip blank) next last nodes₂) ∨
    (last = cursor ∧ nodes = [] ∧
      ∃ between, p.run blank context call cursor attempts = (.failed, between)) := by
  rw [Pattern.run] at hrun
  rcases Run.orElse_eq_matched hrun with hrun | ⟨_, hfailed, hrun⟩
  · obtain ⟨next, nodes₁, between, hfirst, hrun⟩ := Run.andThen_eq_matched hrun
    obtain ⟨nodes₂, hnodes, hrounds⟩ := rounds_of_iterate hrun
    exact Or.inl ⟨next, nodes₁, nodes₂, between, hnodes, hfirst, hrounds⟩
  · -- Once the first round has matched, the others cannot fail.
    rcases Run.andThen_eq_failed hfailed with hfirst | ⟨_, _, _, _, hothers⟩
    · cases hrun
      exact Or.inr ⟨rfl, rfl, _, hfirst⟩
    · exact absurd hothers iterate_ne_failed

theorem Splits.rounds {step : Runner ρ} (hstep : Splits step) {cursor last : Cursor}
    {nodes : List (Node ρ)} (hrounds : Rounds step (context.skip blank) cursor last nodes) :
    ∃ text, Passes cursor text last := by
  induction hrounds with
  | done _ => exact ⟨[], .refl _⟩
  | @round cursor next last _ _ _ _ hround _ ih =>
      obtain ⟨gap, hgap, _⟩ := passes_skip context blank cursor
      obtain ⟨text, htext⟩ := hstep _ _ _ _ _ hround
      obtain ⟨text', htext'⟩ := ih
      exact ⟨gap ++ (text ++ text'), hgap.trans (htext.trans htext')⟩

/-- Patterns split texts if rules do. -/
theorem Pattern.splits (hcall : ∀ r, Splits (call r)) (p : Pattern ρ) :
    Splits (p.run blank context call) := by
  induction p with
  | text chars =>
      intro cursor attempts next nodes attempts' hrun
      rw [Pattern.run] at hrun
      split at hrun
      · rename_i hskip
        cases hrun
        exact ⟨chars, passes_skipText hskip⟩
      · cases hrun
  | one members =>
      intro cursor attempts next nodes attempts' hrun
      obtain ⟨place, input⟩ := cursor
      cases input with
      | nil => cases hrun
      | cons c rest =>
          simp only [Pattern.run] at hrun
          split at hrun
          · cases hrun
            exact ⟨[c], rfl, rfl⟩
          · cases hrun
  | absent members =>
      intro cursor attempts next nodes attempts' hrun
      obtain ⟨place, input⟩ := cursor
      cases input with
      | nil =>
          cases hrun
          exact ⟨[], .refl _⟩
      | cons c rest =>
          simp only [Pattern.run] at hrun
          split at hrun
          · cases hrun
          · cases hrun
            exact ⟨[], .refl _⟩
  | start | stop =>
      intro cursor attempts next nodes attempts' hrun
      simp only [Pattern.run] at hrun
      split at hrun
      · cases hrun
        exact ⟨[], .refl _⟩
      · cases hrun
  | rule r => exact hcall r
  | seq first second ihFirst ihSecond =>
      intro cursor attempts last nodes attempts' hrun
      obtain ⟨next, nodes₁, nodes₂, between, _, hfirst, hsecond⟩ := matched_seq hrun
      obtain ⟨text, htext⟩ := ihFirst _ _ _ _ _ hfirst
      obtain ⟨gap, hgap, _⟩ := passes_skip context blank next
      obtain ⟨text', htext'⟩ := ihSecond _ _ _ _ _ hsecond
      exact ⟨text ++ (gap ++ text'), htext.trans (hgap.trans htext')⟩
  | choice first second ihFirst ihSecond =>
      intro cursor attempts last nodes attempts' hrun
      rw [Pattern.run] at hrun
      rcases Run.orElse_eq_matched hrun with hrun | ⟨_, _, hrun⟩
      · exact ihFirst _ _ _ _ _ hrun
      · exact ihSecond _ _ _ _ _ hrun
  | optional body ih =>
      intro cursor attempts last nodes attempts' hrun
      rw [Pattern.run] at hrun
      rcases Run.orElse_eq_matched hrun with hrun | ⟨_, _, hrun⟩
      · exact ih _ _ _ _ _ hrun
      · cases hrun
        exact ⟨[], .refl _⟩
  | star body ih =>
      intro cursor attempts last nodes attempts' hrun
      rcases matched_star hrun with ⟨next, _, _, between, _, hfirst, hrounds⟩ | ⟨rfl, _⟩
      · obtain ⟨text, htext⟩ := ih _ _ _ _ _ hfirst
        obtain ⟨text', htext'⟩ := ih.rounds hrounds
        exact ⟨text ++ text', htext.trans htext'⟩
      · exact ⟨[], .refl _⟩

/-! ### Matches that take a character -/

/-- Whether every match of a pattern takes a character, given which rules do so. -/
def Pattern.isSolid (call : ρ → Bool) : Pattern ρ → Bool
  | .text chars => !chars.isEmpty
  | .one _ => true
  | .absent _ | .start | .stop => false
  | .rule r => call r
  | .seq first second => first.isSolid call || second.isSolid call
  | .choice first second => first.isSolid call && second.isSolid call
  | .optional _ | .star _ => false

/-- Patterns that are found to take a character do so. -/
theorem Pattern.solid {solid : ρ → Bool} (hcall : ∀ r, Splits (call r))
    (hsolid : ∀ r, solid r = true → Solid (call r)) {p : Pattern ρ}
    (hp : p.isSolid solid = true) : Solid (p.run blank context call) := by
  induction p with
  | text chars =>
      intro cursor attempts next nodes attempts' hrun
      rw [Pattern.run] at hrun
      split at hrun
      · rename_i hskip
        cases hrun
        have hlength := (passes_skipText hskip).length
        have hsome : chars.length ≠ 0 := by simpa [isSolid] using hp
        dsimp only at hlength
        omega
      · cases hrun
  | one members =>
      intro cursor attempts next nodes attempts' hrun
      obtain ⟨place, input⟩ := cursor
      cases input with
      | nil => cases hrun
      | cons c rest =>
          simp only [Pattern.run] at hrun
          split at hrun
          · cases hrun
            exact Nat.lt_succ_self _
          · cases hrun
  | absent members | start | stop => cases hp
  | rule r => exact hsolid r hp
  | seq first second ihFirst ihSecond =>
      intro cursor attempts last nodes attempts' hrun
      obtain ⟨next, nodes₁, nodes₂, between, _, hfirst, hsecond⟩ := matched_seq hrun
      obtain ⟨text, htext⟩ := first.splits hcall _ _ _ _ _ hfirst
      obtain ⟨text', htext'⟩ := second.splits hcall _ _ _ _ _ hsecond
      have hskip := length_skip_le context blank next
      have hlength := htext.length
      have hlength' := htext'.length
      -- One part takes a character, and the other one gives none back.
      rcases (Bool.or_eq_true _ _).mp hp with hp | hp
      · have hless := ihFirst hp _ _ _ _ _ hfirst
        omega
      · have hless := ihSecond hp _ _ _ _ _ hsecond
        omega
  | choice first second ihFirst ihSecond =>
      intro cursor attempts last nodes attempts' hrun
      obtain ⟨hp, hq⟩ := (Bool.and_eq_true _ _).mp hp
      rw [Pattern.run] at hrun
      rcases Run.orElse_eq_matched hrun with hrun | ⟨_, _, hrun⟩
      · exact ihFirst hp _ _ _ _ _ hrun
      · exact ihSecond hq _ _ _ _ _ hrun
  | optional body | star body => cases hp

/-! ### Runs that end -/

/-- A run does not reach the bound on nested rules. -/
def Ends (run : Runner ρ) (cursor : Cursor) : Prop :=
  ∀ attempts, (run cursor attempts).1 ≠ .exhausted

/-- Whether all repetitions in a pattern are of patterns that take a character. -/
def Pattern.isSteady (solid : ρ → Bool) : Pattern ρ → Bool
  | .text _ | .one _ | .absent _ | .start | .stop | .rule _ => true
  | .seq first second | .choice first second => first.isSteady solid && second.isSteady solid
  | .optional body => body.isSteady solid
  | .star body => body.isSteady solid && body.isSolid solid

/-- Whether all rules that a pattern calls before it has taken a character are among certain
ones. -/
def Pattern.enters (solid entered : ρ → Bool) : Pattern ρ → Bool
  | .text _ | .one _ | .absent _ | .start | .stop => true
  | .rule r => entered r
  | .seq first second =>
    first.enters solid entered && (first.isSolid solid || second.enters solid entered)
  | .choice first second => first.enters solid entered && second.enters solid entered
  | .optional body | .star body => body.enters solid entered

/-- A cursor before which a character has been taken of the last `length` ones, or a run that is
known to end without that. -/
def Reached (length : Nat) (fine : Bool) (cursor : Cursor) : Prop :=
  cursor.rest.length < length ∨ (cursor.rest.length = length ∧ fine = true)

theorem Reached.of_le {length : Nat} {fine : Bool} {cursor next : Cursor}
    (hcursor : Reached length fine cursor) (hle : next.rest.length ≤ cursor.rest.length)
    {fine' : Bool} (hfine : next.rest.length = length → fine = true → fine' = true) :
    Reached length fine' next := by
  unfold Reached at *
  rcases hcursor with hless | ⟨hsame, hc⟩
  · exact Or.inl (by omega)
  · rcases Nat.lt_or_ge next.rest.length length with hless | hge
    · exact Or.inl hless
    · exact Or.inr ⟨by omega, hfine (by omega) hc⟩

/-- A repetition ends where its rounds do, as each takes a character. -/
theorem iterate_ends {step : Runner ρ} (hsolid : Solid step) {length : Nat}
    (hstep : ∀ cursor, cursor.rest.length ≤ length → Ends step cursor) {fuel : Nat}
    {cursor : Cursor} (hlength : cursor.rest.length ≤ length) (hfuel : cursor.rest.length < fuel)
    (nodes : List (Node ρ)) (attempts : Attempts ρ) :
    (iterate step (context.skip blank) fuel cursor nodes attempts).1 ≠ .exhausted := by
  induction fuel generalizing cursor nodes attempts with
  | zero => cases hfuel
  | succ fuel ih =>
      have hskip := length_skip_le context blank cursor
      have hends := hstep (context.skip blank cursor) (by omega) attempts
      unfold iterate
      split
      · rename_i next found between hround
        have hless := hsolid _ _ _ _ _ hround
        exact ih (by omega) (by omega) _ _
      · exact nofun
      · rename_i between hround
        rw [hround] at hends
        exact absurd rfl hends

/-- Patterns end where the rules do that they can call there. -/
theorem Pattern.ends {solid entered : ρ → Bool} {length : Nat} (hsplits : ∀ r, Splits (call r))
    (hsolid : ∀ r, solid r = true → Solid (call r))
    (hcall : ∀ r cursor, Reached length (entered r) cursor → Ends (call r) cursor)
    {p : Pattern ρ} (hsteady : p.isSteady solid = true) {cursor : Cursor}
    (hcursor : Reached length (p.enters solid entered) cursor) :
    Ends (p.run blank context call) cursor := by
  induction p generalizing cursor with
  | text chars | start | stop =>
      intro attempts
      rw [Pattern.run]
      split <;> rintro ⟨⟩
  | one members | absent members =>
      intro attempts
      rw [Pattern.run]
      split
      · split <;> rintro ⟨⟩
      · rintro ⟨⟩
  | rule r => exact hcall r cursor hcursor
  | seq first second ihFirst ihSecond =>
      intro attempts
      obtain ⟨hsteady₁, hsteady₂⟩ := (Bool.and_eq_true _ _).mp hsteady
      have hends := ihFirst hsteady₁ (hcursor.of_le (Nat.le_refl _) fun _ hfine =>
        ((Bool.and_eq_true _ _).mp hfine).1) attempts
      rw [Pattern.run]
      refine Run.andThen_ends hends fun next nodes₁ between hfirst => ?_
      -- Where the first part has taken no character, the second one may enter no other rules.
      have hnext : Reached length (second.enters solid entered) (context.skip blank next) := by
        obtain ⟨text, htext⟩ := first.splits hsplits _ _ _ _ _ hfirst
        have hlength := htext.length
        have hskip := length_skip_le context blank next
        refine hcursor.of_le (by omega) fun hsame hfine => ?_
        rcases (Bool.or_eq_true _ _).mp ((Bool.and_eq_true _ _).mp hfine).2 with hp | hq
        · have hless := first.solid hsplits hsolid hp _ _ _ _ _ hfirst
          unfold Reached at hcursor
          omega
        · exact hq
      exact Run.andThen_ends (ihSecond hsteady₂ hnext between) (by rintro _ _ _ _ ⟨⟩)
  | choice first second ihFirst ihSecond =>
      intro attempts
      obtain ⟨hsteady₁, hsteady₂⟩ := (Bool.and_eq_true _ _).mp hsteady
      have hends := ihFirst hsteady₁ (hcursor.of_le (Nat.le_refl _) fun _ hfine =>
        ((Bool.and_eq_true _ _).mp hfine).1) attempts
      have hends' := ihSecond hsteady₂ (hcursor.of_le (Nat.le_refl _) fun _ hfine =>
        ((Bool.and_eq_true _ _).mp hfine).2)
      rw [Pattern.run]
      exact Run.orElse_ends hends hends'
  | optional body ih =>
      intro attempts
      rw [Pattern.run]
      exact Run.orElse_ends (ih hsteady hcursor attempts) (by rintro _ ⟨⟩)
  | star body ih =>
      intro attempts
      obtain ⟨hsteady, hbody⟩ := (Bool.and_eq_true _ _).mp hsteady
      have hends := ih hsteady hcursor attempts
      rw [Pattern.run]
      refine Run.orElse_ends (Run.andThen_ends hends fun next nodes between hfirst => ?_)
        (by rintro _ ⟨⟩)
      -- Every later round starts behind a character that the first one has taken.
      have hrounds : ∀ cursor', cursor'.rest.length ≤ next.rest.length →
          Ends (body.run blank context call) cursor' := by
        intro cursor' hcursor'
        have hless := body.solid hsplits hsolid hbody _ _ _ _ _ hfirst
        refine ih hsteady (Or.inl ?_)
        unfold Reached at hcursor
        omega
      exact iterate_ends (body.solid hsplits hsolid hbody) hrounds (Nat.le_refl _)
        (Nat.lt_succ_self _) nodes between

end Patterns

/-! ## Rules -/

section Rules

variable {g : Grammar ρ} {fuel : Nat} {outer : Atomicity} {rule : ρ} {body : Runner ρ}

theorem matched_tracked {cursor next : Cursor} {attempts attempts' : Attempts ρ}
    {nodes : List (Node ρ)}
    (hrun : tracked outer rule body cursor attempts = (.matched next nodes, attempts')) :
    ∃ children between, body cursor attempts = (.matched next children, between) ∧
      nodes = if outer = .token then children
        else [.mk rule (cursor.upTo next) cursor.place children] := by
  unfold tracked at hrun
  dsimp only at hrun
  split at hrun
  · rename_i next' children between hbody
    split at hrun
    · rename_i houter
      cases hrun
      exact ⟨_, _, hbody, (if_pos houter).symm⟩
    · rename_i houter
      cases hrun
      exact ⟨_, _, hbody, (if_neg houter).symm⟩
  · cases hrun
  · cases hrun

/-- A rule that matches has matched its body, and leaves a node or what the body leaves. -/
theorem matched_leave {cursor next : Cursor} {attempts attempts' : Attempts ρ}
    {nodes : List (Node ρ)}
    (hrun : g.leave outer rule body cursor attempts = (.matched next nodes, attempts')) :
    ∃ children between, body cursor attempts = (.matched next children, between) ∧
      nodes = if (g.mode rule).LeavesNode outer then
        [.mk rule (cursor.upTo next) cursor.place children] else children := by
  unfold Grammar.leave at hrun
  cases hmode : g.mode rule with
  | silent =>
      rw [hmode] at hrun
      exact ⟨nodes, attempts', hrun, (if_neg (by simp [Mode.LeavesNode])).symm⟩
  | normal | token =>
      rw [hmode] at hrun
      obtain ⟨children, between, hbody, hnodes⟩ := matched_tracked hrun
      refine ⟨children, between, hbody, ?_⟩
      rw [hnodes]
      by_cases houter : outer = .token <;> simp [Mode.LeavesNode, houter]
  | compound | spaced =>
      rw [hmode] at hrun
      obtain ⟨children, between, hbody, hnodes⟩ := matched_tracked hrun
      refine ⟨children, between, hbody, ?_⟩
      rw [hnodes]
      simp [Mode.LeavesNode]

theorem Ends.leave {cursor : Cursor} (hbody : Ends body cursor) :
    Ends (g.leave outer rule body) cursor := by
  have htracked : ∀ outer', Ends (tracked outer' rule body) cursor := by
    intro outer' attempts
    have hends := hbody attempts
    unfold tracked
    dsimp only
    split
    · split <;> exact nofun
    · exact nofun
    · rename_i hrun
      rw [hrun] at hends
      exact hends
  unfold Grammar.leave
  cases g.mode rule with
  | silent => exact hbody
  | normal | token | compound | spaced => exact htracked _

/-- Calls of rules split texts. -/
theorem runRule_splits (g : Grammar ρ) (fuel : Nat) (outer : Atomicity) (rule : ρ) :
    Splits (runRule g fuel outer rule) := by
  induction fuel generalizing outer rule with
  | zero =>
      intro cursor attempts next nodes attempts' hrun
      cases hrun
  | succ fuel ih =>
      intro cursor attempts next nodes attempts' hrun
      rw [runRule_succ] at hrun
      obtain ⟨children, between, hbody, _⟩ := matched_leave hrun
      exact (g.body rule).splits (ih _) _ _ _ _ _ hbody

/-- Whether every match of a rule takes a character; rules are followed `depth` deep. -/
def Grammar.isSolid (g : Grammar ρ) : Nat → ρ → Bool
  | 0, _ => false
  | depth + 1, rule => (g.body rule).isSolid (g.isSolid depth)

theorem Grammar.solid_of_isSolid {depth : Nat} (hrule : g.isSolid depth rule = true) :
    Solid (runRule g fuel outer rule) := by
  induction depth generalizing rule fuel outer with
  | zero => cases hrule
  | succ depth ih =>
      intro cursor attempts next nodes attempts' hrun
      cases fuel with
      | zero => cases hrun
      | succ fuel =>
          rw [runRule_succ] at hrun
          obtain ⟨children, between, hbody, _⟩ := matched_leave hrun
          exact (g.body rule).solid (runRule_splits g fuel _) (fun r hr => ih hr) hrule _ _ _ _ _
            hbody

/-- Whether rules nest at most `depth` deep before a rule has taken a character. -/
def Grammar.enters (g : Grammar ρ) (solid : ρ → Bool) : Nat → ρ → Bool
  | 0, _ => false
  | depth + 1, rule => (g.body rule).enters solid (g.enters solid depth)

/-- Between two characters rules nest less deep than the bound on nested rules allows, and what
is repeated takes a character. -/
def Grammar.Grounded (g : Grammar ρ) : Prop :=
  ∃ depth, ∀ rule, (g.body rule).isSteady (g.isSolid depth) = true ∧
    g.enters (g.isSolid depth) 64 rule = true

/-- A rule that nests `depth` deep before it takes a character needs that much more than what
the text needs. -/
theorem Grammar.Grounded.ends_of_enters {solid : ρ → Bool}
    (hsolid : ∀ r, solid r = true → ∀ fuel outer, Solid (runRule g fuel outer r))
    (hgrounded : ∀ r, (g.body r).isSteady solid = true ∧ g.enters solid 64 r = true)
    {depth : Nat} (hdepth : depth ≤ 64) (hrule : g.enters solid depth rule = true)
    {cursor : Cursor} (hfuel : 64 * cursor.rest.length + depth ≤ fuel) :
    Ends (runRule g fuel outer rule) cursor := by
  induction fuel generalizing depth outer rule cursor with
  | zero =>
      cases depth with
      | zero => cases hrule
      | succ depth => omega
  | succ fuel ih =>
      cases depth with
      | zero => cases hrule
      | succ depth =>
          have hcursor : Reached cursor.rest.length
              ((g.body rule).enters solid (g.enters solid depth)) cursor := Or.inr ⟨rfl, hrule⟩
          rw [runRule_succ]
          refine Ends.leave (Pattern.ends (runRule_splits g fuel _) (fun r hr => hsolid r hr fuel _)
            ?_ (hgrounded rule).1 hcursor)
          rintro r next (hless | ⟨hsame, hentered⟩)
          · exact ih (Nat.le_refl 64) (hgrounded r).2 (by omega)
          · exact ih (by omega) hentered (by omega)

/-- The bound on nested rules is enough for every text. -/
theorem Grammar.Grounded.ends (hg : g.Grounded) (outer : Atomicity) (rule : ρ) (cursor : Cursor)
    (hfuel : depthBound cursor.rest.length ≤ fuel) : Ends (runRule g fuel outer rule) cursor := by
  obtain ⟨depth, hgrounded⟩ := hg
  unfold depthBound at hfuel
  exact Grammar.Grounded.ends_of_enters (fun r hr fuel outer => g.solid_of_isSolid hr) hgrounded
    (Nat.le_refl 64) (hgrounded rule).2 (by omega)

end Rules

end DocQuery.Grammar
