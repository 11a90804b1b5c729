import DocQuery.Proofs.Grammar.Progress

/-!
# Where a token ends

A rule that matches a token looks at most one character past the text it takes. If that character
is one that can stand in no token of the rule, then what the rule makes of a text is settled: it
takes the same part of the text, or refuses it, whichever such character follows and however deep
rules may nest. Whether a rule is of this kind is computed from its pattern.

Main names:

* `StopsAt` — nothing follows, or one of certain characters;
* `Settled` — runners agree on a text whatever stops it;
* `Pattern.isClosed`, `Grammar.isClosed` — none of the characters can stand in a token;
* `Grammar.settled_of_isClosed` — tokens of such rules are settled;
* `EndsBefore` — what a runner takes is not followed by a character of a class.
-/

namespace DocQuery.Grammar

variable {ρ : Type} {stops : List Char}

/-- Nothing follows, or a text that begins with one of certain characters. -/
def StopsAt (stops rest : List Char) : Prop :=
  ∀ c text, rest = c :: text → c ∈ stops

theorem stopsAt_nil (stops : List Char) : StopsAt stops [] := by
  intro c text hnil
  cases hnil

/-- Characters that are no stops lie before the stop. -/
theorem StopsAt.prefix_of_append {rest chars text : List Char} (hrest : StopsAt stops rest)
    (hchars : ∀ c ∈ chars, c ∉ stops) (hstart : chars <+: text ++ rest) : chars <+: text := by
  rcases Nat.lt_or_ge text.length chars.length with hlt | hge
  · obtain ⟨after, hafter⟩ := hstart
    cases rest with
    | nil =>
        have hlength := congrArg List.length hafter
        simp only [List.length_append, List.length_nil] at hlength
        omega
    | cons c tail =>
        have hget : (chars ++ after)[text.length]? = some c := by
          rw [hafter]
          simp
        rw [List.getElem?_append_left hlt] at hget
        exact absurd (hrest c tail rfl) (hchars c (List.mem_of_getElem? hget))
  · exact List.prefix_of_prefix_length_le hstart (List.prefix_append text rest) hge

/-- Runners agree on a text, whatever stops it: they all refuse it, or all take the same part. -/
def Settled {ι : Type} (stops : List Char) (run : ι → Runner ρ) (text : List Char) : Prop :=
  (∀ i rest, StopsAt stops rest → Refuses (run i) (text ++ rest)) ∨
    ∃ taken left, text = taken ++ left ∧
      ∀ i rest, StopsAt stops rest → Takes (run i) taken (left ++ rest) fun _ => True

theorem Settled.reindex {ι κ : Type} {run : ι → Runner ρ} {text : List Char}
    (hrun : Settled stops run text) (f : κ → ι) : Settled stops (fun k => run (f k)) text := by
  rcases hrun with hrefuses | ⟨taken, left, hsplit, htakes⟩
  · exact Or.inl fun k rest hrest => hrefuses (f k) rest hrest
  · exact Or.inr ⟨taken, left, hsplit, fun k rest hrest => htakes (f k) rest hrest⟩

/-- No character of a class is one of the stops. -/
def CharClass.excludes (stops : List Char) (members : CharClass) : Bool :=
  stops.all (!members.contains ·)

/-- A pattern whose tokens end at the stops, given which rules do. -/
def Pattern.isClosed (stops : List Char) (call : ρ → Bool) : Pattern ρ → Bool
  | .text chars => chars.all (!stops.contains ·)
  | .one members => members.excludes stops
  | .absent members => members.excludes stops
  | .start => false
  | .stop => false
  | .rule r => call r
  | .seq first second => first.isClosed stops call && second.isClosed stops call
  | .choice first second => first.isClosed stops call && second.isClosed stops call
  | .optional body => body.isClosed stops call
  | .star (.one members) => members.excludes stops
  | .star _ => false

/-- A rule whose tokens end at the stops; rules are followed `depth` deep. -/
def Grammar.isClosed (g : Grammar ρ) (stops : List Char) : Nat → ρ → Bool
  | 0, _ => false
  | depth + 1, rule =>
    (g.mode rule == .silent || g.mode rule == .token) &&
      (g.body rule).isClosed stops (g.isClosed stops depth)

theorem CharClass.avoids_of_excludes {members : CharClass} (hmembers : members.excludes stops = true)
    {rest : List Char} (hrest : StopsAt stops rest) : Avoids members rest := by
  intro c text heq
  have hc := List.all_eq_true.mp hmembers c (hrest c text heq)
  simpa using hc

section Patterns

variable {ι : Type} {blank : CharClass} {context : Context} {call : ι → ρ → Runner ρ}

theorem settled_text {chars : List Char} (hchars : ∀ c ∈ chars, c ∉ stops) (text : List Char) :
    Settled stops (fun i => (Pattern.text chars).run blank context (call i)) text := by
  by_cases hstart : chars <+: text
  · obtain ⟨left, rfl⟩ := hstart
    refine Or.inr ⟨chars, left, rfl, fun i rest _ => ?_⟩
    exact (takes_text chars).imp fun _ _ => trivial
  · refine Or.inl fun i rest hrest => refuses_text fun hstart' => ?_
    exact hstart (hrest.prefix_of_append hchars hstart')

theorem settled_one {members : CharClass} (hmembers : members.excludes stops = true)
    (text : List Char) :
    Settled stops (fun i => (Pattern.one members).run blank context (call i)) text := by
  cases text with
  | nil =>
      exact Or.inl fun i rest hrest => refuses_one (CharClass.avoids_of_excludes hmembers hrest)
  | cons c text =>
      by_cases hc : members.contains c = true
      · refine Or.inr ⟨[c], text, rfl, fun i rest _ => ?_⟩
        exact (takes_one hc).imp fun _ _ => trivial
      · refine Or.inl fun i rest _ => refuses_one ?_
        exact avoids_cons (by simpa using hc) _

theorem settled_absent {members : CharClass} (hmembers : members.excludes stops = true)
    (text : List Char) :
    Settled stops (fun i => (Pattern.absent members).run blank context (call i)) text := by
  cases text with
  | nil =>
      refine Or.inr ⟨[], [], rfl, fun i rest hrest => ?_⟩
      exact (takes_absent (CharClass.avoids_of_excludes hmembers hrest)).imp fun _ _ => trivial
  | cons c text =>
      by_cases hc : members.contains c = true
      · exact Or.inl fun i rest _ => refuses_absent hc _
      · refine Or.inr ⟨[], c :: text, rfl, fun i rest _ => ?_⟩
        exact (takes_absent (avoids_cons (by simpa using hc) _)).imp fun _ _ => trivial

theorem settled_star {members : CharClass} (htight : context.Tight)
    (hmembers : members.excludes stops = true) (text : List Char) :
    Settled stops (fun i => (Pattern.star (.one members)).run blank context (call i)) text := by
  refine Or.inr ⟨text.takeWhile members.contains, text.dropWhile members.contains,
    List.takeWhile_append_dropWhile.symm, fun i rest hrest => ?_⟩
  have hleft : Avoids members (text.dropWhile members.contains ++ rest) := by
    cases hdrop : text.dropWhile members.contains with
    | nil => exact CharClass.avoids_of_excludes hmembers hrest
    | cons c left =>
        have hhead := List.head?_dropWhile_not members.contains text
        rw [hdrop] at hhead
        exact avoids_cons (by simpa using hhead) _
  have htakes : Takes ((Pattern.star (.one members)).run blank context (call i))
      (text.takeWhile members.contains) (text.dropWhile members.contains ++ rest) Leafless := by
    refine takes_star_chars htight (fun c hc rest' => takes_one ?_) (refuses_one hleft)
    exact List.all_eq_true.mp List.all_takeWhile c hc
  exact htakes.imp fun _ _ => trivial

theorem settled_seq {p q : Pattern ρ} (htight : context.Tight) {text : List Char}
    (hp : Settled stops (fun i => p.run blank context (call i)) text)
    (hq : ∀ text, Settled stops (fun i => q.run blank context (call i)) text) :
    Settled stops (fun i => (p.seq q).run blank context (call i)) text := by
  rcases hp with hrefuses | ⟨taken, left, rfl, htakes⟩
  · exact Or.inl fun i rest hrest => refuses_seq_left (hrefuses i rest hrest)
  rcases hq left with hrefuses | ⟨taken', left', rfl, htakes'⟩
  · refine Or.inl fun i rest hrest => ?_
    rw [List.append_assoc]
    exact refuses_seq_tight htight (htakes i rest hrest) (hrefuses i rest hrest)
  · refine Or.inr ⟨taken ++ taken', left', (List.append_assoc ..).symm, fun i rest hrest => ?_⟩
    have hfirst := htakes i rest hrest
    rw [List.append_assoc] at hfirst
    exact takes_seq_tight htight hfirst (htakes' i rest hrest) fun _ _ _ _ => trivial

theorem settled_choice {p q : Pattern ρ}
    (hp : ∀ text, Settled stops (fun i => p.run blank context (call i)) text)
    (hq : ∀ text, Settled stops (fun i => q.run blank context (call i)) text) (text : List Char) :
    Settled stops (fun i => (p.choice q).run blank context (call i)) text := by
  rcases hp text with hrefuses | ⟨taken, left, hsplit, htakes⟩
  · rcases hq text with hrefuses' | ⟨taken', left', rfl, htakes'⟩
    · exact Or.inl fun i rest hrest => refuses_choice (hrefuses i rest hrest) (hrefuses' i rest hrest)
    · refine Or.inr ⟨taken', left', rfl, fun i rest hrest => ?_⟩
      have hfirst := hrefuses i rest hrest
      rw [List.append_assoc] at hfirst
      exact takes_choice_right hfirst (htakes' i rest hrest)
  · exact Or.inr ⟨taken, left, hsplit, fun i rest hrest => takes_choice_left (htakes i rest hrest)⟩

theorem settled_optional {p : Pattern ρ}
    (hp : ∀ text, Settled stops (fun i => p.run blank context (call i)) text) (text : List Char) :
    Settled stops (fun i => p.optional.run blank context (call i)) text := by
  rcases hp text with hrefuses | ⟨taken, left, hsplit, htakes⟩
  · refine Or.inr ⟨[], text, rfl, fun i rest hrest => ?_⟩
    exact (takes_optional_none (hrefuses i rest hrest)).imp fun _ _ => trivial
  · exact Or.inr ⟨taken, left, hsplit, fun i rest hrest => takes_optional_some (htakes i rest hrest)⟩

/-- Closed patterns are settled if the rules in them are. -/
theorem Pattern.settled_of_isClosed {closed : ρ → Bool} (htight : context.Tight)
    (hcall : ∀ r, closed r = true → ∀ text, Settled stops (fun i => call i r) text)
    (p : Pattern ρ) (hp : p.isClosed stops closed = true) (text : List Char) :
    Settled stops (fun i => p.run blank context (call i)) text := by
  induction p generalizing text with
  | text chars =>
      refine settled_text (fun c hc => ?_) text
      have hfree := List.all_eq_true.mp hp c hc
      simpa using hfree
  | one members => exact settled_one hp text
  | absent members => exact settled_absent hp text
  | start => cases hp
  | stop => cases hp
  | rule r => exact hcall r hp text
  | seq first second ihFirst ihSecond =>
      rw [Pattern.isClosed, Bool.and_eq_true] at hp
      exact settled_seq htight (ihFirst hp.1 text) fun text => ihSecond hp.2 text
  | choice first second ihFirst ihSecond =>
      rw [Pattern.isClosed, Bool.and_eq_true] at hp
      exact settled_choice (fun text => ihFirst hp.1 text) (fun text => ihSecond hp.2 text) text
  | optional body ih => exact settled_optional (fun text => ih hp text) text
  | star body ih =>
      cases body with
      | one members => exact settled_star htight hp text
      | _ => cases hp

end Patterns

section Rules

variable {g : Grammar ρ}

theorem settled_tracked {ι : Type} {outer : ι → Atomicity} {rule : ρ} {body : ι → Runner ρ}
    {text : List Char} (hbody : Settled stops body text) :
    Settled stops (fun i => tracked (outer i) rule (body i)) text := by
  rcases hbody with hrefuses | ⟨taken, left, hsplit, htakes⟩
  · exact Or.inl fun i rest hrest => refuses_tracked (hrefuses i rest hrest)
  · refine Or.inr ⟨taken, left, hsplit, fun i rest hrest => ?_⟩
    cases houter : outer i with
    | token =>
        simp only [houter]
        exact takes_tracked_token (htakes i rest hrest)
    | loose =>
        simp only [houter]
        exact (takes_tracked (by decide) (htakes i rest hrest)).imp fun _ _ => trivial
    | compound =>
        simp only [houter]
        exact (takes_tracked (by decide) (htakes i rest hrest)).imp fun _ _ => trivial

/-- What a closed rule makes of a text within a token is settled, however deep rules may nest. -/
theorem Grammar.settled_within_token {depth : Nat} {rule : ρ}
    (hclosed : g.isClosed stops depth rule = true) (text : List Char) :
    Settled stops (fun i => runRule g (depth + i) .token rule) text := by
  induction depth generalizing rule text with
  | zero => cases hclosed
  | succ depth ih =>
      rw [Grammar.isClosed, Bool.and_eq_true, Bool.or_eq_true, beq_iff_eq, beq_iff_eq] at hclosed
      obtain ⟨hmode, hbody⟩ := hclosed
      have hpattern : ∀ spaced, Settled stops (fun i => (g.body rule).run g.blank ⟨.token, spaced⟩
          (runRule g (depth + i) .token)) text := fun spaced =>
        Pattern.settled_of_isClosed (tight_token spaced) (fun r hr text => ih hr text) _ hbody text
      have hfuel : ∀ i, depth + 1 + i = depth + i + 1 := fun i => by omega
      simp only [hfuel]
      unfold runRule
      rcases hmode with hmode | hmode
      · simp only [hmode]
        exact hpattern true
      · simp only [hmode]
        exact settled_tracked (hpattern false)

/-- The same for the rule of a token, whatever its callers allow. -/
theorem Grammar.settled_of_isClosed {depth : Nat} {rule : ρ} (hmode : g.mode rule = .token)
    (hclosed : g.isClosed stops (depth + 1) rule = true) (text : List Char) :
    Settled stops (fun i : Nat × Atomicity => runRule g (depth + 1 + i.1) i.2 rule) text := by
  rw [Grammar.isClosed, Bool.and_eq_true] at hclosed
  have hpattern : Settled stops (fun i : Nat × Atomicity => (g.body rule).run g.blank
      ⟨.token, false⟩ (runRule g (depth + i.1) .token)) text :=
    Pattern.settled_of_isClosed (tight_token false)
      (fun r hr text => (Grammar.settled_within_token hr text).reindex Prod.fst) _ hclosed.2 text
  have hfuel : ∀ i, depth + 1 + i = depth + i + 1 := fun i => by omega
  simp only [hfuel]
  unfold runRule
  simp only [hmode]
  exact settled_tracked hpattern

end Rules

/-! ## What does not follow -/

/-- What a runner takes is not followed by a character of a class. -/
def EndsBefore (members : CharClass) (run : Runner ρ) : Prop :=
  ∀ cursor attempts next nodes attempts',
    run cursor attempts = (.matched next nodes, attempts') → Avoids members next.rest

section Ends

variable {blank : CharClass} {context : Context} {call : ρ → Runner ρ} {members : CharClass}

theorem endsBefore_absent :
    EndsBefore members ((Pattern.absent members : Pattern ρ).run blank context call) := by
  intro cursor attempts next nodes attempts' hrun
  obtain ⟨place, text⟩ := cursor
  rw [Pattern.run] at hrun
  cases text with
  | nil =>
      cases hrun
      exact avoids_nil members
  | cons c text =>
      simp only at hrun
      split at hrun
      · cases hrun
      · rename_i hc
        cases hrun
        exact avoids_cons (by simpa using hc) text

theorem endsBefore_seq {p q : Pattern ρ} (hq : EndsBefore members (q.run blank context call)) :
    EndsBefore members ((p.seq q).run blank context call) := by
  intro cursor attempts next nodes attempts' hrun
  obtain ⟨_, _, _, _, _, _, hlast⟩ := matched_seq hrun
  exact hq _ _ _ _ _ hlast

theorem endsBefore_token {g : Grammar ρ} {fuel : Nat} {outer : Atomicity} {rule : ρ}
    (hmode : g.mode rule = .token)
    (hbody : EndsBefore members ((g.body rule).run g.blank ⟨.token, false⟩ (runRule g fuel .token))) :
    EndsBefore members (runRule g (fuel + 1) outer rule) := by
  intro cursor attempts next nodes attempts' hrun
  rw [runRule_succ] at hrun
  obtain ⟨_, _, hinner, _⟩ := matched_leave hrun
  rw [Grammar.runBody, hmode] at hinner
  exact hbody _ _ _ _ _ hinner

theorem EndsBefore.avoids {run : Runner ρ} (hends : EndsBefore members run) {text rest : List Char}
    {good : List (Node ρ) → Prop} (htakes : Takes run text rest good) : Avoids members rest := by
  obtain ⟨nodes, attempts', hrun, _⟩ := htakes .first .none
  exact hends _ _ _ _ _ hrun

end Ends

end DocQuery.Grammar
