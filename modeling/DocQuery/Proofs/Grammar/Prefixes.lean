import DocQuery.Proofs.Grammar.Inversion

/-!
# What a known beginning decides

Keywords and operators are told apart by their first few characters. This file computes what a
rule makes of a text of which only the beginning is known: that it refuses the text, that it takes a
part of the known beginning, or that it depends on what follows. Where the first character alone is
known, `Grammar.onHead` decides less, but needs no account of blanks.

Main names:

* `Reading`, `Pattern.onPrefix`, `Grammar.onPrefix` — the verdict and how it is found;
* `Grammar.Grounded.onPrefix_sound` — rules keep to it;
* `refuses_of_prefix`, `takes_of_prefix` — what is used of it.
-/

namespace DocQuery.Grammar

variable {ρ : Type}

/-- What is known of a match when the beginning of a text is known. -/
inductive Reading
  /-- There is no match. -/
  | refused
  /-- There is a match, which leaves this of the known beginning. -/
  | took (left : List Char)
  /-- It depends on what follows. -/
  | undecided
  deriving DecidableEq

/-- What is left of a known beginning after some characters. -/
def onText : List Char → List Char → Reading
  | [], known => .took known
  | _ :: _, [] => .undecided
  | t :: chars, c :: known => if t = c then onText chars known else .refused

/-- What a pattern makes of a known beginning, given what rules make of it; `loose` tells whether
blanks may stand between parts. -/
def Pattern.onPrefix (blank : CharClass) (loose : Bool) (call : ρ → List Char → Reading) :
    Pattern ρ → List Char → Reading
  | .text chars, known => onText chars known
  | .one _, [] => .undecided
  | .one members, c :: known => if members.contains c then .took known else .refused
  | .absent _, [] => .undecided
  | .absent members, c :: known => if members.contains c then .refused else .took (c :: known)
  | .start, _ => .undecided
  | .stop, [] => .undecided
  | .stop, _ :: _ => .refused
  | .rule r, known => call r known
  | .seq first second, known =>
    match first.onPrefix blank loose call known with
    | .refused => .refused
    | .took left =>
      if loose then
        match left.dropWhile blank.contains with
        -- More blanks may follow.
        | [] => .undecided
        | c :: left => second.onPrefix blank loose call (c :: left)
      else second.onPrefix blank loose call left
    | .undecided => .undecided
  | .choice first second, known =>
    match first.onPrefix blank loose call known with
    | .refused => second.onPrefix blank loose call known
    | .took left => .took left
    | .undecided => .undecided
  | .optional body, known =>
    match body.onPrefix blank loose call known with
    | .refused => .took known
    | .took left => .took left
    | .undecided => .undecided
  | .star body, known =>
    match body.onPrefix blank loose call known with
    | .refused => .took known
    | .took _ => .undecided
    | .undecided => .undecided

/-- Whether blanks may stand between the parts of a pattern. -/
def Context.isLoose (context : Context) : Bool :=
  context.spaced && context.atomicity == .loose

/-- What a rule makes of a known beginning; rules are followed `depth` deep. -/
def Grammar.onPrefix (g : Grammar ρ) : Nat → Atomicity → ρ → List Char → Reading
  | 0, _, _, _ => .undecided
  | depth + 1, outer, rule, known =>
    let context := (g.mode rule).context outer
    (g.body rule).onPrefix g.blank context.isLoose (g.onPrefix depth context.atomicity) known

/-- A runner keeps to what is known of its match, whatever follows the known beginning. -/
def Observes (run : Runner ρ) (known : List Char) : Reading → Prop
  | .refused => ∀ rest, Refuses run (known ++ rest)
  | .took left => ∃ taken, known = taken ++ left ∧
      ∀ rest, Takes run taken (left ++ rest) fun _ => True
  | .undecided => True

section Patterns

variable {blank : CharClass} {context : Context} {call : ρ → Runner ρ}

theorem observes_text (chars known : List Char) :
    Observes ((Pattern.text chars).run blank context call) known (onText chars known) := by
  -- The known characters refuse the text, or begin with it, or are a beginning of it.
  have hsplit : ∀ chars known, onText chars known = .refused ∧ (∀ rest, ¬ chars <+: known ++ rest) ∨
      (∃ left, onText chars known = .took left ∧ known = chars ++ left) ∨
        onText chars known = .undecided := by
    intro chars known
    induction chars generalizing known with
    | nil => exact Or.inr (Or.inl ⟨known, rfl, rfl⟩)
    | cons t chars ih =>
        cases known with
        | nil => exact Or.inr (Or.inr rfl)
        | cons c known =>
            by_cases htc : t = c
            · subst htc
              rw [onText, if_pos rfl]
              rcases ih known with ⟨hrefused, hnone⟩ | ⟨left, htook, rfl⟩ | hundecided
              · refine Or.inl ⟨hrefused, fun rest hstart => hnone rest ?_⟩
                exact (List.cons_prefix_cons.mp hstart).2
              · exact Or.inr (Or.inl ⟨left, htook, rfl⟩)
              · exact Or.inr (Or.inr hundecided)
            · refine Or.inl ⟨by rw [onText, if_neg htc], fun rest hstart => htc ?_⟩
              exact (List.cons_prefix_cons.mp hstart).1
  rcases hsplit chars known with ⟨hrefused, hnone⟩ | ⟨left, htook, rfl⟩ | hundecided
  · rw [hrefused]
    exact fun rest => refuses_text (hnone rest)
  · rw [htook]
    exact ⟨chars, rfl, fun rest => (takes_text chars).imp fun _ _ => trivial⟩
  · rw [hundecided]
    trivial

/-- Blanks of a known beginning are passed over where they may stand, if something that is no blank
comes after them. -/
theorem between_dropWhile (hloose : context.isLoose = true) {left after : List Char} {c : Char}
    (hleft : left.dropWhile blank.contains = c :: after) (rest : List Char) :
    Between blank context (left.takeWhile blank.contains) (c :: after ++ rest) := by
  unfold Between
  rw [show (context.spaced && context.atomicity == .loose) = true from hloose]
  refine ⟨fun d hd => List.all_eq_true.mp List.all_takeWhile d hd, ?_⟩
  have hhead := List.head?_dropWhile_not blank.contains left
  rw [hleft] at hhead
  exact avoids_cons (by simpa using hhead) _

/-- A sequence keeps to what its second part makes of what its first part leaves. -/
theorem observes_seq (gap : List Char) {p q : Pattern ρ} {taken next : List Char} {reading : Reading}
    (hp : ∀ rest, Takes (p.run blank context call) taken ((gap ++ next) ++ rest) fun _ => True)
    (hgap : ∀ rest, Between blank context gap (next ++ rest))
    (hq : Observes (q.run blank context call) next reading) :
    Observes ((p.seq q).run blank context call) (taken ++ (gap ++ next)) reading := by
  cases reading with
  | refused =>
      intro rest
      have hfirst := hp rest
      rw [List.append_assoc] at hfirst
      rw [List.append_assoc, List.append_assoc]
      exact refuses_seq_right gap hfirst (hgap rest) (hq rest)
  | took left =>
      obtain ⟨taken', rfl, htakes⟩ := hq
      refine ⟨taken ++ (gap ++ taken'), by simp only [List.append_assoc], fun rest => ?_⟩
      have hfirst := hp rest
      have hblanks := hgap rest
      simp only [List.append_assoc] at hfirst hblanks
      exact takes_seq gap hfirst hblanks (htakes rest) fun _ _ _ _ => trivial
  | undecided => trivial

/-- Patterns keep to what is known if rules do. -/
theorem Pattern.onPrefix_sound {reading : ρ → List Char → Reading}
    (hcall : ∀ r known, Observes (call r) known (reading r known)) (p : Pattern ρ)
    (known : List Char) :
    Observes (p.run blank context call) known
      (p.onPrefix blank context.isLoose reading known) := by
  induction p generalizing known with
  | text chars => exact observes_text chars known
  | one members =>
      cases known with
      | nil => trivial
      | cons c known =>
          unfold Pattern.onPrefix
          split
          · rename_i hc
            exact ⟨[c], rfl, fun rest => (takes_one hc).imp fun _ _ => trivial⟩
          · rename_i hc
            exact fun rest => refuses_one (avoids_cons (by simpa using hc) _)
  | absent members =>
      cases known with
      | nil => trivial
      | cons c known =>
          unfold Pattern.onPrefix
          split
          · rename_i hc
            exact fun rest => refuses_absent hc _
          · rename_i hc
            refine ⟨[], rfl, fun rest => ?_⟩
            exact (takes_absent (avoids_cons (by simpa using hc) _)).imp fun _ _ => trivial
  | start => trivial
  | stop =>
      cases known with
      | nil => trivial
      | cons c known => exact fun rest => refuses_stop c _
  | rule r => exact hcall r known
  | seq first second ihFirst ihSecond =>
      have hfirst := ihFirst known
      unfold Pattern.onPrefix
      cases hreading : first.onPrefix blank context.isLoose reading known with
      | refused =>
          rw [hreading] at hfirst
          exact fun rest => refuses_seq_left (hfirst rest)
      | undecided => trivial
      | took left =>
          rw [hreading] at hfirst
          obtain ⟨taken, rfl, htakes⟩ := hfirst
          dsimp only
          split
          -- Blanks are passed over between the parts. If they reach to the end of what is known,
          -- nothing is known of the second part.
          · rename_i hloose
            split
            · trivial
            · rename_i c after hleft
              have hsplit : left = left.takeWhile blank.contains ++ c :: after := by
                rw [← hleft, List.takeWhile_append_dropWhile]
              rw [hsplit] at htakes ⊢
              exact observes_seq _ htakes (between_dropWhile hloose hleft) (ihSecond (c :: after))
          · rename_i htight
            have hnone : context.Tight := Bool.eq_false_iff.mpr htight
            exact observes_seq [] htakes (fun _ => between_tight hnone) (ihSecond left)
  | choice first second ihFirst ihSecond =>
      have hfirst := ihFirst known
      have hsecond := ihSecond known
      unfold Pattern.onPrefix
      cases hreading : first.onPrefix blank context.isLoose reading known with
      | refused =>
          rw [hreading] at hfirst
          cases hreading' : second.onPrefix blank context.isLoose reading known with
          | refused =>
              rw [hreading'] at hsecond
              exact fun rest => refuses_choice (hfirst rest) (hsecond rest)
          | took left =>
              rw [hreading'] at hsecond
              obtain ⟨taken, rfl, htakes⟩ := hsecond
              refine ⟨taken, rfl, fun rest => takes_choice_right ?_ (htakes rest)⟩
              rw [← List.append_assoc]
              exact hfirst rest
          | undecided => trivial
      | took left =>
          rw [hreading] at hfirst
          obtain ⟨taken, hknown, htakes⟩ := hfirst
          exact ⟨taken, hknown, fun rest => takes_choice_left (htakes rest)⟩
      | undecided => trivial
  | optional body ih =>
      have hbody := ih known
      unfold Pattern.onPrefix
      cases hreading : body.onPrefix blank context.isLoose reading known with
      | refused =>
          rw [hreading] at hbody
          exact ⟨[], rfl, fun rest => (takes_optional_none (hbody rest)).imp fun _ _ => trivial⟩
      | took left =>
          rw [hreading] at hbody
          obtain ⟨taken, hknown, htakes⟩ := hbody
          exact ⟨taken, hknown, fun rest => takes_optional_some (htakes rest)⟩
      | undecided => trivial
  | star body ih =>
      have hbody := ih known
      unfold Pattern.onPrefix
      cases hreading : body.onPrefix blank context.isLoose reading known with
      | refused =>
          rw [hreading] at hbody
          exact ⟨[], rfl, fun rest => (takes_star_none (hbody rest)).imp fun _ _ => trivial⟩
      | took left => trivial
      | undecided => trivial

end Patterns

section Rules

variable {g : Grammar ρ} {depth : Nat} {outer : Atomicity} {rule : ρ} {known : List Char}

theorem takes_leave_any {body : Runner ρ} {text rest : List Char}
    (hbody : Takes body text rest fun _ => True) :
    Takes (g.leave outer rule body) text rest fun _ => True := by
  have htracked : ∀ outer', Takes (tracked outer' rule body) text rest fun _ => True := by
    intro outer'
    cases outer' with
    | token => exact takes_tracked_token hbody
    | loose | compound => exact (takes_tracked (by decide) hbody).imp fun _ _ => trivial
  unfold Grammar.leave
  cases g.mode rule with
  | silent => exact hbody
  | normal | token | compound | spaced => exact htracked _

theorem Observes.leave {body : Runner ρ} {reading : Reading} (hbody : Observes body known reading) :
    Observes (g.leave outer rule body) known reading := by
  cases reading with
  | refused => exact fun rest => refuses_leave (hbody rest)
  | took left =>
      obtain ⟨taken, hknown, htakes⟩ := hbody
      exact ⟨taken, hknown, fun rest => takes_leave_any (htakes rest)⟩
  | undecided => trivial

/-- Rules keep to what is known. -/
theorem Grammar.Grounded.onPrefix_sound (hg : g.Grounded) (depth : Nat) (outer : Atomicity)
    (rule : ρ) (known : List Char) :
    Observes (g.call outer rule) known (g.onPrefix depth outer rule known) := by
  induction depth generalizing outer rule known with
  | zero => trivial
  | succ depth ih =>
      rw [hg.call_eq]
      exact Observes.leave (Pattern.onPrefix_sound (fun r known => ih _ r known) _ known)

theorem refuses_of_prefix (hg : g.Grounded)
    (hreading : g.onPrefix depth outer rule known = .refused) (rest : List Char) :
    Refuses (g.call outer rule) (known ++ rest) := by
  have hsound := hg.onPrefix_sound depth outer rule known
  rw [hreading] at hsound
  exact hsound rest

/-- A rule takes the part of a known beginning that it does not leave. -/
theorem takes_of_prefix (hg : g.Grounded) {word left : List Char}
    (hreading : g.onPrefix depth outer rule (word ++ left) = .took left) (rest : List Char) :
    Takes (g.call outer rule) word (left ++ rest) fun _ => True := by
  have hsound := hg.onPrefix_sound depth outer rule (word ++ left)
  rw [hreading] at hsound
  obtain ⟨taken, hword, htakes⟩ := hsound
  obtain rfl := List.append_cancel_right hword
  exact htakes rest

/-- What a rule with nodes takes is its node. -/
theorem Takes.isNode (hg : g.Grounded) (hleaves : (g.mode rule).LeavesNode outer)
    {text rest : List Char} {good : List (Node ρ) → Prop}
    (htakes : Takes (g.call outer rule) text rest good) :
    Takes (g.call outer rule) text rest (IsNode rule text fun _ => True) := by
  intro place attempts
  obtain ⟨nodes, attempts', hrun, _⟩ := htakes place attempts
  obtain ⟨place', children, hnodes, _⟩ := matches_node hg hleaves ⟨place, attempts, attempts', hrun⟩
  exact ⟨nodes, attempts', hrun, place', children, hnodes, trivial⟩

end Rules

end DocQuery.Grammar
