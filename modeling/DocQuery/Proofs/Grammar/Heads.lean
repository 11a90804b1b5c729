import DocQuery.Proofs.Grammar.Takes

/-!
# What a first character decides

Most alternatives that a text must get past are refused at its first character. This file
computes, for a rule and a character, whether the character alone makes the rule fail, or makes
it match without taking anything, and proves that the runner does so. For the rules of a given
grammar the verdict is then found by evaluation.

Main names:

* `Verdict`, `Pattern.onHead`, `Grammar.onHead` — the verdict and how it is found;
* `Pattern.onHead_sound`, `Grammar.refuses_of_head` — runners keep to it.
-/

namespace DocQuery.Grammar

variable {ρ : Type}

/-- What the first character of a text decides about a match. -/
inductive Verdict
  /-- There is no match. -/
  | refused
  /-- There is a match, which takes nothing. -/
  | passed
  /-- It depends on what follows. -/
  | undecided
  deriving DecidableEq

/-- What a pattern makes of a first character, given what rules make of it. -/
def Pattern.onHead (call : ρ → Verdict) (c : Char) : Pattern ρ → Verdict
  | .text [] => .passed
  | .text (t :: _) => if t = c then .undecided else .refused
  | .one members => if members.contains c then .undecided else .refused
  | .absent members => if members.contains c then .refused else .passed
  | .start => .undecided
  | .stop => .refused
  | .rule r => call r
  | .seq first second =>
    match first.onHead call c with
    | .refused => .refused
    | .passed => second.onHead call c
    | .undecided => .undecided
  | .choice first second =>
    match first.onHead call c with
    | .refused => second.onHead call c
    | .passed => .passed
    | .undecided => .undecided
  | .optional body =>
    match body.onHead call c with
    | .refused => .passed
    | .passed => .passed
    | .undecided => .undecided
  | .star body =>
    match body.onHead call c with
    | .refused => .passed
    | .passed => .undecided
    | .undecided => .undecided

/-- What a rule makes of a first character; rules are followed `depth` deep. -/
def Grammar.onHead (g : Grammar ρ) (c : Char) : Nat → ρ → Verdict
  | 0, _ => .undecided
  | depth + 1, rule => (g.body rule).onHead (g.onHead c depth) c

/-- A runner keeps to a verdict on the first character of a text. -/
def KeepsTo (run : Runner ρ) (c : Char) (text : List Char) : Verdict → Prop
  | .refused => Refuses run (c :: text)
  | .passed => Takes run [] (c :: text) fun _ => True
  | .undecided => True

section Patterns

variable {blank : CharClass} {context : Context} {call : ρ → Runner ρ} {c : Char}
  {text : List Char}

/-- Before a character that is no blank nothing is passed over. -/
theorem between_nil_of_head (hc : blank.contains c = false) :
    Between blank context [] (c :: text) := by
  unfold Between
  split
  · refine ⟨?_, avoids_cons hc text⟩
    intro c' hc'
    cases hc'
  · rfl

/-- Patterns keep to the verdict if rules do. -/
theorem Pattern.onHead_sound {verdict : ρ → Verdict} (hc : blank.contains c = false)
    (hcall : ∀ r, KeepsTo (call r) c text (verdict r)) (p : Pattern ρ) :
    KeepsTo (p.run blank context call) c text (p.onHead verdict c) := by
  induction p with
  | text chars =>
      cases chars with
      | nil => exact (takes_text []).imp fun _ _ => trivial
      | cons t chars =>
          unfold Pattern.onHead
          split
          · trivial
          · rename_i hne
            apply refuses_text
            intro hstart
            exact hne (List.cons_prefix_cons.mp hstart).1
  | one members =>
      unfold Pattern.onHead
      split
      · trivial
      · rename_i hmember
        exact refuses_one (avoids_cons (by simpa using hmember) text)
  | absent members =>
      unfold Pattern.onHead
      split
      · rename_i hmember
        exact refuses_absent hmember text
      · rename_i hmember
        have htakes : Takes ((Pattern.absent members).run blank context call) [] (c :: text)
            Leafless := takes_absent (avoids_cons (by simpa using hmember) text)
        exact htakes.imp fun _ _ => trivial
  | start => trivial
  | stop => exact refuses_stop c text
  | rule r => exact hcall r
  | seq first second ihFirst ihSecond =>
      unfold Pattern.onHead
      cases hfirst : first.onHead verdict c with
      | refused =>
          rw [hfirst] at ihFirst
          exact refuses_seq_left ihFirst
      -- What passes takes nothing, so the second part meets the same character.
      | passed =>
          rw [hfirst] at ihFirst
          have hgap : Between blank context [] (c :: text) := between_nil_of_head hc
          cases hsecond : second.onHead verdict c with
          | refused =>
              rw [hsecond] at ihSecond
              exact refuses_seq_right [] ihFirst hgap ihSecond
          | passed =>
              rw [hsecond] at ihSecond
              have hfirst : Takes (first.run blank context call) [] ([] ++ ([] ++ c :: text))
                  fun _ => True := ihFirst
              have htakes : Takes ((first.seq second).run blank context call) ([] ++ ([] ++ []))
                  (c :: text) fun _ => True :=
                takes_seq [] hfirst hgap ihSecond fun _ _ _ _ => trivial
              exact htakes
          | undecided => trivial
      | undecided => trivial
  | choice first second ihFirst ihSecond =>
      unfold Pattern.onHead
      cases hfirst : first.onHead verdict c with
      | refused =>
          rw [hfirst] at ihFirst
          cases hsecond : second.onHead verdict c with
          | refused =>
              rw [hsecond] at ihSecond
              exact refuses_choice ihFirst ihSecond
          | passed =>
              rw [hsecond] at ihSecond
              exact takes_choice_right ihFirst ihSecond
          | undecided => trivial
      | passed =>
          rw [hfirst] at ihFirst
          exact takes_choice_left ihFirst
      | undecided => trivial
  | optional body ih =>
      unfold Pattern.onHead
      cases hbody : body.onHead verdict c with
      | refused =>
          rw [hbody] at ih
          exact (takes_optional_none ih).imp fun _ _ => trivial
      | passed =>
          rw [hbody] at ih
          exact takes_optional_some ih
      | undecided => trivial
  | star body ih =>
      unfold Pattern.onHead
      cases hbody : body.onHead verdict c with
      | refused =>
          rw [hbody] at ih
          exact (takes_star_none ih).imp fun _ _ => trivial
      | passed => trivial
      | undecided => trivial

end Patterns

section Rules

variable {g : Grammar ρ} {c : Char}

/-- A tracked runner keeps to the verdict of what it tracks. -/
theorem keepsTo_tracked {outer : Atomicity} {rule : ρ} {body : Runner ρ} {text : List Char}
    {verdict : Verdict} (hbody : KeepsTo body c text verdict) :
    KeepsTo (tracked outer rule body) c text verdict := by
  cases verdict with
  | refused => exact refuses_tracked hbody
  | passed =>
      cases outer with
      | token => exact takes_tracked_token hbody
      | loose => exact (takes_tracked (by decide) hbody).imp fun _ _ => trivial
      | compound => exact (takes_tracked (by decide) hbody).imp fun _ _ => trivial
  | undecided => trivial

/-- Calls of rules keep to the verdict, whatever their callers allow. -/
theorem Grammar.onHead_sound (hc : g.blank.contains c = false) (text : List Char) (depth fuel : Nat)
    (hfuel : depth ≤ fuel) (outer : Atomicity) (rule : ρ) :
    KeepsTo (runRule g fuel outer rule) c text (g.onHead c depth rule) := by
  induction depth generalizing fuel outer rule with
  | zero => trivial
  | succ depth ih =>
      cases fuel with
      | zero => cases hfuel
      | succ fuel =>
          have hbody : ∀ context : Context, KeepsTo
              ((g.body rule).run g.blank context (runRule g fuel context.atomicity)) c text
              (g.onHead c (depth + 1) rule) := fun context =>
            Pattern.onHead_sound hc (fun r => ih fuel (Nat.le_of_succ_le_succ hfuel) _ r) _
          unfold runRule
          cases hmode : g.mode rule with
          | silent => exact hbody ⟨outer, true⟩
          | normal => exact keepsTo_tracked (hbody ⟨outer, true⟩)
          | token => exact keepsTo_tracked (hbody ⟨.token, false⟩)
          | compound => exact keepsTo_tracked (hbody ⟨.compound, false⟩)
          | spaced => exact keepsTo_tracked (hbody ⟨.loose, true⟩)

/-- A rule refuses a text whose first character it cannot begin with. -/
theorem Grammar.refuses_of_head {depth : Nat} {rule : ρ}
    (hverdict : g.onHead c depth rule = .refused) (hc : g.blank.contains c = false)
    (text : List Char) {fuel : Nat} (hfuel : depth ≤ fuel) (outer : Atomicity) :
    Refuses (runRule g fuel outer rule) (c :: text) := by
  have hsound := Grammar.onHead_sound hc text depth fuel hfuel outer rule
  rw [hverdict] at hsound
  exact hsound

end Rules

end DocQuery.Grammar
