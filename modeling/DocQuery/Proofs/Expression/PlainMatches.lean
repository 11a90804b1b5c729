import DocQuery.Proofs.Expression.Sessions
import DocQuery.Proofs.Regex.Quote

/-!
# Matches with a text as it stands

`starts with`, `ends with` and `contains` ask the same of two texts as their names say, whichever
characters there are in the texts.

Main names:

* `MatchOperator.Finds` — what the names say;
* `Regex.isMatch_pattern` — the patterns of the operators ask for it;
* `Expression.matching_finds` — and so do the operators.
-/

namespace DocQuery

/-- What the operators that take their argument as it stands ask for. -/
inductive MatchOperator.Finds : MatchOperator → List Char → List Char → Prop
  | startsWith {wanted text : List Char} (h : wanted <+: text) : Finds .startsWith wanted text
  | endsWith {wanted text : List Char} (h : wanted <:+ text) : Finds .endsWith wanted text
  | contains {wanted text : List Char} (h : wanted <:+: text) : Finds .contains wanted text

namespace Regex

/-- The pattern of an operator that takes its argument as it stands is a regular expression. -/
theorem exists_read_pattern {op : MatchOperator} (hop : op ≠ .search) (wanted : String) :
    ∃ r, read (op.pattern wanted) = some r := by
  cases op with
  | search => exact absurd rfl hop
  | startsWith => exact ⟨_, read_startsWith wanted⟩
  | endsWith => exact ⟨_, read_endsWith wanted⟩
  | contains => exact ⟨_, read_contains wanted⟩

/-- It matches the texts that the operator asks for. -/
theorem isMatch_pattern {op : MatchOperator} (hop : op ≠ .search) {wanted : String} {r : Regex}
    (hread : read (op.pattern wanted) = some r) (text : String) :
    r.isMatch text = true ↔ op.Finds wanted.toList text.toList := by
  -- The pattern of each operator is the quoted text between anchors of its own.
  cases op with
  | search => exact absurd rfl hop
  | startsWith =>
      obtain rfl := Option.some.inj ((read_startsWith wanted).symm.trans hread)
      rw [isMatch_startsWith]
      refine ⟨.startsWith, fun hfinds => ?_⟩
      cases hfinds with
      | startsWith h => exact h
  | endsWith =>
      obtain rfl := Option.some.inj ((read_endsWith wanted).symm.trans hread)
      rw [isMatch_endsWith]
      refine ⟨.endsWith, fun hfinds => ?_⟩
      cases hfinds with
      | endsWith h => exact h
  | contains =>
      obtain rfl := Option.some.inj ((read_contains wanted).symm.trans hread)
      rw [isMatch_contains]
      refine ⟨.contains, fun hfinds => ?_⟩
      cases hfinds with
      | contains h => exact h

end Regex

namespace Expression

variable {subject argument : Expression} {context : Context} {v w : Value} {text wanted : String}

/-- A match of two texts has the answer of its pattern, whether the argument is a constant or is
computed. -/
theorem yields_matching_of_read {op : MatchOperator} {r : Regex}
    (hsubject : Yields Regex.Cache.Faithful (subject.evaluate context) (.ok v))
    (hargument : Yields Regex.Cache.Faithful (argument.evaluate context) (.ok w))
    (hv : v.text? = some text) (hw : w.text? = some wanted)
    (hread : Regex.read (op.pattern wanted) = some r) :
    Yields Regex.Cache.Faithful ((matching op subject argument).evaluate context)
      (.ok (.bool (r.isMatch text))) := by
  cases hfixed : fixedPattern? op argument with
  | none =>
      have hcomputed := yields_matching_computed hsubject hargument hv hw hfixed
      rw [hread] at hcomputed
      exact hcomputed
  | some pattern =>
      cases argument with
      | constant c =>
          rw [evaluate] at hargument
          have hsame : outcome (pure c : Evaluation Value) (.new 0) = .ok w :=
            hargument.outcome_eq (Regex.Cache.faithful_new 0)
          cases hsame
          exact yields_matching_constant hsubject hv hw hread
      | _ => cases hfixed

/-- The operators find what their names say: for any texts, a match whose pattern can be read is true
exactly if the text begins or ends with the wanted one, or contains it. -/
theorem matching_finds {cache : Regex.Cache} (hcache : cache.Faithful)
    (hsubject : outcome (subject.evaluate context) cache = .ok v) (hv : v.text? = some text)
    (hargument : outcome (argument.evaluate context) cache = .ok w) (hw : w.text? = some wanted)
    {op : MatchOperator} (hop : op ≠ .search) {r : Regex}
    (hread : Regex.read (op.pattern wanted) = some r) :
    ∃ answer, outcome ((matching op subject argument).evaluate context) cache = .ok (.bool answer) ∧
      (answer = true ↔ op.Finds wanted.toList text.toList) := by
  have hyields := yields_matching_of_read (hsubject ▸ (steady_evaluate context subject).yields hcache)
    (hargument ▸ (steady_evaluate context argument).yields hcache) hv hw hread
  exact ⟨r.isMatch text, hyields.outcome_eq hcache, Regex.isMatch_pattern hop hread text⟩

/-- A text that begins with a point after a line break does not begin with any other character
there. -/
theorem matching_finds_point :
    let context : Context := ⟨.empty, none, default⟩
    let matched (text : String) := outcome ((matching .startsWith (constant (.string text))
      (constant (.string "a\n."))).evaluate context) (.new 0)
    matched "a\n.b" = .ok (.bool true) ∧ matched "a\nxb" = .ok (.bool false) := by
  intro context matched
  have hconstant : ∀ text : String,
      outcome ((constant (.string text)).evaluate context) (.new 0) = .ok (.string text) := by
    intro text
    rw [evaluate]
    rfl
  obtain ⟨r, hread⟩ := Regex.exists_read_pattern (show MatchOperator.startsWith ≠ .search by decide)
    "a\n."
  have hmatched : ∀ text : String, ∃ answer, matched text = .ok (.bool answer) ∧
      (answer = true ↔ MatchOperator.startsWith.Finds "a\n.".toList text.toList) := fun text =>
    matching_finds (Regex.Cache.faithful_new 0) (hconstant text) rfl (hconstant "a\n.") rfl
      (by decide) hread
  obtain ⟨answer, hanswer, hiff⟩ := hmatched "a\n.b"
  obtain ⟨answer', hanswer', hiff'⟩ := hmatched "a\nxb"
  have htrue : answer = true := hiff.mpr (.startsWith (by decide))
  have hfalse : answer' = false := by
    refine Bool.eq_false_iff.mpr fun hyes => ?_
    cases hiff'.mp hyes with
    | startsWith h => exact absurd h (by decide)
  rw [hanswer, hanswer', htrue, hfalse]
  exact ⟨rfl, rfl⟩

end Expression

end DocQuery
