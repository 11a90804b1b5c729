import DocQuery.Expression.Evaluate
import DocQuery.Proofs.Expression.Built
import DocQuery.Proofs.PathTree.Followed

/-!
# Evaluating what is kept of a document

An expression sees no more of a document than how its selections end there. So it may be evaluated
in what a tree keeps of a document, if the tree is that of the paths which the expression selects:
the value is the same, and so is a failure.

Main names:

* `Expression.references`, `Expression.documentPaths` — the selections of an expression;
* `Context.AgreeOn` — contexts in which references end alike;
* `Expression.evaluate_congr` — these make no difference, with one case for each way of building an
  expression;
* `Expression.evaluate_prune` — the result.
-/

namespace DocQuery

/-- The path of a reference that starts in the document. -/
def Reference.documentPath? (r : Reference) : Option Path :=
  match r.origin with
  | .document => r.path
  | .candidate => none

namespace Expression

mutual

/-- The references of an expression, those that `exists` and `is` ask about included. -/
def references : Expression → List Reference
  | constant _ | now | key => []
  | reference r | existence r | kindTest r _ _ => [r]
  | negation operand => references operand
  | arithmetic _ left right | relational _ left right | logical _ left right
  | temporal _ left right | matching _ left right | annotationTest left right =>
    references left ++ references right
  | membership subject candidates _ => references subject ++ referencesOfAll candidates
  | range subject lower upper _ => references subject ++ (references lower ++ references upper)
  | concatenation arguments => referencesOfAll arguments

/-- The references of expressions. -/
def referencesOfAll : List Expression → List Reference
  | [] => []
  | e :: rest => references e ++ referencesOfAll rest

end

/-- The paths that an expression follows into the document. -/
def documentPaths (e : Expression) : List Path :=
  e.references.filterMap Reference.documentPath?

theorem mem_referencesOfAll {r : Reference} {es : List Expression} :
    r ∈ referencesOfAll es ↔ ∃ e ∈ es, r ∈ e.references := by
  induction es with
  | nil => simp [referencesOfAll]
  | cons e rest ih => simp [referencesOfAll, ih]

/-- Every reference of an expression that was read is one that a selection can name. -/
theorem Built.selects {e : Expression} (he : Built e) : ∀ r ∈ e.references, r.Selects := by
  -- References are collected from the parts of an operation.
  induction he with
  | constant | now | key => simp [references]
  | reference hr | existence hr | kindTest hr => simpa [references] using hr
  | negation _ _ ih => simpa [references] using ih
  | binary _ _ he ihleft ihright =>
      cases ofBinary_cases he <;> simp only [references, List.forall_mem_append] <;>
        exact ⟨ihleft, ihright⟩
  | membership _ _ _ _ ihsubject ihcandidates =>
      simp only [references, List.forall_mem_append, mem_referencesOfAll]
      refine ⟨ihsubject, ?_⟩
      rintro r ⟨c, hc, hr⟩
      exact ihcandidates c hc r hr
  | range _ _ _ _ ihsubject ihlower ihupper =>
      simp only [references, List.forall_mem_append]
      exact ⟨ihsubject, ihlower, ihupper⟩
  | matching _ _ _ _ ihsubject ihargument =>
      simp only [references, List.forall_mem_append]
      exact ⟨ihsubject, ihargument⟩
  | concatenation _ _ ih =>
      simp only [references, mem_referencesOfAll]
      rintro r ⟨a, ha, hr⟩
      exact ih a ha r hr
  | annotationTest _ _ _ ihsubject ihname =>
      simp only [references, List.forall_mem_append]
      exact ⟨ihsubject, ihname⟩

end Expression

/-! ## Contexts -/

/-- Contexts in which references end alike, with the same candidate and the same time. -/
structure Context.AgreeOn (references : List Reference) (context' context : Context) : Prop where
  now : context'.now = context.now
  candidate : context'.candidate = context.candidate
  follow : ∀ r ∈ references, Selection.SameEnd (r.follow context') (r.follow context)

theorem Context.AgreeOn.mono {references references' : List Reference} {context' context : Context}
    (hagree : AgreeOn references context' context) (hsubset : references' ⊆ references) :
    AgreeOn references' context' context :=
  ⟨hagree.now, hagree.candidate, fun r hr => hagree.follow r (hsubset hr)⟩

namespace Reference

variable {context' context : Context} {r : Reference}
  (hend : Selection.SameEnd (r.follow context') (r.follow context))

include hend

theorem value_congr : r.value context' = r.value context := by
  unfold value
  generalize r.follow context' = result', r.follow context = result at hend
  cases hend <;> rfl

theorem value?_congr : r.value? context' = r.value? context := by
  unfold value?
  rw [value_congr hend]
  generalize r.follow context' = result', r.follow context = result at hend
  cases hend <;> rfl

theorem exists?_congr : r.exists? context' = r.exists? context := by
  unfold exists?
  rw [value?_congr hend]

theorem passes_congr (test : KindTest) : r.passes context' test = r.passes context test := by
  unfold passes
  rw [value?_congr hend]

end Reference

/-! ## Expressions -/

namespace Expression

variable {context' context : Context}

mutual

/-- Contexts in which the references of an expression end alike make no difference to it. -/
theorem evaluate_congr : ∀ e : Expression, Context.AgreeOn e.references context' context →
    e.evaluate context' = e.evaluate context
  | constant v, _ => by
      rw [evaluate, evaluate]
  | now, hagree => by
      rw [evaluate, evaluate, hagree.now]
  | reference r, hagree => by
      rw [evaluate, evaluate, r.value_congr (hagree.follow r (List.mem_singleton_self r))]
  | key, hagree => by
      rw [evaluate, evaluate, keyValue, keyValue, hagree.candidate]
  | negation operand, hagree => by
      rw [evaluate, evaluate, evaluate_congr operand hagree]
  | existence r, hagree => by
      rw [evaluate, evaluate, r.exists?_congr (hagree.follow r (List.mem_singleton_self r))]
  | kindTest r test negated, hagree => by
      rw [evaluate, evaluate, r.passes_congr (hagree.follow r (List.mem_singleton_self r))]
  | arithmetic _ left right, hagree | relational _ left right, hagree
  | logical _ left right, hagree | temporal _ left right, hagree
  | matching _ left right, hagree | annotationTest left right, hagree => by
      rw [evaluate, evaluate, evaluate_congr left (hagree.mono (List.subset_append_left ..)),
        evaluate_congr right (hagree.mono (List.subset_append_right ..))]
  | membership subject candidates _, hagree => by
      rw [evaluate, evaluate, evaluate_congr subject (hagree.mono (List.subset_append_left ..)),
        evaluateAll_congr candidates (hagree.mono (List.subset_append_right ..))]
  | range subject lower upper _, hagree => by
      have hbounds := hagree.mono (List.subset_append_right ..)
      rw [evaluate, evaluate, evaluate_congr subject (hagree.mono (List.subset_append_left ..)),
        evaluate_congr lower (hbounds.mono (List.subset_append_left ..)),
        evaluate_congr upper (hbounds.mono (List.subset_append_right ..))]
  | concatenation arguments, hagree => by
      rw [evaluate, evaluate, evaluateTexts_congr arguments hagree]

theorem evaluateAll_congr : ∀ es : List Expression,
    Context.AgreeOn (referencesOfAll es) context' context →
    evaluateAll context' es = evaluateAll context es
  | [], _ => by
      rw [evaluateAll, evaluateAll]
  | e :: rest, hagree => by
      rw [evaluateAll, evaluateAll, evaluate_congr e (hagree.mono (List.subset_append_left ..)),
        evaluateAll_congr rest (hagree.mono (List.subset_append_right ..))]

theorem evaluateTexts_congr : ∀ es : List Expression,
    Context.AgreeOn (referencesOfAll es) context' context →
    evaluateTexts context' es = evaluateTexts context es
  | [], _ => by
      rw [evaluateTexts, evaluateTexts]
  | e :: rest, hagree => by
      rw [evaluateTexts, evaluateTexts, evaluate_congr e (hagree.mono (List.subset_append_left ..)),
        evaluateAll_congr rest (hagree.mono (List.subset_append_right ..))]

end

/-- In what a tree keeps of a document, references that select paths of the tree end alike. -/
theorem agreeOn_prune {paths : List Path} {t : PathTree} (ht : PathTree.ofPaths paths = .ok t)
    (hfields : ∀ p ∈ paths, p.NamesFields) (hstops : ∀ p ∈ paths, ∀ q ∈ paths, ¬ p.StopsWithin q)
    {mark : String} {kept : Value} (hkept : t.prune mark context.document = .ok kept)
    {references : List Reference}
    (hpaths : ∀ r ∈ references, r.origin = .document → ∃ p ∈ paths, r.path = some p) :
    Context.AgreeOn references { context with document := kept } context := by
  refine ⟨rfl, rfl, fun r hr => ?_⟩
  cases horigin : r.origin with
  | document =>
      obtain ⟨p, hp, hpath⟩ := hpaths r hr horigin
      unfold Reference.follow Reference.start
      rw [horigin, hpath]
      exact PathTree.select_prune ht hfields hstops hkept hp
  | candidate =>
      -- The candidate is no part of the document that was pruned.
      unfold Reference.follow Reference.start
      rw [horigin]

/-- **Evaluation after pruning.** Let an expression be read whose selections in the document,
whether they are operands or `exists` and `is` ask about them, name fields only, and of which none
stops on the way of another. Its paths have a tree, in whichever order they are taken and however
often. If a document can be pruned with this tree, the expression has the same value in what is kept
as in the document, or fails in the same way, whatever the candidate, the time and the patterns that
have been looked up before. -/
theorem evaluate_prune {text : String} {e : Expression} {cache cache' : Regex.Cache}
    (hcache : cache.Faithful) (hread : (read text).run.run cache = (.ok e, cache'))
    (hfields : ∀ p ∈ e.documentPaths, p.NamesFields)
    (hstops : ∀ p ∈ e.documentPaths, ∀ q ∈ e.documentPaths, ¬ p.StopsWithin q)
    {paths : List Path} (hpaths : ∀ p, p ∈ paths ↔ p ∈ e.documentPaths) :
    ∃ t, PathTree.ofPaths paths = .ok t ∧ ∀ (mark : String) (context : Context) (kept : Value),
      t.prune mark context.document = .ok kept →
        e.evaluate { context with document := kept } = e.evaluate context := by
  simp only [← hpaths] at hfields hstops
  obtain ⟨t, ht⟩ := PathTree.exists_ofPaths_of_namesFields hfields
  refine ⟨t, ht, fun mark context kept hkept => evaluate_congr e ?_⟩
  refine agreeOn_prune ht hfields hstops hkept fun r hr horigin => ?_
  -- A selection in the document has a path, as an expression has no name for all of it.
  have hpath := ((built_of_read hcache hread).selects r hr).path_of_document horigin
  obtain ⟨p, hp⟩ := Option.ne_none_iff_exists'.mp hpath
  refine ⟨p, (hpaths p).mpr (List.mem_filterMap.mpr ⟨r, hr, ?_⟩), hp⟩
  unfold Reference.documentPath?
  rw [horigin, hp]

/-- Three selections, the first one of a field that is missing; the document has a field that is not
selected, and one that repeats the name of a selected one. -/
theorem evaluate_prune_repeated :
    let note : Path := ⟨⟨.property (some "a"), true⟩, [⟨.property (some "note"), false⟩]⟩
    let size : Path := ⟨⟨.property (some "a"), true⟩, [⟨.property (some "size"), true⟩]⟩
    let total : Path := ⟨⟨.property (some "total"), true⟩, []⟩
    let t : PathTree := ⟨[.mk (.property (some "a")) true
      [.mk (.property (some "note")) false [], .mk (.property (some "size")) true []],
      .mk (.property (some "total")) true []]⟩
    let document := Value.ofFields [("a", .ofFields [("x", .int 0), ("size", .int 2)]),
      ("total", .int 5), ("total", .int 6)]
    let kept := Value.ofFields [("a", .ofFields [("size", .int 2)]), ("total", .int 5)]
    ∃ (e : Expression) (cache : Regex.Cache),
      (read "exists /a/note? or /a/size is int and /total > 4").run.run (.new 0) = (.ok e, cache) ∧
        e.documentPaths = [note, size, total] ∧ PathTree.ofPaths [note, size, total] = .ok t ∧
        t.prune "#" document = .ok kept ∧
        e.evaluate ⟨kept, none, default⟩ = e.evaluate ⟨document, none, default⟩ := by
  intro note size total t document kept
  -- The text is read by evaluation; the rest is about the three paths.
  have hcheck : ((outcome (read "exists /a/note? or /a/size is int and /total > 4")
      (.new 0)).toOption.any fun e => e.documentPaths == [note, size, total]) = true := by
    decide +kernel
  obtain ⟨e, hread, heq⟩ := exists_of_any hcheck
  have hpaths : e.documentPaths = [note, size, total] := beq_iff_eq.mp heq
  obtain ⟨cache, hrun⟩ := exists_run_of_outcome hread
  have hfields : ∀ p ∈ e.documentPaths, p.NamesFields := by
    rw [hpaths]
    decide
  have hstops : ∀ p ∈ e.documentPaths, ∀ q ∈ e.documentPaths, ¬ p.StopsWithin q := by
    rw [hpaths]
    decide +kernel
  have htree : PathTree.ofPaths [note, size, total] = .ok t := by
    rfl
  have hkept : t.prune "#" document = .ok kept := by
    rfl
  obtain ⟨built, hbuilt, hkeeps⟩ := evaluate_prune (Regex.Cache.faithful_new 0) hrun hfields hstops
    fun p => Iff.rfl
  rw [hpaths, htree] at hbuilt
  obtain rfl := Except.ok.inj hbuilt
  exact ⟨e, cache, hrun, hpaths, htree, hkept, hkeeps "#" ⟨document, none, default⟩ kept hkept⟩

end Expression

end DocQuery
