import DocQuery.Proofs.Grammar.Unbounded

/-!
# Matches with blanks after them

A rule that may end with a further part looks for that part behind the blanks after its text, and
keeps these blanks where the part is missing. So of the blanks between two parts of a text some
belong to the first part and the others to what surrounds both, and it depends on how the rules
nest which ones do. `TakesTrailing` leaves this open.

Main names:

* `TakesTrailing` — a text is taken with some of the blanks after it;
* `takesTrailing_seq`, `takesTrailing_seq_empty` — sequences whose parts are taken so;
* `TakesTrailing.node`, `TakesTrailing.lift` — calls of rules.
-/

namespace DocQuery.Grammar

variable {ρ : Type} {text text' gap gap' rest : List Char}

/-- A runner takes a text together with some of the blanks that come next. -/
def TakesTrailing (run : Runner ρ) (text gap rest : List Char) (good : List (Node ρ) → Prop) :
    Prop :=
  ∃ taken left, gap = taken ++ left ∧ Takes run (text ++ taken) (left ++ rest) good

section Runners

variable {run run' : Runner ρ} {good good' : List (Node ρ) → Prop}

theorem Takes.trailing (htakes : Takes run text (gap ++ rest) good) :
    TakesTrailing run text gap rest good := by
  refine ⟨[], gap, rfl, ?_⟩
  rw [List.append_nil]
  exact htakes

theorem takesTrailing_nil : TakesTrailing run text [] rest good ↔ Takes run text rest good := by
  constructor
  · rintro ⟨taken, left, hgap, htakes⟩
    obtain ⟨rfl, rfl⟩ := List.append_eq_nil_iff.mp hgap.symm
    rwa [List.append_nil] at htakes
  · exact fun htakes => Takes.trailing htakes

/-- What holds of the matches of a text, wherever they end, holds with blanks after them. -/
theorem TakesTrailing.lift (htakes : TakesTrailing run text gap rest good)
    (hrun : ∀ text' rest', text' ++ rest' = text ++ (gap ++ rest) → Takes run text' rest' good →
      Takes run' text' rest' good') : TakesTrailing run' text gap rest good' := by
  obtain ⟨taken, left, rfl, htakes⟩ := htakes
  exact ⟨taken, left, rfl, hrun _ _ (by simp) htakes⟩

theorem TakesTrailing.imp (htakes : TakesTrailing run text gap rest good)
    (himp : ∀ nodes, good nodes → good' nodes) : TakesTrailing run text gap rest good' :=
  htakes.lift fun _ _ _ htakes => htakes.imp himp

end Runners

section Patterns

variable {blank : CharClass} {context : Context} {call : ρ → Runner ρ} {p q : Pattern ρ}
  {good good' good'' : List (Node ρ) → Prop}

theorem Between.of_append (hgap : Between blank context (gap ++ gap') rest) :
    Between blank context gap' rest := by
  unfold Between at hgap ⊢
  split at hgap
  · rename_i hloose
    rw [if_pos hloose]
    exact ⟨fun c hc => hgap.1 c (List.mem_append_right _ hc), hgap.2⟩
  · rename_i htight
    rw [if_neg htight]
    exact (List.append_eq_nil_iff.mp hgap).2

/-- One pattern after the other; the blanks between them may belong to the first one. -/
theorem takesTrailing_seq
    (hp : TakesTrailing (p.run blank context call) text gap (text' ++ (gap' ++ rest)) good)
    (hgap : Between blank context gap (text' ++ (gap' ++ rest)))
    (hq : TakesTrailing (q.run blank context call) text' gap' rest good')
    (hgood : ∀ nodes nodes', good nodes → good' nodes' → good'' (nodes ++ nodes')) :
    TakesTrailing ((p.seq q).run blank context call) (text ++ (gap ++ text')) gap' rest good'' := by
  obtain ⟨taken, left, rfl, hp⟩ := hp
  obtain ⟨taken', left', rfl, hq⟩ := hq
  have hblanks := hgap.of_append
  refine ⟨taken', left', rfl, ?_⟩
  rw [List.append_assoc taken', ← List.append_assoc text'] at hp hblanks
  have hseq := takes_seq left hp hblanks hq hgood
  simp only [List.append_assoc] at hseq ⊢
  exact hseq

theorem takes_seq_trailing
    (hp : TakesTrailing (p.run blank context call) text gap (text' ++ rest) good)
    (hgap : Between blank context gap (text' ++ rest))
    (hq : Takes (q.run blank context call) text' rest good')
    (hgood : ∀ nodes nodes', good nodes → good' nodes' → good'' (nodes ++ nodes')) :
    Takes ((p.seq q).run blank context call) (text ++ (gap ++ text')) rest good'' :=
  takesTrailing_nil.mp (takesTrailing_seq hp hgap (takesTrailing_nil.mpr hq) hgood)

/-- Where nothing follows in a sequence the blanks are kept. -/
theorem takesTrailing_seq_empty (hp : TakesTrailing (p.run blank context call) text gap rest good)
    (hgap : Between blank context gap rest) (hq : Takes (q.run blank context call) [] rest Leafless) :
    TakesTrailing ((p.seq q).run blank context call) text gap rest good := by
  have hseq := takes_seq_trailing hp hgap hq then_leafless
  rw [List.append_nil] at hseq
  exact ⟨gap, [], (List.append_nil gap).symm, hseq⟩

end Patterns

section Rules

variable {g : Grammar ρ} {outer : Atomicity} {rule : ρ} {good : List (Node ρ) → Prop}

/-- The node of a rule covers the blanks as well, so nothing is said of its text. -/
theorem TakesTrailing.node (hg : g.Grounded) (hleaves : (g.mode rule).LeavesNode outer)
    (hbody : TakesTrailing (g.callBody outer rule) text gap rest good) :
    TakesTrailing (g.call outer rule) text gap rest fun nodes =>
      ∃ text' place children, nodes = [.mk rule text' place children] ∧ good children :=
  hbody.lift fun text' _ _ htakes =>
    (takes_call_node hg hleaves htakes).imp fun _ hnode => ⟨text', hnode⟩

end Rules

end DocQuery.Grammar
