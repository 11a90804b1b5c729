import DocQuery.Proofs.Grammar.Heads
import DocQuery.Proofs.Grammar.Inversion

/-!
# What follows a part of a match

Where a match is followed by something other than a certain character, so is every part of it, if
nothing in the pattern that can come after the part begins with that character. Both conditions are
computed from the pattern, with the verdicts on first characters.

Main names:

* `Pattern.guards` — nothing after a part of the pattern begins with a character;
* `follower_of_guards` — then the calls within a match are not followed by the character either;
* `Stands`, `Stands.child` — the same for the nodes of a tree.
-/

namespace DocQuery.Grammar

variable {ρ : Type} {g : Grammar ρ} {c : Char}

/-- The next character is another one, or there is none. -/
abbrev Spares (c : Char) (text : List Char) : Prop :=
  Avoids (.oneOf [c]) text

theorem spares_append {gap text : List Char} (hgap : ∀ d ∈ gap, d ≠ c) (htext : Spares c text) :
    Spares c (gap ++ text) := by
  cases gap with
  | nil => exact htext
  | cons d gap =>
      have hd : d ≠ c := hgap d (List.mem_cons_self ..)
      exact avoids_cons (by simpa [CharClass.contains] using hd) _

theorem ne_of_between {blank : CharClass} {context : Context} {gap rest : List Char}
    (hc : blank.contains c = false) (hgap : Between blank context gap rest) :
    ∀ d ∈ gap, d ≠ c := by
  unfold Between at hgap
  split at hgap
  · intro d hd heq
    rw [heq] at hd
    rw [hgap.1 c hd] at hc
    cases hc
  · intro d hd
    rw [hgap] at hd
    cases hd

/-- Whether a match of a pattern cannot begin with a character unless the text after it does. -/
def Pattern.isDecided (verdict : ρ → Verdict) (c : Char) (p : Pattern ρ) : Bool :=
  p.onHead verdict c != .undecided

/-- Whether nothing that can come after a part of the pattern begins with a character. -/
def Pattern.guards (verdict : ρ → Verdict) (c : Char) : Pattern ρ → Bool
  | .text _ | .one _ | .absent _ | .start | .stop | .rule _ => true
  | .seq first second =>
    first.guards verdict c && second.guards verdict c && second.isDecided verdict c
  | .choice first second => first.guards verdict c && second.guards verdict c
  | .optional body => body.guards verdict c
  | .star body => body.guards verdict c && body.isDecided verdict c

/-- Calls of rules keep to the verdict on the first character. -/
theorem Grammar.Grounded.keepsTo (hg : g.Grounded) (hc : g.blank.contains c = false)
    (text : List Char) (depth : Nat) (outer : Atomicity) (rule : ρ) :
    KeepsTo (g.call outer rule) c text (g.onHead c depth rule) := by
  have hsound := Grammar.onHead_sound hc text depth depth (Nat.le_refl _) outer rule
  cases hverdict : g.onHead c depth rule with
  | refused =>
      rw [hverdict] at hsound
      exact Refuses.call hg hsound
  | passed =>
      rw [hverdict] at hsound
      exact Takes.call hg hsound
  | undecided => trivial

section Patterns

variable {depth : Nat} {context : Context} {outer : Atomicity} {text rest : List Char}
  {nodes : List (Node ρ)} {p : Pattern ρ}

/-- A match of a decided pattern does not begin with the character. -/
theorem spares_of_isDecided (hg : g.Grounded) (hc : g.blank.contains c = false)
    (hp : p.isDecided (g.onHead c depth) c = true)
    (hrun : Matches (p.run g.blank context (g.call outer)) text rest nodes)
    (hrest : Spares c rest) : Spares c (text ++ rest) := by
  intro d tail heq
  have hkeeps : KeepsTo (p.run g.blank context (g.call outer)) d tail
      (p.onHead (g.onHead d depth) d) → d ≠ c := by
    rintro hkeeps rfl
    unfold Pattern.isDecided at hp
    cases hverdict : p.onHead (g.onHead d depth) d with
    | refused =>
        rw [hverdict, KeepsTo, ← heq] at hkeeps
        exact hkeeps.not_matches hrun
    | passed =>
        rw [hverdict] at hkeeps
        obtain ⟨rfl, hsame, _⟩ := Takes.eq_of_matches hkeeps hrun heq.symm
        have hd := hrest d tail hsame.symm
        simp [CharClass.contains] at hd
    | undecided =>
        rw [hverdict] at hp
        cases hp
  by_cases hd : d = c
  · subst hd
    exact absurd rfl (hkeeps (Pattern.onHead_sound hc (hg.keepsTo hc tail depth outer) p))
  · simpa [CharClass.contains] using hd

/-- After a round of a repetition there comes another one, or what follows the repetition. -/
theorem follower_of_repeated (hg : g.Grounded) (hc : g.blank.contains c = false)
    (hp : p.isDecided (g.onHead c depth) c = true)
    (hrepeated : Repeated (p.run g.blank context (g.call outer)) g.blank context text rest nodes)
    (hrest : Spares c rest) {found : Node ρ → Prop}
    (hround : ∀ {text rest nodes}, Matches (p.run g.blank context (g.call outer)) text rest nodes →
      Spares c rest → ∀ node ∈ nodes, found node) :
    Spares c (text ++ rest) ∧ ∀ node ∈ nodes, found node := by
  induction hrepeated with
  | done gap hgap hdeclines => exact ⟨hrest, nofun⟩
  | round gap text hgap hmatches hrepeated ih =>
      obtain ⟨hnext, hmore⟩ := ih hrest
      have hhere := spares_of_isDecided hg hc hp hmatches hnext
      refine ⟨?_, fun node hnode => ?_⟩
      · rw [List.append_assoc, List.append_assoc]
        exact spares_append (ne_of_between hc hgap) hhere
      · rcases List.mem_append.mp hnode with hnode | hnode
        · exact hround hmatches hnext node hnode
        · exact hmore node hnode

/-- Whoever left a node was not followed by the character, if the whole match was not. -/
theorem follower_of_guards (hg : g.Grounded) (hc : g.blank.contains c = false)
    (hp : p.guards (g.onHead c depth) c = true)
    (hrun : Matches (p.run g.blank context (g.call outer)) text rest nodes)
    (hrest : Spares c rest) {node : Node ρ} (hnode : node ∈ nodes) :
    ∃ r ∈ p.callees, ∃ text' rest' nodes', Spares c rest' ∧
      Matches (g.call outer r) text' rest' nodes' ∧ node ∈ nodes' := by
  induction p generalizing text rest nodes node with
  | text chars =>
      rw [(matches_text hrun).2] at hnode
      cases hnode
  | one members =>
      obtain ⟨_, _, _, rfl⟩ := matches_one hrun
      cases hnode
  | absent members =>
      rw [(matches_absent hrun).2.1] at hnode
      cases hnode
  | start =>
      rw [(matches_start hrun).2] at hnode
      cases hnode
  | stop =>
      rw [(matches_stop hrun).2.1] at hnode
      cases hnode
  | rule r => exact ⟨r, List.mem_singleton.mpr rfl, _, _, _, hrest, hrun, hnode⟩
  | seq first second ihFirst ihSecond =>
      simp only [Pattern.guards, Bool.and_eq_true] at hp
      obtain ⟨⟨hfirst, hsecond⟩, hdecided⟩ := hp
      obtain ⟨text₁, gap, text₂, _, _, _, rfl, hrun₁, hgap, hrun₂⟩ :=
        matches_seq (call_splits g outer) hrun
      rcases List.mem_append.mp hnode with hnode | hnode
      -- What the first part leaves is followed by blanks and by what the second part takes.
      · have hnext := spares_of_isDecided hg hc hdecided hrun₂ hrest
        obtain ⟨r, hr, hfound⟩ :=
          ihFirst hfirst hrun₁ (spares_append (ne_of_between hc hgap) hnext) hnode
        exact ⟨r, List.mem_append_left _ hr, hfound⟩
      · obtain ⟨r, hr, hfound⟩ := ihSecond hsecond hrun₂ hrest hnode
        exact ⟨r, List.mem_append_right _ hr, hfound⟩
  | choice first second ihFirst ihSecond =>
      rw [Pattern.guards, Bool.and_eq_true] at hp
      rcases matches_choice hrun with hrun₁ | ⟨_, hrun₂⟩
      · obtain ⟨r, hr, hfound⟩ := ihFirst hp.1 hrun₁ hrest hnode
        exact ⟨r, List.mem_append_left _ hr, hfound⟩
      · obtain ⟨r, hr, hfound⟩ := ihSecond hp.2 hrun₂ hrest hnode
        exact ⟨r, List.mem_append_right _ hr, hfound⟩
  | optional body ih =>
      rcases matches_optional hrun with hbody | ⟨_, rfl, _⟩
      · exact ih hp hbody hrest hnode
      · cases hnode
  | star body ih =>
      rw [Pattern.guards, Bool.and_eq_true] at hp
      obtain ⟨hbody, hdecided⟩ := hp
      rcases matches_star (call_splits g outer) hrun with
        ⟨text₁, text₂, nodes₁, nodes₂, _, rfl, hround, hrepeated⟩ | ⟨_, rfl, _⟩
      -- The first round is followed by the later ones, or by the rest if there are none.
      · obtain ⟨hnext, hmore⟩ := follower_of_repeated hg hc hdecided hrepeated hrest
          fun hrun' hrest' node' hnode' => ih hbody hrun' hrest' hnode'
        rcases List.mem_append.mp hnode with hnode | hnode
        · exact ih hbody hround hnext hnode
        · exact hmore node hnode
      · cases hnode

end Patterns

/-! ## Nodes -/

/-- A node was left by its rule where another character came next, or none. -/
def Stands (g : Grammar ρ) (c : Char) (node : Node ρ) : Prop :=
  ∃ rest, Spares c rest ∧ Matches (g.call .loose node.rule) node.text rest [node]

section Nodes

variable {depth : Nat} {rule : ρ} {node part : Node ρ} {text rest : List Char}
  {nodes : List (Node ρ)}

theorem Stands.grown (hg : g.Grounded) (hnode : Stands g c node) : Grown g node := by
  obtain ⟨rest, _, hrun⟩ := hnode
  exact grown_of_matches hg hrun (List.mem_cons_self ..)

theorem stands_of_matches (hg : g.Grounded) (hleaves : (g.mode rule).LeavesNode .loose)
    (hrest : Spares c rest) (hrun : Matches (g.call .loose rule) text rest nodes)
    (hnode : node ∈ nodes) : Stands g c node ∧ node.rule = rule ∧ node.text = text := by
  obtain ⟨place, children, rfl, _⟩ := matches_node hg hleaves hrun
  rw [List.mem_singleton] at hnode
  subst hnode
  exact ⟨⟨rest, hrest, hrun⟩, rfl, rfl⟩

/-- The rule that left a child of a node that stands was not followed by the character. -/
theorem Stands.caller (hg : g.Grounded) (hc : g.blank.contains c = false)
    (hmode : g.mode node.rule = .normal)
    (hguards : (g.body node.rule).guards (g.onHead c depth) c = true) (hnode : Stands g c node)
    (hpart : part ∈ node.children) :
    ∃ r ∈ (g.body node.rule).callees, ∃ text rest nodes, Spares c rest ∧
      Matches (g.call .loose r) text rest nodes ∧ part ∈ nodes := by
  obtain ⟨rest, hrest, hrun⟩ := hnode
  have hleaves : (g.mode node.rule).LeavesNode .loose := by
    rw [hmode]
    decide
  obtain ⟨place, children, hnodes, hbody⟩ := matches_node hg hleaves hrun
  rw [List.singleton_inj] at hnodes
  rw [hnodes] at hpart
  unfold Grammar.callBody at hbody
  rw [hmode] at hbody
  exact follower_of_guards hg hc hguards hbody hrest hpart

theorem Stands.child (hg : g.Grounded) (hc : g.blank.contains c = false)
    (hmode : g.mode node.rule = .normal)
    (hguards : (g.body node.rule).guards (g.onHead c depth) c = true)
    (hcallees : ∀ r ∈ (g.body node.rule).callees, (g.mode r).LeavesNode .loose)
    (hnode : Stands g c node) (hpart : part ∈ node.children) : Stands g c part := by
  obtain ⟨r, hr, text, rest, nodes, hrest, hrun, hmem⟩ := hnode.caller hg hc hmode hguards hpart
  exact (stands_of_matches hg (hcallees r hr) hrest hrun hmem).1

end Nodes

end DocQuery.Grammar
