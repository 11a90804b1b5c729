import DocQuery.Proofs.Grammar.Inversion

/-!
# Which children a node has

The nodes that a pattern leaves come from certain rules in a certain order. Where nothing that
leaves nodes is repeated, there are only so many possibilities, and they are found by evaluation:
`Pattern.words` lists them. A node of a tree has the children that one of the words for its rule
says it has.

Main names:

* `Pattern.words`, `Grammar.words` — the rules that nodes come from, and `Grammar.words_sound`;
* `Fits`, `Pattern.fits` — forms that cover all words;
* `fits_of_matches`, `Grown.fits` — the nodes of a match and the children of a node have one of the
  forms;
* `Pattern.leavesOnly`, `Grown.rule_mem` — the same for rules alone, where nodes are repeated.
-/

namespace DocQuery.Grammar

variable {ρ : Type} {g : Grammar ρ} {outer : Atomicity} {rule : ρ} {text rest : List Char}
  {nodes : List (Node ρ)}

/-- The rules that the nodes of a pattern can come from, in order, given what the nodes of rules
come from; unknown for a repetition of nodes. -/
def Pattern.words (call : ρ → Option (List (List ρ))) : Pattern ρ → Option (List (List ρ))
  | .text _ | .one _ | .absent _ | .start | .stop => some [[]]
  | .rule r => call r
  | .seq first second => do
    let words ← first.words call
    let words' ← second.words call
    return words.flatMap fun word => words'.map (word ++ ·)
  | .choice first second => do return (← first.words call) ++ (← second.words call)
  | .optional body => do return [] :: (← body.words call)
  | .star body => do
    let words ← body.words call
    if words.all List.isEmpty then return [[]] else none

/-- The same for a rule: a node of its own, or the nodes of its body; rules without a node are
followed `depth` deep. -/
def Grammar.words (g : Grammar ρ) : Nat → ρ → Option (List (List ρ))
  | 0, _ => none
  | depth + 1, rule =>
    if g.mode rule = .silent then (g.body rule).words (g.words depth) else some [[rule]]

theorem Pattern.words_sound {blank : CharClass} {context : Context} {call : ρ → Runner ρ}
    {found : ρ → Option (List (List ρ))} (hsplits : ∀ r, Splits (call r))
    (hcall : ∀ r words, found r = some words → ∀ text rest nodes,
      Matches (call r) text rest nodes → nodes.map Node.rule ∈ words)
    {p : Pattern ρ} {words : List (List ρ)} (hwords : p.words found = some words)
    (hrun : Matches (p.run blank context call) text rest nodes) : nodes.map Node.rule ∈ words := by
  induction p generalizing words text rest nodes with
  | text chars =>
      cases hwords
      simp [(matches_text hrun).2]
  | one members =>
      cases hwords
      obtain ⟨c, _, _, rfl⟩ := matches_one hrun
      exact List.mem_singleton.mpr rfl
  | absent members =>
      cases hwords
      simp [(matches_absent hrun).2.1]
  | start =>
      cases hwords
      simp [(matches_start hrun).2]
  | stop =>
      cases hwords
      simp [(matches_stop hrun).2.1]
  | rule r => exact hcall r words hwords text rest nodes hrun
  | seq first second ihFirst ihSecond =>
      simp only [Pattern.words, Option.bind_eq_bind, Option.bind_eq_some_iff, Option.pure_def,
        Option.some.injEq] at hwords
      obtain ⟨words₁, hwords₁, words₂, hwords₂, rfl⟩ := hwords
      obtain ⟨_, _, _, nodes₁, nodes₂, _, rfl, hfirst, _, hsecond⟩ := matches_seq hsplits hrun
      rw [List.map_append]
      refine List.mem_flatMap.mpr ⟨nodes₁.map Node.rule, ihFirst hwords₁ hfirst, ?_⟩
      exact List.mem_map_of_mem (ihSecond hwords₂ hsecond)
  | choice first second ihFirst ihSecond =>
      simp only [Pattern.words, Option.bind_eq_bind, Option.bind_eq_some_iff, Option.pure_def,
        Option.some.injEq] at hwords
      obtain ⟨words₁, hwords₁, words₂, hwords₂, rfl⟩ := hwords
      rcases matches_choice hrun with hfirst | ⟨_, hsecond⟩
      · exact List.mem_append_left _ (ihFirst hwords₁ hfirst)
      · exact List.mem_append_right _ (ihSecond hwords₂ hsecond)
  | optional body ih =>
      simp only [Pattern.words, Option.bind_eq_bind, Option.bind_eq_some_iff, Option.pure_def,
        Option.some.injEq] at hwords
      obtain ⟨words', hwords', rfl⟩ := hwords
      rcases matches_optional hrun with hbody | ⟨_, rfl, _⟩
      · exact List.mem_cons_of_mem _ (ih hwords' hbody)
      · exact List.mem_cons_self ..
  | star body ih =>
      simp only [Pattern.words, Option.bind_eq_bind, Option.bind_eq_some_iff, Option.pure_def] at hwords
      -- A repetition has finitely many words only if its rounds leave no nodes.
      obtain ⟨words', hwords', hempty⟩ := hwords
      split at hempty
      · rename_i hall
        cases hempty
        obtain ⟨rounds, rfl, hrounds⟩ := nodes_of_matches_star hsplits hrun
        have hnil : rounds.flatten = [] := by
          refine List.flatten_eq_nil_iff.mpr fun round hround => ?_
          obtain ⟨_, _, hbody⟩ := hrounds round hround
          have hword := List.all_eq_true.mp hall _ (ih hwords' hbody)
          simpa using hword
        rw [hnil]
        exact List.mem_singleton.mpr rfl
      · cases hempty

/-- The nodes that a rule leaves come from the rules that were computed. -/
theorem Grammar.words_sound (hg : g.Grounded) {depth : Nat} {words : List (List ρ)}
    (hwords : g.words depth rule = some words) (houter : outer ≠ .token)
    (hrun : Matches (g.call outer rule) text rest nodes) : nodes.map Node.rule ∈ words := by
  induction depth generalizing rule words text rest nodes with
  | zero => cases hwords
  | succ depth ih =>
      unfold Grammar.words at hwords
      split at hwords
      · rename_i hmode
        have hbody := matches_silent hg hmode hrun
        unfold Grammar.callBody at hbody
        rw [hmode] at hbody
        refine Pattern.words_sound (call_splits g _) ?_ hwords hbody
        intro r words' hwords' text' rest' nodes' hrun'
        exact ih hwords' hrun'
      · rename_i hmode
        cases hwords
        obtain ⟨place, children, rfl, _⟩ := matches_node hg ⟨hmode, Or.inl houter⟩ hrun
        exact List.mem_singleton.mpr rfl

/-! ## Forms -/

/-- Nodes with rules from given lists, one list for each of them. -/
def Fits : List (Node ρ) → List (List ρ) → Prop
  | [], [] => True
  | node :: nodes, slot :: form => node.rule ∈ slot ∧ Fits nodes form
  | _, _ => False

theorem Fits.nil (hfits : Fits nodes []) : nodes = [] := by
  cases nodes with
  | nil => rfl
  | cons node nodes => exact hfits.elim

theorem Fits.cons {slot : List ρ} {form : List (List ρ)} (hfits : Fits nodes (slot :: form)) :
    ∃ node more, nodes = node :: more ∧ node.rule ∈ slot ∧ Fits more form := by
  cases nodes with
  | nil => exact hfits.elim
  | cons node more => exact ⟨node, more, rfl, hfits.1, hfits.2⟩

/-- One node with a rule from a list. -/
theorem Fits.one {slot : List ρ} (hfits : Fits nodes [slot]) :
    ∃ node, nodes = [node] ∧ node.rule ∈ slot := by
  obtain ⟨node, _, rfl, hnode, hfits⟩ := hfits.cons
  obtain rfl := hfits.nil
  exact ⟨node, rfl, hnode⟩

/-- Two nodes with rules from two lists. -/
theorem Fits.two {slot slot' : List ρ} (hfits : Fits nodes [slot, slot']) :
    ∃ node node', nodes = [node, node'] ∧ node.rule ∈ slot ∧ node'.rule ∈ slot' := by
  obtain ⟨node, _, rfl, hnode, hfits⟩ := hfits.cons
  obtain ⟨node', rfl, hnode'⟩ := hfits.one
  exact ⟨node, node', rfl, hnode, hnode'⟩

/-- Three nodes with rules from three lists. -/
theorem Fits.three {slot slot' slot'' : List ρ} (hfits : Fits nodes [slot, slot', slot'']) :
    ∃ node node' node'', nodes = [node, node', node''] ∧ node.rule ∈ slot ∧ node'.rule ∈ slot' ∧
      node''.rule ∈ slot'' := by
  obtain ⟨node, _, rfl, hnode, hfits⟩ := hfits.cons
  obtain ⟨node', node'', rfl, hnode', hnode''⟩ := hfits.two
  exact ⟨node, node', node'', rfl, hnode, hnode', hnode''⟩

section Decided

variable [BEq ρ] [LawfulBEq ρ]

/-- Whether the rules of a word are from the lists of a form. -/
def fitsWord : List ρ → List (List ρ) → Bool
  | [], [] => true
  | r :: word, slot :: form => slot.contains r && fitsWord word form
  | _, _ => false

theorem fits_of_fitsWord {form : List (List ρ)}
    (hword : fitsWord (nodes.map Node.rule) form = true) : Fits nodes form := by
  induction nodes generalizing form with
  | nil =>
      cases form with
      | nil => trivial
      | cons slot form => cases hword
  | cons node nodes ih =>
      cases form with
      | nil => cases hword
      | cons slot form =>
          obtain ⟨hnode, hword⟩ := (Bool.and_eq_true _ _).mp hword
          exact ⟨List.contains_iff_mem.mp hnode, ih hword⟩

/-- Whether the nodes of a pattern have one of several forms, given what the nodes of rules come
from. -/
def Pattern.fits (found : ρ → Option (List (List ρ))) (forms : List (List (List ρ)))
    (p : Pattern ρ) : Bool :=
  match p.words found with
  | some words => words.all fun word => forms.any (fitsWord word)
  | none => false

/-- The nodes that a pattern has left in a rule have one of the forms that cover its words. -/
theorem fits_of_matches (hg : g.Grounded) {context : Context} (houter : context.atomicity ≠ .token)
    {depth : Nat} {p : Pattern ρ} {forms : List (List (List ρ))}
    (hforms : p.fits (g.words depth) forms = true)
    (hrun : Matches (p.run g.blank context (g.call context.atomicity)) text rest nodes) :
    ∃ form ∈ forms, Fits nodes form := by
  unfold Pattern.fits at hforms
  split at hforms
  · rename_i words hwords
    have hword := Pattern.words_sound (call_splits g _)
      (fun _ _ hfound _ _ _ hcall => Grammar.words_sound hg hfound houter hcall) hwords hrun
    obtain ⟨form, hform, hfits⟩ := List.any_eq_true.mp (List.all_eq_true.mp hforms _ hword)
    exact ⟨form, hform, fits_of_fitsWord hfits⟩
  · cases hforms

theorem fits_form_of_matches (hg : g.Grounded) {context : Context}
    (houter : context.atomicity ≠ .token) {depth : Nat} {p : Pattern ρ} {form : List (List ρ)}
    (hform : p.fits (g.words depth) [form] = true)
    (hrun : Matches (p.run g.blank context (g.call context.atomicity)) text rest nodes) :
    Fits nodes form := by
  obtain ⟨found, hfound, hfits⟩ := fits_of_matches hg houter hform hrun
  rw [List.mem_singleton.mp hfound] at hfits
  exact hfits

section Children

variable {place : Place} {children : List (Node ρ)}

/-- The children of a node have one of the forms that cover the words of its rule. -/
theorem Grown.fits (hg : g.Grounded) (hnode : Grown g (.mk rule text place children))
    (hmode : g.mode rule ≠ .token) {depth : Nat} {forms : List (List (List ρ))}
    (hforms : (g.body rule).fits (g.words depth) forms = true) :
    ∃ form ∈ forms, Fits children form := by
  obtain ⟨context, rest, houter, hbody⟩ := hnode.body hmode
  exact fits_of_matches hg houter hforms hbody

theorem Grown.fits_form (hg : g.Grounded) (hnode : Grown g (.mk rule text place children))
    (hmode : g.mode rule ≠ .token) {depth : Nat} {form : List (List ρ)}
    (hform : (g.body rule).fits (g.words depth) [form] = true) : Fits children form := by
  obtain ⟨context, rest, houter, hbody⟩ := hnode.body hmode
  exact fits_form_of_matches hg houter hform hbody

end Children

/-- Whether all nodes of a pattern, repeated ones among them, are from a list of rules, given what
the nodes of rules come from. -/
def Pattern.leavesOnly (found : ρ → Option (List (List ρ))) (slot : List ρ) (p : Pattern ρ) : Bool :=
  p.callees.all fun r =>
    match found r with
    | some words => words.all fun word => word.all slot.contains
    | none => false

theorem rule_mem_of_matches (hg : g.Grounded) {context : Context}
    (houter : context.atomicity ≠ .token) {depth : Nat} {p : Pattern ρ} {slot : List ρ}
    (hslot : p.leavesOnly (g.words depth) slot = true)
    (hrun : Matches (p.run g.blank context (g.call context.atomicity)) text rest nodes)
    {node : Node ρ} (hnode : node ∈ nodes) : node.rule ∈ slot := by
  obtain ⟨r, hr, text', rest', nodes', hcall, hmem⟩ := nodes_of_calls (call_splits g _) hrun hnode
  have hrule := List.all_eq_true.mp hslot r hr
  split at hrule
  · rename_i words hwords
    have hword := Grammar.words_sound hg hwords houter hcall
    have hall := List.all_eq_true.mp (List.all_eq_true.mp hrule _ hword) _ (List.mem_map_of_mem hmem)
    exact List.contains_iff_mem.mp hall
  · cases hrule

/-- The children of a node are from the list of rules that covers what its rule leaves. -/
theorem Grown.rule_mem (hg : g.Grounded) {place : Place} {children : List (Node ρ)}
    (hnode : Grown g (.mk rule text place children)) (hmode : g.mode rule ≠ .token) {depth : Nat}
    {slot : List ρ} (hslot : (g.body rule).leavesOnly (g.words depth) slot = true) {child : Node ρ}
    (hchild : child ∈ children) : child.rule ∈ slot := by
  obtain ⟨context, rest, houter, hbody⟩ := hnode.body hmode
  exact rule_mem_of_matches hg houter hslot hbody hchild

end Decided

end DocQuery.Grammar
