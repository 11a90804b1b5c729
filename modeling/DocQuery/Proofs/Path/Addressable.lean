import DocQuery.Path.Reader
import DocQuery.Proofs.Sequencing

/-!
# Indices of 64 bits

An index in a path fits into 64 bits: a longer one is refused when the path is read. Paths that
are put together otherwise are assumed to keep to this.

Main names:

* `Path.Addressable` — all indices of a path fit;
* `Path.addressable_of_read`, `Path.addressable_of_readAll` — paths that were read keep to it.
-/

namespace DocQuery

/-- Whether an index fits into 64 bits; names and wildcards have none. -/
def Selector.Addressable : Selector → Prop
  | .item (some index) => index < 2 ^ 64
  | _ => True

/-- Whether all indices of a path fit into 64 bits. -/
def Path.Addressable (p : Path) : Prop :=
  ∀ step ∈ p.steps, step.selector.Addressable

namespace ParseError

/-- What is read of a list is read of its members. -/
theorem exists_of_mapM {α β : Type} {f : α → Except ParseError β} {as : List α} {bs : List β}
    (hbs : as.mapM f = .ok bs) : ∀ b ∈ bs, ∃ a ∈ as, f a = .ok b := by
  induction as generalizing bs with
  | nil =>
      cases hbs
      intro b hb
      cases hb
  | cons a as ih =>
      rw [List.mapM_cons] at hbs
      obtain ⟨first, hfirst, hbs⟩ := bind_eq_ok hbs
      obtain ⟨rest, hrest, hbs⟩ := bind_eq_ok hbs
      cases hbs
      intro b hb
      rcases List.mem_cons.mp hb with rfl | hb
      · exact ⟨a, List.mem_cons_self .., hfirst⟩
      · obtain ⟨a', ha', hb⟩ := ih hrest b hb
        exact ⟨a', List.mem_cons_of_mem _ ha', hb⟩

end ParseError

/-- A selector is read only if its index fits. -/
theorem WrittenStep.addressable_of_ofSelector {path : List Char} {tree : Language.Tree}
    {selector : Selector} (hselector : ofSelector path tree = .ok (.plain selector)) :
    selector.Addressable := by
  unfold ofSelector at hselector
  split at hselector
  · cases hselector
    trivial
  · cases hselector
    trivial
  · cases hselector
    trivial
  · obtain ⟨name, _, hname⟩ := bind_eq_ok hselector
    cases hname
    trivial
  · cases hselector
    trivial
  · by_cases hfits : Text.Digits.value tree.text < 2 ^ 64
    · simp only [hfits, if_true] at hselector
      cases hselector
      exact hfits
    · simp only [hfits, if_false] at hselector
      cases hselector
  · obtain ⟨body, _, hbody⟩ := bind_eq_ok hselector
    cases hbody
  · obtain ⟨body, _, hbody⟩ := bind_eq_ok hselector
    cases hbody
  · cases hselector

namespace Path

theorem addressable_of_ofTree {tree : Language.Tree} {p : Path} (hp : ofTree tree = .ok p) :
    p.Addressable := by
  obtain ⟨written, hwritten, hp⟩ := bind_eq_ok hp
  obtain ⟨steps, hsteps, hp⟩ := bind_eq_ok hp
  have hsame : p.steps = steps := by
    cases steps with
    | nil => cases hp
    | cons first rest =>
        cases hp
        rfl
  intro step hstep
  rw [hsame] at hstep
  obtain ⟨⟨inner, required⟩, hinner, hread⟩ := ParseError.exists_of_mapM hsteps step hstep
  obtain ⟨segment, _, hsegment⟩ := ParseError.exists_of_mapM hwritten _ hinner
  unfold WrittenStep.ofTree at hsegment
  split at hsegment
  · obtain ⟨selector, hselector, hsegment⟩ := bind_eq_ok hsegment
    cases hsegment
    unfold readStep at hread
    split at hread
    · rename_i heq
      cases heq
      cases hread
      exact WrittenStep.addressable_of_ofSelector hselector
    · cases hread
  · cases hsegment

theorem addressable_of_read {text : String} {p : Path} (hp : read text = .ok p) :
    p.Addressable := by
  obtain ⟨root, _, hp⟩ := bind_eq_ok hp
  split at hp
  · exact addressable_of_ofTree hp
  · cases hp

theorem addressable_of_readAll {text : String} {paths : List Path}
    (hpaths : readAll text = .ok paths) : ∀ p ∈ paths, p.Addressable := by
  obtain ⟨root, _, hpaths⟩ := bind_eq_ok hpaths
  intro p hp
  obtain ⟨tree, _, htree⟩ := ParseError.exists_of_mapM hpaths p hp
  exact addressable_of_ofTree htree

end Path

end DocQuery
