import DocQuery.PathTree.Prune

/-!
# Entries in the order of their keys

What pruning keeps of a container is put into the order of its keys. If no two entries share a
key, the order is strict, an entry is found under its key, and other keys in the same order
make no difference.

Main names:

* `Keeper.perm_sortByKey`, `Keeper.sorted_sortByKey` — sorting rearranges, into a strict order;
* `Keeper.findIdx_key` — the place of an entry is found by its key;
* `Keeper.sortByKey_relabel` — keys that are replaced in order.
-/

namespace DocQuery.Keeper

variable {α : Type}

/-- No two entries share a key. -/
def DistinctKeys (entries : List (Nat × α)) : Prop :=
  entries.Pairwise fun e e' => e.1 ≠ e'.1

/-- Every entry has a smaller key than those after it. -/
def Ascending (entries : List (Nat × α)) : Prop :=
  entries.Pairwise fun e e' => e.1 < e'.1

theorem Ascending.distinct {entries : List (Nat × α)} (hentries : Ascending entries) :
    DistinctKeys entries :=
  List.Pairwise.imp (fun hlt => Nat.ne_of_lt hlt) hentries

/-- Of entries with distinct keys, the key tells which one it is. -/
theorem DistinctKeys.eq_of_key {entries : List (Nat × α)} (hentries : DistinctKeys entries)
    {e e' : Nat × α} (he : e ∈ entries) (he' : e' ∈ entries) (hkey : e.1 = e'.1) : e = e' := by
  induction hentries with
  | nil => cases he
  | cons hfirst _ ih =>
      rcases List.mem_cons.mp he with rfl | hmem
      · rcases List.mem_cons.mp he' with rfl | hmem'
        · rfl
        · exact absurd hkey (hfirst e' hmem')
      · rcases List.mem_cons.mp he' with rfl | hmem'
        · exact absurd hkey.symm (hfirst e hmem)
        · exact ih hmem hmem'

/-! ## Sorting -/

theorem perm_insertByKey (entry : Nat × α) (entries : List (Nat × α)) :
    (insertByKey entry entries).Perm (entry :: entries) := by
  induction entries with
  | nil => exact List.Perm.refl _
  | cons other rest ih =>
      unfold insertByKey
      split
      · exact List.Perm.refl _
      · exact (List.Perm.cons other ih).trans (List.Perm.swap entry other rest)

private theorem perm_foldl_insertByKey (entries sorted : List (Nat × α)) :
    (entries.foldl (fun sorted entry => insertByKey entry sorted) sorted).Perm
      (sorted ++ entries) := by
  induction entries generalizing sorted with
  | nil => simp
  | cons entry rest ih =>
      refine (ih (insertByKey entry sorted)).trans ?_
      refine (List.Perm.append_right rest (perm_insertByKey entry sorted)).trans ?_
      exact List.perm_middle.symm

theorem perm_sortByKey (entries : List (Nat × α)) : (sortByKey entries).Perm entries := by
  have hperm := perm_foldl_insertByKey entries []
  rw [List.nil_append] at hperm
  exact hperm

theorem mem_sortByKey {entries : List (Nat × α)} {entry : Nat × α} :
    entry ∈ sortByKey entries ↔ entry ∈ entries :=
  (perm_sortByKey entries).mem_iff

/-- An entry with a new key goes between those with smaller and those with larger keys. -/
theorem ascending_insertByKey {entry : Nat × α} {entries : List (Nat × α)}
    (hentries : Ascending entries) (hnew : ∀ other ∈ entries, entry.1 ≠ other.1) :
    Ascending (insertByKey entry entries) := by
  induction entries with
  | nil => exact List.pairwise_singleton _ _
  | cons other rest ih =>
      have hafter := List.pairwise_cons.mp hentries
      have hne := hnew other (List.mem_cons_self ..)
      unfold insertByKey
      split
      · rename_i hlt
        refine List.Pairwise.cons ?_ hentries
        intro e he
        rcases List.mem_cons.mp he with rfl | he
        · exact hlt
        · exact Nat.lt_trans hlt (hafter.1 e he)
      · rename_i hlt
        refine List.Pairwise.cons ?_
          (ih hafter.2 fun e he => hnew e (List.mem_cons_of_mem _ he))
        intro e he
        rcases List.mem_cons.mp ((perm_insertByKey entry rest).mem_iff.mp he) with rfl | he
        · omega
        · exact hafter.1 e he

private theorem ascending_foldl_insertByKey {entries sorted : List (Nat × α)}
    (hsorted : Ascending sorted) (hdistinct : DistinctKeys (sorted ++ entries)) :
    Ascending (entries.foldl (fun sorted entry => insertByKey entry sorted) sorted) := by
  induction entries generalizing sorted with
  | nil => exact hsorted
  | cons entry rest ih =>
      have hparts := List.pairwise_append.mp hdistinct
      refine ih (ascending_insertByKey hsorted ?_) ?_
      · intro other hother
        exact (hparts.2.2 other hother entry (List.mem_cons_self ..)).symm
      · have hperm : (sorted ++ entry :: rest).Perm (insertByKey entry sorted ++ rest) :=
          List.perm_middle.trans (List.Perm.append_right rest (perm_insertByKey entry sorted).symm)
        exact (hperm.pairwise_iff fun hne => Ne.symm hne).mp hdistinct

/-- Entries with distinct keys are sorted into a strict order. -/
theorem ascending_sortByKey {entries : List (Nat × α)} (hdistinct : DistinctKeys entries) :
    Ascending (sortByKey entries) :=
  ascending_foldl_insertByKey List.Pairwise.nil hdistinct

/-- Entries with distinct keys have one order, whatever order they come in. -/
theorem sortByKey_eq_of_perm {entries entries' : List (Nat × α)} (hperm : entries.Perm entries')
    (hdistinct : DistinctKeys entries') : sortByKey entries = sortByKey entries' := by
  have hdistinct' : DistinctKeys entries :=
    (hperm.pairwise_iff fun hne => Ne.symm hne).mpr hdistinct
  have hsorted : (sortByKey entries).Perm (sortByKey entries') :=
    ((perm_sortByKey entries).trans hperm).trans (perm_sortByKey entries').symm
  refine hsorted.eq_of_pairwise ?_ (ascending_sortByKey hdistinct') (ascending_sortByKey hdistinct)
  intro e e' _ _ hlt hlt'
  omega

/-! ## Places -/

/-- The place of an entry is the first one with its key. -/
theorem findIdx_key {entries : List (Nat × α)} (hdistinct : DistinctKeys entries) {place : Nat}
    {entry : Nat × α} (hplace : entries[place]? = some entry) :
    entries.findIdx? (·.1 == entry.1) = some place := by
  obtain ⟨hlt, hentry⟩ := List.getElem?_eq_some_iff.mp hplace
  rw [List.findIdx?_eq_some_iff_getElem]
  refine ⟨hlt, by rw [hentry]; exact beq_self_eq_true _, ?_⟩
  intro earlier hearlier
  have hne := List.pairwise_iff_getElem.mp hdistinct earlier place (by omega) hlt hearlier
  rw [hentry] at hne
  simpa using hne

/-- The place of an entry with a key; zero where there is none. -/
def placeOf (entries : List (Nat × α)) (key : Nat) : Nat :=
  (entries.findIdx? (·.1 == key)).getD 0

/-- Where keys ascend, places are in the order of the keys. -/
theorem placeOf_lt_iff {entries : List (Nat × α)} (hentries : Ascending entries) {e e' : Nat × α}
    (he : e ∈ entries) (he' : e' ∈ entries) :
    placeOf entries e.1 < placeOf entries e'.1 ↔ e.1 < e'.1 := by
  obtain ⟨place, hplace⟩ := List.getElem?_of_mem he
  obtain ⟨place', hplace'⟩ := List.getElem?_of_mem he'
  obtain ⟨hlt, hentry⟩ := List.getElem?_eq_some_iff.mp hplace
  obtain ⟨hlt', hentry'⟩ := List.getElem?_eq_some_iff.mp hplace'
  have horder := List.pairwise_iff_getElem.mp hentries
  unfold placeOf
  rw [findIdx_key hentries.distinct hplace, findIdx_key hentries.distinct hplace',
    Option.getD_some, Option.getD_some]
  constructor
  · intro hbefore
    have hkeys := horder place place' hlt hlt' hbefore
    rw [hentry, hentry'] at hkeys
    exact hkeys
  · intro hkeys
    -- Keys ascend with the places, so places that are not in this order contradict the order of
    -- keys.
    rcases Nat.lt_trichotomy place place' with hbefore | hsame | hafter
    · exact hbefore
    · subst hsame
      rw [hplace] at hplace'
      cases hplace'
      omega
    · have hkeys' := horder place' place hlt' hlt hafter
      rw [hentry, hentry'] at hkeys'
      omega

/-! ## Other keys -/

/-- The entries with other keys. -/
def relabel (f : Nat → Nat) (entries : List (Nat × α)) : List (Nat × α) :=
  entries.map fun entry => (f entry.1, entry.2)

theorem relabel_snd (f : Nat → Nat) (entries : List (Nat × α)) :
    (relabel f entries).map Prod.snd = entries.map Prod.snd := by
  simp [relabel, Function.comp_def]

theorem insertByKey_relabel {f : Nat → Nat} {entry : Nat × α} {entries : List (Nat × α)}
    (hf : ∀ other ∈ entries, f entry.1 < f other.1 ↔ entry.1 < other.1) :
    insertByKey (f entry.1, entry.2) (relabel f entries) = relabel f (insertByKey entry entries) := by
  induction entries with
  | nil => rfl
  | cons other rest ih =>
      have hother := hf other (List.mem_cons_self ..)
      have hrest := ih fun e he => hf e (List.mem_cons_of_mem _ he)
      show insertByKey (f entry.1, entry.2) ((f other.1, other.2) :: relabel f rest) = _
      unfold insertByKey
      by_cases hlt : entry.1 < other.1
      · rw [if_pos hlt, if_pos (hother.mpr hlt)]
        rfl
      · rw [if_neg hlt, if_neg fun hlt' => hlt (hother.mp hlt'), hrest]
        rfl

private theorem foldl_insertByKey_relabel {f : Nat → Nat} {entries sorted : List (Nat × α)}
    (hf : ∀ e ∈ sorted ++ entries, ∀ e' ∈ sorted ++ entries, f e.1 < f e'.1 ↔ e.1 < e'.1) :
    (relabel f entries).foldl (fun sorted entry => insertByKey entry sorted) (relabel f sorted) =
      relabel f (entries.foldl (fun sorted entry => insertByKey entry sorted) sorted) := by
  induction entries generalizing sorted with
  | nil => rfl
  | cons entry rest ih =>
      have hentry : entry ∈ sorted ++ entry :: rest :=
        List.mem_append_right _ (List.mem_cons_self ..)
      have hmem : ∀ e ∈ insertByKey entry sorted ++ rest, e ∈ sorted ++ entry :: rest := by
        intro e he
        rw [List.mem_append, (perm_insertByKey entry sorted).mem_iff, List.mem_cons] at he
        rw [List.mem_append, List.mem_cons]
        rcases he with (rfl | he) | he
        · exact Or.inr (Or.inl rfl)
        · exact Or.inl he
        · exact Or.inr (Or.inr he)
      have hstep : insertByKey (f entry.1, entry.2) (relabel f sorted) =
          relabel f (insertByKey entry sorted) :=
        insertByKey_relabel fun other hother =>
          hf entry hentry other (List.mem_append_left _ hother)
      show (relabel f rest).foldl (fun sorted entry => insertByKey entry sorted)
        (insertByKey (f entry.1, entry.2) (relabel f sorted)) = _
      rw [hstep, ih fun e he e' he' => hf e (hmem e he) e' (hmem e' he')]
      rfl

/-- Keys that are replaced in order leave the order of the entries. -/
theorem sortByKey_relabel {f : Nat → Nat} {entries : List (Nat × α)}
    (hf : ∀ e ∈ entries, ∀ e' ∈ entries, f e.1 < f e'.1 ↔ e.1 < e'.1) :
    sortByKey (relabel f entries) = relabel f (sortByKey entries) := by
  have hfoldl : (relabel f entries).foldl (fun sorted entry => insertByKey entry sorted)
      (relabel f []) = relabel f (entries.foldl (fun sorted entry => insertByKey entry sorted) []) :=
    foldl_insertByKey_relabel hf
  exact hfoldl

end DocQuery.Keeper
