import DocQuery.Proofs.PathTree.KeyOrder
import DocQuery.Proofs.PathTree.Provenance
import DocQuery.Proofs.Sequencing
import Mathlib.Data.List.Forall2
import Mathlib.Data.List.ReduceOption

/-!
# What is kept of a container

Keeping children of a container succeeds only if it succeeds for every child that a branch
reaches. The children that are kept, put in the order of their keys, are again a container; this
module says where in it the branches find what they found before.

Main names:

* `Keeper.KeepsItem`, `Keeper.KeepsField` — what one branch does;
* `Keeper.keepItems_eq_ok`, `Keeper.keepFields_eq_ok` — all of them together;
* `Keeper.keepItems_ok`, `Keeper.keepFields_ok` — what is kept, if anything goes well;
* `Keeper.keepNamed_eq_ok`, `Keeper.keepAll_eq_ok` — what is kept of a whole value;
* `Keeper.keepItems_congr`, `Keeper.keepFields_congr` — branches that find values of which they
  keep the same keep the same;
* `Keeper.item_of_kept`, `Keeper.item_of_not_kept` — items found through the record;
* `Keeper.field_of_kept`, `Keeper.field_of_not_kept` — fields found under their names;
* `Keeper.FieldsKept.field_sorted` — the same for the fields that branches keep.
-/

namespace DocQuery.Keeper

/-- Branches of which each does its part before the others keep what their parts come to. -/
theorem collect_eq_ok {α : Type} {Part : Keeper → Option α → Prop}
    (collect : List Keeper → Except PruneError (List α)) (hnil : collect [] = .ok [])
    (hcons : ∀ k rest kept, collect (k :: rest) = .ok kept ↔
      ∃ part others, Part k part ∧ collect rest = .ok others ∧ part.toList ++ others = kept)
    {keepers : List Keeper} {kept : List α} :
    collect keepers = .ok kept ↔
      ∃ parts, List.Forall₂ Part keepers parts ∧ parts.reduceOption = kept := by
  constructor
  · intro hkept
    induction keepers generalizing kept with
    | nil =>
        cases hnil.symm.trans hkept
        exact ⟨[], .nil, rfl⟩
    | cons k rest ih =>
        obtain ⟨part, others, hpart, hothers, rfl⟩ := (hcons ..).mp hkept
        obtain ⟨parts, hparts, rfl⟩ := ih hothers
        exact ⟨part :: parts, .cons hpart hparts, by cases part <;> rfl⟩
  · rintro ⟨parts, hparts, rfl⟩
    induction hparts with
    | nil => exact hnil
    | @cons _ part _ parts hpart _ ih =>
        exact (hcons ..).mpr ⟨part, _, hpart, ih, by cases part <;> rfl⟩

/-- What the parts of branches select is selected in the order of the branches. -/
theorem sublist_of_parts {α : Type} {Part : Keeper → Option α → Prop} {wanted : α → Selector}
    (hwanted : ∀ k e, Part k (some e) → k.selector = wanted e) {keepers : List Keeper}
    {parts : List (Option α)} (hparts : List.Forall₂ Part keepers parts) :
    (parts.reduceOption.map wanted).Sublist (keepers.map selector) := by
  induction hparts with
  | nil => exact .slnil
  | @cons k part _ _ hpart _ ih =>
      cases part with
      | some e =>
          rw [List.reduceOption_cons_of_some, List.map_cons, List.map_cons, hwanted k e hpart]
          exact ih.cons_cons _
      | none =>
          rw [List.reduceOption_cons_of_none]
          exact ih.cons _

/-! ## Items -/

/-- The item that is found for a source index. -/
def item? (items : List Value) (slot? : Nat → Option Nat) (index : Nat) : Option Value :=
  (slot? index).bind fun slot => items[slot]?

/-- What a branch does with the item of its index: it keeps something of it, or nothing if there is
no such item and none is required. -/
inductive KeepsItem (items : List Value) (slot? : Nat → Option Nat) (k : Keeper) :
    Option (Nat × Value) → Prop
  | found {index : Nat} {item kept : Value} (hselector : k.selector = .item (some index))
      (hitem : item? items slot? index = some item) (hkept : k.keep item = .ok kept) :
      KeepsItem items slot? k (some (index, kept))
  | absent {index : Nat} (hselector : k.selector = .item (some index))
      (hitem : item? items slot? index = none) (hoptional : k.required = false) :
      KeepsItem items slot? k none

section KeepItems

variable {items : List Value} {slot? : Nat → Option Nat} {failure : PruneError}
  {keepers : List Keeper} {kept : List (Nat × Value)}

theorem keepItems_cons_eq_ok {k : Keeper} :
    keepItems items slot? failure (k :: keepers) = .ok kept ↔
      ∃ part others, KeepsItem items slot? k part ∧
        keepItems items slot? failure keepers = .ok others ∧ part.toList ++ others = kept := by
  constructor
  · intro hkept
    unfold keepItems at hkept
    split at hkept
    · rename_i index hselector
      split at hkept
      · rename_i item hitem
        obtain ⟨v, hfirst, hkept⟩ := bind_eq_ok hkept
        obtain ⟨others, hothers, hkept⟩ := bind_eq_ok hkept
        cases hkept
        exact ⟨_, others, .found hselector hitem hfirst, hothers, rfl⟩
      · rename_i hitem
        split at hkept
        · cases hkept
        · rename_i hoptional
          exact ⟨_, kept, .absent hselector hitem (by simpa using hoptional), hkept, rfl⟩
    · cases hkept
  · rintro ⟨part, others, hpart, hothers, rfl⟩
    unfold keepItems
    cases hpart with
    | found hselector hitem hkept =>
        unfold item? at hitem
        simp only [hselector, hitem, hkept, hothers]
        rfl
    | absent hselector hitem hoptional =>
        unfold item? at hitem
        simp only [hselector, hitem, hoptional, hothers]
        rfl

/-- Items are kept if every branch does its part. -/
theorem keepItems_eq_ok :
    keepItems items slot? failure keepers = .ok kept ↔
      ∃ parts, List.Forall₂ (KeepsItem items slot?) keepers parts ∧ parts.reduceOption = kept :=
  collect_eq_ok (keepItems items slot? failure) rfl fun _ _ _ => keepItems_cons_eq_ok

/-- What is known of the items that branches keep: they come from the branches in order, each of
them was found, and every branch that finds an item keeps something of it. -/
structure ItemsKept (items : List Value) (slot? : Nat → Option Nat) (keepers : List Keeper)
    (kept : List (Nat × Value)) : Prop where
  inOrder : (kept.map fun e => Selector.item (some e.1)).Sublist (keepers.map selector)
  found : ∀ e ∈ kept, (item? items slot? e.1).isSome = true
  indexed : ∀ k ∈ keepers, ∃ index, k.selector = .item (some index)
  complete : ∀ k ∈ keepers, ∀ index item, k.selector = .item (some index) →
    item? items slot? index = some item → ∃ v, k.keep item = .ok v ∧ (index, v) ∈ kept

theorem keepItems_ok (hkept : keepItems items slot? failure keepers = .ok kept) :
    ItemsKept items slot? keepers kept := by
  obtain ⟨parts, hparts, rfl⟩ := keepItems_eq_ok.mp hkept
  refine ⟨?_, fun e he => ?_, fun k hk => ?_, fun k hk index item hselector hitem => ?_⟩
  · refine sublist_of_parts (fun k e hpart => ?_) hparts
    cases hpart with
    | found hselector => exact hselector
  · obtain ⟨k, _, hpart⟩ := exists_of_forall₂ hparts.flip (List.reduceOption_mem_iff.mp he)
    cases hpart with
    | found _ hitem => exact Option.isSome_of_eq_some hitem
  · obtain ⟨part, _, hpart⟩ := exists_of_forall₂ hparts hk
    cases hpart with
    | found hselector | absent hselector => exact ⟨_, hselector⟩
  · obtain ⟨part, hmem, hpart⟩ := exists_of_forall₂ hparts hk
    cases hpart with
    | found hselector' hitem' hkeep =>
        cases hselector.symm.trans hselector'
        cases hitem.symm.trans hitem'
        exact ⟨_, hkeep, List.reduceOption_mem_iff.mpr hmem⟩
    | absent hselector' hitem' =>
        cases hselector.symm.trans hselector'
        cases hitem.symm.trans hitem'

end KeepItems

/-- Branches that find items of which they keep the same keep the same, and fail alike. -/
theorem keepItems_congr {items items' : List Value} {slot? slot?' : Nat → Option Nat}
    {failure : PruneError} {keepers : List Keeper}
    (hsame : ∀ k ∈ keepers, ∀ index, k.selector = .item (some index) →
      (item? items' slot?' index).map k.keep = (item? items slot? index).map k.keep) :
    keepItems items' slot?' failure keepers = keepItems items slot? failure keepers := by
  induction keepers with
  | nil => rfl
  | cons k rest ih =>
      have hrest := ih fun k' hk' => hsame k' (List.mem_cons_of_mem _ hk')
      unfold keepItems
      split
      · rename_i index hselector
        have hfirst := hsame k (List.mem_cons_self ..) index hselector
        unfold item? at hfirst
        rw [hrest]
        cases hitem : (slot? index).bind fun slot => items[slot]? with
        | none =>
            rw [hitem, Option.map_none, Option.map_eq_none_iff] at hfirst
            rw [hfirst]
        | some item =>
            rw [hitem, Option.map_some, Option.map_eq_some_iff] at hfirst
            obtain ⟨item', hitem', hkeep⟩ := hfirst
            rw [hitem']
            simp only [hkeep]
      · rfl

/-- Where the items of a record of ascending indices stand. -/
def slotIn (entries : List (Nat × Value)) (index : Nat) : Option Nat :=
  (entries.map Prod.fst).findIdx? (· == index)

theorem slotIn_eq (entries : List (Nat × Value)) (index : Nat) :
    slotIn entries index = entries.findIdx? (·.1 == index) := by
  unfold slotIn
  rw [List.findIdx?_map]
  rfl

/-- What was kept of an item is found under its index. -/
theorem item_of_kept {entries : List (Nat × Value)} (hentries : DistinctKeys entries)
    {index : Nat} {v : Value} (hv : (index, v) ∈ entries) :
    item? (entries.map Prod.snd) (slotIn entries) index = some v := by
  obtain ⟨place, hplace⟩ := List.getElem?_of_mem hv
  unfold item?
  rw [slotIn_eq, findIdx_key hentries hplace, Option.bind_some, List.getElem?_map, hplace]
  rfl

/-- An index of which nothing was kept leads nowhere. -/
theorem item_of_not_kept {entries : List (Nat × Value)} {index : Nat}
    (hindex : ∀ e ∈ entries, e.1 ≠ index) :
    item? (entries.map Prod.snd) (slotIn entries) index = none := by
  have hnone : entries.findIdx? (·.1 == index) = none := by
    rw [List.findIdx?_eq_none_iff]
    intro e he
    simpa using hindex e he
  unfold item?
  rw [slotIn_eq, hnone]
  rfl

theorem ItemsKept.distinct {items : List Value} {slot? : Nat → Option Nat}
    {keepers : List Keeper} {kept : List (Nat × Value)}
    (hkept : ItemsKept items slot? keepers kept) (hkeepers : (keepers.map selector).Nodup) :
    DistinctKeys kept := by
  have hnodup := List.Pairwise.sublist hkept.inOrder hkeepers
  rw [List.pairwise_map] at hnodup
  refine List.Pairwise.imp ?_ hnodup
  intro e e' hne heq
  rw [heq] at hne
  exact hne rfl

/-- Everything that is kept comes from an item, through the branch of its index. -/
theorem ItemsKept.origin {items : List Value} {slot? : Nat → Option Nat}
    {keepers : List Keeper} {kept : List (Nat × Value)}
    (hkept : ItemsKept items slot? keepers kept) (hkeepers : (keepers.map selector).Nodup)
    {e : Nat × Value} (he : e ∈ kept) :
    ∃ k ∈ keepers, k.selector = .item (some e.1) ∧
      ∃ item, item? items slot? e.1 = some item ∧ k.keep item = .ok e.2 := by
  have hmem : Selector.item (some e.1) ∈ keepers.map selector :=
    hkept.inOrder.subset (List.mem_map_of_mem he)
  obtain ⟨k, hk, hselector⟩ := List.mem_map.mp hmem
  obtain ⟨item, hitem⟩ := Option.isSome_iff_exists.mp (hkept.found e he)
  obtain ⟨v, hv, hmem⟩ := hkept.complete k hk e.1 item hselector hitem
  have heq := (hkept.distinct hkeepers).eq_of_key hmem he rfl
  rw [← heq]
  exact ⟨k, hk, hselector, item, hitem, hv⟩

/-! ## Fields -/

/-- The field that is found for a name, with its position. -/
def field? (fields : List (String × Value)) (name : String) : Option (Nat × Value) :=
  (position? name fields).bind fun i => fields[i]?.map fun field => (i, field.2)

/-- What is known of the fields that branches keep. -/
structure FieldsKept (fields : List (String × Value)) (keepers : List Keeper)
    (kept : List (Nat × String × Value)) : Prop where
  inOrder : (kept.map fun e => Selector.property (some e.2.1)).Sublist (keepers.map selector)
  found : ∀ e ∈ kept, position? e.2.1 fields = some e.1
  named : ∀ k ∈ keepers, ∃ name, k.selector = .property (some name)
  complete : ∀ k ∈ keepers, ∀ name i field, k.selector = .property (some name) →
    field? fields name = some (i, field) → ∃ v, k.keep field = .ok v ∧ (i, name, v) ∈ kept

theorem position_of_field {fields : List (String × Value)} {name : String} {i : Nat} {v : Value}
    (hfield : field? fields name = some (i, v)) : position? name fields = some i := by
  unfold field? at hfield
  rw [Option.bind_eq_some_iff] at hfield
  obtain ⟨i', hposition, hfield⟩ := hfield
  rw [Option.map_eq_some_iff] at hfield
  obtain ⟨field, _, heq⟩ := hfield
  cases heq
  exact hposition

theorem getElem_of_field {fields : List (String × Value)} {name : String} {i : Nat} {v : Value}
    (hfield : field? fields name = some (i, v)) : fields[i]? = some (name, v) := by
  have hposition := position_of_field hfield
  unfold field? at hfield
  rw [hposition, Option.bind_some] at hfield
  obtain ⟨field, hplace, heq⟩ := Option.map_eq_some_iff.mp hfield
  cases heq
  unfold position? at hposition
  rw [List.findIdx?_eq_some_iff_getElem] at hposition
  obtain ⟨hlt, hname, _⟩ := hposition
  rw [List.getElem?_eq_getElem hlt, Option.some.injEq] at hplace
  rw [hplace] at hname
  rw [List.getElem?_eq_getElem hlt, hplace, ← eq_of_beq hname]

theorem field_of_position {fields : List (String × Value)} {name : String} {i : Nat}
    (hposition : position? name fields = some i) : ∃ v, field? fields name = some (i, v) := by
  have hrange := hposition
  unfold position? at hrange
  rw [List.findIdx?_eq_some_iff_getElem] at hrange
  obtain ⟨hlt, _⟩ := hrange
  unfold field?
  rw [hposition, Option.bind_some, List.getElem?_eq_getElem hlt]
  exact ⟨_, rfl⟩

/-- What a branch does with the field of its name. -/
inductive KeepsField (fields : List (String × Value)) (k : Keeper) :
    Option (Nat × String × Value) → Prop
  | found {name : String} {i : Nat} {field kept : Value}
      (hselector : k.selector = .property (some name))
      (hfield : field? fields name = some (i, field)) (hkept : k.keep field = .ok kept) :
      KeepsField fields k (some (i, name, kept))
  | absent {name : String} (hselector : k.selector = .property (some name))
      (hfield : field? fields name = none) (hoptional : k.required = false) :
      KeepsField fields k none

section KeepFields

variable {fields : List (String × Value)} {failure : PruneError} {keepers : List Keeper}
  {kept : List (Nat × String × Value)}

theorem keepFields_cons_eq_ok {k : Keeper} :
    keepFields fields failure (k :: keepers) = .ok kept ↔
      ∃ part others, KeepsField fields k part ∧
        keepFields fields failure keepers = .ok others ∧ part.toList ++ others = kept := by
  constructor
  · intro hkept
    unfold keepFields at hkept
    split at hkept
    · rename_i name hselector
      split at hkept
      · rename_i i field hfield
        obtain ⟨v, hfirst, hkept⟩ := bind_eq_ok hkept
        obtain ⟨others, hothers, hkept⟩ := bind_eq_ok hkept
        cases hkept
        exact ⟨_, others, .found hselector hfield hfirst, hothers, rfl⟩
      · rename_i hfield
        split at hkept
        · cases hkept
        · rename_i hoptional
          exact ⟨_, kept, .absent hselector hfield (by simpa using hoptional), hkept, rfl⟩
    · cases hkept
  · rintro ⟨part, others, hpart, hothers, rfl⟩
    unfold keepFields
    cases hpart with
    | found hselector hfield hkept =>
        unfold field? at hfield
        simp only [hselector, hfield, hkept, hothers]
        rfl
    | absent hselector hfield hoptional =>
        unfold field? at hfield
        simp only [hselector, hfield, hoptional, hothers]
        rfl

/-- Fields are kept if every branch does its part. -/
theorem keepFields_eq_ok :
    keepFields fields failure keepers = .ok kept ↔
      ∃ parts, List.Forall₂ (KeepsField fields) keepers parts ∧ parts.reduceOption = kept :=
  collect_eq_ok (keepFields fields failure) rfl fun _ _ _ => keepFields_cons_eq_ok

theorem keepFields_ok (hkept : keepFields fields failure keepers = .ok kept) :
    FieldsKept fields keepers kept := by
  obtain ⟨parts, hparts, rfl⟩ := keepFields_eq_ok.mp hkept
  refine ⟨?_, fun e he => ?_, fun k hk => ?_, fun k hk name i field hselector hfield => ?_⟩
  · refine sublist_of_parts (fun k e hpart => ?_) hparts
    cases hpart with
    | found hselector => exact hselector
  · obtain ⟨k, _, hpart⟩ := exists_of_forall₂ hparts.flip (List.reduceOption_mem_iff.mp he)
    cases hpart with
    | found _ hfield => exact position_of_field hfield
  · obtain ⟨part, _, hpart⟩ := exists_of_forall₂ hparts hk
    cases hpart with
    | found hselector | absent hselector => exact ⟨_, hselector⟩
  · obtain ⟨part, hmem, hpart⟩ := exists_of_forall₂ hparts hk
    cases hpart with
    | found hselector' hfield' hkeep =>
        cases hselector.symm.trans hselector'
        cases hfield.symm.trans hfield'
        exact ⟨_, hkeep, List.reduceOption_mem_iff.mpr hmem⟩
    | absent hselector' hfield' =>
        cases hselector.symm.trans hselector'
        cases hfield.symm.trans hfield'

end KeepFields

/-- Branches that find fields of which they keep the same, at other positions, keep the same at
these positions, and fail alike. -/
theorem keepFields_congr {fields fields' : List (String × Value)} {failure : PruneError}
    {keepers : List Keeper} {f : Nat → Nat}
    (hsame : ∀ k ∈ keepers, ∀ name, k.selector = .property (some name) →
      (field? fields' name).map (fun field => (field.1, k.keep field.2)) =
        (field? fields name).map fun field => (f field.1, k.keep field.2)) :
    keepFields fields' failure keepers = relabel f <$> keepFields fields failure keepers := by
  induction keepers with
  | nil => rfl
  | cons k rest ih =>
      have hrest := ih fun k' hk' => hsame k' (List.mem_cons_of_mem _ hk')
      unfold keepFields
      split
      · rename_i name hselector
        have hfirst := hsame k (List.mem_cons_self ..) name hselector
        rw [hrest]
        simp only [← field?.eq_1]
        cases hfield : field? fields name with
        | none =>
            rw [hfield, Option.map_none, Option.map_eq_none_iff] at hfirst
            rw [hfirst]
            cases k.required <;> rfl
        | some field =>
            rw [hfield, Option.map_some, Option.map_eq_some_iff] at hfirst
            obtain ⟨field', hfield', hkeep⟩ := hfirst
            rw [Prod.mk.injEq] at hkeep
            rw [hfield']
            simp only [hkeep.1, hkeep.2]
            cases k.keep field.2 with
            | error e => rfl
            | ok v =>
                cases keepFields fields failure rest with
                | error e => rfl
                | ok others => rfl
      · rfl

theorem FieldsKept.distinct {fields : List (String × Value)} {keepers : List Keeper}
    {kept : List (Nat × String × Value)} (hkept : FieldsKept fields keepers kept)
    (hkeepers : (keepers.map selector).Nodup) : DistinctKeys kept := by
  have hnodup := List.Pairwise.sublist hkept.inOrder hkeepers
  rw [List.pairwise_map] at hnodup
  refine List.Pairwise.imp_of_mem ?_ hnodup
  intro e e' he he' hne heq
  -- Two names at one position are the same name.
  have hposition := hkept.found e he
  have hposition' := hkept.found e' he'
  rw [← heq] at hposition'
  unfold position? at hposition hposition'
  rw [List.findIdx?_eq_some_iff_getElem] at hposition hposition'
  obtain ⟨hlt, hname, _⟩ := hposition
  obtain ⟨_, hname', _⟩ := hposition'
  apply hne
  rw [← eq_of_beq hname, eq_of_beq hname']

/-- Everything that is kept comes from a field, through the branch of its name. -/
theorem FieldsKept.origin {fields : List (String × Value)} {keepers : List Keeper}
    {kept : List (Nat × String × Value)} (hkept : FieldsKept fields keepers kept)
    (hkeepers : (keepers.map selector).Nodup) {e : Nat × String × Value} (he : e ∈ kept) :
    ∃ k ∈ keepers, k.selector = .property (some e.2.1) ∧
      ∃ field, field? fields e.2.1 = some (e.1, field) ∧ k.keep field = .ok e.2.2 := by
  have hmem : Selector.property (some e.2.1) ∈ keepers.map selector :=
    hkept.inOrder.subset (List.mem_map_of_mem he)
  obtain ⟨k, hk, hselector⟩ := List.mem_map.mp hmem
  obtain ⟨field, hfield⟩ := field_of_position (hkept.found e he)
  obtain ⟨v, hv, hmem⟩ := hkept.complete k hk e.2.1 e.1 field hselector hfield
  have heq := (hkept.distinct hkeepers).eq_of_key hmem he rfl
  rw [← heq]
  exact ⟨k, hk, hselector, field, hfield, hv⟩

/-- What was kept of a field is found under its name, at the place of its entry. -/
theorem field_of_kept {fields : List (String × Value)} {entries : List (Nat × String × Value)}
    (hfound : ∀ e ∈ entries, position? e.2.1 fields = some e.1) (hentries : DistinctKeys entries)
    {i : Nat} {name : String} {v : Value} (hv : (i, name, v) ∈ entries) :
    field? (entries.map Prod.snd) name = some (placeOf entries i, v) := by
  obtain ⟨place, hplace⟩ := List.getElem?_of_mem hv
  have hposition : position? name (entries.map Prod.snd) = some place := by
    obtain ⟨hlt, hentry⟩ := List.getElem?_eq_some_iff.mp hplace
    unfold position?
    rw [List.findIdx?_map, List.findIdx?_eq_some_iff_getElem]
    refine ⟨hlt, by simp [hentry], ?_⟩
    intro earlier hearlier hname
    -- An earlier entry of this name would come from the same field, but entries have different
    -- keys.
    have hne := List.pairwise_iff_getElem.mp hentries earlier place (by omega) hlt hearlier
    have hposition := hfound entries[earlier] (List.getElem_mem _)
    have hname' : entries[earlier].2.1 = name := by
      simpa using hname
    rw [hname', hfound (i, name, v) hv] at hposition
    rw [hentry] at hne
    cases hposition
    exact hne rfl
  have hplaceOf : placeOf entries i = place := by
    unfold placeOf
    rw [findIdx_key hentries hplace]
    rfl
  unfold field?
  rw [hposition, Option.bind_some, List.getElem?_map, hplace, hplaceOf]
  rfl

/-- A name of which nothing was kept leads nowhere. -/
theorem field_of_not_kept {entries : List (Nat × String × Value)} {name : String}
    (hname : ∀ e ∈ entries, e.2.1 ≠ name) : field? (entries.map Prod.snd) name = none := by
  have hnone : position? name (entries.map Prod.snd) = none := by
    unfold position?
    rw [List.findIdx?_map, List.findIdx?_eq_none_iff]
    intro e he
    simpa using hname e he
  unfold field?
  rw [hnone]
  rfl

section InOrder

variable {fields : List (String × Value)} {keepers : List Keeper}
  {kept : List (Nat × String × Value)} (hkept : FieldsKept fields keepers kept)

include hkept

/-- A branch that finds a field finds what it keeps of it among the kept fields, in the order of
their positions. -/
theorem FieldsKept.field_sorted (hkeepers : (keepers.map selector).Nodup) {k : Keeper}
    (hk : k ∈ keepers) {name : String} (hselector : k.selector = .property (some name)) {i : Nat}
    {field : Value} (hfield : field? fields name = some (i, field)) :
    ∃ v, k.keep field = .ok v ∧
      field? ((sortByKey kept).map Prod.snd) name = some (placeOf (sortByKey kept) i, v) := by
  obtain ⟨v, hv, hmem⟩ := hkept.complete k hk name i field hselector hfield
  have hascending := ascending_sortByKey (hkept.distinct hkeepers)
  exact ⟨v, hv, field_of_kept (fun e he => hkept.found e (mem_sortByKey.mp he))
    hascending.distinct (mem_sortByKey.mpr hmem)⟩

/-- A name without a field has none among the kept fields either. -/
theorem FieldsKept.field_sorted_eq_none {name : String} (hfield : field? fields name = none) :
    field? ((sortByKey kept).map Prod.snd) name = none := by
  refine field_of_not_kept fun e he heq => ?_
  obtain ⟨field, hfield'⟩ := field_of_position (hkept.found e (mem_sortByKey.mp he))
  rw [heq, hfield] at hfield'
  cases hfield'

end InOrder

/-! ## A whole value -/

section Whole

variable {mark : String} {node : Option Selector} {keepers : List Keeper} {all : Keeper}
  {v kept : Value}

theorem keepNamed_struct {names : List String} {fields : List (String × Value)}
    (hall : keepers.all (·.selector.isProperty) = true) :
    keepNamed mark node keepers (.struct names fields) =
      Value.struct names <$> ((fun kept => (sortByKey kept).map Prod.snd) <$>
        keepFields fields (mismatch node keepers (.struct names fields)) keepers) := by
  unfold keepNamed
  simp only [hall, if_true]
  cases keepFields fields (mismatch node keepers (.struct names fields)) keepers <;> rfl

theorem keepNamed_sequence {names : List String} {form : SequenceForm} {items : List Value}
    (hnone : anyProperty keepers = false) :
    keepNamed mark node keepers (.sequence names form items) =
      (fun kept => .sequence (Provenance.record mark ((sortByKey kept).map Prod.fst) names) form
          ((sortByKey kept).map Prod.snd)) <$>
        keepItems items (slotOf mark names items.length)
          (mismatch node keepers (.sequence names form items)) keepers := by
  unfold keepNamed
  simp only [hnone, Bool.false_eq_true, if_false]
  cases keepItems items (slotOf mark names items.length)
    (mismatch node keepers (.sequence names form items)) keepers <;> rfl

theorem all_isProperty_of_selectors {keepers' : List Keeper}
    (hselectors : ∀ k ∈ keepers, ∃ k' ∈ keepers', k.selector = k'.selector)
    (hall : keepers'.all (·.selector.isProperty) = true) :
    keepers.all (·.selector.isProperty) = true := by
  rw [List.all_eq_true] at hall ⊢
  intro k hk
  obtain ⟨k', hk', hselector⟩ := hselectors k hk
  rw [hselector]
  exact hall k' hk'

theorem anyProperty_of_selectors {keepers' : List Keeper}
    (hselectors : ∀ k ∈ keepers, ∃ k' ∈ keepers', k.selector = k'.selector)
    (hnone : anyProperty keepers' = false) : anyProperty keepers = false := by
  unfold anyProperty at hnone ⊢
  rw [List.any_eq_false] at hnone ⊢
  intro k hk
  obtain ⟨k', hk', hselector⟩ := hselectors k hk
  rw [hselector]
  exact hnone k' hk'

/-- What branches that name children keep of a value, if they keep something: of a missing value,
where no child is required, the value itself; of a container what they keep of its children, in the
order of the document. The node matters only for the failures. -/
inductive KeepsNamed (mark : String) (keepers : List Keeper) : Value → Value → Prop
  | missing {names : List String} {content : Scalar}
      (hnull : (Value.scalar names content).isNull = true)
      (hoptional : keepers.any (·.required) = false) :
      KeepsNamed mark keepers (.scalar names content) (.scalar names content)
  | struct {names : List String} {fields : List (String × Value)} {failure : PruneError}
      {kept : List (Nat × String × Value)} (hall : keepers.all (·.selector.isProperty) = true)
      (hkept : keepFields fields failure keepers = .ok kept) :
      KeepsNamed mark keepers (.struct names fields)
        (.struct names ((sortByKey kept).map Prod.snd))
  | sequence {names : List String} {form : SequenceForm} {items : List Value}
      {failure : PruneError} {kept : List (Nat × Value)} (hnone : anyProperty keepers = false)
      (hkept : keepItems items (slotOf mark names items.length) failure keepers = .ok kept) :
      KeepsNamed mark keepers (.sequence names form items)
        (.sequence (Provenance.record mark ((sortByKey kept).map Prod.fst) names) form
          ((sortByKey kept).map Prod.snd))

theorem keepNamed_eq_ok :
    keepNamed mark node keepers v = .ok kept ↔ KeepsNamed mark keepers v kept := by
  constructor
  · intro hkept
    cases v with
    | scalar names content =>
        simp only [keepNamed] at hkept
        split at hkept
        · cases hkept
        · rename_i hnull
          split at hkept
          · cases hkept
          · rename_i hoptional
            cases hkept
            exact .missing (by simpa using hnull) (by simpa using hoptional)
    | struct names fields =>
        by_cases hall : keepers.all (·.selector.isProperty) = true
        · rw [keepNamed_struct hall] at hkept
          obtain ⟨_, hfields, rfl⟩ := map_eq_ok hkept
          obtain ⟨entries, hentries, rfl⟩ := map_eq_ok hfields
          exact .struct hall hentries
        · simp only [keepNamed, hall] at hkept
          cases hkept
    | sequence names form items =>
        by_cases hany : anyProperty keepers = true
        · simp only [keepNamed, hany, if_true] at hkept
          cases hkept
        · have hnone : anyProperty keepers = false := by simpa using hany
          rw [keepNamed_sequence hnone] at hkept
          obtain ⟨entries, hentries, rfl⟩ := map_eq_ok hkept
          exact .sequence hnone hentries
  · intro hkept
    cases hkept with
    | missing hnull hoptional =>
        simp only [keepNamed, hnull, hoptional]
        rfl
    | struct hall hkept =>
        rw [keepNamed_struct hall, keepFields_eq_ok.mpr (keepFields_eq_ok.mp hkept)]
        rfl
    | sequence hnone hkept =>
        rw [keepNamed_sequence hnone, keepItems_eq_ok.mpr (keepItems_eq_ok.mp hkept)]
        rfl

/-- What a wildcard keeps of a container, if it keeps something: something of every child. A
container without children is kept only if none is required. -/
inductive KeepsAll (all : Keeper) : Value → Value → Prop
  | struct {names : List String} {fields parts : List (String × Value)}
      (hproperty : all.selector.isProperty = true)
      (hfilled : (fields.isEmpty && all.required) = false)
      (hparts : List.Forall₂ (fun field part => part.1 = field.1 ∧ all.keep field.2 = .ok part.2)
        fields parts) :
      KeepsAll all (.struct names fields) (.struct names parts)
  | sequence {names : List String} {form : SequenceForm} {items parts : List Value}
      (hproperty : all.selector.isProperty = false)
      (hfilled : (items.isEmpty && all.required) = false)
      (hparts : List.Forall₂ (fun item part => all.keep item = .ok part) items parts) :
      KeepsAll all (.sequence names form items) (.sequence names form parts)

theorem keepField_eq_ok {field part : String × Value} :
    (do return (field.1, ← all.keep field.2) : Except PruneError (String × Value)) = .ok part ↔
      part.1 = field.1 ∧ all.keep field.2 = .ok part.2 := by
  constructor
  · intro hpart
    obtain ⟨v, hv, hpart⟩ := bind_eq_ok hpart
    cases hpart
    exact ⟨rfl, hv⟩
  · rintro ⟨hname, hpart⟩
    rw [hpart, ← hname]
    rfl

theorem keepAll_eq_ok : keepAll node all v = .ok kept ↔ KeepsAll all v kept := by
  constructor
  · intro hkept
    unfold keepAll at hkept
    split at hkept
    · rename_i names fields hproperty
      split at hkept
      · cases hkept
      · rename_i hfilled
        obtain ⟨parts, hparts, hkept⟩ := bind_eq_ok hkept
        cases hkept
        exact .struct hproperty (by simpa using hfilled)
          ((mapM_eq_ok hparts).imp fun _ _ => keepField_eq_ok.mp)
    · rename_i names form items hproperty
      split at hkept
      · cases hkept
      · rename_i hfilled
        obtain ⟨parts, hparts, hkept⟩ := bind_eq_ok hkept
        cases hkept
        exact .sequence hproperty (by simpa using hfilled) (mapM_eq_ok hparts)
    · split at hkept <;> cases hkept
  · intro hkept
    unfold keepAll
    cases hkept with
    | struct hproperty hfilled hparts =>
        have hmapM := mapM_of_forall₂ (hparts.imp fun _ _ => keepField_eq_ok.mpr)
        simp only [hproperty, hfilled, hmapM]
        rfl
    | sequence hproperty hfilled hparts =>
        simp only [hproperty, hfilled, mapM_of_forall₂ hparts]
        rfl

end Whole

end DocQuery.Keeper
