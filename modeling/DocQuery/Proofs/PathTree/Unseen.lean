import DocQuery.Proofs.PathTree.Narrowing
import Mathlib.Data.List.Nodup
import Mathlib.Logic.Relation

/-!
# What pruning does not see

Pruning looks at the parts of a document that the tree names, and at nothing else. This file lists
the changes of a document that a tree does not see: fields of other names than those of the
visiting node, fields that repeat the name of an earlier one, and items of other source indices.
However many of these are made, at however many containers that the tree visits, pruning gives the
same value or fails in the same way.

Main names:

* `Branch.Unseen` — one change that branches do not see, at a container that they visit;
* `Keeper.field_insert`, `Keeper.field_replace`, `Keeper.item_replace` — what is found after it;
* `Branch.keepBelow_of_unseen` — one change, by induction on where it is made;
* `PathTree.prune_eq_of_unseen` — any number of changes.
-/

namespace DocQuery

/-! ## Changes -/

/-- The source index of the item at a place of a list of so many items: the one that is recorded
there, if the record fits. -/
def Provenance.sourceIndex (mark : String) (annotations : List String) (size place : Nat) : Nat :=
  match recorded? mark annotations with
  | some recorded => if recorded.length = size then recorded.getD place place else place
  | none => place

namespace Branch

/-- Children that are looked up in a container one by one. -/
def Naming (bs : List Branch) : Prop :=
  bs ≠ [] ∧ onlyWildcard? bs = none

/-- A field that is not looked up: it has the name of no branch, or that of an earlier field. -/
def Hidden (bs : List Branch) (before : List (String × Value)) (name : String) : Prop :=
  (∀ b ∈ bs, b.selector ≠ .property (some name)) ∨ name ∈ before.map Prod.fst

/-- One change of a value that the branches below the node which visits it do not see. It is made
in the value itself, or in a part that one of the branches visits. -/
inductive Unseen (mark : String) : List Branch → Value → Value → Prop
  | insertField {bs : List Branch} {names : List String} {before after : List (String × Value)}
      {name : String} {v : Value} (hnaming : Naming bs) (hhidden : Hidden bs before name) :
      Unseen mark bs (.struct names (before ++ after)) (.struct names (before ++ (name, v) :: after))
  | deleteField {bs : List Branch} {names : List String} {before after : List (String × Value)}
      {name : String} {v : Value} (hnaming : Naming bs) (hhidden : Hidden bs before name) :
      Unseen mark bs (.struct names (before ++ (name, v) :: after)) (.struct names (before ++ after))
  | alterField {bs : List Branch} {names : List String} {before after : List (String × Value)}
      {name : String} {v v' : Value} (hnaming : Naming bs) (hhidden : Hidden bs before name) :
      Unseen mark bs (.struct names (before ++ (name, v) :: after))
        (.struct names (before ++ (name, v') :: after))
  | replaceItem {bs : List Branch} {names : List String} {form : SequenceForm}
      {before after : List Value} {item item' : Value} (hnaming : Naming bs)
      (hhidden : ∀ b ∈ bs, b.selector ≠ .item (some (Provenance.sourceIndex mark names
        (before ++ item :: after).length before.length))) :
      Unseen mark bs (.sequence names form (before ++ item :: after))
        (.sequence names form (before ++ item' :: after))
  | inField {bs : List Branch} {b : Branch} {names : List String}
      {before after : List (String × Value)} {name : String} {v v' : Value} (hnaming : Naming bs)
      (hb : b ∈ bs) (hselector : b.selector = .property (some name))
      (hfirst : name ∉ before.map Prod.fst) (hbelow : Unseen mark b.children v v') :
      Unseen mark bs (.struct names (before ++ (name, v) :: after))
        (.struct names (before ++ (name, v') :: after))
  | inItem {bs : List Branch} {b : Branch} {names : List String} {form : SequenceForm}
      {before after : List Value} {index : Nat} {v v' : Value} (hnaming : Naming bs)
      (hb : b ∈ bs) (hselector : b.selector = .item (some index))
      (hplace : Keeper.slotOf mark names (before ++ v :: after).length index = some before.length)
      (hbelow : Unseen mark b.children v v') :
      Unseen mark bs (.sequence names form (before ++ v :: after))
        (.sequence names form (before ++ v' :: after))
  | inAnyField {b : Branch} {names : List String} {before after : List (String × Value)}
      {name : String} {v v' : Value} (hselector : b.selector = .property none)
      (hbelow : Unseen mark b.children v v') :
      Unseen mark [b] (.struct names (before ++ (name, v) :: after))
        (.struct names (before ++ (name, v') :: after))
  | inAnyItem {b : Branch} {names : List String} {form : SequenceForm}
      {before after : List Value} {v v' : Value} (hselector : b.selector = .item none)
      (hbelow : Unseen mark b.children v v') :
      Unseen mark [b] (.sequence names form (before ++ v :: after))
        (.sequence names form (before ++ v' :: after))

end Branch

/-! ## What is found after a change -/

namespace Keeper

@[simp] theorem field_nil (name : String) : field? [] name = none := rfl

/-- The first field of a name is the first one, or else the first of its name among the others. -/
theorem field_cons (first : String × Value) (rest : List (String × Value)) (name : String) :
    field? (first :: rest) name =
      if first.1 = name then some (0, first.2)
      else (field? rest name).map fun field => (field.1 + 1, field.2) := by
  unfold field? position?
  by_cases hfirst : first.1 = name
  · simp [List.findIdx?_cons, hfirst]
  · have hother : (first.1 == name) = false := by simpa using hfirst
    rw [List.findIdx?_cons, hother, if_neg hfirst]
    cases rest.findIdx? (·.1 == name) with
    | none => rfl
    | some i =>
        show (rest[i]?.map _) = (rest[i]?.map _).map _
        rw [Option.map_map]
        rfl

/-- Where the field at a position stands after another one is put at a place. -/
def shift (place i : Nat) : Nat :=
  if i < place then i else i + 1

theorem shift_succ (place i : Nat) : shift (place + 1) (i + 1) = shift place i + 1 := by
  unfold shift
  split <;> split <;> omega

theorem shift_lt_iff (place i j : Nat) : shift place i < shift place j ↔ i < j := by
  unfold shift
  split <;> split <;> omega

/-- A field that is not the first one of a name is not found under this name. -/
theorem field_insert {before : List (String × Value)} (after : List (String × Value))
    {name wanted : String} (v : Value) (hhidden : name ≠ wanted ∨ name ∈ before.map Prod.fst) :
    field? (before ++ (name, v) :: after) wanted =
      (field? (before ++ after) wanted).map fun field => (shift before.length field.1, field.2) := by
  induction before with
  | nil =>
      have hne : name ≠ wanted := by simpa using hhidden
      simp [field_cons, hne, shift]
  | cons first before ih =>
      rw [List.cons_append, List.cons_append, field_cons, field_cons]
      by_cases hfirst : first.1 = wanted
      · simp [hfirst, shift]
      · have hothers : name ≠ wanted ∨ name ∈ before.map Prod.fst := by
          rcases hhidden with hne | hmem
          · exact Or.inl hne
          · rw [List.map_cons, List.mem_cons] at hmem
            rcases hmem with rfl | hmem
            · exact Or.inl hfirst
            · exact Or.inr hmem
        rw [if_neg hfirst, if_neg hfirst, ih hothers]
        simp [Function.comp_def, shift_succ]

/-- The first field of a name is found under it, whatever its value, and no other field under
another name. -/
theorem field_replace {before : List (String × Value)} (after : List (String × Value))
    {name : String} (wanted : String) (v v' : Value) (hfirst : name ∉ before.map Prod.fst) :
    field? (before ++ (name, v') :: after) wanted =
      if name = wanted then some (before.length, v')
      else field? (before ++ (name, v) :: after) wanted := by
  induction before with
  | nil =>
      by_cases hname : name = wanted
      · simp [field_cons, hname]
      · simp [field_cons, hname]
  | cons first before ih =>
      rw [List.map_cons, List.mem_cons, not_or] at hfirst
      rw [List.cons_append, List.cons_append, field_cons, field_cons, ih hfirst.2]
      by_cases hname : name = wanted
      · have hne : first.1 ≠ wanted := fun heq => hfirst.1 (by rw [hname, heq])
        simp [hname, hne]
      · simp [hname]

/-- Another item at one place is found there only. -/
theorem item_replace (before after : List Value) (item item' : Value) (slot? : Nat → Option Nat)
    (index : Nat) :
    item? (before ++ item' :: after) slot? index =
      if slot? index = some before.length then some item'
      else item? (before ++ item :: after) slot? index := by
  unfold item?
  cases hslot : slot? index with
  | none => simp
  | some slot =>
      by_cases hplace : slot = before.length
      · simp [hplace]
      · rw [Option.bind_some, Option.bind_some, if_neg (by simpa using hplace)]
        rcases Nat.lt_or_gt_of_ne hplace with hlt | hgt
        · rw [List.getElem?_append_left hlt, List.getElem?_append_left hlt]
        · obtain ⟨more, rfl⟩ : ∃ more, slot = before.length + (more + 1) := ⟨slot - before.length - 1,
            by omega⟩
          simp [List.getElem?_append_right]

/-- The item that is found for an index has this source index. -/
theorem sourceIndex_of_slotOf {mark : String} {names : List String} {size index place : Nat}
    (hplace : slotOf mark names size index = some place) :
    Provenance.sourceIndex mark names size place = index := by
  unfold slotOf at hplace
  unfold Provenance.sourceIndex
  cases hrecorded : Provenance.recorded? mark names with
  | none =>
      rw [hrecorded] at hplace
      cases hplace
      rfl
  | some recorded =>
      rw [hrecorded] at hplace
      by_cases hfits : recorded.length = size
      · simp only [hfits, if_true] at hplace ⊢
        rw [List.findIdx?_eq_some_iff_getElem] at hplace
        obtain ⟨hlt, hindex, _⟩ := hplace
        rw [List.getD_eq_getElem?_getD, List.getElem?_eq_getElem hlt]
        exact eq_of_beq hindex
      · simp only [hfits, if_false] at hplace ⊢
        cases hplace
        rfl

/-! ## One node -/

section Node

variable {mark : String} {node : Option Selector} {keepers : List Keeper}

/-- Branches that find fields of which they keep the same, in the same order, keep the same of
two structs. -/
theorem keepNamed_struct_congr {names : List String} {fields fields' : List (String × Value)}
    {f : Nat → Nat} (hf : ∀ i j, f i < f j ↔ i < j)
    (hsame : ∀ k ∈ keepers, ∀ name, k.selector = .property (some name) →
      (field? fields' name).map (fun field => (field.1, k.keep field.2)) =
        (field? fields name).map fun field => (f field.1, k.keep field.2)) :
    keepNamed mark node keepers (.struct names fields') =
      keepNamed mark node keepers (.struct names fields) := by
  by_cases hall : keepers.all (·.selector.isProperty) = true
  · rw [keepNamed_struct hall, keepNamed_struct hall, keepFields_congr hsame]
    show _ = Value.struct names <$> (_ <$>
      keepFields fields (mismatch node keepers (.struct names fields')) keepers)
    cases keepFields fields (mismatch node keepers (.struct names fields')) keepers with
    | error e => rfl
    | ok kept =>
        show Except.ok (Value.struct names ((sortByKey (relabel f kept)).map Prod.snd)) = _
        rw [sortByKey_relabel fun e _ e' _ => hf e.1 e'.1, relabel_snd]
        rfl
  · simp only [keepNamed, hall, if_false, Bool.false_eq_true]
    rfl

/-- Branches that find items of which they keep the same keep the same of two lists. -/
theorem keepNamed_sequence_congr {names : List String} {form : SequenceForm}
    {items items' : List Value} (hlength : items'.length = items.length)
    (hsame : ∀ k ∈ keepers, ∀ index, k.selector = .item (some index) →
      (item? items' (slotOf mark names items.length) index).map k.keep =
        (item? items (slotOf mark names items.length) index).map k.keep) :
    keepNamed mark node keepers (.sequence names form items') =
      keepNamed mark node keepers (.sequence names form items) := by
  by_cases hany : anyProperty keepers = true
  · simp only [keepNamed, hany, if_true]
    rfl
  · have hnone : anyProperty keepers = false := by simpa using hany
    rw [keepNamed_sequence hnone, keepNamed_sequence hnone, hlength, keepItems_congr hsame]
    rfl

end Node

theorem mapM_replace {α β : Type} {f : α → Except PruneError β} {before after : List α} (a a' : α)
    (ha : f a' = f a) : (before ++ a' :: after).mapM f = (before ++ a :: after).mapM f := by
  simp [List.mapM_append, ha]

end Keeper

namespace Branch

variable {mark : String} {allowed : Selector → Prop}

theorem Orderly.isWildcard_of_naming {bs : List Branch} (hbs : Orderly allowed bs)
    (hnaming : Naming bs) {b : Branch} (hb : b ∈ bs) : b.selector.isWildcard = false := by
  rw [← Bool.not_eq_true]
  intro hwildcard
  have honly := hnaming.2
  rw [hbs.eq_singleton hb hwildcard] at honly
  simp [onlyWildcard?, hwildcard] at honly

theorem Orderly.keepBelow_naming {bs : List Branch} (hbs : Orderly allowed bs)
    (hnaming : Naming bs) (node : Option Selector) (v : Value) :
    Keeper.keepBelow mark node (keepers mark bs) v =
      Keeper.keepNamed mark node (keepers mark bs) v := by
  apply Keeper.keepBelow_eq_keepNamed
  · rw [keepers_eq_map, ne_eq, List.map_eq_nil_iff]
    exact hnaming.1
  · intro k hk
    obtain ⟨b, hb, rfl⟩ := mem_keepers.mp hk
    rw [keeper_selector]
    exact hbs.isWildcard_of_naming hnaming hb

/-- Two branches of one selector are the same branch. -/
theorem Orderly.eq_of_selector {bs : List Branch} (hbs : Orderly allowed bs) {b b' : Branch}
    (hb : b ∈ bs) (hb' : b' ∈ bs) (hselector : b.selector = b'.selector) : b = b' :=
  List.inj_on_of_nodup_map hbs.nodup hb hb' hselector

theorem keep_eq (mark : String) (b : Branch) (v : Value) :
    (b.keeper mark).keep v =
      Keeper.keepBelow mark (some b.selector) (keepers mark b.children) v := by
  cases b
  rfl

section Named

variable {bs : List Branch} (hbs : Orderly allowed bs) (hnaming : Naming bs)
  (node : Option Selector)

include hbs hnaming

/-- A field that is not looked up may stand there or not. -/
theorem keepBelow_insertField {names : List String} {before after : List (String × Value)}
    {name : String} (v : Value) (hhidden : Hidden bs before name) :
    Keeper.keepBelow mark node (keepers mark bs) (.struct names (before ++ (name, v) :: after)) =
      Keeper.keepBelow mark node (keepers mark bs) (.struct names (before ++ after)) := by
  rw [hbs.keepBelow_naming hnaming, hbs.keepBelow_naming hnaming]
  refine Keeper.keepNamed_struct_congr (Keeper.shift_lt_iff before.length) ?_
  intro k hk wanted hselector
  obtain ⟨b, hb, rfl⟩ := mem_keepers.mp hk
  rw [keeper_selector] at hselector
  have hnot : name ≠ wanted ∨ name ∈ before.map Prod.fst := by
    refine hhidden.imp_left fun hnone heq => ?_
    exact hnone b hb (by rw [hselector, heq])
  rw [Keeper.field_insert after v hnot, Option.map_map]
  rfl

/-- An item that is not looked up may be any other one. -/
theorem keepBelow_replaceItem {names : List String} {form : SequenceForm}
    {before after : List Value} {item item' : Value}
    (hhidden : ∀ b ∈ bs, b.selector ≠ .item (some (Provenance.sourceIndex mark names
      (before ++ item :: after).length before.length))) :
    Keeper.keepBelow mark node (keepers mark bs) (.sequence names form (before ++ item' :: after)) =
      Keeper.keepBelow mark node (keepers mark bs)
        (.sequence names form (before ++ item :: after)) := by
  rw [hbs.keepBelow_naming hnaming, hbs.keepBelow_naming hnaming]
  refine Keeper.keepNamed_sequence_congr (by simp) ?_
  intro k hk index hselector
  obtain ⟨b, hb, rfl⟩ := mem_keepers.mp hk
  rw [keeper_selector] at hselector
  rw [Keeper.item_replace before after item item', if_neg]
  intro hplace
  apply hhidden b hb
  rw [hselector, Keeper.sourceIndex_of_slotOf hplace]

/-- A field of which its branch keeps the same may be another one. -/
theorem keepBelow_inField {b : Branch} (hb : b ∈ bs) {names : List String}
    {before after : List (String × Value)} {name : String} {v v' : Value}
    (hselector : b.selector = .property (some name)) (hfirst : name ∉ before.map Prod.fst)
    (hkeep : (b.keeper mark).keep v' = (b.keeper mark).keep v) :
    Keeper.keepBelow mark node (keepers mark bs) (.struct names (before ++ (name, v') :: after)) =
      Keeper.keepBelow mark node (keepers mark bs)
        (.struct names (before ++ (name, v) :: after)) := by
  rw [hbs.keepBelow_naming hnaming, hbs.keepBelow_naming hnaming]
  refine Keeper.keepNamed_struct_congr (fun i j => (Iff.rfl : id i < id j ↔ i < j)) ?_
  intro k hk wanted hselector'
  obtain ⟨b', hb', rfl⟩ := mem_keepers.mp hk
  rw [keeper_selector] at hselector'
  rw [Keeper.field_replace after wanted v v' hfirst, Keeper.field_replace after wanted v v hfirst]
  by_cases hname : name = wanted
  · subst hname
    rw [hbs.eq_of_selector hb' hb (hselector'.trans hselector.symm), if_pos rfl, if_pos rfl]
    simp [hkeep]
  · rw [if_neg hname, if_neg hname]
    rfl

/-- An item of which its branch keeps the same may be another one. -/
theorem keepBelow_inItem {b : Branch} (hb : b ∈ bs) {names : List String} {form : SequenceForm}
    {before after : List Value} {index : Nat} {v v' : Value}
    (hselector : b.selector = .item (some index))
    (hplace : Keeper.slotOf mark names (before ++ v :: after).length index = some before.length)
    (hkeep : (b.keeper mark).keep v' = (b.keeper mark).keep v) :
    Keeper.keepBelow mark node (keepers mark bs) (.sequence names form (before ++ v' :: after)) =
      Keeper.keepBelow mark node (keepers mark bs)
        (.sequence names form (before ++ v :: after)) := by
  rw [hbs.keepBelow_naming hnaming, hbs.keepBelow_naming hnaming]
  refine Keeper.keepNamed_sequence_congr (by simp) ?_
  intro k hk index' hselector'
  obtain ⟨b', hb', rfl⟩ := mem_keepers.mp hk
  rw [keeper_selector] at hselector'
  rw [Keeper.item_replace before after v v', Keeper.item_replace before after v v]
  by_cases hplace' : Keeper.slotOf mark names (before ++ v :: after).length index' =
      some before.length
  · have hindex : index' = index := by
      rw [← Keeper.sourceIndex_of_slotOf hplace', Keeper.sourceIndex_of_slotOf hplace]
    subst hindex
    rw [hbs.eq_of_selector hb' hb (hselector'.trans hselector.symm), if_pos hplace',
      if_pos hplace']
    simp [hkeep]
  · rw [if_neg hplace', if_neg hplace']

end Named

/-- A change that branches do not see makes no difference to what they keep. -/
theorem keepBelow_of_unseen {bs : List Branch} {v v' : Value} (hbs : Orderly allowed bs)
    (hunseen : Unseen mark bs v v') (node : Option Selector) :
    Keeper.keepBelow mark node (keepers mark bs) v' =
      Keeper.keepBelow mark node (keepers mark bs) v := by
  induction hunseen generalizing node with
  | insertField hnaming hhidden => exact keepBelow_insertField hbs hnaming node _ hhidden
  | deleteField hnaming hhidden => exact (keepBelow_insertField hbs hnaming node _ hhidden).symm
  | alterField hnaming hhidden =>
      -- The field is deleted and another one is inserted.
      rw [keepBelow_insertField hbs hnaming node _ hhidden,
        keepBelow_insertField hbs hnaming node _ hhidden]
  | replaceItem hnaming hhidden => exact keepBelow_replaceItem hbs hnaming node hhidden
  | @inField bs b names before after name v v' hnaming hb hselector hfirst hbelow ih =>
      refine keepBelow_inField hbs hnaming node hb hselector hfirst ?_
      rw [keep_eq, keep_eq]
      exact ih (hbs.children hb) _
  | @inItem bs b names form before after index v v' hnaming hb hselector hplace hbelow ih =>
      refine keepBelow_inItem hbs hnaming node hb hselector hplace ?_
      rw [keep_eq, keep_eq]
      exact ih (hbs.children hb) _
  | @inAnyField b names before after name v v' hselector hbelow ih =>
      have hkeep : (b.keeper mark).keep v' = (b.keeper mark).keep v := by
        rw [keep_eq, keep_eq]
        exact ih (hbs.children (List.mem_singleton_self b)) _
      simp only [keepers, Keeper.keepBelow, keeper_selector, hselector, Selector.isWildcard,
        if_true, Keeper.keepAll, Selector.isProperty]
      rw [Keeper.mapM_replace (name, v) (name, v') (by simp only [hkeep])]
      simp
  | @inAnyItem b names form before after v v' hselector hbelow ih =>
      have hkeep : (b.keeper mark).keep v' = (b.keeper mark).keep v := by
        rw [keep_eq, keep_eq]
        exact ih (hbs.children (List.mem_singleton_self b)) _
      simp only [keepers, Keeper.keepBelow, keeper_selector, hselector, Selector.isWildcard,
        if_true, Keeper.keepAll, Selector.isProperty]
      rw [Keeper.mapM_replace v v' hkeep]
      simp

end Branch

namespace PathTree

/-- **What pruning does not see.** Let a tree be built from paths. Two documents that differ by any
number of changes that the tree does not see are pruned alike: to the same value, or with the same
failure. -/
theorem prune_eq_of_unseen {paths : List Path} {t : PathTree} {mark : String}
    {document document' : Value} (ht : ofPaths paths = .ok t)
    (hunseen : Relation.ReflTransGen (Branch.Unseen mark t.branches) document document') :
    t.prune mark document' = t.prune mark document := by
  have horderly : Branch.Orderly (fun _ => True) t.branches :=
    orderly_of_ofPaths (fun _ _ _ _ => trivial) ht
  induction hunseen with
  | refl => rfl
  | tail _ hchange ih => exact (Branch.keepBelow_of_unseen horderly hchange none).trans ih

/-- A field of another name and a field that repeats a name are deleted, and in a list that was
pruned before, the item of source index 0 is replaced: the tree names the item of index 2 only. -/
theorem prune_eq_of_unseen_recorded :
    let p : Path := ⟨⟨.property (some "a"), true⟩, [⟨.item (some 2), true⟩]⟩
    let t : PathTree := ⟨[.mk (.property (some "a")) true [.mk (.item (some 2)) true []]]⟩
    let items (first : Value) : Value := .sequence ["#0,2"] .list [first, .int 30]
    let document := Value.ofFields [("x", .int 1), ("a", items (.int 10)), ("a", .int 5)]
    let document' := Value.ofFields [("a", items (.string "other"))]
    ofPaths [p] = .ok t ∧
      Relation.ReflTransGen (Branch.Unseen "#" t.branches) document document' ∧
      t.prune "#" document' = t.prune "#" document := by
  intro p t items document document'
  have ht : ofPaths [p] = .ok t := by
    rfl
  have hnaming : Branch.Naming t.branches := by
    simp [Branch.Naming, t, onlyWildcard?, Branch.selector, Selector.isWildcard]
  have hother : Branch.Unseen "#" t.branches document
      (Value.ofFields [("a", items (.int 10)), ("a", .int 5)]) :=
    @Branch.Unseen.deleteField _ _ [] [] _ "x" _ hnaming (Or.inl (by simp [t, Branch.selector]))
  have hrepeated : Branch.Unseen "#" t.branches
      (Value.ofFields [("a", items (.int 10)), ("a", .int 5)])
      (Value.ofFields [("a", items (.int 10))]) :=
    @Branch.Unseen.deleteField _ _ [] [("a", items (.int 10))] [] "a" _ hnaming
      (Or.inr (by simp))
  have hitem : Branch.Unseen "#" t.branches (Value.ofFields [("a", items (.int 10))]) document' := by
    refine @Branch.Unseen.inField _ _ _ [] [] _ "a" _ _ hnaming (List.mem_singleton_self _) rfl
      (by simp) ?_
    refine @Branch.Unseen.replaceItem _ _ _ _ [] _ _ _ ?_ ?_
    · simp [Branch.Naming, Branch.children, onlyWildcard?, Branch.selector, Selector.isWildcard]
    · decide
  have hunseen := ((Relation.ReflTransGen.single hother).tail hrepeated).tail hitem
  exact ⟨ht, hunseen, prune_eq_of_unseen ht hunseen⟩

end PathTree

end DocQuery
