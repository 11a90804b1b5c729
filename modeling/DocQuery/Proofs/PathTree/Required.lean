import DocQuery.Proofs.PathTree.Followed

/-!
# What validation notices

A document is valid if it can be pruned. Whether it can is decided at each node by checks of its
branches, one after the other, and no check looks at what another one looks at. So if a document is
valid and one value that pruning visits is replaced, the outcome is that of the checks of this value.
In a struct that branches of names visit, these look at the first field of each name: they fail if a
required one is gone, with this very failure, and notice nothing else.

Main names:

* `Keeper.verdict` — a result without its value;
* `Keeper.verdict_keepFields`, `Keeper.verdict_keepItems`, `Keeper.verdict_mapM` — the checks of
  children, one after the other;
* `Branch.Visited` — a value that pruning visits, and what the document is with another one;
* `Branch.Visited.verdict_put` — what such a replacement does, by induction on where it is made;
* `PathTree.validate_notices` — fields that are deleted, added or changed.
-/

namespace DocQuery

namespace Keeper

/-! ## Checks -/

/-- Whether something can be kept, and else why not. -/
def verdict {α : Type} (result : Except PruneError α) : Except PruneError Unit :=
  discard result

@[simp] theorem verdict_ok {α : Type} (a : α) : verdict (.ok a : Except PruneError α) = .ok () := rfl

@[simp] theorem verdict_error {α : Type} (e : PruneError) :
    verdict (.error e : Except PruneError α) = .error e := rfl

@[simp] theorem verdict_map {α β : Type} (f : α → β) (result : Except PruneError α) :
    verdict (f <$> result) = verdict result := by
  cases result <;> rfl

theorem verdict_bind {α β : Type} (result : Except PruneError α) (f : α → Except PruneError β)
    {next : Except PruneError Unit} (hf : ∀ a, verdict (f a) = next) :
    verdict (result >>= f) = verdict result >>= fun _ => next := by
  cases result with
  | ok a => exact hf a
  | error e => rfl

/-- The check of one branch, by what it finds. -/
def check (k : Keeper) (missing : PruneError) : Option Value → Except PruneError Unit
  | some v => verdict (k.keep v)
  | none => if k.required then .error missing else .ok ()

/-- The check of a branch among fields. -/
def checkField (fields : List (String × Value)) (failure : PruneError) (k : Keeper) :
    Except PruneError Unit :=
  match k.selector with
  | .property (some name) => k.check (.missingProperty name) (Value.fieldOf name fields)
  | _ => .error failure

/-- The check of a branch among items. -/
def checkItem (items : List Value) (slot? : Nat → Option Nat) (failure : PruneError) (k : Keeper) :
    Except PruneError Unit :=
  match k.selector with
  | .item (some index) => k.check (.missingIndex index) (item? items slot? index)
  | _ => .error failure

theorem checkField_of_name {fields : List (String × Value)} {failure : PruneError} {k : Keeper}
    {name : String} (hselector : k.selector = .property (some name)) :
    checkField fields failure k = k.check (.missingProperty name) (Value.fieldOf name fields) := by
  rw [checkField, hselector]

theorem checkField_of_other {fields : List (String × Value)} {failure : PruneError} {k : Keeper}
    (hother : ∀ name, k.selector ≠ .property (some name)) :
    checkField fields failure k = .error failure := by
  unfold checkField
  split
  · rename_i name hselector
    exact absurd hselector (hother name)
  · rfl

theorem checkItem_of_index {items : List Value} {slot? : Nat → Option Nat} {failure : PruneError}
    {k : Keeper} {index : Nat} (hselector : k.selector = .item (some index)) :
    checkItem items slot? failure k = k.check (.missingIndex index) (item? items slot? index) := by
  rw [checkItem, hselector]

theorem checkItem_of_other {items : List Value} {slot? : Nat → Option Nat} {failure : PruneError}
    {k : Keeper} (hother : ∀ index, k.selector ≠ .item (some index)) :
    checkItem items slot? failure k = .error failure := by
  unfold checkItem
  split
  · rename_i index hselector
    exact absurd hselector (hother index)
  · rfl

theorem verdict_keepFields (fields : List (String × Value)) (failure : PruneError)
    (keepers : List Keeper) :
    verdict (keepFields fields failure keepers) = forM keepers (checkField fields failure) := by
  induction keepers with
  | nil => rfl
  | cons k rest ih =>
      rw [List.forM_cons, ← ih, keepFields]
      split
      · rename_i name hselector
        rw [checkField_of_name hselector, fieldOf_eq_field]
        have hfound : ((position? name fields).bind fun i => fields[i]?.map (i, ·.2)) =
            field? fields name := rfl
        rw [hfound]
        cases field? fields name with
        | some found => exact verdict_bind (k.keep found.2) _ fun kept => verdict_map _ _
        | none =>
            rw [Option.map_none, check]
            dsimp only
            split <;> rfl
      · rename_i hother
        rw [checkField_of_other hother]
        rfl

theorem verdict_keepItems (items : List Value) (slot? : Nat → Option Nat) (failure : PruneError)
    (keepers : List Keeper) :
    verdict (keepItems items slot? failure keepers) =
      forM keepers (checkItem items slot? failure) := by
  induction keepers with
  | nil => rfl
  | cons k rest ih =>
      rw [List.forM_cons, ← ih, keepItems]
      split
      · rename_i index hselector
        rw [checkItem_of_index hselector]
        have hfound : ((slot? index).bind fun slot => items[slot]?) = item? items slot? index := rfl
        rw [hfound]
        cases item? items slot? index with
        | some found => exact verdict_bind (k.keep found) _ fun kept => verdict_map _ _
        | none =>
            rw [check]
            dsimp only
            split <;> rfl
      · rename_i hother
        rw [checkItem_of_other hother]
        rfl

theorem verdict_mapM {α β : Type} (f : α → Except PruneError β) (as : List α) :
    verdict (as.mapM f) = forM as fun a => verdict (f a) := by
  induction as with
  | nil => rfl
  | cons a as ih =>
      rw [List.mapM_cons, List.forM_cons, ← ih]
      exact verdict_bind (f a) _ fun b => verdict_map _ _

/-! ## Checks one after the other -/

theorem forM_eq_ok_iff {α : Type} {as : List α} {f : α → Except PruneError Unit} :
    forM as f = .ok () ↔ ∀ a ∈ as, f a = .ok () := by
  induction as with
  | nil => simp [pure, Except.pure]
  | cons a as ih =>
      rw [List.forM_cons, List.forall_mem_cons, ← ih]
      cases f a with
      | ok _ => exact (and_iff_right rfl).symm
      | error e => exact iff_of_false nofun fun hall => nomatch hall.1

/-- If all checks but some of one outcome succeed, this is the outcome. -/
theorem forM_of_outcome {α : Type} {as : List α} {f : α → Except PruneError Unit}
    {outcome : Except PruneError Unit} (hall : ∀ a ∈ as, f a = .ok () ∨ f a = outcome)
    (hsome : ∃ a ∈ as, f a = outcome) : forM as f = outcome := by
  cases outcome with
  | ok _ => exact forM_eq_ok_iff.mpr fun a ha => (hall a ha).elim id id
  | error e =>
      induction as with
      | nil =>
          obtain ⟨a, ha, _⟩ := hsome
          cases ha
      | cons a as ih =>
          rw [List.forM_cons]
          rcases hall a (List.mem_cons_self ..) with hok | herror
          · rw [hok]
            obtain ⟨a', ha', herror⟩ := hsome
            rcases List.mem_cons.mp ha' with rfl | ha'
            · rw [hok] at herror
              cases herror
            · exact ih (fun a ha => hall a (List.mem_cons_of_mem _ ha)) ⟨a', ha', herror⟩
          · rw [herror]
            rfl

/-- If all parts of a container pass, another part in a place decides alone. -/
theorem verdict_middle {α β : Type} {f : α → Except PruneError β} {before after : List α} {a : α}
    (hvalid : verdict ((before ++ a :: after).mapM f) = .ok ()) :
    verdict (f a) = .ok () ∧ ∀ a', verdict ((before ++ a' :: after).mapM f) = verdict (f a') := by
  rw [verdict_mapM, forM_eq_ok_iff] at hvalid
  refine ⟨hvalid a (by simp), fun a' => ?_⟩
  rw [verdict_mapM]
  refine forM_of_outcome (fun other hother => ?_) ⟨a', by simp, rfl⟩
  rw [List.mem_append, List.mem_cons] at hother
  rcases hother with hbefore | rfl | hafter
  · exact Or.inl (hvalid other (by simp [hbefore]))
  · exact Or.inr rfl
  · exact Or.inl (hvalid other (by simp [hafter]))

/-! ## One node -/

theorem fieldOf_middle {before : List (String × Value)} (after : List (String × Value))
    {name : String} (v : Value) (hfirst : name ∉ before.map Prod.fst) :
    Value.fieldOf name (before ++ (name, v) :: after) = some v := by
  have hnone : before.find? (·.1 == name) = none := by
    rw [List.find?_eq_none]
    intro field hfield hname
    exact hfirst (List.mem_map.mpr ⟨field, hfield, eq_of_beq hname⟩)
  simp [Value.fieldOf, List.find?_append, hnone]

theorem fieldOf_of_ne (before after : List (String × Value)) {name wanted : String} (v v' : Value)
    (hne : name ≠ wanted) :
    Value.fieldOf wanted (before ++ (name, v) :: after) =
      Value.fieldOf wanted (before ++ (name, v') :: after) := by
  have hother : (name == wanted) = false := beq_false_of_ne hne
  simp [Value.fieldOf, List.find?_append, hother]

section Node

variable {mark : String} {node : Option Selector} {keepers : List Keeper} {names : List String}

/-- If a struct passes the checks of branches, these all name fields, and they decide of every
struct. -/
theorem verdict_struct {fields : List (String × Value)}
    (hvalid : verdict (keepNamed mark node keepers (.struct names fields)) = .ok ()) :
    (∀ k ∈ keepers, ∃ name, k.selector = .property (some name) ∧
        k.check (.missingProperty name) (Value.fieldOf name fields) = .ok ()) ∧
      ∀ fields', verdict (keepNamed mark node keepers (.struct names fields')) =
        forM keepers (checkField fields' (mismatch node keepers (.struct names fields'))) := by
  have hall : keepers.all (·.selector.isProperty) = true := by
    rw [← Bool.not_eq_false]
    intro hnot
    simp [keepNamed, hnot] at hvalid
  have hforM (fields' : List (String × Value)) :
      verdict (keepNamed mark node keepers (.struct names fields')) =
        forM keepers (checkField fields' (mismatch node keepers (.struct names fields'))) := by
    rw [keepNamed_struct hall, verdict_map, verdict_map, verdict_keepFields]
  refine ⟨fun k hk => ?_, hforM⟩
  have hcheck := forM_eq_ok_iff.mp ((hforM fields).symm.trans hvalid) k hk
  by_cases hnamed : ∃ name, k.selector = .property (some name)
  · obtain ⟨name, hselector⟩ := hnamed
    exact ⟨name, hselector, by rwa [checkField_of_name hselector] at hcheck⟩
  · rw [checkField_of_other (not_exists.mp hnamed)] at hcheck
    cases hcheck

/-- The same for lists of one length. -/
theorem verdict_sequence {form : SequenceForm} {items : List Value}
    (hvalid : verdict (keepNamed mark node keepers (.sequence names form items)) = .ok ()) :
    (∀ k ∈ keepers, ∃ index, k.selector = .item (some index) ∧
        k.check (.missingIndex index) (item? items (slotOf mark names items.length) index) =
          .ok ()) ∧
      ∀ items', items'.length = items.length →
        verdict (keepNamed mark node keepers (.sequence names form items')) =
          forM keepers (checkItem items' (slotOf mark names items.length)
            (mismatch node keepers (.sequence names form items'))) := by
  have hnone : anyProperty keepers = false := by
    rw [← Bool.not_eq_true]
    intro hany
    simp [keepNamed, hany] at hvalid
  have hforM (items' : List Value) (hlength : items'.length = items.length) :
      verdict (keepNamed mark node keepers (.sequence names form items')) =
        forM keepers (checkItem items' (slotOf mark names items.length)
          (mismatch node keepers (.sequence names form items'))) := by
    rw [keepNamed_sequence hnone, verdict_map, verdict_keepItems, hlength]
  refine ⟨fun k hk => ?_, hforM⟩
  have hcheck := forM_eq_ok_iff.mp ((hforM items rfl).symm.trans hvalid) k hk
  by_cases hindexed : ∃ index, k.selector = .item (some index)
  · obtain ⟨index, hselector⟩ := hindexed
    exact ⟨index, hselector, by rwa [checkItem_of_index hselector] at hcheck⟩
  · rw [checkItem_of_other (not_exists.mp hindexed)] at hcheck
    cases hcheck

/-- A wildcard checks every part of a container that is not empty. -/
theorem verdict_keepAll_struct {all : Keeper} {fields : List (String × Value)}
    (hproperty : all.selector.isProperty = true) (hsome : fields.isEmpty = false) :
    verdict (keepAll node all (.struct names fields)) =
      verdict (fields.mapM fun field => (fun kept => (field.1, kept)) <$> all.keep field.2) := by
  unfold keepAll
  simp only [hproperty, hsome, Bool.false_and, Bool.false_eq_true, if_false]
  exact verdict_map (Value.struct names) _

theorem verdict_keepAll_sequence {all : Keeper} {form : SequenceForm} {items : List Value}
    (hproperty : all.selector.isProperty = false) (hsome : items.isEmpty = false) :
    verdict (keepAll node all (.sequence names form items)) = verdict (items.mapM all.keep) := by
  unfold keepAll
  simp only [hproperty, hsome, Bool.false_and, Bool.false_eq_true, if_false]
  exact verdict_map (Value.sequence names form) _

end Node

end Keeper

/-! ## Values that are visited -/

namespace Branch

/-- A value that pruning visits on its way through a document, with the branches below the node that
visits it, and what the document is with another value in its place. A field is visited under its
name if it is the first of this name, and an item under its source index. -/
inductive Visited (mark : String) :
    List Branch → Value → List Branch → Value → (Value → Value) → Prop
  | here (bs : List Branch) (v : Value) : Visited mark bs v bs v id
  | inField {bs cs : List Branch} {b : Branch} {names : List String}
      {before after : List (String × Value)} {name : String} {v w : Value} {put : Value → Value}
      (hb : b ∈ bs) (hselector : b.selector = .property (some name))
      (hfirst : name ∉ before.map Prod.fst) (hbelow : Visited mark b.children v cs w put) :
      Visited mark bs (.struct names (before ++ (name, v) :: after)) cs w
        fun w' => .struct names (before ++ (name, put w') :: after)
  | inItem {bs cs : List Branch} {b : Branch} {names : List String} {form : SequenceForm}
      {before after : List Value} {index : Nat} {v w : Value} {put : Value → Value}
      (hb : b ∈ bs) (hselector : b.selector = .item (some index))
      (hplace : Keeper.slotOf mark names (before ++ v :: after).length index = some before.length)
      (hbelow : Visited mark b.children v cs w put) :
      Visited mark bs (.sequence names form (before ++ v :: after)) cs w
        fun w' => .sequence names form (before ++ put w' :: after)
  | inAnyField {cs : List Branch} {b : Branch} {names : List String}
      {before after : List (String × Value)} {name : String} {v w : Value} {put : Value → Value}
      (hselector : b.selector = .property none) (hbelow : Visited mark b.children v cs w put) :
      Visited mark [b] (.struct names (before ++ (name, v) :: after)) cs w
        fun w' => .struct names (before ++ (name, put w') :: after)
  | inAnyItem {cs : List Branch} {b : Branch} {names : List String} {form : SequenceForm}
      {before after : List Value} {v w : Value} {put : Value → Value}
      (hselector : b.selector = .item none) (hbelow : Visited mark b.children v cs w put) :
      Visited mark [b] (.sequence names form (before ++ v :: after)) cs w
        fun w' => .sequence names form (before ++ put w' :: after)

variable {mark : String} {allowed : Selector → Prop} {bs cs : List Branch} {d w : Value}
  {put : Value → Value}

namespace Visited

/-- With the value itself in its place, the document is what it was. -/
theorem put_self (hvisited : Visited mark bs d cs w put) : put w = d := by
  induction hvisited with
  | here => rfl
  | inField _ _ _ _ ih => simp only [ih]
  | inItem _ _ _ _ ih => simp only [ih]
  | inAnyField _ _ ih => simp only [ih]
  | inAnyItem _ _ ih => simp only [ih]

theorem orderly (hvisited : Visited mark bs d cs w put) (hbs : Orderly allowed bs) :
    Orderly allowed cs := by
  induction hvisited with
  | here => exact hbs
  | inField hb _ _ _ ih => exact ih (hbs.children hb)
  | inItem hb _ _ _ ih => exact ih (hbs.children hb)
  | inAnyField _ _ ih => exact ih (hbs.children (List.mem_singleton_self _))
  | inAnyItem _ _ ih => exact ih (hbs.children (List.mem_singleton_self _))

end Visited

open Keeper

/-- An outcome with any value in a place is that of the check of a branch, and it is a success with
the value that is there. -/
def DecidedBy (mark : String) (b : Branch) (v : Value) (outcome : Value → Except PruneError Unit) :
    Prop :=
  verdict ((b.keeper mark).keep v) = .ok () ∧ ∀ v', outcome v' = verdict ((b.keeper mark).keep v')

/-- A node with a branch that is no wildcard looks children up one by one. -/
theorem naming_of_mem {b : Branch} (hb : b ∈ bs) (hplain : b.selector.isWildcard = false) :
    Naming bs := by
  refine ⟨List.ne_nil_of_mem hb, ?_⟩
  unfold onlyWildcard?
  split
  · obtain rfl := List.mem_singleton.mp hb
    rw [hplain]
    rfl
  · rfl

section Step

variable (hbs : Orderly allowed bs) (node : Option Selector)

include hbs

/-- If the fields of all names but one are what they were in a valid struct, the branch of this name
decides. -/
theorem verdict_fields {b : Branch} (hb : b ∈ bs) {names : List String}
    {fields : List (String × Value)} {name : String} (hselector : b.selector = .property (some name))
    (hvalid : verdict (keepBelow mark node (keepers mark bs) (.struct names fields)) = .ok ())
    (fields' : List (String × Value))
    (hsame : ∀ b' ∈ bs, ∀ wanted, b'.selector = .property (some wanted) → wanted ≠ name →
      Value.fieldOf wanted fields' = Value.fieldOf wanted fields) :
    verdict (keepBelow mark node (keepers mark bs) (.struct names fields')) =
      (b.keeper mark).check (.missingProperty name) (Value.fieldOf name fields') := by
  have hnaming : Naming bs := naming_of_mem hb (by rw [hselector]; rfl)
  rw [hbs.keepBelow_naming hnaming] at hvalid ⊢
  obtain ⟨hchecks, hverdict⟩ := verdict_struct hvalid
  have hkeeper : b.keeper mark ∈ keepers mark bs :=
    mem_keepers.mpr ⟨b, hb, rfl⟩
  have hwanted : (b.keeper mark).selector = .property (some name) := by
    rw [keeper_selector, hselector]
  rw [hverdict]
  refine forM_of_outcome (fun k hk => ?_) ⟨_, hkeeper, checkField_of_name hwanted⟩
  obtain ⟨wanted, hname, hcheck⟩ := hchecks k hk
  rw [checkField_of_name hname]
  obtain ⟨b', hb', rfl⟩ := mem_keepers.mp hk
  rw [keeper_selector] at hname
  by_cases hother : wanted = name
  · subst hother
    rw [hbs.eq_of_selector hb' hb (hname.trans hselector.symm)]
    exact Or.inr rfl
  · rw [hsame b' hb' wanted hname hother]
    exact Or.inl hcheck

/-- Another value of a field decides alone, if the document is valid. -/
theorem decidedBy_field {b : Branch} (hb : b ∈ bs) {names : List String}
    {before after : List (String × Value)} {name : String} {v : Value}
    (hselector : b.selector = .property (some name)) (hfirst : name ∉ before.map Prod.fst)
    (hvalid : verdict (keepBelow mark node (keepers mark bs)
      (.struct names (before ++ (name, v) :: after))) = .ok ()) :
    DecidedBy mark b v fun v' => verdict (keepBelow mark node (keepers mark bs)
      (.struct names (before ++ (name, v') :: after))) := by
  have hall (v' : Value) := verdict_fields hbs node hb hselector hvalid
    (before ++ (name, v') :: after)
    fun _ _ _ _ hne => fieldOf_of_ne before after v' v (Ne.symm hne)
  simp only [fieldOf_middle after _ hfirst] at hall
  exact ⟨(hall v).symm.trans hvalid, hall⟩

/-- Another value of an item decides alone. -/
theorem decidedBy_item {b : Branch} (hb : b ∈ bs) {names : List String}
    {form : SequenceForm} {before after : List Value} {index : Nat} {v : Value}
    (hselector : b.selector = .item (some index))
    (hplace : slotOf mark names (before ++ v :: after).length index = some before.length)
    (hvalid : verdict (keepBelow mark node (keepers mark bs)
      (.sequence names form (before ++ v :: after))) = .ok ()) :
    DecidedBy mark b v fun v' => verdict (keepBelow mark node (keepers mark bs)
      (.sequence names form (before ++ v' :: after))) := by
  have hnaming : Naming bs := naming_of_mem hb (by rw [hselector]; rfl)
  rw [hbs.keepBelow_naming hnaming] at hvalid
  obtain ⟨hchecks, hverdict⟩ := verdict_sequence hvalid
  have hitem (v' : Value) (index' : Nat) :=
    item_replace before after v v' (slotOf mark names (before ++ v :: after).length) index'
  have hkeeper : b.keeper mark ∈ keepers mark bs :=
    mem_keepers.mpr ⟨b, hb, rfl⟩
  have hwanted : (b.keeper mark).selector = .item (some index) := by
    rw [keeper_selector, hselector]
  -- Any other branch looks at another place, since an index has one place only: its check still
  -- passes. So the check of this branch decides.
  refine ⟨?_, fun v' => ?_⟩
  · obtain ⟨index', hindex', hcheck⟩ := hchecks _ hkeeper
    obtain rfl : index = index' :=
      Option.some.inj (Selector.item.inj (hwanted.symm.trans hindex'))
    rwa [hitem v, if_pos hplace] at hcheck
  · show verdict _ = _
    rw [hbs.keepBelow_naming hnaming, hverdict _ (by simp)]
    refine forM_of_outcome (fun k hk => ?_) ⟨_, hkeeper, ?_⟩
    · obtain ⟨index', hindex', hcheck⟩ := hchecks k hk
      rw [checkItem_of_index hindex', hitem v' index']
      by_cases hsame : slotOf mark names (before ++ v :: after).length index' = some before.length
      · rw [if_pos hsame]
        obtain rfl : index' = index :=
          (sourceIndex_of_slotOf hsame).symm.trans (sourceIndex_of_slotOf hplace)
        obtain ⟨b', hb', rfl⟩ := mem_keepers.mp hk
        rw [keeper_selector] at hindex'
        rw [hbs.eq_of_selector hb' hb (hindex'.trans hselector.symm)]
        exact Or.inr rfl
      · rw [if_neg hsame]
        exact Or.inl hcheck
    · rw [checkItem_of_index hwanted, hitem v' index, if_pos hplace]
      rfl

end Step

theorem keepBelow_any {b : Branch} (hwildcard : b.selector.isWildcard = true)
    (node : Option Selector) (v : Value) :
    keepBelow mark node (keepers mark [b]) v = keepAll node (b.keeper mark) v := by
  simp only [keepers, keepBelow, keeper_selector, hwildcard, if_true]

/-- Another value of a field below a wildcard decides alone. -/
theorem decidedBy_anyField {b : Branch} (node : Option Selector) {names : List String}
    {before after : List (String × Value)} {name : String} {v : Value}
    (hselector : b.selector = .property none)
    (hvalid : verdict (keepBelow mark node (keepers mark [b])
      (.struct names (before ++ (name, v) :: after))) = .ok ()) :
    DecidedBy mark b v fun v' => verdict (keepBelow mark node (keepers mark [b])
      (.struct names (before ++ (name, v') :: after))) := by
  have hkeep (v' : Value) :
      verdict (keepBelow mark node (keepers mark [b]) (.struct names (before ++ (name, v') :: after))) =
        verdict ((before ++ (name, v') :: after).mapM fun field =>
          (fun kept => (field.1, kept)) <$> (b.keeper mark).keep field.2) := by
    rw [keepBelow_any (by rw [hselector]; rfl), verdict_keepAll_struct
      (by rw [keeper_selector, hselector]; rfl) (by simp)]
  rw [hkeep] at hvalid
  obtain ⟨hv, hall⟩ := verdict_middle hvalid
  rw [verdict_map] at hv
  exact ⟨hv, fun v' => (hkeep v').trans ((hall _).trans (verdict_map _ _))⟩

/-- Another value of an item below a wildcard decides alone. -/
theorem decidedBy_anyItem {b : Branch} (node : Option Selector) {names : List String}
    {form : SequenceForm} {before after : List Value} {v : Value}
    (hselector : b.selector = .item none)
    (hvalid : verdict (keepBelow mark node (keepers mark [b])
      (.sequence names form (before ++ v :: after))) = .ok ()) :
    DecidedBy mark b v fun v' => verdict (keepBelow mark node (keepers mark [b])
      (.sequence names form (before ++ v' :: after))) := by
  have hkeep (v' : Value) :
      verdict (keepBelow mark node (keepers mark [b]) (.sequence names form (before ++ v' :: after))) =
        verdict ((before ++ v' :: after).mapM (b.keeper mark).keep) := by
    rw [keepBelow_any (by rw [hselector]; rfl), verdict_keepAll_sequence
      (by rw [keeper_selector, hselector]; rfl) (by simp)]
  rw [hkeep] at hvalid
  obtain ⟨hv, hall⟩ := verdict_middle hvalid
  exact ⟨hv, fun v' => (hkeep v').trans (hall v')⟩

/-- What decides in a part that a branch visits decides in the whole. -/
theorem DecidedBy.below {b : Branch} {v : Value} {outcome : Value → Except PruneError Unit}
    (hdecided : DecidedBy mark b v outcome)
    (hbelow : ∀ node, verdict (keepBelow mark node (keepers mark b.children) v) = .ok () →
      ∃ node', verdict (keepBelow mark node' (keepers mark cs) w) = .ok () ∧
        ∀ w', verdict (keepBelow mark node (keepers mark b.children) (put w')) =
          verdict (keepBelow mark node' (keepers mark cs) w')) :
    ∃ node', verdict (keepBelow mark node' (keepers mark cs) w) = .ok () ∧
      ∀ w', outcome (put w') = verdict (keepBelow mark node' (keepers mark cs) w') := by
  obtain ⟨hv, hall⟩ := hdecided
  rw [keep_eq] at hv
  obtain ⟨node', hw, hput⟩ := hbelow _ hv
  refine ⟨node', hw, fun w' => ?_⟩
  rw [hall, keep_eq, hput]

/-- Another value at a place that pruning visits decides alone, if the document is valid. -/
theorem Visited.verdict_put (hvisited : Visited mark bs d cs w put) (hbs : Orderly allowed bs)
    (node : Option Selector)
    (hvalid : verdict (keepBelow mark node (keepers mark bs) d) = .ok ()) :
    ∃ node', verdict (keepBelow mark node' (keepers mark cs) w) = .ok () ∧
      ∀ w', verdict (keepBelow mark node (keepers mark bs) (put w')) =
        verdict (keepBelow mark node' (keepers mark cs) w') := by
  induction hvisited generalizing node with
  | here => exact ⟨node, hvalid, fun _ => rfl⟩
  | inField hb hselector hfirst _ ih =>
      exact (decidedBy_field hbs node hb hselector hfirst hvalid).below (ih (hbs.children hb))
  | inItem hb hselector hplace _ ih =>
      exact (decidedBy_item hbs node hb hselector hplace hvalid).below (ih (hbs.children hb))
  | inAnyField hselector _ ih =>
      exact (decidedBy_anyField node hselector hvalid).below
        (ih (hbs.children (List.mem_singleton_self _)))
  | inAnyItem hselector _ ih =>
      exact (decidedBy_anyItem node hselector hvalid).below
        (ih (hbs.children (List.mem_singleton_self _)))

/-! ## Fields of a struct that is visited -/

/-- Whether one of the branches has the name of a field. -/
def names (bs : List Branch) (field : String × Value) : Bool :=
  bs.any (·.selector == .property (some field.1))

/-- A field is found among those that pass a test, if all of its name do. -/
theorem fieldOf_filter {wanted : String} {fields : List (String × Value)}
    {test : String × Value → Bool} (htest : ∀ field, field.1 = wanted → test field = true) :
    Value.fieldOf wanted (fields.filter test) = Value.fieldOf wanted fields := by
  have hsame : (fun field => decide (test field = true ∧ (field.1 == wanted) = true)) =
      fun field : String × Value => field.1 == wanted := by
    funext field
    by_cases hname : field.1 = wanted
    · simp [hname, htest field hname]
    · simp [hname]
  rw [Value.fieldOf, List.find?_filter, hsame]
  rfl

theorem fieldOf_deleted (name : String) (fields : List (String × Value)) :
    Value.fieldOf name (fields.filter (·.1 != name)) = none := by
  rw [Value.fieldOf, Option.map_eq_none_iff, List.find?_eq_none]
  intro field hfield hname
  have hkept := (List.mem_filter.mp hfield).2
  simp [eq_of_beq hname] at hkept

/-- What validation notices in a struct that a branch of a name visits. -/
theorem verdict_notices (hbs : Orderly allowed bs) (node : Option Selector) {b : Branch}
    (hb : b ∈ bs) {names : List String} {fields : List (String × Value)} {name : String}
    (hselector : b.selector = .property (some name))
    (hvalid : verdict (keepBelow mark node (keepers mark bs) (.struct names fields)) = .ok ()) :
    verdict (keepBelow mark node (keepers mark bs) (.struct names (fields.filter (·.1 != name)))) =
        (if b.required then .error (.missingProperty name) else .ok ()) ∧
      ∀ fields', fields'.filter (Branch.names bs) = fields.filter (Branch.names bs) →
        verdict (keepBelow mark node (keepers mark bs) (.struct names fields')) = .ok () := by
  have hwhole := verdict_fields hbs node hb hselector hvalid fields fun _ _ _ _ _ => rfl
  refine ⟨?_, fun fields' hfields => ?_⟩
  · have hdeleted := verdict_fields hbs node hb hselector hvalid
      (fields.filter (·.1 != name)) fun _ _ _ _ hne =>
        fieldOf_filter fun field hname => by simpa [hname] using hne
    rw [hdeleted, fieldOf_deleted]
    cases b
    rfl
  · -- A name of a branch leads to the same field in what both structs have for the branches.
    have hsame (b' : Branch) (hb' : b' ∈ bs) (wanted : String)
        (hname : b'.selector = .property (some wanted)) :
        Value.fieldOf wanted fields' = Value.fieldOf wanted fields := by
      have hnamed (field : String × Value) (hfield : field.1 = wanted) :
          Branch.names bs field = true :=
        List.any_eq_true.mpr ⟨b', hb', by rw [hname, hfield]; exact beq_self_eq_true _⟩
      rw [← fieldOf_filter hnamed, hfields, fieldOf_filter hnamed]
    rw [verdict_fields hbs node hb hselector hvalid fields' fun b' hb' wanted hname _ =>
      hsame b' hb' wanted hname, hsame b hb name hselector, ← hwhole]
    exact hvalid

end Branch

namespace PathTree

theorem validate_eq (t : PathTree) (d : Value) :
    t.validate d = Keeper.verdict (Keeper.keepBelow Provenance.defaultMark none
      (Branch.keepers Provenance.defaultMark t.branches) d) := rfl

/-- **What validation notices.** Let a document be valid for a tree that was built from paths, and
let pruning visit a struct of it at a node which has a branch for the fields of a name. If these
fields are deleted, validation fails for want of this name precisely if the branch is required; and
it notices no change of a struct that leaves the fields alone which the branches of the node name. -/
theorem validate_notices {paths : List Path} {t : PathTree} {d : Value} {cs : List Branch}
    {names : List String} {fields : List (String × Value)} {put : Value → Value} {name : String}
    {required : Bool} {below : List Branch} (ht : ofPaths paths = .ok t)
    (hvalid : t.validate d = .ok ())
    (hvisited : Branch.Visited Provenance.defaultMark t.branches d cs (.struct names fields) put)
    (hchild : Branch.mk (.property (some name)) required below ∈ cs) :
    put (.struct names fields) = d ∧
      t.validate (put (.struct names (fields.filter (·.1 != name)))) =
        (if required then .error (.missingProperty name) else .ok ()) ∧
      ∀ fields', fields'.filter (Branch.names cs) = fields.filter (Branch.names cs) →
        t.validate (put (.struct names fields')) = .ok () := by
  have horderly : Branch.Orderly (fun _ => True) t.branches :=
    orderly_of_ofPaths (fun _ _ _ _ => trivial) ht
  rw [validate_eq] at hvalid
  obtain ⟨node, hstruct, hput⟩ := hvisited.verdict_put horderly none hvalid
  obtain ⟨hdeleted, hothers⟩ :=
    Branch.verdict_notices (hvisited.orderly horderly) node hchild rfl hstruct
  refine ⟨hvisited.put_self, ?_, fun fields' hfields => ?_⟩
  · rw [validate_eq, hput]
    exact hdeleted
  · rw [validate_eq, hput]
    exact hothers fields' hfields

/-- A struct in a list that was pruned before, where it has source index 2 and stands second. -/
theorem validate_notices_recorded :
    let p : Path := ⟨⟨.property (some "a"), true⟩, [⟨.item (some 2), true⟩, ⟨.property (some "id"), true⟩]⟩
    let q : Path := ⟨⟨.property (some "a"), true⟩, [⟨.item (some 2), true⟩, ⟨.property (some "n"), false⟩]⟩
    let leaves := [Branch.mk (.property (some "id")) true [], .mk (.property (some "n")) false []]
    let t : PathTree := ⟨[.mk (.property (some "a")) true [.mk (.item (some 2)) true leaves]]⟩
    let fields := [("id", .int 1), ("n", .int 2), ("id", .int 3)]
    let document (w : Value) := Value.ofFields
      [("x", .int 1), ("a", .sequence ["$indices:0,2"] .list [.int 10, w])]
    ofPaths [p, q] = .ok t ∧ t.validate (document (.struct [] fields)) = .ok () ∧
      t.validate (document (.struct [] [("n", .int 2)])) = .error (.missingProperty "id") ∧
      t.validate (document (.struct [] [("id", .int 1), ("id", .int 3)])) = .ok () ∧
      t.validate (document (.struct [] (("y", .int 5) :: fields))) = .ok () := by
  intro p q leaves t fields document
  have ht : ofPaths [p, q] = .ok t := rfl
  have hvalid : t.validate (document (.struct [] fields)) = .ok () := by
    rfl
  have hitem : Branch.Visited Provenance.defaultMark [.mk (.item (some 2)) true leaves]
      (.sequence ["$indices:0,2"] .list [.int 10, .struct [] fields]) leaves (.struct [] fields)
      fun w => .sequence ["$indices:0,2"] .list [.int 10, w] :=
    @Branch.Visited.inItem _ _ _ _ _ _ [.int 10] [] _ _ _ _ (List.mem_singleton_self _) rfl (by decide)
      (.here _ _)
  have hvisited : Branch.Visited Provenance.defaultMark t.branches (document (.struct [] fields)) leaves
      (.struct [] fields) document :=
    @Branch.Visited.inField _ _ _ _ _ [("x", .int 1)] [] _ _ _ _ (List.mem_singleton_self _) rfl
      (by decide) hitem
  obtain ⟨_, hid, hothers⟩ := validate_notices ht hvalid hvisited (List.mem_cons_self ..)
  obtain ⟨_, hn, _⟩ := validate_notices ht hvalid hvisited
    (List.mem_cons_of_mem _ (List.mem_singleton_self _))
  exact ⟨ht, hvalid, hid, hn, hothers (("y", .int 5) :: fields) rfl⟩

end PathTree

end DocQuery
