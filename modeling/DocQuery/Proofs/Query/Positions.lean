import DocQuery.Proofs.Expression.Sessions
import DocQuery.Query.Select

/-!
# What a query answers

A value stands in a document at the slots, of fields or of items, through which it is reached.  A
query answers step by step from everything that the steps before have reached.  This module shows
that this breadth-first search lists the values at all positions whose steps are admitted, once
each, in the order of the document, and that it fails exactly where a predicate goes wrong on a
value it is asked about.

Positions reached by the same number of steps have the same length, which is why their order is
kept when each of them is extended by one slot (`concat_lt_concat`).

Main names:

* `QueryStep.Admits`, `Query.Admitted` — the children that a step admits, and the positions that
  all steps of a query admit;
* `QueryStep.Faults`, `Query.Stumbles` — what makes a query fail;
* `Enumerates` — a list of what stands in a relation, in order;
* `Query.select_positions` — the main result.
-/

namespace DocQuery

/-! ## Positions -/

/-- Where a value stands in a document: on every level the number of a field or of an item. -/
abbrev Position := List Nat

namespace Value

/-- The child at a slot of a container, with its key. -/
def childAt? : Value → Nat → Option Match
  | .struct _ fields, slot => fields[slot]?.map fun (name, v) => (.property name, v)
  | .sequence _ _ items, slot => items[slot]?.map fun v => (.item slot, v)
  | .scalar _ _, _ => none

/-- The value at a position. -/
def descend? : Value → Position → Option Value
  | v, [] => some v
  | v, slot :: p => (v.childAt? slot).bind fun m => descend? m.2 p

/-- The value at a position with its key in the last container. -/
def matchAt? (v : Value) (p : Position) : Option Match := do
  let slot ← p.getLast?
  let container ← v.descend? p.dropLast
  container.childAt? slot

theorem descend?_append (v : Value) (p q : Position) :
    v.descend? (p ++ q) = (v.descend? p).bind fun w => w.descend? q := by
  induction p generalizing v with
  | nil => rfl
  | cons slot p ih =>
      simp only [List.cons_append, descend?]
      cases v.childAt? slot with
      | none => rfl
      | some m => exact ih m.2

theorem matchAt?_concat (v : Value) (p : Position) (slot : Nat) :
    v.matchAt? (p ++ [slot]) = (v.descend? p).bind fun w => w.childAt? slot := by
  simp [matchAt?]

theorem descend?_concat (v : Value) (p : Position) (slot : Nat) :
    v.descend? (p ++ [slot]) = (v.matchAt? (p ++ [slot])).map Prod.snd := by
  rw [matchAt?_concat, descend?_append]
  cases v.descend? p with
  | none => rfl
  | some w =>
      simp only [Option.bind_some, descend?]
      cases w.childAt? slot <;> rfl

end Value

/-! ## Lists of what stands in a relation -/

section Enumerations

variable {ι β : Type} [LT ι]

/-- The list holds what stands somewhere, each once, in the order of the places. -/
def Enumerates (stands : ι → β → Prop) (bs : List β) : Prop :=
  ∃ places : List ι, places.Pairwise (· < ·) ∧ List.Forall₂ stands places bs ∧
    ∀ i b, stands i b → i ∈ places

variable {stands stands' : ι → β → Prop} {bs : List β}

theorem Enumerates.congr (hbs : Enumerates stands bs) (hiff : ∀ i b, stands i b ↔ stands' i b) :
    Enumerates stands' bs := by
  obtain ⟨places, horder, hstands, hall⟩ := hbs
  refine ⟨places, horder, hstands.imp fun i b => (hiff i b).mp, ?_⟩
  intro i b hi
  exact hall i b ((hiff i b).mpr hi)

theorem enumerates_none (hnone : ∀ i b, ¬stands i b) : Enumerates stands [] :=
  ⟨[], .nil, .nil, fun i b hi => absurd hi (hnone i b)⟩

theorem enumerates_one {i : ι} {b : β} (hi : stands i b) (hall : ∀ j c, stands j c → j = i) :
    Enumerates stands [b] := by
  refine ⟨[i], List.pairwise_singleton _ i, .cons hi .nil, ?_⟩
  intro j c hj
  rw [hall j c hj]
  exact List.mem_singleton_self i

theorem Enumerates.exists_of_mem (hbs : Enumerates stands bs) {b : β} (hb : b ∈ bs) :
    ∃ i, stands i b := by
  obtain ⟨places, _, hstands, _⟩ := hbs
  obtain ⟨i, _, hi⟩ := exists_of_forall₂ hstands.flip hb
  exact ⟨i, hi⟩

theorem Enumerates.mem (hbs : Enumerates stands bs)
    (hunique : ∀ i b c, stands i b → stands i c → b = c) {i : ι} {b : β} (hi : stands i b) :
    b ∈ bs := by
  obtain ⟨places, _, hstands, hall⟩ := hbs
  obtain ⟨c, hc, hi'⟩ := exists_of_forall₂ hstands (hall i b hi)
  rw [hunique i b c hi hi']
  exact hc

/-- The members of a list that pass a test stand at their indices. -/
theorem enumerates_filter {α : Type} (keep : α → Bool) (as : List α) :
    Enumerates (fun (i : Nat) a => as[i]? = some a ∧ keep a = true) (as.filter keep) := by
  induction as with
  | nil => exact enumerates_none fun i a h => by simp at h
  | cons a as ih =>
      -- The places of the tail move by one; the head has the place before them if it is kept.
      obtain ⟨places, horder, hstands, hall⟩ := ih
      have horder' : (places.map (· + 1)).Pairwise (· < ·) :=
        List.pairwise_map.mpr (horder.imp fun h => Nat.succ_lt_succ h)
      have hstands' : List.Forall₂ (fun (i : Nat) b => (a :: as)[i]? = some b ∧ keep b = true)
          (places.map (· + 1)) (as.filter keep) :=
        List.forall₂_map_left_iff.mpr (hstands.imp fun i b h => by simpa using h)
      cases hkeep : keep a with
      | false =>
          refine ⟨places.map (· + 1), horder', ?_, ?_⟩
          · rw [List.filter_cons_of_neg (by simp [hkeep])]
            exact hstands'
          · intro i b hb
            cases i with
            | zero =>
                obtain ⟨heq, hb⟩ := hb
                cases heq
                rw [hkeep] at hb
                cases hb
            | succ i => exact List.mem_map.mpr ⟨i, hall i b (by simpa using hb), rfl⟩
      | true =>
          refine ⟨0 :: places.map (· + 1), List.pairwise_cons.mpr ⟨?_, horder'⟩, ?_, ?_⟩
          · intro i hi
            obtain ⟨j, _, rfl⟩ := List.mem_map.mp hi
            exact Nat.succ_pos j
          · rw [List.filter_cons_of_pos hkeep]
            exact .cons ⟨rfl, hkeep⟩ hstands'
          · intro i b hb
            cases i with
            | zero => exact List.mem_cons_self ..
            | succ i =>
                exact List.mem_cons_of_mem _
                  (List.mem_map.mpr ⟨i, hall i b (by simpa using hb), rfl⟩)

theorem enumerates_all {α : Type} (as : List α) :
    Enumerates (fun (i : Nat) a => as[i]? = some a) as := by
  have hall := enumerates_filter (fun _ => true) as
  rw [List.filter_true] at hall
  exact hall.congr fun i a => by simp

end Enumerations

/-- The order of positions of one length is that of their extensions. -/
theorem concat_lt_concat {p q : Position} (hlt : p < q) (hlength : p.length = q.length)
    (slot slot' : Nat) : p ++ [slot] < q ++ [slot'] := by
  induction p generalizing q with
  | nil =>
      cases q with
      | nil => exact absurd hlt (List.lt_irrefl _)
      | cons n q => cases hlength
  | cons m p ih =>
      cases q with
      | nil => cases hlength
      | cons n q =>
          rw [List.cons_append, List.cons_append, List.cons_lt_cons_iff]
          rcases List.cons_lt_cons_iff.mp hlt with hless | ⟨heq, hlt⟩
          · exact Or.inl hless
          · exact Or.inr ⟨heq, ih hlt (Nat.succ.inj hlength)⟩

/-- What is reached by one more slot is listed by listing it for each position in turn. -/
theorem Enumerates.extend {n : Nat} {reached : Position → Value → Prop}
    {admits : Value → Nat → Match → Prop} (hlength : ∀ p v, reached p v → p.length = n)
    (hunique : ∀ p v w, reached p v → reached p w → v = w) {vs : List Value}
    {found : List (List Match)} (hvs : Enumerates reached vs)
    (hfound : List.Forall₂ (fun v ms => Enumerates (admits v) ms) vs found) :
    Enumerates (fun p m => ∃ q slot v, p = q ++ [slot] ∧ reached q v ∧ admits v slot m)
      found.flatten := by
  obtain ⟨places, horder, hreached, hall⟩ := hvs
  -- The induction needs to know more of the new places: each continues an old one by one slot,
  -- which puts all that continue an earlier place before those that continue a later one.
  suffices hlists : ∃ places' : List Position, places'.Pairwise (· < ·) ∧
      (∀ p ∈ places', ∃ q ∈ places, ∃ slot, p = q ++ [slot] ∧ q.length = n) ∧
      List.Forall₂ (fun p m => ∃ q slot v, p = q ++ [slot] ∧ reached q v ∧ admits v slot m)
        places' found.flatten ∧
      ∀ q ∈ places, ∀ v slot m, reached q v → admits v slot m → q ++ [slot] ∈ places' by
    obtain ⟨places', horder', _, hstands, hcomplete⟩ := hlists
    refine ⟨places', horder', hstands, ?_⟩
    rintro p m ⟨q, slot, v, rfl, hq, hm⟩
    exact hcomplete q (hall q v hq) v slot m hq hm
  clear hall
  induction hreached generalizing found with
  | nil =>
      cases hfound
      exact ⟨[], .nil, by simp, .nil, by simp⟩
  | @cons q v places vs hq hreached ih =>
      cases hfound with
      | @cons _ ms _ found hms hfound =>
          obtain ⟨hfirst, horder⟩ := List.pairwise_cons.mp horder
          obtain ⟨slots, hslots, hadmits, hevery⟩ := hms
          -- Below the first place the slots decide the order, and between places the places do.
          obtain ⟨later, hlater, hprefix, hstands, hcomplete⟩ := ih hfound horder
          refine ⟨slots.map (q ++ [·]) ++ later, ?_, ?_, ?_, ?_⟩
          · refine List.pairwise_append.mpr ⟨?_, hlater, ?_⟩
            · exact List.pairwise_map.mpr
                (hslots.imp fun h => List.append_left_lt (List.cons_lt_cons_iff.mpr (Or.inl h)))
            · intro p hp p' hp'
              obtain ⟨slot, _, rfl⟩ := List.mem_map.mp hp
              obtain ⟨q', hq', slot', rfl, hsame⟩ := hprefix p' hp'
              exact concat_lt_concat (hfirst q' hq') ((hlength q v hq).trans hsame.symm) slot slot'
          · intro p hp
            rcases List.mem_append.mp hp with hp | hp
            · obtain ⟨slot, _, rfl⟩ := List.mem_map.mp hp
              exact ⟨q, List.mem_cons_self .., slot, rfl, hlength q v hq⟩
            · obtain ⟨q', hq', slot, rfl, hsame⟩ := hprefix p hp
              exact ⟨q', List.mem_cons_of_mem _ hq', slot, rfl, hsame⟩
          · refine List.rel_append ?_ hstands
            exact List.forall₂_map_left_iff.mpr
              (hadmits.imp fun slot m hm => ⟨q, slot, v, rfl, hq, hm⟩)
          · intro q' hq' w slot m hw hm
            rcases List.mem_cons.mp hq' with rfl | hq'
            · obtain rfl := hunique q' v w hq hw
              exact List.mem_append_left _ (List.mem_map.mpr ⟨slot, hevery slot m hm, rfl⟩)
            · exact List.mem_append_right _ (hcomplete q' hq' w slot m hw hm)

/-! ## What a step admits -/

namespace QueryStep

variable {context : Context}

/-- What a predicate says about a candidate. -/
def verdict (context : Context) (predicate : Expression) (candidate : Match) :
    Except EvalError Value :=
  outcome (predicate.evaluate { context with candidate := some candidate }) (.new 0)

/-- Whether a verdict is true. -/
def approves : Except EvalError Value → Bool
  | .ok (.scalar _ (.bool b)) => b
  | _ => false

/-- A verdict that is a failure, or a value that is neither a truth value nor missing. -/
def IsFaulty : Except EvalError Value → Prop
  | .ok v => v.isNull = false ∧ v.kind ≠ .bool
  | .error _ => True

/-- The children that a step admits: the first field of a name, the item of an index, all children of
its family, or those of which its predicate is true. -/
inductive Admits (context : Context) : QueryStep → Value → Nat → Match → Prop
  | named {names : List String} {fields : List (String × Value)} {slot : Nat} {name : String}
      {v : Value} (hfield : fields[slot]? = some (name, v))
      (hfirst : ∀ earlier < slot, ∀ w, fields[earlier]? ≠ some (name, w)) :
      Admits context (.plain (.property (some name))) (.struct names fields) slot (.property name, v)
  | indexed {names : List String} {form : SequenceForm} {items : List Value} {slot : Nat} {v : Value}
      (hitem : items[slot]? = some v) :
      Admits context (.plain (.item (some slot))) (.sequence names form items) slot (.item slot, v)
  | anyField {names : List String} {fields : List (String × Value)} {slot : Nat} {name : String}
      {v : Value} (hfield : fields[slot]? = some (name, v)) :
      Admits context (.plain (.property none)) (.struct names fields) slot (.property name, v)
  | anyItem {names : List String} {form : SequenceForm} {items : List Value} {slot : Nat} {v : Value}
      (hitem : items[slot]? = some v) :
      Admits context (.plain (.item none)) (.sequence names form items) slot (.item slot, v)
  | fieldWhere {names : List String} {fields : List (String × Value)} {slot : Nat} {name : String}
      {v : Value} {predicate : Expression} (hfield : fields[slot]? = some (name, v))
      (htrue : approves (verdict context predicate (.property name, v)) = true) :
      Admits context (.fieldsWhere predicate) (.struct names fields) slot (.property name, v)
  | itemWhere {names : List String} {form : SequenceForm} {items : List Value} {slot : Nat}
      {v : Value} {predicate : Expression} (hitem : items[slot]? = some v)
      (htrue : approves (verdict context predicate (.item slot, v)) = true) :
      Admits context (.itemsWhere predicate) (.sequence names form items) slot (.item slot, v)

/-- A step whose predicate has a faulty verdict about a child that it is asked about. -/
inductive Faults (context : Context) : QueryStep → Value → Prop
  | field {names : List String} {fields : List (String × Value)} {slot : Nat} {name : String}
      {v : Value} {predicate : Expression} (hfield : fields[slot]? = some (name, v))
      (hfaulty : IsFaulty (verdict context predicate (.property name, v))) :
      Faults context (.fieldsWhere predicate) (.struct names fields)
  | item {names : List String} {form : SequenceForm} {items : List Value} {slot : Nat} {v : Value}
      {predicate : Expression} (hitem : items[slot]? = some v)
      (hfaulty : IsFaulty (verdict context predicate (.item slot, v))) :
      Faults context (.itemsWhere predicate) (.sequence names form items)

theorem Admits.childAt? {step : QueryStep} {container : Value} {slot : Nat} {m : Match}
    (hm : Admits context step container slot m) : container.childAt? slot = some m := by
  cases hm with
  | named h | indexed h | anyField h | anyItem h | fieldWhere h | itemWhere h =>
      simp [Value.childAt?, h]

/-! ### Fields and items -/

theorem getElem?_fieldMatches (fields : List (String × Value)) (slot : Nat) :
    (fieldMatches fields)[slot]? = fields[slot]?.map fun (name, v) => (.property name, v) := by
  simp [fieldMatches]

theorem getElem?_itemMatches (index : Nat) (items : List Value) (slot : Nat) :
    (itemMatches index items)[slot]? = items[slot]?.map fun v => (.item (index + slot), v) := by
  induction items generalizing index slot with
  | nil => rfl
  | cons v items ih =>
      cases slot with
      | zero => rfl
      | succ slot =>
          rw [itemMatches, List.getElem?_cons_succ, ih, List.getElem?_cons_succ]
          simp only [Nat.add_assoc, Nat.add_comm 1 slot]

theorem getElem?_fieldMatches_eq_some {fields : List (String × Value)} {slot : Nat} {m : Match} :
    (fieldMatches fields)[slot]? = some m ↔
      ∃ name v, fields[slot]? = some (name, v) ∧ (.property name, v) = m := by
  simp [getElem?_fieldMatches]

theorem getElem?_itemMatches_eq_some {items : List Value} {slot : Nat} {m : Match} :
    (itemMatches 0 items)[slot]? = some m ↔ ∃ v, items[slot]? = some v ∧ (.item slot, v) = m := by
  simp [getElem?_itemMatches]

/-- The first of the fields of a name. -/
theorem enumerates_named (names : List String) (fields : List (String × Value)) (name : String) :
    Enumerates (Admits context (.plain (.property (some name))) (.struct names fields))
      ((fieldMatches fields).find? (·.1 = .property name)).toList := by
  cases hfind : (fieldMatches fields).find? (·.1 = .property name) with
  | none =>
      refine enumerates_none fun slot m hm => ?_
      cases hm with
      | @named _ _ _ _ v hfield _ =>
          have hmem : (Key.property name, v) ∈ fieldMatches fields :=
            List.mem_of_getElem? (getElem?_fieldMatches_eq_some.mpr ⟨name, v, hfield, rfl⟩)
          have hnot := List.find?_eq_none.mp hfind _ hmem
          simp at hnot
  | some m =>
      obtain ⟨hkey, slot, hslot, hget, hfirst⟩ := List.find?_eq_some_iff_getElem.mp hfind
      obtain ⟨key, v⟩ := m
      obtain rfl : key = .property name := by simpa using hkey
      have hfield : fields[slot]? = some (name, v) := by
        have hm := List.getElem?_eq_some_iff.mpr ⟨hslot, hget⟩
        obtain ⟨name', v', hfield, heq⟩ := getElem?_fieldMatches_eq_some.mp hm
        cases heq
        exact hfield
      -- The field is the first one of its name, so no other slot is admitted.
      have hearlier : ∀ earlier < slot, ∀ w, fields[earlier]? ≠ some (name, w) := by
        intro earlier hearlier w hw
        have hm := getElem?_fieldMatches_eq_some.mpr ⟨name, w, hw, rfl⟩
        obtain ⟨hlt, hm⟩ := List.getElem?_eq_some_iff.mp hm
        have hnot := hfirst earlier hearlier
        rw [hm] at hnot
        simp at hnot
      refine enumerates_one (.named hfield hearlier) fun slot' m' hm' => ?_
      cases hm' with
      | named hfield' hearlier' =>
          rcases Nat.lt_trichotomy slot' slot with hlt | heq | hgt
          · exact absurd hfield' (hearlier slot' hlt _)
          · exact heq
          · exact absurd hfield (hearlier' slot hgt _)

/-- What a selector selects is what it admits. -/
theorem enumerates_selected (s : Selector) (container : Value) :
    Enumerates (Admits context (.plain s) container) (selected s container) := by
  -- A selector for properties admits nothing in a list, and one for items nothing in a struct.
  cases container with
  | scalar names content =>
      cases s with
      | property name =>
          cases name <;> exact enumerates_none fun slot m hm => by cases hm
      | item index =>
          cases index <;> exact enumerates_none fun slot m hm => by cases hm
  | sequence names form items =>
      cases s with
      | property name =>
          cases name <;> exact enumerates_none fun slot m hm => by cases hm
      | item index =>
          cases index with
          | none =>
              refine (enumerates_all (itemMatches 0 items)).congr fun slot m => ?_
              rw [getElem?_itemMatches_eq_some]
              constructor
              · rintro ⟨v, hitem, rfl⟩
                exact .anyItem hitem
              · intro hm
                cases hm with
                | anyItem hitem => exact ⟨_, hitem, rfl⟩
          | some index =>
              rw [selected]
              cases hitem : items[index]? with
              | none =>
                  refine enumerates_none fun slot m hm => ?_
                  cases hm with
                  | indexed hitem' =>
                      rw [hitem] at hitem'
                      cases hitem'
              | some v =>
                  refine enumerates_one (.indexed hitem) fun slot m hm => ?_
                  cases hm with
                  | indexed hitem' => rfl
  | struct names fields =>
      cases s with
      | item index =>
          cases index <;> exact enumerates_none fun slot m hm => by cases hm
      | property name =>
          cases name with
          | some name => exact enumerates_named names fields name
          | none =>
              refine (enumerates_all (fieldMatches fields)).congr fun slot m => ?_
              rw [getElem?_fieldMatches_eq_some]
              constructor
              · rintro ⟨name, v, hfield, rfl⟩
                exact .anyField hfield
              · intro hm
                cases hm with
                | anyField hfield => exact ⟨_, _, hfield, rfl⟩

/-! ### Predicates -/

/-- A predicate holds where its verdict is true, and fails where that is faulty. -/
theorem yields_holds (context : Context) (predicate : Expression) (candidate : Match) :
    (¬IsFaulty (verdict context predicate candidate) ∧
        Yields Regex.Cache.Faithful (holds context predicate candidate)
          (.ok (approves (verdict context predicate candidate)))) ∨
      (IsFaulty (verdict context predicate candidate) ∧
        ∃ e, Yields Regex.Cache.Faithful (holds context predicate candidate) (.error e)) := by
  -- The store that the verdict is defined with does not matter.
  obtain ⟨result, hresult⟩ :=
    Expression.steady_evaluate { context with candidate := some candidate } predicate
  have hverdict : verdict context predicate candidate = result :=
    hresult.outcome_eq (Regex.Cache.faithful_new 0)
  rw [hverdict]
  unfold holds
  cases result with
  | error e => exact Or.inr ⟨trivial, e, yields_bind_error _ hresult⟩
  | ok v =>
      -- A truth value decides, null rejects, and everything else is a fault.
      cases v with
      | scalar names content =>
          cases content with
          | bool b => exact Or.inl ⟨fun h => h.2 rfl, yields_bind hresult (yields_pure b)⟩
          | null kind =>
              refine Or.inl ⟨fun h => ?_, yields_bind hresult (yields_pure false)⟩
              cases h.1
          | text form content =>
              cases form <;>
                exact Or.inr ⟨⟨rfl, by rintro ⟨⟩⟩, _, yields_bind hresult (yields_lift (.error _))⟩
          | _ => exact Or.inr ⟨⟨rfl, by rintro ⟨⟩⟩, _, yields_bind hresult (yields_lift (.error _))⟩
      | sequence names form items =>
          cases form <;>
            exact Or.inr ⟨⟨rfl, by rintro ⟨⟩⟩, _, yields_bind hresult (yields_lift (.error _))⟩
      | struct names fields =>
          exact Or.inr ⟨⟨rfl, by rintro ⟨⟩⟩, _, yields_bind hresult (yields_lift (.error _))⟩

/-- Of several candidates those are admitted of which the predicate is true, unless it has a faulty
verdict about one of them. -/
theorem yields_admitted (context : Context) (predicate : Expression) (candidates : List Match) :
    ((∀ c ∈ candidates, ¬IsFaulty (verdict context predicate c)) ∧
        Yields Regex.Cache.Faithful (admitted context predicate candidates)
          (.ok (candidates.filter fun c => approves (verdict context predicate c)))) ∨
      ((∃ c ∈ candidates, IsFaulty (verdict context predicate c)) ∧
        ∃ e, Yields Regex.Cache.Faithful (admitted context predicate candidates) (.error e)) := by
  induction candidates with
  | nil => exact Or.inl ⟨by simp, yields_pure []⟩
  | cons c candidates ih =>
      rw [admitted]
      rcases yields_holds context predicate c with ⟨hfine, hholds⟩ | ⟨hfaulty, e, hfails⟩
      · rcases ih with ⟨hothers, hadmitted⟩ | ⟨⟨c', hc', hfaulty⟩, e, hfails⟩
        · refine Or.inl ⟨List.forall_mem_cons.mpr ⟨hfine, hothers⟩, ?_⟩
          rw [List.filter_cons]
          exact yields_bind hholds (yields_bind hadmitted (yields_pure _))
        · refine Or.inr ⟨⟨c', List.mem_cons_of_mem _ hc', hfaulty⟩, e, ?_⟩
          exact yields_bind hholds (yields_bind_error _ hfails)
      · exact Or.inr ⟨⟨c, List.mem_cons_self .., hfaulty⟩, e, yields_bind_error _ hfails⟩

/-- A step lists what it admits, unless it faults. -/
def Expands (context : Context) (step : QueryStep) (container : Value) : Prop :=
  (¬Faults context step container ∧ ∃ ms, Enumerates (Admits context step container) ms ∧
      Yields Regex.Cache.Faithful (step.expand context container) (.ok ms)) ∨
    (Faults context step container ∧
      ∃ e, Yields Regex.Cache.Faithful (step.expand context container) (.error e))

theorem expands_where {predicate : Expression} {step : QueryStep} {container : Value}
    {candidates : List Match}
    (hexpand : step.expand context container = admitted context predicate candidates)
    (hadmits : ∀ slot m, candidates[slot]? = some m ∧
      approves (verdict context predicate m) = true ↔ Admits context step container slot m)
    (hfaults : (∃ c ∈ candidates, IsFaulty (verdict context predicate c)) ↔
      Faults context step container) :
    Expands context step container := by
  unfold Expands
  rw [hexpand]
  rcases yields_admitted context predicate candidates with ⟨hfine, hadmitted⟩ | ⟨hfaulty, hfails⟩
  · refine Or.inl ⟨fun hfault => ?_, _, (enumerates_filter _ candidates).congr hadmits, hadmitted⟩
    obtain ⟨c, hc, hfaulty⟩ := hfaults.mpr hfault
    exact hfine c hc hfaulty
  · exact Or.inr ⟨hfaults.mp hfaulty, hfails⟩

/-- A predicate is not asked about the children of another family. -/
theorem expands_nothing {step : QueryStep} {container : Value}
    (hexpand : step.expand context container = pure [])
    (hadmits : ∀ slot m, ¬Admits context step container slot m)
    (hfaults : ¬Faults context step container) : Expands context step container := by
  unfold Expands
  rw [hexpand]
  exact Or.inl ⟨hfaults, [], enumerates_none hadmits, yields_pure []⟩

theorem expands (context : Context) (step : QueryStep) (container : Value) :
    Expands context step container := by
  -- The matches of a filter are the children that are selected and pass, and a fault is a child
  -- whose verdict is one.
  cases step with
  | plain s =>
      refine Or.inl ⟨fun hfault => ?_, _, enumerates_selected s container, yields_pure _⟩
      cases hfault
  | fieldsWhere predicate =>
      cases container with
      | scalar names content | sequence names form items =>
          exact expands_nothing rfl (fun slot m hm => by cases hm) fun hfault => by cases hfault
      | struct names fields =>
          refine expands_where rfl (fun slot m => ?_) ?_
          · rw [selected, getElem?_fieldMatches_eq_some]
            constructor
            · rintro ⟨⟨name, v, hfield, rfl⟩, htrue⟩
              exact .fieldWhere hfield htrue
            · intro hm
              cases hm with
              | fieldWhere hfield htrue => exact ⟨⟨_, _, hfield, rfl⟩, htrue⟩
          · constructor
            · rintro ⟨c, hc, hfaulty⟩
              obtain ⟨slot, hslot⟩ := List.mem_iff_getElem?.mp hc
              obtain ⟨name, v, hfield, rfl⟩ := getElem?_fieldMatches_eq_some.mp hslot
              exact .field hfield hfaulty
            · intro hfault
              cases hfault with
              | field hfield hfaulty =>
                  exact ⟨_, List.mem_of_getElem?
                    (getElem?_fieldMatches_eq_some.mpr ⟨_, _, hfield, rfl⟩), hfaulty⟩
  | itemsWhere predicate =>
      cases container with
      | scalar names content | struct names fields =>
          exact expands_nothing rfl (fun slot m hm => by cases hm) fun hfault => by cases hfault
      | sequence names form items =>
          refine expands_where rfl (fun slot m => ?_) ?_
          · rw [selected, getElem?_itemMatches_eq_some]
            constructor
            · rintro ⟨⟨v, hitem, rfl⟩, htrue⟩
              exact .itemWhere hitem htrue
            · intro hm
              cases hm with
              | itemWhere hitem htrue => exact ⟨⟨_, hitem, rfl⟩, htrue⟩
          · constructor
            · rintro ⟨c, hc, hfaulty⟩
              obtain ⟨slot, hslot⟩ := List.mem_iff_getElem?.mp hc
              obtain ⟨v, hitem, rfl⟩ := getElem?_itemMatches_eq_some.mp hslot
              exact .item hitem hfaulty
            · intro hfault
              cases hfault with
              | item hitem hfaulty =>
                  exact ⟨_, List.mem_of_getElem?
                    (getElem?_itemMatches_eq_some.mpr ⟨_, hitem, rfl⟩), hfaulty⟩

/-- Several containers are expanded one after the other. -/
theorem expandsAll (context : Context) (step : QueryStep) (containers : List Value) :
    ((∀ v ∈ containers, ¬Faults context step v) ∧
        ∃ found, List.Forall₂ (fun v ms => Enumerates (Admits context step v) ms) containers found ∧
          Yields Regex.Cache.Faithful (step.expandAll context containers) (.ok found.flatten)) ∨
      ((∃ v ∈ containers, Faults context step v) ∧
        ∃ e, Yields Regex.Cache.Faithful (step.expandAll context containers) (.error e)) := by
  induction containers with
  | nil => exact Or.inl ⟨by simp, [], .nil, yields_pure []⟩
  | cons v containers ih =>
      rw [expandAll]
      rcases expands context step v with ⟨hfine, ms, hms, hexpand⟩ | ⟨hfault, e, hfails⟩
      · rcases ih with ⟨hothers, found, hfound, hlater⟩ | ⟨⟨w, hw, hfault⟩, e, hfails⟩
        · refine Or.inl ⟨List.forall_mem_cons.mpr ⟨hfine, hothers⟩, ms :: found,
            .cons hms hfound, ?_⟩
          exact yields_bind hexpand (yields_bind hlater (yields_pure _))
        · refine Or.inr ⟨⟨w, List.mem_cons_of_mem _ hw, hfault⟩, e, ?_⟩
          exact yields_bind hexpand (yields_bind_error _ hfails)
      · exact Or.inr ⟨⟨v, List.mem_cons_self .., hfault⟩, e, yields_bind_error _ hfails⟩

end QueryStep

/-! ## What a query answers -/

namespace Query

open QueryStep

variable {context : Context}

/-- Whether every step of a position is admitted by the step of a query in its place. -/
def Admitted (context : Context) : List QueryStep → Value → Position → Prop
  | [], _, [] => True
  | step :: steps, container, slot :: p =>
    ∃ m, Admits context step container slot m ∧ Admitted context steps m.2 p
  | _, _, _ => False

/-- Where a query, after its earlier steps, reaches a candidate of which a predicate of its later
steps has a faulty verdict. -/
def Stumbles (context : Context) (earlier later : List QueryStep) (document : Value) : Prop :=
  ∃ between step beyond p container, later = between ++ step :: beyond ∧
    Admitted context (earlier ++ between) document p ∧
    document.descend? p = some container ∧ Faults context step container

theorem length_of_admitted {steps : List QueryStep} {document : Value} {p : Position}
    (hp : Admitted context steps document p) : p.length = steps.length := by
  induction steps generalizing document p with
  | nil =>
      cases p with
      | nil => rfl
      | cons slot p => cases hp
  | cons step steps ih =>
      cases p with
      | nil => cases hp
      | cons slot p =>
          obtain ⟨m, _, hp⟩ := hp
          exact congrArg Nat.succ (ih hp)

/-- The last step is admitted in the container that the steps before it lead to. -/
theorem admitted_concat {steps : List QueryStep} {step : QueryStep} {document : Value}
    {p : Position} : Admitted context (steps ++ [step]) document p ↔
      ∃ q slot container m, p = q ++ [slot] ∧ Admitted context steps document q ∧
        document.descend? q = some container ∧ Admits context step container slot m := by
  -- Positions are taken apart from the front, and the last step is at the back, so the induction is
  -- on the steps before it.
  induction steps generalizing document p with
  | nil =>
      cases p with
      | nil =>
          constructor
          · exact False.elim
          · rintro ⟨q, slot, _, _, heq, _⟩
            simp at heq
      | cons slot p =>
          constructor
          · rintro ⟨m, hm, hp⟩
            cases p with
            | nil => exact ⟨[], slot, document, m, rfl, trivial, rfl, hm⟩
            | cons slot' p => cases hp
          · rintro ⟨q, slot', container, m, heq, hq, hcontainer, hm⟩
            obtain rfl := List.eq_nil_of_length_eq_zero (length_of_admitted hq)
            cases heq
            cases hcontainer
            exact ⟨m, hm, trivial⟩
  | cons first steps ih =>
      cases p with
      | nil =>
          constructor
          · exact False.elim
          · rintro ⟨q, slot, _, _, heq, _⟩
            simp at heq
      | cons slot p =>
          constructor
          · rintro ⟨m, hm, hp⟩
            obtain ⟨q, slot', container, m', rfl, hq, hcontainer, hm'⟩ := ih.mp hp
            refine ⟨slot :: q, slot', container, m', rfl, ⟨m, hm, hq⟩, ?_, hm'⟩
            rw [Value.descend?, hm.childAt?]
            exact hcontainer
          · rintro ⟨q, slot', container, m', heq, hq, hcontainer, hm'⟩
            cases q with
            | nil => cases hq
            | cons slot'' q =>
                cases heq
                obtain ⟨m, hm, hq⟩ := hq
                rw [Value.descend?, hm.childAt?] at hcontainer
                exact ⟨m, hm, ih.mpr ⟨q, slot', container, m', rfl, hq, hcontainer, hm'⟩⟩

/-- The values that a query has reached after some steps. -/
abbrev Reached (context : Context) (steps : List QueryStep) (vs : List Value) : Prop :=
  Enumerates (fun p v => Admitted context steps context.document p ∧
    context.document.descend? p = some v) vs

/-- The values with their keys that a query has found after its steps. -/
abbrev Found (context : Context) (steps : List QueryStep) (ms : List Match) : Prop :=
  Enumerates (fun p m => Admitted context steps context.document p ∧
    context.document.matchAt? p = some m) ms

theorem Reached.mem {steps : List QueryStep} {vs : List Value} (hvs : Reached context steps vs)
    {p : Position} {v : Value} (hp : Admitted context steps context.document p)
    (hv : context.document.descend? p = some v) : v ∈ vs :=
  Enumerates.mem hvs (fun _ _ _ hv hw => Option.some.inj (hv.2.symm.trans hw.2)) ⟨hp, hv⟩

theorem reached_document (context : Context) : Reached context [] [context.document] := by
  have hroot : Admitted context [] context.document [] := trivial
  refine enumerates_one ⟨hroot, rfl⟩ fun p v hv => ?_
  exact List.eq_nil_of_length_eq_zero (length_of_admitted hv.1)

/-- One step further. -/
theorem Reached.found {steps : List QueryStep} {step : QueryStep} {vs : List Value}
    {found : List (List Match)} (hvs : Reached context steps vs)
    (hfound : List.Forall₂ (fun v ms => Enumerates (Admits context step v) ms) vs found) :
    Found context (steps ++ [step]) found.flatten := by
  have hextended := hvs.extend (fun p v hv => length_of_admitted hv.1)
    (fun p v w hv hw => Option.some.inj (hv.2.symm.trans hw.2)) hfound
  refine hextended.congr fun p m => ?_
  rw [admitted_concat]
  constructor
  · rintro ⟨q, slot, v, rfl, ⟨hq, hv⟩, hm⟩
    refine ⟨⟨q, slot, v, m, rfl, hq, hv, hm⟩, ?_⟩
    rw [Value.matchAt?_concat, hv]
    exact hm.childAt?
  · rintro ⟨⟨q, slot, v, m', rfl, hq, hv, hm'⟩, hm⟩
    rw [Value.matchAt?_concat, hv] at hm
    obtain rfl := Option.some.inj (hm'.childAt?.symm.trans hm)
    exact ⟨q, slot, v, rfl, ⟨hq, hv⟩, hm'⟩

/-- The values found are those reached. -/
theorem Found.reached {steps : List QueryStep} {step : QueryStep} {ms : List Match}
    (hms : Found context (steps ++ [step]) ms) :
    Reached context (steps ++ [step]) (ms.map Prod.snd) := by
  obtain ⟨places, horder, hstands, hall⟩ := hms
  refine ⟨places, horder, ?_, ?_⟩
  · refine List.forall₂_map_right_iff.mpr (hstands.imp fun p m hm => ⟨hm.1, ?_⟩)
    obtain ⟨q, slot, _, _, rfl, _⟩ := admitted_concat.mp hm.1
    rw [Value.descend?_concat, hm.2]
    rfl
  · rintro p v ⟨hp, hv⟩
    obtain ⟨q, slot, container, m, rfl, _, hcontainer, hm⟩ := admitted_concat.mp hp
    refine hall _ m ⟨hp, ?_⟩
    rw [Value.matchAt?_concat, hcontainer]
    exact hm.childAt?

theorem stumbles_cons {earlier later : List QueryStep} {step : QueryStep} {document : Value} :
    Stumbles context earlier (step :: later) document ↔
      (∃ p container, Admitted context earlier document p ∧
        document.descend? p = some container ∧ Faults context step container) ∨
        Stumbles context (earlier ++ [step]) later document := by
  -- The step that stumbles is the first of the remaining ones, or it comes later.
  constructor
  · rintro ⟨between, step', beyond, p, container, heq, hp, hcontainer, hfault⟩
    cases between with
    | nil =>
        cases heq
        rw [List.append_nil] at hp
        exact Or.inl ⟨p, container, hp, hcontainer, hfault⟩
    | cons first between =>
        cases heq
        refine Or.inr ⟨between, step', beyond, p, container, rfl, ?_, hcontainer, hfault⟩
        rw [List.append_assoc]
        exact hp
  · rintro (⟨p, container, hp, hcontainer, hfault⟩ |
      ⟨between, step', beyond, p, container, rfl, hp, hcontainer, hfault⟩)
    · refine ⟨[], step, later, p, container, rfl, ?_, hcontainer, hfault⟩
      rw [List.append_nil]
      exact hp
    · refine ⟨step :: between, step', beyond, p, container, rfl, ?_, hcontainer, hfault⟩
      rw [List.append_assoc] at hp
      exact hp

/-- A query goes on from what it has found after its earlier steps: it finds what all its steps admit,
unless it stumbles. -/
theorem selectFrom_spec (earlier : List QueryStep) (step : QueryStep) (later : List QueryStep)
    {ms : List Match} (hms : Found context (earlier ++ [step]) ms) :
    (¬Stumbles context (earlier ++ [step]) later context.document ∧
        ∃ ms', Found context (earlier ++ step :: later) ms' ∧
          Yields Regex.Cache.Faithful (selectFrom context later ms) (.ok ms')) ∨
      (Stumbles context (earlier ++ [step]) later context.document ∧
        ∃ e, Yields Regex.Cache.Faithful (selectFrom context later ms) (.error e)) := by
  -- The invariant is that the matches so far enumerate what the earlier steps admit.
  induction later generalizing earlier step ms with
  | nil =>
      refine Or.inl ⟨?_, ms, hms, yields_pure ms⟩
      rintro ⟨between, _, _, _, _, heq, _⟩
      simp at heq
  | cons next later ih =>
      have hreached := hms.reached
      rw [selectFrom, stumbles_cons]
      rcases expandsAll context next (ms.map Prod.snd) with
        ⟨hfine, found, hfound, hexpand⟩ | ⟨⟨v, hv, hfault⟩, e, hfails⟩
      -- No container faults this step, so what remains decides.
      · have hnow : ¬∃ p container, Admitted context (earlier ++ [step]) context.document p ∧
            context.document.descend? p = some container ∧ Faults context next container := by
          rintro ⟨p, container, hp, hcontainer, hfault⟩
          exact hfine container (hreached.mem hp hcontainer) hfault
        rcases ih (earlier ++ [step]) next (hreached.found hfound) with
          ⟨hlater, ms', hms', hselect⟩ | ⟨hstumbles, e, hfails⟩
        · refine Or.inl ⟨fun h => h.elim hnow hlater, ms', ?_, yields_bind hexpand hselect⟩
          simpa using hms'
        · exact Or.inr ⟨Or.inr hstumbles, e, yields_bind hexpand hfails⟩
      · obtain ⟨p, hp, hcontainer⟩ := hreached.exists_of_mem hv
        exact Or.inr ⟨Or.inl ⟨p, v, hp, hcontainer, hfault⟩, e, yields_bind_error _ hfails⟩

/-- A query finds what its steps admit, unless it stumbles. -/
theorem select_spec (context : Context) (step : QueryStep) (later : List QueryStep) :
    (¬Stumbles context [] (step :: later) context.document ∧
        ∃ ms, Found context (step :: later) ms ∧
          Yields Regex.Cache.Faithful (select context ⟨step :: later⟩) (.ok ms)) ∨
      (Stumbles context [] (step :: later) context.document ∧
        ∃ e, Yields Regex.Cache.Faithful (select context ⟨step :: later⟩) (.error e)) := by
  rw [select, stumbles_cons]
  rcases expands context step context.document with
    ⟨hfine, ms, hms, hexpand⟩ | ⟨hfault, e, hfails⟩
  · have hfound : Found context ([] ++ [step]) ms := by
      have hflatten := (reached_document context).found (.cons hms .nil)
      simpa using hflatten
    -- Only the document is reached by no steps.
    have hnow : ¬∃ p container, Admitted context [] context.document p ∧
        context.document.descend? p = some container ∧ Faults context step container := by
      rintro ⟨p, container, hp, hcontainer, hfault⟩
      have hmem := (reached_document context).mem hp hcontainer
      rw [List.mem_singleton] at hmem
      exact hfine (hmem ▸ hfault)
    rcases selectFrom_spec [] step later hfound with
      ⟨hlater, ms', hms', hselect⟩ | ⟨hstumbles, e, hfails⟩
    · exact Or.inl ⟨fun h => h.elim hnow hlater, ms', hms', yields_bind hexpand hselect⟩
    · exact Or.inr ⟨Or.inr hstumbles, e, yields_bind hexpand hfails⟩
  · have hroot : Admitted context [] context.document [] := trivial
    exact Or.inr ⟨Or.inl ⟨[], context.document, hroot, rfl, hfault⟩, e,
      yields_bind_error _ hfails⟩

/-- What is found stands at all positions that the steps admit. -/
theorem Found.positions {steps : List QueryStep} {ms : List Match} (hms : Found context steps ms)
    (hsteps : steps ≠ []) :
    ∃ positions : List Position, positions.Pairwise (· < ·) ∧
      (∀ p, p ∈ positions ↔ Admitted context steps context.document p) ∧
      List.Forall₂ (fun p m => context.document.matchAt? p = some m) positions ms := by
  obtain ⟨positions, horder, hstands, hall⟩ := hms
  refine ⟨positions, horder, fun p => ⟨fun hp => ?_, fun hp => ?_⟩, hstands.imp fun p m hm => hm.2⟩
  · obtain ⟨m, _, hm⟩ := exists_of_forall₂ hstands hp
    exact hm.1
  · rw [← List.dropLast_concat_getLast hsteps] at hp hall
    obtain ⟨q, slot, container, m, rfl, _, hcontainer, hm⟩ := admitted_concat.mp hp
    refine hall _ m ⟨hp, ?_⟩
    rw [Value.matchAt?_concat, hcontainer]
    exact hm.childAt?

/-- A query lists the values at the positions that its steps admit, each once, in the order of the
document, with the keys under which they stand there. It fails exactly where a predicate has a
faulty verdict about a candidate that is reached. -/
theorem select_positions (context : Context) (q : Query) (hsteps : q.steps ≠ [])
    (cache : Regex.Cache) (hcache : cache.Faithful) :
    (∀ ms, outcome (q.select context) cache = .ok ms →
      ∃ positions : List Position, positions.Pairwise (· < ·) ∧
        (∀ p, p ∈ positions ↔ Admitted context q.steps context.document p) ∧
        List.Forall₂ (fun p m => context.document.matchAt? p = some m) positions ms) ∧
      ((∃ e, outcome (q.select context) cache = .error e) ↔
        Stumbles context [] q.steps context.document) := by
  obtain ⟨steps⟩ := q
  cases steps with
  | nil => exact absurd rfl hsteps
  | cons step later =>
      rcases select_spec context step later with ⟨hfine, found, hfound, hselect⟩ | ⟨hstumbles, e, hfails⟩
      · rw [hselect.outcome_eq hcache]
        refine ⟨fun ms hms => ?_, fun ⟨e, he⟩ => ?_, fun h => absurd h hfine⟩
        · cases hms
          exact hfound.positions hsteps
        · cases he
      · rw [hfails.outcome_eq hcache]
        refine ⟨fun ms hms => ?_, fun _ => hstumbles, fun _ => ⟨e, rfl⟩⟩
        cases hms

/-- Of two fields with one name, the items above two: the missing one is no match. -/
theorem select_positions_repeatedField :
    let document := Value.ofFields
      [("a", .list [.int 1, .null .int]), ("a", .list [.int 3])]
    let context : Context := ⟨document, none, default⟩
    let above := Expression.relational .greaterThan (.reference ⟨.candidate, none, .any⟩)
      (.constant (.int 2))
    let q : Query := ⟨[.plain (.property none), .itemsWhere above]⟩
    q.steps ≠ [] ∧ (Regex.Cache.new 0).Faithful ∧
      ∃ positions : List Position, positions.Pairwise (· < ·) ∧
        (∀ p, p ∈ positions ↔ Admitted context q.steps document p) ∧
        List.Forall₂ (fun p m => document.matchAt? p = some m) positions [(.item 0, .int 3)] := by
  intro document context above q
  have hsteps : q.steps ≠ [] := List.cons_ne_nil _ _
  have hcache := Regex.Cache.faithful_new 0
  have hselect : outcome (q.select context) (.new 0) = .ok [(.item 0, .int 3)] := by
    rfl
  exact ⟨hsteps, hcache, (select_positions context q hsteps _ hcache).1 _ hselect⟩

end Query

end DocQuery
