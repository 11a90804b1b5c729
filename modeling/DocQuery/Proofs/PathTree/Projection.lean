import DocQuery.Proofs.PathTree.Narrowing
import Mathlib.Data.List.Forall2
import Mathlib.Logic.Relation

/-!
# What is left of a document

However often a document is pruned, what is left of it is a projection: fields and items are left
out, and nothing else is changed. A list that has lost items says which ones of the first document
it has kept, and what it says stays true when it is pruned again.

Main names:

* `Value.Unmarked` — a document without records;
* `Projection` — what may be left of a document;
* `Keeper.Projects`, `Keeper.keepNamed_projects`, `Keeper.keepAll_projects` — one node;
* `Branch.keeper_projects` — all nodes, by recursion on the branch;
* `PathTree.projection_of_prunings` — any number of trees, one after the other.
-/

namespace DocQuery

/-! ## Projections -/

namespace Provenance

/-- Whether an annotation begins with the mark. -/
def isMarked (mark name : String) : Bool :=
  (afterMark? mark name).isSome

/-- The indices in an annotation that begins with the mark. -/
def indices? (mark name : String) : Option (List Nat) :=
  (afterMark? mark name).bind readIndices?

end Provenance

/-- A document in which no annotation begins with the mark. -/
inductive Value.Unmarked (mark : String) : Value → Prop
  | scalar {names : List String} {content : Scalar}
      (hnames : ∀ name ∈ names, Provenance.isMarked mark name = false) :
      Unmarked mark (.scalar names content)
  | sequence {names : List String} {form : SequenceForm} {items : List Value}
      (hnames : ∀ name ∈ names, Provenance.isMarked mark name = false)
      (hitems : ∀ v ∈ items, Unmarked mark v) :
      Unmarked mark (.sequence names form items)
  | struct {names : List String} {fields : List (String × Value)}
      (hnames : ∀ name ∈ names, Provenance.isMarked mark name = false)
      (hfields : ∀ v ∈ fields.map Prod.snd, Unmarked mark v) :
      Unmarked mark (.struct names fields)

/-- `Projection mark v o` says that `v` is what may be left of the document `o`. -/
inductive Projection (mark : String) : Value → Value → Prop
  | scalar (names : List String) (content : Scalar) :
      Projection mark (.scalar names content) (.scalar names content)
  /-- Of a struct some fields are left, in order. -/
  | struct {names : List String} {fields origins whole : List (String × Value)}
      (horigins : origins.Sublist whole) (hnames : fields.map Prod.fst = origins.map Prod.fst)
      (hvalues : List.Forall₂ (Projection mark) (fields.map Prod.snd) (origins.map Prod.snd)) :
      Projection mark (.struct names fields) (.struct names whole)
  /-- A list without a record has all its items. -/
  | complete {names : List String} {form : SequenceForm} {items whole : List Value}
      (hnames : ∀ name ∈ names, Provenance.isMarked mark name = false)
      (hitems : List.Forall₂ (Projection mark) items whole) :
      Projection mark (.sequence names form items) (.sequence names form whole)
  /-- A list with a record has the items of the indices that are recorded. -/
  | recorded {names names' : List String} {form : SequenceForm} {items origins whole : List Value}
      {name : String} {indices : List Nat}
      (hone : names.filter (Provenance.isMarked mark) = [name])
      (hindices : Provenance.indices? mark name = some indices)
      (hascending : indices.Pairwise (· < ·))
      (horigins : indices.map (whole[·]?) = origins.map some)
      (hitems : List.Forall₂ (Projection mark) items origins)
      (hothers : names.filter (!Provenance.isMarked mark ·) = names') :
      Projection mark (.sequence names form items) (.sequence names' form whole)

/-- A document without records is a projection of itself. -/
theorem Projection.self {mark : String} {v : Value} (hv : v.Unmarked mark) :
    Projection mark v v := by
  induction hv with
  | scalar hnames => exact .scalar _ _
  | sequence hnames hitems ih => exact .complete hnames (List.forall₂_same.mpr ih)
  | struct hnames hfields ih =>
      exact .struct (List.Sublist.refl _) rfl (List.forall₂_same.mpr ih)

/-! ## Records -/

namespace Provenance

theorem isMarked_write (mark : String) (indices : List Nat) :
    isMarked mark (write mark indices) = true := by
  unfold isMarked
  rw [afterMark_write]
  rfl

theorem indices_write (mark : String) {indices : List Nat} (hindices : ∀ n ∈ indices, n < 2 ^ 64) :
    indices? mark (write mark indices) = some indices := by
  unfold indices?
  rw [afterMark_write]
  exact readIndices_intercalate hindices

theorem record_eq (mark : String) (indices : List Nat) (names : List String) :
    record mark indices names = names.filter (!isMarked mark ·) ++ [write mark indices] := by
  unfold record
  congr 2
  funext name
  rw [isMarked, Option.not_isSome]

/-- After a record is made it is the only one. -/
theorem filter_record (mark : String) (indices : List Nat) (names : List String) :
    (record mark indices names).filter (isMarked mark) = [write mark indices] := by
  rw [record_eq, List.filter_append, List.filter_filter]
  simp [isMarked_write]

/-- A record leaves the other annotations as they are. -/
theorem filter_not_record (mark : String) (indices : List Nat) (names : List String) :
    (record mark indices names).filter (!isMarked mark ·) = names.filter (!isMarked mark ·) := by
  rw [record_eq, List.filter_append, List.filter_filter]
  simp [isMarked_write]

theorem findSome_filter (mark : String) (names : List String) :
    (names.filter (isMarked mark)).findSome? (afterMark? mark) =
      names.findSome? (afterMark? mark) := by
  induction names with
  | nil => rfl
  | cons name names ih =>
      unfold isMarked at ih ⊢
      cases hname : afterMark? mark name <;> simp [hname, ih]

/-- The only record is the one that counts. -/
theorem recorded_of_one {mark name : String} {names : List String}
    (hone : names.filter (isMarked mark) = [name]) :
    recorded? mark names = indices? mark name := by
  have hmarked : isMarked mark name = true :=
    (List.mem_filter.mp (hone ▸ List.mem_singleton_self name)).2
  obtain ⟨text, htext⟩ := Option.isSome_iff_exists.mp hmarked
  unfold recorded? indices?
  rw [← findSome_filter, hone]
  simp [htext]

theorem recorded_of_none {mark : String} {names : List String}
    (hnames : ∀ name ∈ names, isMarked mark name = false) : recorded? mark names = none := by
  unfold recorded?
  rw [← findSome_filter, List.filter_eq_nil_iff.mpr]
  · rfl
  · simpa using hnames

end Provenance

/-! ## Places -/

section Places

variable {α β : Type}

/-- Elements at ascending places are a part of the list. -/
theorem sublist_of_places {l picked : List α} {places : List Nat}
    (hascending : places.Pairwise (· < ·)) (hpicked : places.map (l[·]?) = picked.map some) :
    picked.Sublist l := by
  have hbound : ∀ place ∈ places, place < l.length := by
    intro place hplace
    have hmem : l[place]? ∈ picked.map some := hpicked ▸ List.mem_map_of_mem hplace
    obtain ⟨a, _, ha⟩ := List.mem_map.mp hmem
    exact (List.getElem?_eq_some_iff.mp ha.symm).1
  have hsame : (places.pmap Fin.mk hbound).map (l[·]) = picked := by
    apply List.map_injective_iff.mpr fun _ _ => Option.some.inj
    rw [← hpicked, List.map_map, List.map_pmap, ← List.pmap_eq_map hbound]
    apply List.pmap_congr_left
    intro place _ hlt _
    simp [List.getElem?_eq_getElem hlt]
  rw [← hsame]
  refine List.map_getElem_sublist ((List.pairwise_pmap hbound).mpr (hascending.imp ?_))
  intro place place' hlt _ _
  exact hlt

/-- If every entry has an origin at its key, the entries have origins at their keys. -/
theorem exists_origins {R : α → β → Prop} {entries : List (Nat × α)} {whole : List β}
    (hentries : ∀ e ∈ entries, ∃ o, whole[e.1]? = some o ∧ R e.2 o) :
    ∃ origins, (entries.map Prod.fst).map (whole[·]?) = origins.map some ∧
      List.Forall₂ R (entries.map Prod.snd) origins := by
  induction entries with
  | nil => exact ⟨[], rfl, .nil⟩
  | cons e rest ih =>
      obtain ⟨o, ho, hR⟩ := hentries e (List.mem_cons_self ..)
      obtain ⟨origins, horigins, hrest⟩ := ih fun e' he' => hentries e' (List.mem_cons_of_mem _ he')
      refine ⟨o :: origins, ?_, .cons hR hrest⟩
      rw [List.map_cons, List.map_cons, List.map_cons, ho, horigins]

theorem forall₂_getElem {R : α → β → Prop} {as : List α} {bs : List β}
    (hall : List.Forall₂ R as bs) {i : Nat} {a : α} (ha : as[i]? = some a) :
    ∃ b, bs[i]? = some b ∧ R a b := by
  induction hall generalizing i with
  | nil => simp at ha
  | cons hR _ ih =>
      cases i with
      | zero =>
          cases ha
          exact ⟨_, rfl, hR⟩
      | succ i => exact ih ha

end Places

/-! ## One node -/

namespace Projection

/-- A field of the same name, with what may be left of the value. -/
def OfField (mark : String) (field origin : String × Value) : Prop :=
  field.1 = origin.1 ∧ Projection mark field.2 origin.2

theorem forall₂_ofField {mark : String} {fields origins : List (String × Value)} :
    List.Forall₂ (OfField mark) fields origins ↔
      fields.map Prod.fst = origins.map Prod.fst ∧
        List.Forall₂ (Projection mark) (fields.map Prod.snd) (origins.map Prod.snd) := by
  induction fields generalizing origins with
  | nil => cases origins <;> simp
  | cons field fields ih =>
      cases origins with
      | nil => simp
      | cons origin origins =>
          simp only [List.forall₂_cons, ih, List.map_cons, List.cons.injEq, OfField]
          tauto

variable {mark : String} {names : List String} {form : SequenceForm} {items : List Value}

/-- In a projection an item is found where the document has its origin. -/
theorem origin_of_item {o : Value} (ho : Projection mark (.sequence names form items) o) :
    ∃ whole, o = .sequence (names.filter (!Provenance.isMarked mark ·)) form whole ∧
      ∀ index item,
        Keeper.item? items (Keeper.slotOf mark names items.length) index = some item →
          ∃ origin, whole[index]? = some origin ∧ Projection mark item origin := by
  cases ho with
  -- Without a record, indices are places.
  | @complete _ _ _ whole hnames hitems =>
      refine ⟨whole, ?_, ?_⟩
      · rw [List.filter_eq_self.mpr]
        simpa using hnames
      · intro index item hitem
        unfold Keeper.item? Keeper.slotOf at hitem
        rw [Provenance.recorded_of_none hnames] at hitem
        exact forall₂_getElem hitems hitem
  -- With a record, the place of an item is that of its index in the record, and the origins were
  -- taken at these indices.
  | @recorded _ _ _ _ origins whole name indices hone hindices _ horigins hitems hothers =>
      refine ⟨whole, by rw [hothers], ?_⟩
      intro index item hitem
      have hlength : indices.length = items.length := by
        have hlengths := congrArg List.length horigins
        rw [List.length_map, List.length_map] at hlengths
        rw [hlengths, hitems.length_eq]
      unfold Keeper.item? Keeper.slotOf at hitem
      rw [Provenance.recorded_of_one hone, hindices] at hitem
      simp only [hlength, if_true] at hitem
      obtain ⟨slot, hslot, hitem⟩ := Option.bind_eq_some_iff.mp hitem
      obtain ⟨origin, horigin, hprojection⟩ := forall₂_getElem hitems hitem
      rw [List.findIdx?_eq_some_iff_getElem] at hslot
      obtain ⟨hlt, hindex, _⟩ := hslot
      have hplace := congrArg (·[slot]?) horigins
      simp only [List.getElem?_map, horigin, List.getElem?_eq_getElem hlt, eq_of_beq hindex,
        Option.map_some, Option.some.injEq] at hplace
      exact ⟨origin, hplace, hprojection⟩

/-- A list of entries that are projections of the items at their keys is one of the whole. -/
theorem of_entries {whole : List Value} {entries : List (Nat × Value)}
    (hentries : Keeper.Ascending entries) (hfits : ∀ e ∈ entries, e.1 < 2 ^ 64)
    (horigin : ∀ e ∈ entries, ∃ origin, whole[e.1]? = some origin ∧ Projection mark e.2 origin) :
    Projection mark
      (.sequence (Provenance.record mark (entries.map Prod.fst) names) form (entries.map Prod.snd))
      (.sequence (names.filter (!Provenance.isMarked mark ·)) form whole) := by
  obtain ⟨origins, horigins, hitems⟩ := exists_origins horigin
  refine .recorded (Provenance.filter_record ..) (Provenance.indices_write mark ?_) ?_ horigins
    hitems (Provenance.filter_not_record ..)
  · intro n hn
    obtain ⟨e, he, rfl⟩ := List.mem_map.mp hn
    exact hfits e he
  · exact List.pairwise_map.mpr hentries

end Projection

namespace Keeper

/-- A branch that makes projections of projections. -/
def Projects (mark : String) (k : Keeper) : Prop :=
  ∀ v kept o, Projection mark v o → k.keep v = .ok kept → Projection mark kept o

section Node

variable {mark : String} {node : Option Selector}

theorem projects_parts {α β : Type} {R : α → β → Prop} {Kept : α → α → Prop}
    (hR : ∀ a b o, R a o → Kept a b → R b o) {as bs : List α} {os : List β}
    (has : List.Forall₂ R as os) (hbs : List.Forall₂ Kept as bs) : List.Forall₂ R bs os := by
  induction has generalizing bs with
  | nil =>
      cases hbs
      exact .nil
  | @cons a o as os ha _ ih =>
      cases hbs with
      | cons hfirst hrest => exact .cons (hR a _ o ha hfirst) (ih hrest)

/-- A node with a wildcard makes projections of projections. -/
theorem keepAll_projects {k : Keeper} (hk : k.Projects mark) {v kept o : Value}
    (hv : Projection mark v o) (hkept : keepAll node k v = .ok kept) : Projection mark kept o := by
  cases keepAll_eq_ok.mp hkept with
  | struct _ _ hparts =>
      cases hv with
      | struct horigins hnames hvalues =>
          have hfields := projects_parts (R := Projection.OfField mark)
            (fun field part origin horigin hpart =>
              ⟨hpart.1.trans horigin.1, hk field.2 part.2 origin.2 horigin.2 hpart.2⟩)
            (Projection.forall₂_ofField.mpr ⟨hnames, hvalues⟩) hparts
          rw [Projection.forall₂_ofField] at hfields
          exact .struct horigins hfields.1 hfields.2
  | sequence _ _ hparts =>
      cases hv with
      | complete hnames hwhole => exact .complete hnames (projects_parts hk hwhole hparts)
      | recorded hone hindices hascending horigins hitems hothers =>
          exact .recorded hone hindices hascending horigins (projects_parts hk hitems hparts)
            hothers

section Named

variable {keepers : List Keeper} (hprojects : ∀ k ∈ keepers, k.Projects mark)
  (hnodup : (keepers.map selector).Nodup)

include hprojects hnodup

theorem keepFields_projects {names : List String} {fields origins whole : List (String × Value)}
    {failure : PruneError} {kept : List (Nat × String × Value)}
    (horigins : origins.Sublist whole) (hnames : fields.map Prod.fst = origins.map Prod.fst)
    (hvalues : List.Forall₂ (Projection mark) (fields.map Prod.snd) (origins.map Prod.snd))
    (hkept : keepFields fields failure keepers = .ok kept) :
    Projection mark (.struct names ((sortByKey kept).map Prod.snd)) (.struct names whole) := by
  have hshape := keepFields_ok hkept
  have hascending := ascending_sortByKey (hshape.distinct hnodup)
  -- Every field that is kept has its origin at its position.
  have hentries : ∀ e ∈ sortByKey kept, ∃ origin, origins[e.1]? = some origin ∧
      Projection.OfField mark e.2 origin := by
    intro e he
    obtain ⟨k, hk, _, v, hfield, hv⟩ := hshape.origin hnodup (mem_sortByKey.mp he)
    obtain ⟨origin, horigin, hname, hprojection⟩ :=
      forall₂_getElem (Projection.forall₂_ofField.mpr ⟨hnames, hvalues⟩) (getElem_of_field hfield)
    exact ⟨origin, horigin, hname, hprojects k hk v e.2.2 origin.2 hprojection hv⟩
  obtain ⟨picked, hpicked, hparts⟩ := exists_origins hentries
  rw [Projection.forall₂_ofField] at hparts
  have hsublist := sublist_of_places (List.pairwise_map.mpr hascending) hpicked
  exact .struct (hsublist.trans horigins) hparts.1 hparts.2

theorem keepItems_projects {names : List String} {form : SequenceForm} {items : List Value}
    {failure : PruneError} {kept : List (Nat × Value)} {o : Value}
    (haddressable : ∀ k ∈ keepers, k.selector.Addressable)
    (ho : Projection mark (.sequence names form items) o)
    (hkept : keepItems items (slotOf mark names items.length) failure keepers = .ok kept) :
    Projection mark (.sequence (Provenance.record mark ((sortByKey kept).map Prod.fst) names) form
      ((sortByKey kept).map Prod.snd)) o := by
  have hshape := keepItems_ok hkept
  obtain ⟨whole, rfl, horigin⟩ := ho.origin_of_item
  refine Projection.of_entries (ascending_sortByKey (hshape.distinct hnodup)) ?_ ?_
  · intro e he
    obtain ⟨k, hk, hselector, _⟩ := hshape.origin hnodup (mem_sortByKey.mp he)
    have hfits := haddressable k hk
    rw [hselector] at hfits
    exact hfits
  · intro e he
    obtain ⟨k, hk, _, item, hitem, hv⟩ := hshape.origin hnodup (mem_sortByKey.mp he)
    obtain ⟨origin, hplace, hprojection⟩ := horigin e.1 item hitem
    exact ⟨origin, hplace, hprojects k hk item e.2 origin hprojection hv⟩

/-- A node that names children makes projections of projections. -/
theorem keepNamed_projects (haddressable : ∀ k ∈ keepers, k.selector.Addressable)
    {v kept o : Value} (hv : Projection mark v o)
    (hkept : keepNamed mark node keepers v = .ok kept) : Projection mark kept o := by
  cases keepNamed_eq_ok.mp hkept with
  | missing => exact hv
  | struct _ hfields =>
      cases hv with
      | struct horigins hnames hvalues =>
          exact keepFields_projects hprojects hnodup horigins hnames hvalues hfields
  | sequence _ hitems => exact keepItems_projects hprojects hnodup haddressable hv hitems

end Named

end Node

end Keeper

/-! ## All nodes -/

namespace Branch

variable {mark : String}

/-- Siblings of a built tree keep projections, if each of them does. -/
theorem keepBelow_projects {bs : List Branch} (hbs : Orderly Selector.Addressable bs)
    (hprojects : ∀ b ∈ bs, (b.keeper mark).Projects mark) {node : Option Selector}
    {v kept o : Value} (hv : Projection mark v o)
    (hkept : Keeper.keepBelow mark node (keepers mark bs) v = .ok kept) :
    Projection mark kept o := by
  have hall : ∀ k ∈ keepers mark bs, k.Projects mark := by
    intro k hk
    obtain ⟨b, hb, rfl⟩ := mem_keepers.mp hk
    exact hprojects b hb
  have hnodup : ((keepers mark bs).map Keeper.selector).Nodup := by
    rw [map_selector_keepers]
    exact hbs.nodup
  have hnamed : ∀ {v kept o : Value}, Projection mark v o →
      Keeper.keepNamed mark node (keepers mark bs) v = .ok kept → Projection mark kept o :=
    Keeper.keepNamed_projects hall hnodup (hbs.keepers_allowed mark)
  unfold Keeper.keepBelow at hkept
  split at hkept
  · cases hkept
    exact hv
  · rename_i only honly
    rw [honly] at hall hnamed
    split at hkept
    · exact Keeper.keepAll_projects (hall only (List.mem_singleton_self only)) hv hkept
    · exact hnamed hv hkept
  · exact hnamed hv hkept

/-- A branch of a built tree makes projections of projections. -/
theorem keeper_projects : ∀ b : Branch, Orderly Selector.Addressable b.children →
    (b.keeper mark).Projects mark
  | .mk s r children, hb => by
      intro v kept o hv hkept
      refine keepBelow_projects hb (fun c (hc : c ∈ children) => ?_) hv hkept
      exact keeper_projects c (hb.children hc)

end Branch

namespace PathTree

/-- One pruning that succeeds, with a tree that is built from paths. -/
def Prunes (mark : String) (v kept : Value) : Prop :=
  ∃ (paths : List Path) (t : PathTree), (∀ p ∈ paths, p.Addressable) ∧ ofPaths paths = .ok t ∧
    t.prune mark v = .ok kept

/-- A pruning keeps projections of a document. -/
theorem projection_of_prunes {mark : String} {v kept o : Value} (hv : Projection mark v o)
    (hkept : Prunes mark v kept) : Projection mark kept o := by
  obtain ⟨paths, t, haddressable, ht, hkept⟩ := hkept
  have horderly := orderly_of_ofPaths haddressable ht
  exact Branch.keepBelow_projects horderly
    (fun b hb => Branch.keeper_projects b (horderly.children hb)) hv hkept

/-- **Records stay true.** A document without records is pruned any number of times, with any trees
that are built from paths. What is left is a projection of the document: every list that has lost
items records, once, the indices of those that it has kept. -/
theorem projection_of_prunings {mark : String} {document kept : Value}
    (hdocument : document.Unmarked mark)
    (hkept : Relation.ReflTransGen (Prunes mark) document kept) :
    Projection mark kept document := by
  induction hkept with
  | refl => exact .self hdocument
  | tail _ hstep ih => exact projection_of_prunes ih hstep

/-- A list loses its first item, and then its second one, and records where its last item stood. -/
theorem projection_of_prunings_twice :
    let document := Value.ofFields [("x", .null .int), ("a", .list [.int 10, .int 20, .int 30])]
    let kept := Value.ofFields [("a", .sequence ["#2"] .list [.int 30])]
    document.Unmarked "#" ∧ Relation.ReflTransGen (Prunes "#") document kept ∧
      Projection "#" kept document := by
  intro document kept
  let toItem (i : Nat) : Path := ⟨⟨.property (some "a"), true⟩, [⟨.item (some i), true⟩]⟩
  have hdocument : document.Unmarked "#" := by
    refine .struct (by simp) ?_
    simp only [List.map_cons, List.map_nil, List.forall_mem_cons, List.not_mem_nil,
      false_implies, implies_true, and_true]
    refine ⟨.scalar (by simp), .sequence (by simp) ?_⟩
    simp only [List.forall_mem_cons, List.not_mem_nil, false_implies, implies_true, and_true]
    exact ⟨.scalar (by simp), .scalar (by simp), .scalar (by simp)⟩
  have haddressable : ∀ i < 3, (toItem i).Addressable := by
    simp only [Path.Addressable, Path.steps, toItem, List.forall_mem_cons, Selector.Addressable]
    intro i hi
    exact ⟨trivial, by omega, by simp⟩
  have hfirst : Prunes "#" document
      (Value.ofFields [("a", .sequence ["#1,2"] .list [.int 20, .int 30])]) := by
    refine ⟨[toItem 1, toItem 2], ⟨[.mk (.property (some "a")) true
      [.mk (.item (some 1)) true [], .mk (.item (some 2)) true []]]⟩, ?_, rfl, rfl⟩
    simp [haddressable]
  have hsecond : Prunes "#" (Value.ofFields [("a", .sequence ["#1,2"] .list [.int 20, .int 30])])
      kept := by
    refine ⟨[toItem 2], ⟨[.mk (.property (some "a")) true [.mk (.item (some 2)) true []]]⟩, ?_, rfl,
      rfl⟩
    simp [haddressable]
  have hkept := (Relation.ReflTransGen.single hfirst).tail hsecond
  exact ⟨hdocument, hkept, projection_of_prunings hdocument hkept⟩

end PathTree

end DocQuery
