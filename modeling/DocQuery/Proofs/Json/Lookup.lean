import DocQuery.Proofs.Command.Paths
import DocQuery.Proofs.Json.Members
import DocQuery.Proofs.PathTree.Followed
import DocQuery.Proofs.Value.Json

/-!
# Looking up in JSON what a path names

Names and indices lead through the objects and arrays of a JSON text as a path leads through a
document. They come to the JSON form of what the path finds, as long as no struct on the way has
two fields of the name that is asked for. Where a struct has, the path finds the first of them,
and the object holds the last.

Main names:

* `Json.follow?` — names and indices followed through JSON;
* `Json.find_sortMembers` — of members of one name, an object holds the last;
* `Value.lastAlong?`, `Value.follow_toJson` — what is found in JSON, for every document;
* `Value.NamedOnce` — no struct on the way repeats the name that is asked for;
* `Path.follow_toJson_of_hit` — where that is so, path and JSON agree.
-/

namespace DocQuery

/-! ## Following names and indices -/

namespace Json

/-- The member of a name, where the value is an object. -/
def member? (name : String) : Json → Option Json
  | object members => (members.find? (·.1 == name)).map Prod.snd
  | _ => none

/-- The item at an index, where the value is an array. -/
def item? (index : Nat) : Json → Option Json
  | array items => items[index]?
  | _ => none

/-- What a selector names in a JSON value. A wildcard names nothing. -/
def select? (s : Selector) (j : Json) : Option Json :=
  match s with
  | .property (some name) => j.member? name
  | .item (some index) => j.item? index
  | _ => none

/-- What selectors lead to, one after the other. -/
def follow? : List Selector → Json → Option Json
  | [], j => some j
  | s :: rest, j => (j.select? s).bind (follow? rest)

end Json

namespace Value

/-- The last field of a name. -/
def lastOf (name : String) (fields : List (String × Value)) : Option Value :=
  fieldOf name fields.reverse

/-- What selectors lead to if of the fields of one name the last one counts. -/
def lastAlong? : List Selector → Value → Option Value
  | [], v => some v
  | .property (some name) :: rest, struct _ fields => (lastOf name fields).bind (lastAlong? rest)
  | .item (some index) :: rest, sequence _ _ items => items[index]?.bind (lastAlong? rest)
  | _ :: _, _ => none

/-- Whether every struct that selectors come to has one field at most of the name that is asked
for there. -/
def NamedOnce : List Selector → Value → Prop
  | .property (some name) :: rest, struct _ fields =>
    (fields.map Prod.fst).count name ≤ 1 ∧
      ∀ field, fieldOf name fields = some field → NamedOnce rest field
  | .item (some index) :: rest, sequence _ _ items =>
    ∀ item, items[index]? = some item → NamedOnce rest item
  | _, _ => True

end Value

/-! ## What an object holds -/

namespace Json

variable {α : Type}

theorem find_insertMember (name wanted : String) (a : α) (members : List (String × α)) :
    (insertMember name a members).find? (·.1 == wanted) =
      if name = wanted then some (name, a) else members.find? (·.1 == wanted) := by
  induction members with
  | nil => by_cases hname : name = wanted <;> simp [insertMember, hname]
  | cons first rest ih =>
      obtain ⟨other, b⟩ := first
      unfold insertMember
      split
      · by_cases hname : name = wanted <;> simp [hname]
      · rename_i hsame
        have heq : name = other := Std.LawfulEqCmp.eq_of_compare hsame
        subst heq
        by_cases hname : name = wanted <;> simp [hname]
      · rename_i hafter
        have hne : name ≠ other := by
          rintro rfl
          have hsame : compare name name = .eq := Std.ReflCmp.compare_self
          rw [hsame] at hafter
          cases hafter
        by_cases hother : other = wanted
        · rw [if_neg (hother ▸ hne)]
          simp [hother]
        · simp [hother, ih]

/-- The member of a name in an object is the last one of the members it was made of. -/
theorem find_sortMembers (wanted : String) (members : List (String × α)) :
    (sortMembers members).find? (·.1 == wanted) = members.reverse.find? (·.1 == wanted) := by
  have hfold : ∀ sorted : List (String × α),
      (members.foldl (fun sorted m => insertMember m.1 m.2 sorted) sorted).find? (·.1 == wanted) =
        (members.reverse.find? (·.1 == wanted)).or (sorted.find? (·.1 == wanted)) := by
    induction members with
    | nil => intro sorted; simp
    | cons m members ih =>
        intro sorted
        rw [List.foldl_cons, ih, find_insertMember, List.reverse_cons, List.find?_append,
          Option.or_assoc]
        obtain ⟨name, a⟩ := m
        by_cases hname : name = wanted <;> simp [hname]
  rw [sortMembers, hfold]
  simp

/-- Whether a JSON value is neither an array nor an object. -/
def isScalar : Json → Bool
  | array _ | object _ => false
  | _ => true

theorem isScalar_ofFloat (x : Number.Binary64) : (ofFloat x).isScalar = true := by
  unfold ofFloat
  split <;> rfl

theorem isScalar_decimalJson (d : Number.Decimal) : (Value.decimalJson d).isScalar = true := by
  simp only [Value.decimalJson]
  split
  · rfl
  · split
    · split
      · exact isScalar_ofFloat _
      · rfl
    · rfl

theorem isScalar_scalarJson (content : Scalar) : (Value.scalarJson content).isScalar = true := by
  cases content with
  | int n =>
      show (Value.intJson n).isScalar = true
      unfold Value.intJson
      split <;> rfl
  | float x => exact isScalar_ofFloat x
  | decimal d => exact isScalar_decimalJson d
  | _ => rfl

/-- A scalar has no parts. -/
theorem select_of_isScalar {j : Json} (hj : j.isScalar = true) (s : Selector) :
    j.select? s = none := by
  rcases s with (_ | name) | (_ | index) <;> cases j <;> first | rfl | cases hj

end Json

/-! ## What is found in the JSON form of a document -/

namespace Value

theorem find_fieldsJson (name : String) (fields : List (String × Value)) :
    ((fieldsJson fields).find? (·.1 == name)).map Prod.snd =
      (fieldOf name fields).map toJson := by
  rw [fieldsJson_eq_map, List.find?_map, fieldOf, Option.map_map, Option.map_map]
  rfl

/-- Selectors lead through JSON to the JSON form of what they lead to through the last fields. -/
theorem follow_toJson (selectors : List Selector) (v : Value) :
    v.toJson.follow? selectors = (v.lastAlong? selectors).map toJson := by
  -- Each selector goes into the same child of both; a member of an object is looked up among the
  -- sorted ones, where the last field of a name has won.
  induction selectors generalizing v with
  | nil => rfl
  | cons s rest ih =>
      cases v with
      | scalar names content =>
          have hnothing : (scalar names content).lastAlong? (s :: rest) = none := by
            rcases s with (_ | name) | (_ | index) <;> rfl
          rw [toJson, Json.follow?, Json.select_of_isScalar (Json.isScalar_scalarJson content), hnothing]
          rfl
      | sequence names form items =>
          rcases s with name | (_ | index)
          · cases name <;> rfl
          · rfl
          · rw [toJson, Json.follow?, lastAlong?, itemsJson_eq_map]
            show ((items.map toJson)[index]?).bind _ = _
            rw [List.getElem?_map]
            cases items[index]? with
            | none => rfl
            | some item => exact ih item
      | struct names fields =>
          rcases s with (_ | name) | index
          · rfl
          · rw [toJson, Json.follow?, lastAlong?]
            have hmember : (Json.object (Json.sortMembers (fieldsJson fields))).select?
                (.property (some name)) = (lastOf name fields).map toJson := by
              show ((Json.sortMembers _).find? _).map Prod.snd = _
              rw [Json.find_sortMembers, lastOf, ← find_fieldsJson, fieldsJson_eq_map,
                fieldsJson_eq_map, List.map_reverse]
            rw [hmember]
            cases lastOf name fields with
            | none => rfl
            | some field => exact ih field
          · cases index <;> rfl

/-- A name that no two fields share is that of the first field and of the last. -/
theorem lastOf_eq_fieldOf {name : String} {fields : List (String × Value)}
    (honce : (fields.map Prod.fst).count name ≤ 1) : lastOf name fields = fieldOf name fields := by
  induction fields with
  | nil => rfl
  | cons first rest ih =>
      rw [List.map_cons, List.count_cons] at honce
      have hlast : lastOf name (first :: rest) =
          (lastOf name rest).or (fieldOf name [first]) := by
        unfold lastOf fieldOf
        rw [List.reverse_cons, List.find?_append]
        cases rest.reverse.find? (·.1 == name) <;> rfl
      by_cases hfirst : first.1 = name
      · have hnone : lastOf name rest = none := by
          have hrest : (rest.map Prod.fst).count name = 0 := by
            simp [hfirst] at honce
            simpa using honce
          rw [List.count_eq_zero, List.mem_map] at hrest
          unfold lastOf fieldOf
          rw [Option.map_eq_none_iff, List.find?_eq_none]
          intro field hfield hname
          exact hrest ⟨field, List.mem_reverse.mp hfield, eq_of_beq hname⟩
        rw [hlast, hnone]
        simp [fieldOf, hfirst]
      · rw [hlast, ih (by simpa [hfirst] using honce)]
        simp [fieldOf, hfirst]

/-- Where the name that a selector asks for is not repeated, what the selector finds is also found
if the last field counts. -/
theorem lastAlong_cons {s : Selector} {rest : List Selector} {v next : Value}
    (hplain : s.isWildcard = false) (hnext : s.apply v = .ok (some next))
    (honce : v.NamedOnce (s :: rest)) :
    v.lastAlong? (s :: rest) = next.lastAlong? rest ∧ next.NamedOnce rest := by
  cases v with
  | scalar names content =>
      rcases s with (_ | name) | index
      all_goals
        simp only [Selector.apply] at hnext
        split at hnext <;> cases hnext
  | sequence names form items =>
      rcases s with name | (_ | index)
      · cases name <;> cases hnext
      · cases hplain
      · have hitem : items[index]? = some next := Except.ok.inj hnext
        rw [lastAlong?, hitem]
        exact ⟨rfl, honce next hitem⟩
  | struct names fields =>
      rcases s with (_ | name) | index
      · cases hplain
      · have hfield : fieldOf name fields = some next := Except.ok.inj hnext
        rw [lastAlong?, lastOf_eq_fieldOf honce.1, hfield]
        exact ⟨rfl, honce.2 next hfield⟩
      · cases hnext

/-- Where no name on the way is repeated, steps that find something lead there through the last
fields as well. -/
theorem lastAlong_of_follow {step : Step} {rest : List Step} {v container found : Value}
    (hplain : ∀ s ∈ step :: rest, s.selector.isWildcard = false)
    (hhit : step.follow rest v = .ok (.hit container found))
    (honce : v.NamedOnce ((step :: rest).map Step.selector)) :
    v.lastAlong? ((step :: rest).map Step.selector) = some found := by
  induction rest generalizing step v with
  | nil =>
      obtain ⟨next, happly, ⟨_, _, rfl⟩ | ⟨_, _, heq, _⟩⟩ := Query.follow_eq_hit hhit
      · exact (lastAlong_cons (hplain step (List.mem_cons_self ..)) happly honce).1
      · cases heq
  | cons other rest ih =>
      obtain ⟨next, happly, ⟨heq, _⟩ | ⟨_, _, heq, hhit⟩⟩ := Query.follow_eq_hit hhit
      · cases heq
      · cases heq
        obtain ⟨hlast, honce⟩ :=
          lastAlong_cons (hplain step (List.mem_cons_self ..)) happly honce
        rw [List.map_cons, hlast]
        exact ih (fun s hs => hplain s (List.mem_cons_of_mem _ hs)) hhit honce

end Value

namespace Path

/-- **Looking up in JSON.** Names and indices that a path has followed to a value lead through the
JSON form of the document to what the last field of each name leads to; and if no struct on the
way repeats the name that it is asked for, they lead to the JSON form of that value. -/
theorem follow_toJson_of_hit {p : Path} {document container v : Value}
    (hplain : p.hasWildcard = false) (hhit : p.select document = .ok (.hit container v)) :
    document.toJson.follow? p.selectors = (document.lastAlong? p.selectors).map Value.toJson ∧
      (document.NamedOnce p.selectors →
        document.toJson.follow? p.selectors = some v.toJson) := by
  refine ⟨Value.follow_toJson p.selectors document, fun honce => ?_⟩
  have hlast : document.lastAlong? p.selectors = some v :=
    Value.lastAlong_of_follow (Path.names_of_hasWildcard hplain) hhit honce
  rw [Value.follow_toJson, hlast]
  rfl

/-- An item of a list that stands beside a name that is repeated. -/
theorem follow_toJson_of_hit_item :
    let p : Path := ⟨⟨.property (some "b"), true⟩, [⟨.item (some 1), true⟩]⟩
    let items := Value.list [.int 1, .string "x"]
    let document := Value.ofFields [("a", .int 1), ("b", items), ("a", .int 2)]
    p.hasWildcard = false ∧ p.select document = .ok (.hit items (.string "x")) ∧
      document.NamedOnce p.selectors ∧
      document.toJson.follow? p.selectors = some (Value.string "x").toJson := by
  intro p items document
  have hplain : p.hasWildcard = false := rfl
  have hhit : p.select document = .ok (.hit items (.string "x")) := by
    simp only [Path.select, p, Step.follow]
    rfl
  have honce : document.NamedOnce p.selectors := by
    refine ⟨by decide, ?_⟩
    rintro field hfield
    cases hfield
    rintro item hitem
    trivial
  exact ⟨hplain, hhit, honce, (follow_toJson_of_hit hplain hhit).2 honce⟩

/-- Of two fields of one name the path finds the first one, and JSON holds the second one. -/
theorem follow_toJson_repeated :
    let p : Path := ⟨⟨.property (some "a"), true⟩, []⟩
    let document := Value.ofFields [("a", .int 1), ("a", .int 2)]
    p.hasWildcard = false ∧ p.select document = .ok (.hit document (.int 1)) ∧
      document.toJson.follow? p.selectors = some (Value.int 2).toJson ∧
      (Value.int 2).toJson ≠ (Value.int 1).toJson := by
  intro p document
  have hhit : p.select document = .ok (.hit document (.int 1)) := by
    simp only [Path.select, p, Step.follow]
    rfl
  refine ⟨rfl, hhit, ?_, ?_⟩
  · rw [Value.follow_toJson]
    rfl
  · intro heq
    cases heq

end Path

end DocQuery
