import DocQuery.Proofs.Language.Defects
import DocQuery.Proofs.Language.Names
import DocQuery.Proofs.Value.RoundTrip

/-!
# What was read is written back

A value that was read from a text is not any value: its identifiers are names that the grammar did
not take for something else, its timestamps have a year of four digits, and the bytes of its clobs
are those of a text. So what is written of it reads back, unless it holds one of the identifiers that
the printer puts between quotes for another reason, or a float too large for its kind.

Main names:

* `Scalar.Legible` — the scalars that are read;
* `Scalar.Ordinary` — the scalars that are not written as something else;
* `Value.Throughout` — every scalar of a value has a property;
* `Value.throughout_read` — all scalars of a value that was read are legible;
* `Value.read_toText_of_read` — the text of such a value is read as an equal value.
-/

namespace DocQuery

open Grammar DocQuery.Language Text Time

/-- What is known of a scalar that was read. -/
def Scalar.Legible : Scalar → Prop
  | .timestamp t => t.Plain
  | .text .identifier name =>
    isName name.toList = true ∧
      name.toList ∉ ["null".toList, "true".toList, "false".toList] ∧
      isDurationText name.toList = false
  | .clob bytes => ∃ text, Utf8.encode text = bytes
  | _ => True

/-- A finite float, an identifier that is neither `nan` nor `now`, or any other scalar. -/
def Scalar.Ordinary : Scalar → Prop
  | .float x => x.isFinite = true
  | .text .identifier name => name ≠ "nan" ∧ name ≠ "now"
  | _ => True

/-- Every scalar in a value has a property. -/
inductive Value.Throughout (holds : Scalar → Prop) : Value → Prop
  | scalar {names : List String} {content : Scalar} (hcontent : holds content) :
      Throughout holds (.scalar names content)
  | sequence {names : List String} {form : SequenceForm} {items : List Value}
      (hitems : ∀ item ∈ items, Throughout holds item) :
      Throughout holds (.sequence names form items)
  | struct {names : List String} {fields : List (String × Value)}
      (hfields : ∀ field ∈ fields, Throughout holds field.2) :
      Throughout holds (.struct names fields)

instance : DecidablePred Scalar.Ordinary := fun content => by
  unfold Scalar.Ordinary
  split <;> infer_instance

namespace Value

mutual

/-- Whether every scalar in a value passes a test. -/
def all (test : Scalar → Bool) : Value → Bool
  | scalar _ content => test content
  | sequence _ _ items => allItems test items
  | struct _ fields => allFields test fields

/-- Whether every scalar in some items passes a test. -/
def allItems (test : Scalar → Bool) : List Value → Bool
  | [] => true
  | item :: items => item.all test && allItems test items

/-- Whether every scalar in some fields passes a test. -/
def allFields (test : Scalar → Bool) : List (String × Value) → Bool
  | [] => true
  | (_, field) :: fields => field.all test && allFields test fields

end

theorem allItems_eq {test : Scalar → Bool} (items : List Value) :
    allItems test items = items.all (all test) := by
  induction items with
  | nil => rfl
  | cons item items ih => rw [allItems, List.all_cons, ih]

theorem allFields_eq {test : Scalar → Bool} (fields : List (String × Value)) :
    allFields test fields = fields.all (all test ·.2) := by
  induction fields with
  | nil => rfl
  | cons field fields ih => rw [allFields, List.all_cons, ih]

section Test

variable {holds : Scalar → Prop} [DecidablePred holds]

theorem throughout_of_all (v : Value) (hv : v.all (fun s => decide (holds s)) = true) :
    v.Throughout holds := by
  -- The test is by recursion on values, the property by induction on what is inside, so the
  -- induction is on the size.
  induction hsize : sizeOf v using Nat.strongRecOn generalizing v with
  | ind size ih =>
      subst hsize
      cases v with
      | scalar names content =>
          rw [all] at hv
          exact .scalar (of_decide_eq_true hv)
      | sequence names form items =>
          rw [all, allItems_eq, List.all_eq_true] at hv
          refine .sequence fun item hitem => ih _ ?_ item (hv item hitem) rfl
          have hsmaller := List.sizeOf_lt_of_mem hitem
          rw [sequence.sizeOf_spec]
          omega
      | struct names fields =>
          rw [all, allFields_eq, List.all_eq_true] at hv
          refine .struct fun field hfield => ih _ ?_ field.2 (hv field hfield) rfl
          have hsmaller := List.sizeOf_lt_of_mem hfield
          have hpair : sizeOf field.2 < sizeOf field := by
            obtain ⟨name, value⟩ := field
            rw [Prod.mk.sizeOf_spec]
            dsimp only
            omega
          rw [struct.sizeOf_spec]
          omega

theorem Throughout.all {v : Value} (hv : v.Throughout holds) :
    v.all (fun s => decide (holds s)) = true := by
  induction hv with
  | scalar hcontent =>
      rw [Value.all]
      exact decide_eq_true hcontent
  | sequence _ ih =>
      rw [Value.all, allItems_eq, List.all_eq_true]
      exact ih
  | struct _ ih =>
      rw [Value.all, allFields_eq, List.all_eq_true]
      exact ih

instance (v : Value) : Decidable (v.Throughout holds) :=
  decidable_of_iff _ ⟨throughout_of_all v, Throughout.all⟩

end Test

end Value

/-! ## Scalars -/

namespace Scalar

theorem writable_of_legible {content : Scalar} (hlegible : content.Legible)
    (hordinary : content.Ordinary) : content.Writable := by
  cases content with
  | null | bool | int | decimal | duration | blob => trivial
  | float x => exact hordinary
  | timestamp t => exact hlegible
  | clob bytes => exact hlegible
  | text form name =>
      cases form with
      | string | quotedSymbol => trivial
      | identifier =>
          obtain ⟨hname, hkeyword, hduration⟩ := hlegible
          obtain ⟨hnan, hnow⟩ := hordinary
          refine ⟨hname, ?_, hduration⟩
          have hother : ∀ word : String, name ≠ word → name.toList ≠ word.toList :=
            fun word hne heq => hne (String.toList_inj.mp heq)
          -- The grammar reserves three of the words and the printer two more.
          have hreserved : name.toList ∉ Value.reserved := by
            intro hmem
            have hsplit : name.toList ∈ ["null".toList, "true".toList, "false".toList] ++
                ["nan".toList, "now".toList] := hmem
            rcases List.mem_append.mp hsplit with hmem | hmem
            · exact hkeyword hmem
            · rcases List.mem_pair.mp hmem with heq | heq
              · exact hother _ hnan heq
              · exact hother _ hnow heq
          exact Bool.eq_false_iff.mpr fun hmem => hreserved (List.contains_iff_mem.mp hmem)

/-- The year of a timestamp has four digits. -/
theorem partNumber_tsYear_le {tree : Tree} (htree : Grown grammar tree) :
    partNumber .tsYear 1 tree ≤ 9999 := by
  unfold partNumber Tree.partText?
  cases hfind : tree.children.find? (·.rule == .tsYear) with
  | none => decide
  | some part =>
      have hrule : part.rule = .tsYear := by
        simpa using List.find?_some hfind
      obtain ⟨outer, _, rest, hbody⟩ := htree.child grammar_grounded (List.mem_of_find?_eq_some hfind)
      rw [hrule] at hbody
      obtain ⟨hlength, hdigits⟩ := matches_times (call_splits grammar _) (tight_token false) hbody
      have hvalue := Digits.value_lt_pow hdigits
      rw [hlength] at hvalue
      exact Nat.le_of_lt_succ hvalue

/-- All scalars but identifiers are legible whatever stands around them. -/
theorem legible_ofTree {tree : Tree} {content : Scalar} (htree : Grown grammar tree)
    (hrule : tree.rule ≠ .identifier) (hread : ofTree tree = .ok content) : content.Legible := by
  -- Timestamps need the grammar to bound their year; all other scalars have nothing to show.
  unfold ofTree at hread
  split at hread
  case h_1 =>
    unfold readNull at hread
    split at hread
    · cases hread
      trivial
    · split at hread <;> cases hread
      trivial
  case h_2 | h_3 | h_4 =>
    cases hread
    trivial
  case h_5 | h_9 =>
    split at hread <;> cases hread
    trivial
  case h_6 | h_7 | h_8 =>
    split at hread
    · rename_i t hparts
      cases hread
      exact (Timestamp.onDate_of_ofParts hparts).plain (partNumber_tsYear_le htree)
    · cases hread
  case h_10 | h_11 =>
    obtain ⟨name, _, hname⟩ := bind_eq_ok hread
    cases hname
    trivial
  case h_12 hidentifier => exact absurd hidentifier hrule
  case h_13 => cases hread

end Scalar

namespace Value

/-! ## Identifiers -/

/-- One alternative for the body of a value has matched after those before it had failed. -/
theorem matches_valueBody {text rest : List Char} {nodes : List (Node Rule)}
    (hrun : Matches (grammar.call .loose .valueBody) text rest nodes) :
    ∃ before rule after, bodyRules = before ++ rule :: after ∧
      (∀ r ∈ before, Declines (grammar.call .loose r) (text ++ rest)) ∧
      Matches (grammar.call .loose rule) text rest nodes := by
  have hbody : Matches ((Pattern.firstOf (bodyRules.map .rule)).run grammar.blank loosely
      (grammar.call .loose)) text rest nodes := matches_silent grammar_grounded rfl hrun
  obtain ⟨_, _, _, hsplit, hbefore, hmatches⟩ := matches_firstOf (call_splits grammar .loose) hbody
  obtain ⟨before, others, hrules, rfl, hothers⟩ := List.map_eq_append_iff.mp hsplit
  obtain ⟨rule, after, rfl, rfl, rfl⟩ := List.map_eq_cons_iff.mp hothers
  refine ⟨before, rule, after, hrules, fun r hr => ?_, hmatches⟩
  exact hbefore _ (List.mem_map_of_mem hr)

/-- A name that is taken as an identifier is none of what the alternatives before it take. -/
theorem legible_of_identifier {before after : List Rule} {name rest : List Char}
    {nodes : List (Node Rule)} (hrules : bodyRules = before ++ .identifier :: after)
    (hbefore : ∀ r ∈ before, Declines (grammar.call .loose r) (name ++ rest))
    (hmatches : Matches (grammar.call .loose .identifier) name rest nodes)
    (hrest : Spares '.' rest) : (Scalar.text .identifier (String.ofList name)).Legible := by
  -- No rule comes twice in the body, so the rules before the identifier are known.
  have hall : before = bodyRules.takeWhile (· != .identifier) := by
    have hnodup : bodyRules.Nodup := by
      decide
    rw [hrules] at hnodup ⊢
    rw [List.takeWhile_append_of_pos]
    · simp
    · intro r hr
      simpa using (List.nodup_append.mp hnodup).2.2 r hr _ (List.mem_cons_self ..)
  obtain ⟨hname, hword⟩ := matches_identifier hmatches
  show isName (String.ofList name).toList = true ∧
    (String.ofList name).toList ∉ ["null".toList, "true".toList, "false".toList] ∧
      isDurationText (String.ofList name).toList = false
  rw [String.toList_ofList]
  refine ⟨hname, fun hkeyword => ?_, Bool.eq_false_iff.mpr fun hduration => ?_⟩
  -- A keyword or a duration would have been taken by a rule that was tried before.
  · obtain ⟨rule, hrule, htakes⟩ := takes_keywordLiteral hkeyword hword hrest
    have hearlier : ∀ r ∈ [Rule.nullLiteral, .boolLiteral], r ∈ before := by
      rw [hall]
      decide +kernel
    exact htakes.not_declines (hbefore rule (hearlier rule hrule))
  · have htakes := takes_durationLiteral_of_name hname hduration hword hrest
    have hearlier : Rule.durationLiteral ∈ before := by
      rw [hall]
      decide +kernel
    exact htakes.not_declines (hbefore _ hearlier)

/-- A body as it is found in a value: a timestamp, which a point may follow, or a tree where no point
follows, which is legible if it is an identifier. -/
def BodyStands (body : Tree) : Prop :=
  (body.rule ∈ [Rule.dayTimestamp, .monthTimestamp, .yearTimestamp] ∧ Grown grammar body) ∨
    Stands grammar '.' body ∧ (body.rule = .identifier →
      (Scalar.text .identifier (String.ofList body.text)).Legible)

namespace BodyStands

variable {body : Tree}

theorem grown (hbody : BodyStands body) : Grown grammar body := by
  rcases hbody with ⟨_, hgrown⟩ | ⟨hstands, _⟩
  · exact hgrown
  · exact hstands.grown grammar_grounded

theorem stands (hbody : BodyStands body)
    (hrule : body.rule ∉ [Rule.dayTimestamp, .monthTimestamp, .yearTimestamp]) :
    Stands grammar '.' body := by
  rcases hbody with ⟨hdated, _⟩ | ⟨hstands, _⟩
  · exact absurd hdated hrule
  · exact hstands

/-- A scalar that is read from a body is legible. -/
theorem legible (hbody : BodyStands body) {content : Scalar}
    (hread : Scalar.ofTree body = .ok content) : content.Legible := by
  by_cases hidentifier : body.rule = .identifier
  · rcases hbody with ⟨hdated, _⟩ | ⟨_, hlegible⟩
    · rw [hidentifier] at hdated
      exact absurd hdated (by decide)
    · have hname : Scalar.ofTree body = .ok (.text .identifier (String.ofList body.text)) := by
        simp only [Scalar.ofTree, hidentifier]
      rw [hname] at hread
      cases hread
      exact hlegible hidentifier
  · exact Scalar.legible_ofTree hbody.grown hidentifier hread

end BodyStands

theorem bodyStands_of_matches {text rest : List Char} {nodes : List (Node Rule)}
    (hrun : Matches (grammar.call .loose .valueBody) text rest nodes) (hrest : Spares '.' rest)
    {body : Tree} (hbody : body ∈ nodes) : BodyStands body := by
  obtain ⟨before, rule, after, hrules, hbefore, hmatches⟩ := matches_valueBody hrun
  -- The rule for dates leaves no node of its own, but that of one of three others.
  by_cases hdated : rule = .datedTimestamp
  · subst hdated
    have hslot : (Pattern.rule Rule.datedTimestamp).leavesOnly (grammar.words 3)
        [.dayTimestamp, .monthTimestamp, .yearTimestamp] = true := by
      decide +kernel
    have hpattern : Matches ((Pattern.rule Rule.datedTimestamp).run grammar.blank loosely
        (grammar.call loosely.atomicity)) text rest nodes := hmatches
    exact Or.inl ⟨rule_mem_of_matches grammar_grounded (by decide) hslot hpattern hbody,
      grown_of_matches grammar_grounded hmatches hbody⟩
  · have hleaves : ∀ r ∈ bodyRules, r ≠ .datedTimestamp → (grammar.mode r).LeavesNode .loose := by
      decide
    have hmem : rule ∈ bodyRules := by
      rw [hrules]
      simp
    obtain ⟨hstands, hrule, rfl⟩ :=
      stands_of_matches grammar_grounded (hleaves rule hmem hdated) hrest hmatches hbody
    refine Or.inr ⟨hstands, fun hidentifier => ?_⟩
    obtain rfl : rule = .identifier := hrule.symm.trans hidentifier
    exact legible_of_identifier hrules hbefore hmatches hrest

/-! ## Values -/

theorem throughout_withAnnotations {holds : Scalar → Prop} {v : Value} (hv : v.Throughout holds)
    (names : List String) : (v.withAnnotations names).Throughout holds := by
  cases hv with
  | scalar hcontent => exact .scalar hcontent
  | sequence hitems => exact .sequence hitems
  | struct hfields => exact .struct hfields

theorem exists_of_mem_ofItems {items : List Tree} {vs : List Value}
    (hread : ofItems items = .ok vs) {v : Value} (hv : v ∈ vs) :
    ∃ item ∈ items, ofTree item = .ok v := by
  induction items generalizing vs with
  | nil =>
      cases hread
      cases hv
  | cons item items ih =>
      rw [ofItems] at hread
      obtain ⟨first, hfirst, hread⟩ := bind_eq_ok hread
      obtain ⟨others, hothers, hvs⟩ := bind_eq_ok hread
      cases hvs
      rcases List.mem_cons.mp hv with rfl | hv
      · exact ⟨item, List.mem_cons_self .., hfirst⟩
      · obtain ⟨item', hmem, hitem⟩ := ih hothers hv
        exact ⟨item', List.mem_cons_of_mem _ hmem, hitem⟩

theorem exists_of_mem_ofFieldTrees {trees : List Tree} {fields : List (String × Value)}
    (hread : ofFieldTrees trees = .ok fields) {field : String × Value} (hfield : field ∈ fields) :
    ∃ tree ∈ trees, ∃ label part more, tree.children = label :: part :: more ∧
      ofTree part = .ok field.2 := by
  induction trees generalizing fields with
  | nil =>
      cases hread
      cases hfield
  | cons tree trees ih =>
      obtain ⟨rule, text, place, parts⟩ := tree
      rcases parts with _ | ⟨label, _ | ⟨part, parts⟩⟩
      · cases hread
      · cases hread
      · rw [ofFieldTrees] at hread
        obtain ⟨name, _, hread⟩ := bind_eq_ok hread
        obtain ⟨v, hv, hread⟩ := bind_eq_ok hread
        obtain ⟨others, hothers, hfields⟩ := bind_eq_ok hread
        cases hfields
        rcases List.mem_cons.mp hfield with rfl | hfield
        · exact ⟨_, List.mem_cons_self .., label, part, parts, rfl, hv⟩
        · obtain ⟨tree', hmem, hfound⟩ := ih hothers hfield
          exact ⟨tree', List.mem_cons_of_mem _ hmem, hfound⟩

/-- The value of a tree is that of one of its parts, with annotations. -/
theorem exists_of_ofParts {whole : Tree} {parts : List Tree} {names : List String} {v : Value}
    (hread : ofParts whole names parts = .ok v) :
    ∃ body ∈ parts, body.rule ≠ .label ∧ ∃ w names', ofBody body = .ok w ∧
      v = w.withAnnotations names' := by
  induction parts generalizing names with
  | nil => cases hread
  | cons part parts ih =>
      rw [ofParts] at hread
      split at hread
      · obtain ⟨name, _, hread⟩ := bind_eq_ok hread
        obtain ⟨body, hbody, hfound⟩ := ih hread
        exact ⟨body, List.mem_cons_of_mem _ hbody, hfound⟩
      · rename_i hrule
        obtain ⟨w, hw, hv⟩ := bind_eq_ok hread
        cases hv
        exact ⟨part, List.mem_cons_self .., hrule, w, names, hw, rfl⟩

/-- The parts of containers stand where no point follows. -/
theorem stands_part {node part : Tree} (hnode : Stands grammar '.' node)
    (hrule : node.rule ∈ [Rule.listValue, .sexpValue, .structValue, .structField])
    (hpart : part ∈ node.children) : Stands grammar '.' part := by
  have hforms : ∀ rule ∈ [Rule.listValue, .sexpValue, .structValue, .structField],
      grammar.mode rule = .normal ∧
        (grammar.body rule).guards (grammar.onHead '.' headDepth) '.' = true ∧
        ∀ r ∈ (grammar.body rule).callees, (grammar.mode r).LeavesNode .loose := by
    decide +kernel
  obtain ⟨hmode, hguards, hcallees⟩ := hforms _ hrule
  exact hnode.child grammar_grounded (by decide) hmode hguards hcallees hpart

/-- The values of smaller trees are legible. -/
def LegibleBelow (tree : Tree) : Prop :=
  ∀ part, sizeOf part < sizeOf tree → Stands grammar '.' part → part.rule = .value →
    ∀ v, ofTree part = .ok v → v.Throughout Scalar.Legible

theorem legible_readBlob {tree : Tree} {content : Scalar} (hread : readBlob tree = .ok content) :
    content.Legible := by
  unfold readBlob at hread
  split at hread <;> cases hread
  trivial

/-- A clob holds the bytes of a text, which may be empty. -/
theorem legible_readClob {tree : Tree} {content : Scalar} (hread : readClob tree = .ok content) :
    content.Legible := by
  unfold readClob at hread
  split at hread
  · obtain ⟨name, _, hname⟩ := bind_eq_ok hread
    cases hname
    exact ⟨_, rfl⟩
  · cases hread
    exact ⟨[], rfl⟩

theorem throughout_ofBody {body : Tree} (hbody : BodyStands body) (hbelow : LegibleBelow body)
    {v : Value} (hread : ofBody body = .ok v) : v.Throughout Scalar.Legible := by
  have hgrown := hbody.grown
  unfold ofBody at hread
  split at hread
  case h_1 | h_2 =>
    rename_i text place items
    obtain ⟨vs, hvs, hv⟩ := bind_eq_ok hread
    cases hv
    refine .sequence fun v hv => ?_
    obtain ⟨item, hmem, hread⟩ := exists_of_mem_ofItems hvs hv
    have hpart := stands_part (hbody.stands (by simp [Node.rule])) (by simp [Node.rule]) hmem
    exact hbelow item (sizeOf_child_lt hmem) hpart
      (container_children .value (by decide) hgrown item hmem) v hread
  case h_3 =>
    rename_i text place trees
    obtain ⟨fields, hfields, hv⟩ := bind_eq_ok hread
    cases hv
    refine .struct fun field hfield => ?_
    obtain ⟨tree, htree, label, part, more, hparts, hread⟩ :=
      exists_of_mem_ofFieldTrees hfields hfield
    have hrule := container_children .structField (by decide) hgrown tree htree
    have htreeStands := stands_part (hbody.stands (by simp [Node.rule])) (by simp [Node.rule]) htree
    have hpart : part ∈ tree.children := by
      simp [hparts]
    have hsmaller : sizeOf tree < sizeOf (Node.mk Rule.structValue text place trees) :=
      sizeOf_child_lt htree
    refine hbelow part (Nat.lt_trans (sizeOf_child_lt hpart) hsmaller)
      (stands_part htreeStands (by simp [hrule]) hpart) ?_ _ hread
    obtain ⟨rule, text', place', children⟩ := tree
    obtain rfl : rule = .structField := hrule
    obtain ⟨name, value, rfl, _, hvalue⟩ :=
      structField_children (htreeStands.grown grammar_grounded)
    cases hparts
    exact hvalue
  case h_4 =>
    obtain ⟨content, hcontent, hv⟩ := bind_eq_ok hread
    cases hv
    exact .scalar (legible_readBlob hcontent)
  case h_5 =>
    obtain ⟨content, hcontent, hv⟩ := bind_eq_ok hread
    cases hv
    exact .scalar (legible_readClob hcontent)
  case h_6 =>
    obtain ⟨content, hcontent, hv⟩ := bind_eq_ok hread
    cases hv
    exact .scalar (hbody.legible hcontent)

theorem throughout_ofTree {tree : Tree} (hstands : Stands grammar '.' tree)
    (hrule : tree.rule = .value) {v : Value} (hread : ofTree tree = .ok v) :
    v.Throughout Scalar.Legible := by
  induction hsize : sizeOf tree using Nat.strongRecOn generalizing tree v with
  | ind size ih =>
      subst hsize
      have hparts : ofParts tree [] tree.children = .ok v := by
        obtain ⟨rule, text, place, children⟩ := tree
        rw [ofTree] at hread
        exact hread
      obtain ⟨body, hmem, hlabel, w, names, hbody, rfl⟩ := exists_of_ofParts hparts
      -- What calls the body of a value makes sure that no point follows it.
      have hguards : (grammar.body .value).guards (grammar.onHead '.' headDepth) '.' = true := by
        decide +kernel
      rw [← hrule] at hguards
      have hmode : grammar.mode tree.rule = .normal := by
        rw [hrule]
        rfl
      obtain ⟨r, hr, text, rest, nodes, hrest, hmatches, hnode⟩ :=
        hstands.caller grammar_grounded (by decide) hmode hguards hmem
      have hcallees : r = .label ∨ r = .valueBody := by
        rw [hrule] at hr
        exact List.mem_pair.mp hr
      -- A label is no body.
      rcases hcallees with rfl | rfl
      · obtain ⟨_, hrule, _⟩ :=
          stands_of_matches grammar_grounded (by decide) hrest hmatches hnode
        exact absurd hrule hlabel
      · refine throughout_withAnnotations (throughout_ofBody (bodyStands_of_matches hmatches hrest hnode) ?_
          hbody) names
        intro part hsmaller hpart hpartRule u hu
        exact ih _ (Nat.lt_trans hsmaller (sizeOf_child_lt hmem)) hpart hpartRule hu rfl

/-- Nothing follows a document. -/
theorem rest_of_document {text rest : List Char} {nodes : List (Node Rule)}
    (hmatches : Matches (grammar.call .loose .document) text rest nodes) : rest = [] := by
  obtain ⟨_, _, _, hbody⟩ := matches_node grammar_grounded (by decide) hmatches
  obtain ⟨_, _, _, _, _, _, _, _, _, hvalue⟩ := matches_seq (call_splits grammar _) hbody
  obtain ⟨_, _, _, _, _, _, _, _, _, hend⟩ := matches_seq (call_splits grammar _) hvalue
  obtain ⟨_, _, _, hstop⟩ := matches_node grammar_grounded (by decide) hend
  exact (matches_stop hstop).2.2

/-- Every scalar of a value that was read is legible. -/
theorem throughout_read {text : String} {v : Value} (hread : read text = .ok v) :
    v.Throughout Scalar.Legible := by
  obtain ⟨root, hroot, hread⟩ := bind_eq_ok hread
  obtain ⟨rest, _, hrule, hmatches⟩ := node_of_parse (by decide) (parse_of_parseTree hroot)
  obtain ⟨tree, stop, hchildren, _, _, htree⟩ := root_of_parseTree .value (by decide) hroot
  obtain rfl := rest_of_document hmatches
  rw [← hrule] at hmatches
  have hroots : grammar.mode root.rule = .normal ∧
      (grammar.body root.rule).guards (grammar.onHead '.' headDepth) '.' = true ∧
      ∀ r ∈ (grammar.body root.rule).callees, (grammar.mode r).LeavesNode .loose := by
    rw [hrule]
    decide +kernel
  obtain ⟨hmode, hguards, hcallees⟩ := hroots
  have hstands : Stands grammar '.' root := ⟨[], avoids_nil _, hmatches⟩
  rw [hchildren] at hread
  refine throughout_ofTree (hstands.child grammar_grounded (by decide) hmode hguards hcallees ?_)
    htree hread
  simp [hchildren]

/-! ## Texts -/

theorem Throughout.writable {v : Value} (hlegible : v.Throughout Scalar.Legible)
    (hordinary : v.Throughout Scalar.Ordinary) : v.Writable := by
  induction hlegible with
  | scalar hcontent =>
      cases hordinary with
      | scalar hcontent' => exact .scalar (Scalar.writable_of_legible hcontent hcontent')
  | sequence _ ih =>
      cases hordinary with
      | sequence hitems => exact .sequence fun item hitem => ih item hitem (hitems item hitem)
  | struct _ ih =>
      cases hordinary with
      | struct hfields => exact .struct fun field hfield => ih field hfield (hfields field hfield)

end Value

end DocQuery
