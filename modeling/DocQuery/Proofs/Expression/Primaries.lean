import DocQuery.Proofs.Expression.Built
import DocQuery.Proofs.Expression.Readings
import DocQuery.Proofs.Value.Scalars

/-!
# Constants, selections and keys in a text

What stands before an operation, or alone, is told by its first characters. A constant is written as
a literal, except for the floats that are no finite numbers, which no literal denotes. A selection
may end with the name of a kind, so blanks after it may be part of its tree.

Main names:

* `exists_scalarTaken`, `takes_literal` — constants;
* `takes_selection` — references;
* `takes_primary`, `takes_constant`, `takes_reference`, … — all of them, as they stand before an
  operation.
-/

namespace DocQuery

open Grammar DocQuery.Language Number Text Text.Digits Time

variable {gap rest text : List Char}

/-! ## Literals -/

/-- Every scalar but a float that is no finite number. -/
def Scalar.isFinite : Scalar → Bool
  | .float x => x.isFinite
  | _ => true

/-- The literals of expressions; a timestamp stands for itself or for the time of the evaluation. -/
def literalOrder : List Rule :=
  [.nullLiteral, .boolLiteral, .timestampLiteral, .durationLiteral, .decimalLiteral, .floatLiteral,
    .intLiteral, .stringLiteral]

/-- The same with the timestamps that stand for themselves. -/
def scalarOrder : List Rule :=
  [.nullLiteral, .boolLiteral, .datedTimestamp, .durationLiteral, .decimalLiteral, .floatLiteral,
    .intLiteral, .stringLiteral]

/-- A finite scalar of a literal is taken like the same value in a document. -/
theorem exists_scalarTaken {content : Scalar} (hcontent : content.IsLiteral)
    (hfinite : content.isFinite = true) (hrest : Stops rest) :
    ∃ rule ∈ scalarOrder, Value.ScalarTaken rule content (Value.writeScalar content) rest 0 := by
  cases content with
  | null kind => exact ⟨_, by decide, Value.scalarTaken_null kind hrest 0⟩
  | bool b => exact ⟨_, by decide, Value.scalarTaken_bool b hrest 0⟩
  | int n => exact ⟨_, by decide, Value.scalarTaken_int n hrest 0⟩
  | float x => exact ⟨_, by decide, Value.scalarTaken_float hfinite hrest 0⟩
  | decimal d =>
      have htaken := Value.scalarTaken_decimal d hrest 0
      rw [show d.readBack = d from hcontent] at htaken
      exact ⟨_, by decide, htaken⟩
  | timestamp t => exact ⟨_, by decide, Value.scalarTaken_timestamp hcontent hrest 0⟩
  | duration d => exact ⟨_, by decide, Value.scalarTaken_duration d hrest 0⟩
  | text form name =>
      obtain rfl : form = .string := hcontent
      exact ⟨_, by decide, Value.scalarTaken_string name 0⟩
  | blob bytes => cases hcontent
  | clob bytes => cases hcontent

theorem begins_number (negative : Bool) {digits : List Char} (hsome : digits ≠ [])
    (hdigits : ∀ c ∈ digits, c.isDigit = true) (tail : List Char) :
    Begins literalHeads (Digits.minus negative ++ (digits ++ tail)) := by
  cases negative with
  | true => exact begins_append (by decide) (digits ++ tail)
  | false =>
      cases digits with
      | nil => exact absurd rfl hsome
      | cons c digits =>
          have hc := mem_digitChars (hdigits c (List.mem_cons_self ..))
          exact ⟨[c], List.mem_append_right _ (List.mem_map.mpr ⟨c, hc, rfl⟩), digits ++ tail, rfl⟩

theorem begins_literal {content : Scalar} (hcontent : content.IsLiteral)
    (hfinite : content.isFinite = true) : Begins literalHeads (Value.writeScalar content) := by
  -- Numbers and dates begin with a sign or a digit, and everything else with a letter or a quote.
  cases content with
  | null kind =>
      cases kind with
      | null => exact ⟨"null".toList, by decide, [], rfl⟩
      | _ => exact ⟨"null".toList, by decide, _, rfl⟩
  | bool b =>
      cases b with
      | true => exact ⟨"t".toList, by decide, _, rfl⟩
      | false => exact ⟨"f".toList, by decide, _, rfl⟩
  | int n =>
      have hbegins := begins_number (decide (n < 0)) (Digits.ofNat_ne_nil n.natAbs)
        (fun _ hc => Digits.isDigit_of_mem_ofNat hc) []
      rw [List.append_nil, ← ofInt_eq] at hbegins
      exact hbegins
  | float x =>
      obtain ⟨l, hwrite, _, _⟩ := Binary64.exists_literal hfinite
      rw [Value.writeScalar, hwrite, Binary64.Literal.text, PointedDigits.text, List.append_assoc]
      exact begins_number l.negative l.pointed.whole_ne_nil l.pointed.isDigit_whole _
  | decimal d =>
      rw [Value.writeScalar, Decimal.write_eq, PointedDigits.text, List.append_assoc,
        List.append_assoc]
      exact begins_number d.negative d.pointed.whole_ne_nil d.pointed.isDigit_whole _
  | timestamp t =>
      obtain ⟨c, tail, htext, hc⟩ := Value.timestamp_head hcontent
      rw [Value.writeScalar, htext]
      exact begins_number false (List.cons_ne_nil c [])
        (fun d hd => by rw [List.mem_singleton.mp hd, hc]) tail
  | duration d =>
      obtain ⟨negative, tail, htext, _⟩ := exists_durationText d
      rw [Value.writeScalar, htext]
      cases negative with
      | true => exact ⟨['-'], by decide, _, rfl⟩
      | false => exact ⟨['P'], by decide, _, rfl⟩
  | text form name =>
      obtain rfl : form = .string := hcontent
      exact ⟨['"'], by decide, _, rfl⟩
  | blob bytes => cases hcontent
  | clob bytes => cases hcontent

theorem takes_literal {rule : Rule} {content : Scalar} (hrule : rule ∈ scalarOrder)
    (hbegins : Begins literalHeads text) (htaken : Value.ScalarTaken rule content text rest 0) :
    Takes (grammar.call .loose .literal) text rest (Value.IsScalar content) := by
  have hnow : Refuses (grammar.call .loose .nowLiteral) (text ++ rest) :=
    (hbegins.append rest).refuses [.nowLiteral] (by decide +kernel) (List.mem_cons_self ..)
  have hbefore : ∀ r ∈ Value.rulesBefore rule, Refuses (grammar.call .loose r) (text ++ rest) :=
    fun r hr => (htaken.leads.before r hr).call grammar_grounded
  have htakes := htaken.takes.call grammar_grounded
  -- Among literals, dates share a rule with the name for the present.
  by_cases hdated : rule = .datedTimestamp
  · subst hdated
    have hstamp : Takes (grammar.call .loose .timestampLiteral) text rest (Value.IsScalar content) :=
      takes_call_silent grammar_grounded rfl
        (takes_choice_right (refuses_call hnow) (takes_call htakes))
    have hall : ∀ r ∈ literalOrder.takeWhile (· != .timestampLiteral),
        r ∈ Value.rulesBefore .datedTimestamp := by
      decide
    exact takes_alternative literalOrder rfl rfl (by decide) (fun r hr => hbefore r (hall r hr))
      hstamp
  · have hall : ∀ rule ∈ scalarOrder, rule ≠ .datedTimestamp → rule ∈ literalOrder ∧
        ∀ r ∈ literalOrder.takeWhile (· != rule), r ∈ Value.rulesBefore rule ∨
          r = .timestampLiteral ∧ .datedTimestamp ∈ Value.rulesBefore rule := by
      decide
    obtain ⟨hmem, hothers⟩ := hall rule hrule hdated
    refine takes_alternative literalOrder rfl rfl hmem (fun r hr => ?_) htakes
    rcases hothers r hr with hr | ⟨rfl, hdated⟩
    · exact hbefore r hr
    · exact refuses_call_of_body grammar_grounded
        (refuses_choice (refuses_call hnow) (refuses_call (hbefore _ hdated)))

/-- The trees that literals leave. -/
theorem mem_literalRules {content : Scalar} (hcontent : content.IsLiteral) {tree : Tree}
    (hrule : tree.rule ∈ Value.scalarRules) (hread : Scalar.ofTree tree = .ok content) :
    tree.rule ∈ literalRules := by
  have hall : ∀ rule ∈ Value.scalarRules, rule ∈ literalRules ∨ rule = .quotedSymbol ∨
      rule = .identifier := by
    decide
  obtain ⟨rule, text, place, children⟩ := tree
  rcases hall _ hrule with hmem | rfl | rfl
  · exact hmem
  · obtain ⟨name, _, hname⟩ := bind_eq_ok hread
    cases hname
    cases hcontent
  · cases hread
    cases hcontent

/-! ## What stands before an operation -/

/-- What stands before an operation or alone, if it is not in parentheses. -/
def primaryOrder : List Rule :=
  [.literal, .selection, .relativeSelection, .keyReference]

/-- A text is told from the alternatives before its own by its beginning. -/
theorem takes_primary (rule : Rule) (heads : List (List Char)) (hrule : rule ∈ primaryOrder)
    (hheads : ∀ head ∈ heads, head.head?.any (· != '(') = true ∧
      ∀ r ∈ primaryOrder.takeWhile (· != rule),
        grammar.onPrefix prefixDepth .loose r head = .refused)
    (hbegins : Begins heads text) {good : List Tree → Prop}
    (htakes : TakesTrailing (grammar.call .loose rule) text gap rest good) :
    TakesTrailing (grammar.call .loose .primary) text gap rest good := by
  refine htakes.lift fun text' rest' heq htakes => ?_
  have hwhole : Begins heads (text' ++ rest') := by
    rw [heq]
    exact hbegins.append _
  have hopen : ¬ ['('] <+: text' ++ rest' := by
    obtain ⟨head, hhead, tail, htail⟩ := hwhole
    rw [htail]
    have hfirst := (hheads head hhead).1
    cases head with
    | nil => cases hfirst
    | cons c head =>
        intro hstart
        obtain ⟨rfl, _⟩ := List.cons_prefix_cons.mp hstart
        cases hfirst
  refine takes_call_silent grammar_grounded rfl (takes_choice_right
    (refuses_seq_left (refuses_text hopen)) (takes_firstOf_rules hrule (fun r hr => ?_) htakes))
  exact hwhole.refuses _ (fun head hhead => (hheads head hhead).2) hr

namespace Expression

variable {content : Scalar} {r : Reference}

theorem write_constant (content : Scalar) :
    (constant (.scalar [] content)).write = Value.writeScalar content := by
  show (Value.scalar [] content).write .compact 0 = _
  rw [Value.write, Value.writeAnnotations]
  simp only [Layout.compact, List.flatMap_nil, if_true, List.nil_append]

theorem takes_constant (hcontent : content.IsLiteral) (hfinite : content.isFinite = true)
    (hfollows : Follows gap rest) :
    TakesTrailing (grammar.call .loose .primary) (constant (.scalar [] content)).write gap rest
      (IsOne (Reads (constant (.scalar [] content)))) := by
  obtain ⟨rule, hrule, htaken⟩ := exists_scalarTaken hcontent hfinite hfollows.stops
  have hbegins := begins_literal hcontent hfinite
  have htakes := takes_literal hrule hbegins htaken
  rw [write_constant]
  refine takes_primary .literal literalHeads (by decide) (by decide +kernel) hbegins
    (Takes.trailing (htakes.imp ?_))
  rintro nodes ⟨tree, rfl, hscalar, hread⟩
  exact ⟨tree, rfl, reads_constant (mem_literalRules hcontent hscalar hread) hread⟩

theorem begins_odd (hinfinite : content.isFinite = false) :
    Begins oddHeads (Value.writeScalar content) := by
  cases content with
  | float x =>
      cases x with
      | finite negative s e hcanonical => cases hinfinite
      | nan => exact ⟨"na".toList, by decide, _, rfl⟩
      | infinity negative =>
          cases negative with
          | true => exact ⟨"-i".toList, by decide, _, rfl⟩
          | false => exact ⟨"+".toList, by decide, _, rfl⟩
  | _ => cases hinfinite

/-- What is written for a float that is no finite number is nothing that can stand before an
operation. -/
theorem refuses_constant (hinfinite : content.isFinite = false) (rest : List Char) :
    Refuses (grammar.call .loose .primary) ((constant (.scalar [] content)).write ++ rest) := by
  rw [write_constant]
  exact ((begins_odd hinfinite).append rest).refuses [.primary] (by decide +kernel)
    (List.mem_cons_self ..)

theorem begins_constant (hcontent : content.IsLiteral) :
    Begins primaryHeads (constant (.scalar [] content)).write := by
  rw [write_constant]
  by_cases hfinite : content.isFinite = true
  · exact (begins_literal hcontent hfinite).mono (by decide)
  · exact (begins_odd (Bool.eq_false_iff.mpr hfinite)).mono (by decide)

theorem takes_now (hfollows : Follows gap rest) :
    TakesTrailing (grammar.call .loose .primary) now.write gap rest (IsOne (Reads now)) := by
  have hword : Takes (grammar.callBody .loose .nowLiteral) ("now".toList ++ []) (gap ++ rest)
      Leafless :=
    takes_seq_tight rfl (takes_text _) (takes_wordEnd hfollows.stops.wordEnd) leafless_then
  have hnow := takes_call_node grammar_grounded (by decide) hword
  have hstamp : Takes (grammar.call .loose .timestampLiteral) "now".toList (gap ++ rest)
      (IsOne (Reads now)) := by
    refine takes_call_silent grammar_grounded rfl (takes_choice_left (takes_call (hnow.imp ?_)))
    rintro nodes ⟨place, children, rfl, _⟩
    exact ⟨_, rfl, reads_now rfl⟩
  have hbegins : Begins ["now".toList] "now".toList := ⟨_, List.mem_cons_self .., [], rfl⟩
  have hliteral : Takes (grammar.call .loose .literal) "now".toList (gap ++ rest)
      (IsOne (Reads now)) :=
    takes_alternative literalOrder rfl rfl (by decide)
      (fun r hr => (hbegins.append _).refuses _ (by decide +kernel) hr) hstamp
  exact takes_primary .literal _ (by decide) (by decide +kernel) hbegins (Takes.trailing hliteral)

theorem takes_key : TakesTrailing (grammar.call .loose .primary) key.write gap rest
    (IsOne (Reads key)) := by
  have hbody : Takes (grammar.callBody .loose .keyReference) ['#'] (gap ++ rest) Leafless :=
    takes_text _
  have hbegins : Begins [['#']] ['#'] := ⟨_, List.mem_cons_self .., [], rfl⟩
  refine takes_primary .keyReference _ (by decide) (by decide +kernel) hbegins
    (Takes.trailing ((takes_call_node grammar_grounded (by decide) hbody).imp ?_))
  rintro nodes ⟨place, children, rfl, _⟩
  exact ⟨_, rfl, reads_key rfl⟩

end Expression

/-! ## Selections -/

theorem Path.ends_of_stops (hrest : Stops rest) : Path.Ends rest :=
  hrest.avoids (by decide)

theorem StaticKind.ofName?_name (kind : StaticKind) :
    StaticKind.ofName? kind.name = some kind := by
  cases kind <;> decide

namespace Reference

/-- The kind after a path, with its keyword. -/
def kindText (kind : StaticKind) : List Char :=
  if kind = .any then [] else " as ".toList ++ kind.name.toList

/-- The kind that is read from the nodes after a first one. -/
def ReadsExpected (kind : StaticKind) (nodes : List Tree) : Prop :=
  ∀ rule text place first, Node.rule first ≠ .typeName →
    readExpected (.mk rule text place (first :: nodes)) = .ok kind

/-- The pattern of a kind after a path. -/
abbrev kindPattern : Pattern Rule :=
  .optional (afterKeywords [.asKeyword] (.rule .typeName))

theorem partText?_cons {rule outer : Rule} {first : Tree} (hfirst : first.rule ≠ rule)
    (text : List Char) (place : Place) (nodes : List Tree) :
    Tree.partText? rule (.mk outer text place (first :: nodes)) =
      (nodes.find? (·.rule == rule)).map (·.text) := by
  unfold Tree.partText?
  rw [Node.children, List.find?_cons_of_neg (by simpa using hfirst)]

theorem readsExpected_any : ReadsExpected .any [] := by
  intro rule text place first hfirst
  unfold readExpected
  rw [partText?_cons hfirst]
  rfl

theorem readsExpected_name {kind : StaticKind} {keyword name : Tree}
    (hkeyword : keyword.rule = .asKeyword) (hrule : name.rule = .typeName)
    (hname : name.text = kind.name.toList) : ReadsExpected kind [keyword, name] := by
  intro rule text place first hfirst
  unfold readExpected
  rw [partText?_cons hfirst, List.find?_cons_of_neg (by rw [hkeyword]; decide),
    List.find?_cons_of_pos (by rw [hrule]; decide), Option.map_some, hname]
  dsimp only
  rw [String.ofList_toList, StaticKind.ofName?_name]

/-- The name of a kind. -/
theorem takes_kindName {name : String} (hfollows : Follows gap rest)
    (hname : ∃ c chars, name.toList = c :: chars ∧ c.isLower = true ∧
      ∀ d ∈ chars, isKindChar d = true) :
    Takes (grammar.call .loose .typeName) name.toList (gap ++ rest)
      (IsNode .typeName name.toList Leafless) := by
  obtain ⟨c, chars, heq, hc, hchars⟩ := hname
  rw [heq]
  exact (takes_typeName hc hchars hfollows.stops 0 (by decide)).call grammar_grounded

/-- A path with a kind after it, or without one. -/
theorem takes_kinded {part : Rule} {path : List Char} {good : List Tree → Prop} (kind : StaticKind)
    (hfollows : Follows gap rest)
    (hpath : ∀ rest, Stops rest → Takes (grammar.call .loose part) path rest good) :
    TakesTrailing (loosely (.seq (.rule part) kindPattern)) (path ++ kindText kind) gap rest
      (Then good (ReadsExpected kind)) := by
  unfold kindText
  split
  · rename_i hany
    subst hany
    have hnone : Takes (loosely kindPattern) [] rest Leafless :=
      takes_optional_none (refuses_seq_left (refuses_call hfollows.kind))
    have hseq := takesTrailing_seq_empty (Takes.trailing (takes_call (hpath _ hfollows.stops)))
      hfollows.between hnone
    rw [List.append_nil]
    exact hseq.imp fun nodes hnodes =>
      ⟨nodes, [], (List.append_nil nodes).symm, hnodes, readsExpected_any⟩
  -- The blanks after the path are those before the keyword, as no path takes any.
  · have hname : ∃ c chars, kind.name.toList = c :: chars ∧ c.isLower = true ∧
        ∀ d ∈ chars, isKindChar d = true := by
      cases kind <;> exact ⟨_, _, rfl, by decide, by decide⟩
    have hnext : Avoids grammar.blank (kind.name.toList ++ (gap ++ rest)) := by
      cases kind <;> exact avoids_append (by decide) _
    have hkeyword : ∀ k ∈ [Rule.asKeyword], k ∈ keywordRules := by
      decide
    have hworded := takes_worded hkeyword hnext
      (Takes.trailing (takes_call (takes_kindName hfollows hname)))
    have hkind : TakesTrailing (loosely kindPattern) (worded [.asKeyword] kind.name.toList) gap rest
        (ReadsExpected kind) := by
      refine hworded.lift fun _ _ _ htakes => takes_optional_some (htakes.imp ?_)
      rintro nodes ⟨words, parts, rfl, hwords, place, children, rfl, _⟩
      obtain ⟨keyword, rfl, hkeyword⟩ := List.map_eq_singleton_iff.mp hwords
      exact readsExpected_name hkeyword rfl rfl
    have hblank : Avoids grammar.blank (worded [.asKeyword] kind.name.toList ++ (gap ++ rest)) := by
      rw [worded_append]
      exact avoids_worded (by decide) hnext
    have htext : " as ".toList ++ kind.name.toList = [' '] ++ worded [.asKeyword] kind.name.toList :=
      rfl
    rw [htext]
    exact takesTrailing_seq (Takes.trailing (takes_call (hpath _ (stops_cons (by decide) _))))
      (between_blank isBlank_space hblank) hkind then_intro

/-- The rule of a selection. -/
def selectionRule (r : Reference) : Rule :=
  match r.origin with
  | .document => .selection
  | .candidate => .relativeSelection

theorem isTree_selection {p : Path} {path : Tree} {kind : StaticKind} {nodes : List Tree}
    (hpath : p.IsTree path) (hnodes : ReadsExpected kind nodes) (text : List Char) (place : Place) :
    IsTree ⟨.document, some p, kind⟩ (.mk .selection text place (path :: nodes)) := by
  obtain ⟨hrule, hread⟩ := hpath
  refine ⟨List.mem_cons_self .., ?_⟩
  have hpaths : Node.childrenOf .path (.mk .selection text place (path :: nodes)) =
      path :: nodes.filter (·.rule == .path) := by
    rw [Node.childrenOf, Node.children, List.filter_cons_of_pos (by rw [hrule]; decide)]
  unfold ofTree
  simp only [Node.rule, hpaths, hread, hnodes _ _ _ path (by rw [hrule]; decide)]
  rfl

/-- The tree of the path of a candidate, with the path as its child if there is one. -/
def IsRelative (p : Option Path) (tree : Tree) : Prop :=
  tree.rule = .relativePath ∧
    match p with
    | none => tree.childrenOf .path = []
    | some p => ∃ path, tree.childrenOf .path = [path] ∧ p.IsTree path

theorem isTree_relative {p : Option Path} {relative : Tree} {kind : StaticKind} {nodes : List Tree}
    (hrelative : IsRelative p relative) (hnodes : ReadsExpected kind nodes) (text : List Char)
    (place : Place) :
    IsTree ⟨.candidate, p, kind⟩ (.mk .relativeSelection text place (relative :: nodes)) := by
  obtain ⟨hrule, hpaths⟩ := hrelative
  refine ⟨List.mem_cons_of_mem _ (List.mem_cons_self ..), ?_⟩
  have hrelatives : Node.childrenOf .relativePath
      (.mk .relativeSelection text place (relative :: nodes)) =
        relative :: nodes.filter (·.rule == .relativePath) := by
    rw [Node.childrenOf, Node.children, List.filter_cons_of_pos (by rw [hrule]; decide)]
  unfold ofTree
  simp only [Node.rule, hrelatives, hnodes _ _ _ relative (by rw [hrule]; decide)]
  cases p with
  | none =>
      rw [show relative.childrenOf .path = [] from hpaths]
      rfl
  | some p =>
      obtain ⟨path, hpath, _, hread⟩ := hpaths
      rw [hpath]
      dsimp only
      rw [hread]
      rfl

theorem takes_relativePath {p : Option Path} (hp : ∀ q, p = some q → q.Addressable)
    (hrest : Stops rest) :
    Takes (grammar.call .loose .relativePath) ('@' :: (p.map Path.write).getD []) rest
      (IsOne (IsRelative p)) := by
  have htight := tight_compound false
  cases p with
  | none =>
      -- No path begins where a value may end.
      have hpath : Refuses (grammar.call .compound .path) rest :=
        refuses_call_of_body grammar_grounded
          (refuses_seq_left (refuses_seq_left (refuses_text (hrest.not_prefix (by decide) []))))
      have hbody : Takes (grammar.callBody .loose .relativePath) (['@'] ++ []) rest Leafless :=
        takes_seq_tight htight (takes_text _) (takes_optional_none (refuses_call hpath))
          leafless_then
      refine (takes_call_node grammar_grounded (by decide) hbody).imp ?_
      rintro nodes ⟨place, children, rfl, rfl⟩
      exact ⟨_, rfl, rfl, rfl⟩
  | some q =>
      have hbody : Takes (grammar.callBody .loose .relativePath) (['@'] ++ q.write) rest
          (IsOne q.IsTree) :=
        takes_seq_tight htight (takes_text _) (takes_optional_some (takes_call
          (Path.takes_write (hp q rfl) (Path.ends_of_stops hrest) .compound))) leafless_then
      refine (takes_call_node grammar_grounded (by decide) hbody).imp ?_
      rintro nodes ⟨place, children, rfl, path, rfl, hpath⟩
      refine ⟨_, rfl, rfl, path, ?_, hpath⟩
      rw [Node.childrenOf, Node.children, List.filter_cons_of_pos (by rw [hpath.1]; decide)]
      rfl

/-- A reference is written as a selection. -/
theorem takes_selection {r : Reference} (hr : r.Selects) (hfollows : Follows gap rest) :
    TakesTrailing (grammar.call .loose r.selectionRule) r.write gap rest (IsOne r.IsTree) := by
  obtain ⟨origin, path, kind⟩ := r
  cases origin with
  | document =>
      cases path with
      | none => exact absurd rfl (hr.path_of_document rfl)
      | some p =>
          have hbody : TakesTrailing (grammar.callBody .loose .selection)
              (p.write ++ kindText kind) gap rest (Then (IsOne p.IsTree) (ReadsExpected kind)) :=
            takes_kinded kind hfollows fun rest hrest =>
              Path.takes_write (hr.addressable p rfl) (Path.ends_of_stops hrest) .loose
          refine (TakesTrailing.node grammar_grounded (by decide) hbody).imp ?_
          rintro nodes ⟨text, place, children, rfl, before, after, rfl, ⟨path, rfl, hpath⟩, hkind⟩
          exact ⟨_, rfl, isTree_selection hpath hkind text place⟩
  | candidate =>
      have hbody : TakesTrailing (grammar.callBody .loose .relativeSelection)
          ('@' :: (path.map Path.write).getD [] ++ kindText kind) gap rest
          (Then (IsOne (IsRelative path)) (ReadsExpected kind)) :=
        takes_kinded kind hfollows fun rest hrest => takes_relativePath hr.addressable hrest
      refine (TakesTrailing.node grammar_grounded (by decide) hbody).imp ?_
      rintro nodes ⟨text, place, children, rfl, before, after, rfl, ⟨relative, rfl, hrelative⟩,
        hkind⟩
      exact ⟨_, rfl, isTree_relative hrelative hkind text place⟩

theorem begins_document {p : Path} (kind : StaticKind) :
    Begins [['/']] (write ⟨.document, some p, kind⟩) :=
  ⟨['/'], List.mem_cons_self .., _, rfl⟩

theorem begins_candidate (path : Option Path) (kind : StaticKind) :
    Begins [['@']] (write ⟨.candidate, path, kind⟩) :=
  ⟨['@'], List.mem_cons_self .., _, rfl⟩

end Reference

namespace Expression

theorem begins_reference {r : Reference} (hr : r.Selects) : Begins primaryHeads r.write := by
  obtain ⟨origin, path, kind⟩ := r
  cases origin with
  | document =>
      cases path with
      | none => exact absurd rfl (hr.path_of_document rfl)
      | some p => exact (Reference.begins_document kind).mono (by decide)
  | candidate => exact (Reference.begins_candidate path kind).mono (by decide)

theorem takes_reference {r : Reference} (hr : r.Selects) (hfollows : Follows gap rest) :
    TakesTrailing (grammar.call .loose .primary) r.write gap rest (IsOne r.IsTree) := by
  have htakes := Reference.takes_selection hr hfollows
  obtain ⟨origin, path, kind⟩ := r
  cases origin with
  | document =>
      cases path with
      | none => exact absurd rfl (hr.path_of_document rfl)
      | some p =>
          exact takes_primary .selection [['/']] (by decide) (by decide +kernel)
            (Reference.begins_document kind) htakes
  | candidate =>
      exact takes_primary .relativeSelection [['@']] (by decide) (by decide +kernel)
        (Reference.begins_candidate path kind) htakes

theorem takes_someSelection {r : Reference} (hr : r.Selects) (hfollows : Follows gap rest) :
    TakesTrailing (loosely (.firstOf [.rule .selection, .rule .relativeSelection])) r.write gap rest
      (IsOne r.IsTree) := by
  refine (Reference.takes_selection hr hfollows).lift fun text' rest' heq htakes => ?_
  obtain ⟨origin, path, kind⟩ := r
  cases origin with
  | document => exact takes_choice_left (takes_call htakes)
  | candidate =>
      have hrefuses : Refuses (grammar.call .loose .selection) (text' ++ rest') := by
        rw [heq]
        exact ((Reference.begins_candidate path kind).append _).refuses [.selection]
          (by decide +kernel) (List.mem_cons_self ..)
      exact takes_choice_right (refuses_call hrefuses) (takes_call htakes)

/-- The form of an operand, with the keyword before it and what stands after the keyword. -/
inductive KeywordForm : Rule → Rule → Pattern Rule → Prop
  | negation : KeywordForm .negation .notKeyword (.rule .operand)
  | existence : KeywordForm .existence .existsKeyword
      (.firstOf [.rule .selection, .rule .relativeSelection])

/-- An operand that begins with a keyword. -/
theorem takes_keywordForm {rule word : Rule} {p : Pattern Rule} (hform : KeywordForm rule word p)
    {good : List Tree → Prop} (hnext : Avoids grammar.blank (text ++ (gap ++ rest)))
    (hp : TakesTrailing (loosely p) text gap rest good) :
    TakesTrailing (grammar.call .loose .operand) (worded [word] text) gap rest fun nodes =>
      ∃ text place keyword parts, nodes = [.mk rule text place (keyword :: parts)] ∧ good parts := by
  have hword : ∀ k ∈ [word], k ∈ keywordRules := by
    cases hform <;> decide
  -- The alternatives before a form with a keyword refuse the keyword.
  have hbefore : ∀ r ∈ operandRules.takeWhile (· != rule),
      grammar.onPrefix prefixDepth .loose r (worded [word] []) = .refused := by
    cases hform <;> decide +kernel
  have hrule : rule ∈ operandRules ∧ (grammar.mode rule).LeavesNode .loose := by
    cases hform <;> decide
  have hbody : TakesTrailing (grammar.callBody .loose rule) (worded [word] text) gap rest
      fun nodes => ∃ words parts, nodes = words ++ parts ∧ words.map Node.rule = [word] ∧
        good parts := by
    cases hform <;> exact takes_worded hword hnext hp
  refine (TakesTrailing.node grammar_grounded hrule.2 hbody).lift fun text' rest' heq htakes => ?_
  refine takes_alternative operandRules rfl rfl hrule.1 (fun r hr => ?_) (htakes.imp ?_)
  · rw [heq, worded_append, worded_eq]
    exact refuses_of_prefix grammar_grounded (hbefore r hr) _
  · rintro nodes ⟨text, place, children, rfl, words, parts, rfl, hwords, hparts⟩
    obtain ⟨keyword, rfl, _⟩ := List.map_eq_singleton_iff.mp hwords
    exact ⟨text, place, keyword, parts, rfl, hparts⟩

theorem write_existence (r : Reference) :
    (existence r).write = worded [.existsKeyword] r.write := rfl

/-- A reference after the keyword that asks for it. -/
theorem takes_existence {r : Reference} (hr : r.Selects) (hfollows : Follows gap rest) :
    TakesTrailing (grammar.call .loose .operand) (existence r).write gap rest
      (IsOne (Reads (existence r))) := by
  rw [write_existence]
  refine (takes_keywordForm .existence (avoids_primary ((begins_reference hr).append _))
    (takes_someSelection hr hfollows)).imp ?_
  rintro nodes ⟨text, place, keyword, parts, rfl, tree, rfl, htree⟩
  exact ⟨_, rfl, reads_existence htree⟩

end Expression

end DocQuery
