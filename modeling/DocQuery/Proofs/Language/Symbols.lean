import DocQuery.Proofs.Language.Quotes
import DocQuery.Value.Printer
import DocQuery.Value.Reader

/-!
# Names, keywords and labels in a text

A symbol stands in a text as a name or between quotes. As a value a name must get past the
alternatives that begin with a letter, which are nulls, bools and durations; before a colon, as a
label or the name of a field, any symbol is taken.

Main names:

* `isDurationText` — a name that the grammar would take as a duration;
* `refuses_nullLiteral`, `refuses_boolLiteral`, `refuses_durationLiteral` — what other names are not;
* `takes_nullLiteral`, `takes_boolLiteral` — the keywords themselves;
* `takes_symbol` — a symbol as it is written, with `readName` of its tree;
* `takes_label`, `refuses_label` — symbols with and without two colons.
-/

namespace DocQuery.Language

open Grammar Text

variable {name rest : List Char}

/-! ## Keywords and names -/

/-- A text that the grammar takes as a duration, from its beginning to its end. -/
def isDurationText (text : List Char) : Bool :=
  match grammar.parse .durationLiteral text with
  | (.matched cursor _, _) => cursor.rest.isEmpty
  | _ => false

theorem isNameChar_of_isName (hname : isName name = true) {c : Char} (hc : c ∈ name) :
    isNameChar c = true := by
  cases name with
  | nil => cases hname
  | cons first name =>
      simp only [isName, Bool.and_eq_true, List.all_eq_true] at hname
      rcases List.mem_cons.mp hc with rfl | hmem
      · have hstart := hname.1
        simp only [isNameStart, Bool.or_eq_true] at hstart
        simp only [isNameChar, Char.isAlphanum, Bool.or_eq_true]
        rcases hstart with halpha | hunderscore
        · exact Or.inl (Or.inl halpha)
        · exact Or.inr hunderscore
      · exact hname.2 c hmem

/-- A name that is no keyword either does not begin with it or goes on after it. -/
theorem keyword_cases {keyword : List Char} (hname : isName name = true) (hne : name ≠ keyword)
    (hkeyword : ∀ c ∈ keyword, c ∉ stopChars) (hrest : Stops rest) :
    ¬ keyword <+: name ++ rest ∨
      ∃ c tail, name = keyword ++ c :: tail ∧ Rule.nameChar.contains c = true := by
  by_cases hstart : keyword <+: name ++ rest
  · obtain ⟨tail, htail⟩ := hrest.prefix_of_append hkeyword hstart
    cases tail with
    | nil =>
        rw [List.append_nil] at htail
        exact absurd htail.symm hne
    | cons c tail =>
        have hmem : c ∈ name := by
          rw [← htail]
          simp
        refine Or.inr ⟨c, tail, htail.symm, ?_⟩
        rw [contains_nameChar]
        exact isNameChar_of_isName hname hmem
  · exact Or.inl hstart

theorem refuses_nullLiteral (hname : isName name = true) (hne : name ≠ "null".toList)
    (hrest : Stops rest) (fuel : Nat) (outer : Atomicity) :
    Refuses (runRule grammar (fuel + 1) outer .nullLiteral) (name ++ rest) := by
  have htight := tight_compound false
  refine refuses_rule ?_
  rcases keyword_cases hname hne (by decide) hrest with hstart | ⟨c, tail, rfl, hc⟩
  · exact refuses_seq_left (refuses_text hstart)
  · rw [List.append_assoc]
    refine refuses_seq_tight htight (takes_text _) ?_
    -- A character of a name is no point, so that only the end of the word can follow.
    have hpoint : ¬ ['.'] <+: c :: (tail ++ rest) := by
      intro hstart
      obtain ⟨rfl, _⟩ := List.cons_prefix_cons.mp hstart
      exact absurd hc (by decide)
    show Refuses _ ([] ++ (c :: tail ++ rest))
    exact refuses_seq_tight htight (takes_optional_none (refuses_seq_left (refuses_text hpoint)))
      (refuses_absent hc _)

/-- A keyword that a name goes on after is refused at the end of the word. -/
theorem refuses_wordEnd {p : Pattern Rule} {call : Rule → Runner Rule} {keyword : List Char}
    {c : Char} (hc : Rule.nameChar.contains c = true) (text : List Char)
    (hp : Takes (p.run grammar.blank ⟨.token, false⟩ call) keyword (c :: text) Leafless) :
    Refuses ((Pattern.seq p Rule.wordEnd).run grammar.blank ⟨.token, false⟩ call)
      (keyword ++ c :: text) :=
  refuses_seq_tight (tight_token false) hp (refuses_absent hc text)

theorem refuses_boolLiteral (hname : isName name = true) (htrue : name ≠ "true".toList)
    (hfalse : name ≠ "false".toList) (hrest : Stops rest) (fuel : Nat) (outer : Atomicity) :
    Refuses (runRule grammar (fuel + 1) outer .boolLiteral) (name ++ rest) := by
  refine refuses_rule ?_
  rcases keyword_cases hname htrue (by decide) hrest with hnotTrue | ⟨c, tail, rfl, hc⟩
  · rcases keyword_cases hname hfalse (by decide) hrest with hnotFalse | ⟨c, tail, rfl, hc⟩
    · exact refuses_seq_left (refuses_choice (refuses_text hnotTrue) (refuses_text hnotFalse))
    · rw [List.append_assoc]
      rw [List.append_assoc] at hnotTrue
      exact refuses_wordEnd hc _ (takes_choice_right (refuses_text hnotTrue) (takes_text _))
  · rw [List.append_assoc]
    exact refuses_wordEnd hc _ (takes_choice_left (takes_text _))

/-- How deep rules nest within a duration. -/
abbrev durationDepth : Nat := 4

theorem endsBefore_durationLiteral (fuel : Nat) (outer : Atomicity) :
    EndsBefore Rule.nameChar (runRule grammar (fuel + 1) outer .durationLiteral) := by
  refine endsBefore_token rfl ?_
  exact endsBefore_seq (endsBefore_seq (endsBefore_seq endsBefore_absent))

/-- A name is a duration as a whole or not at all, since a duration ends where a word ends. -/
theorem refuses_durationLiteral (hname : isName name = true)
    (hduration : isDurationText name = false) (hrest : Stops rest) (fuel : Nat)
    (outer : Atomicity) :
    Refuses (runRule grammar (durationDepth + fuel) outer .durationLiteral) (name ++ rest) := by
  have hclosed : grammar.isClosed stopChars durationDepth .durationLiteral = true := by
    decide
  rcases Grammar.settled_of_isClosed rfl hclosed name with hrefuses | ⟨taken, left, rfl, htakes⟩
  · exact hrefuses (fuel, outer) rest hrest
  · cases left with
    | nil =>
        -- The whole name would be a duration.
        have hbound : depthBound (taken ++ []).length =
            durationDepth + (depthBound (taken ++ []).length - durationDepth) := by
          unfold depthBound durationDepth
          omega
        obtain ⟨nodes, attempts, hrun, _⟩ :=
          htakes (depthBound (taken ++ []).length - durationDepth, .loose) [] stops_nil .first .none
        simp only [← hbound] at hrun
        have hparse : grammar.parse .durationLiteral (taken ++ []) =
            (.matched ⟨Place.first.past taken, []⟩ nodes, attempts) := hrun
        unfold isDurationText at hduration
        rw [hparse] at hduration
        cases hduration
    | cons c left =>
        -- The duration would be followed by a character of the name.
        have hc : Rule.nameChar.contains c = true := by
          rw [contains_nameChar]
          exact isNameChar_of_isName hname (by simp)
        have hfuel : durationDepth + fuel = (3 + fuel) + 1 := by
          unfold durationDepth
          omega
        have hends := endsBefore_durationLiteral (3 + fuel) outer
        rw [← hfuel] at hends
        have havoids := hends.avoids (htakes (fuel, outer) rest hrest)
        rw [havoids c (left ++ rest) rfl] at hc
        cases hc

/-! ## The keywords themselves -/

theorem takes_boolLiteral (b : Bool) (hrest : Avoids Rule.nameChar rest) (fuel : Nat)
    {outer : Atomicity} (houter : outer ≠ .token) :
    Takes (runRule grammar (fuel + 1) outer .boolLiteral) (if b then "true" else "false").toList
      rest (IsNode .boolLiteral (if b then "true" else "false").toList Leafless) := by
  refine takes_node (by decide) (Or.inl houter) ?_
  rw [← List.append_nil (if b then "true" else "false").toList]
  refine takes_seq_tight (tight_token false) ?_ (takes_wordEnd hrest) leafless_then
  cases b with
  | true => exact takes_choice_left (takes_text _)
  | false => exact takes_choice_right (refuses_text (not_prefix_cons (by decide) _ _)) (takes_text _)

/-- A null of no kind; its tree has no part. -/
theorem takes_nullLiteral (hrest : Avoids Rule.nameChar rest) (hpoint : ¬ ['.'] <+: rest)
    (fuel : Nat) (outer : Atomicity) :
    Takes (runRule grammar (fuel + 1) outer .nullLiteral) "null".toList rest
      (IsNode .nullLiteral "null".toList Leafless) := by
  have htight := tight_compound false
  refine takes_node (by decide) (Or.inr (Or.inl rfl)) ?_
  rw [← List.append_nil "null".toList, ← List.append_nil []]
  exact takes_seq_tight htight (takes_text _) (takes_seq_tight htight (takes_optional_none
    (refuses_seq_left (refuses_text hpoint))) (takes_wordEnd hrest) leafless_then) leafless_then

/-- The characters of the names of kinds. -/
def isKindChar (c : Char) : Bool :=
  c.isLower || c == '_'

theorem takes_typeName {c : Char} {name : List Char} (hc : c.isLower = true)
    (hname : ∀ d ∈ name, isKindChar d = true) (hrest : Stops rest) (fuel : Nat) {outer : Atomicity}
    (houter : outer ≠ .token) :
    Takes (runRule grammar (fuel + 1) outer .typeName) (c :: name) rest
      (IsNode .typeName (c :: name) Leafless) := by
  have htight := tight_token false
  refine takes_node (by decide) (Or.inl houter) ?_
  show Takes _ ([c] ++ name) rest Leafless
  refine takes_seq_tight htight (takes_one hc) (takes_star_chars htight ?_ ?_)
    leafless_then
  · intro d hd rest'
    by_cases hlower : d.isLower = true
    · exact takes_choice_left (takes_one hlower)
    · have hunderscore : d = '_' := by
        simpa [isKindChar, hlower] using hname d hd
      subst hunderscore
      exact takes_choice_right (refuses_one (avoids_cons (by decide) _)) (takes_text _)
  · exact refuses_choice (refuses_one (hrest.avoids (by decide)))
      (refuses_text (hrest.not_prefix (by decide) []))

/-- A null with the name of its kind; its tree has one part, with the name. -/
theorem takes_nullLiteral_kind (kind : Kind) (hrest : Stops rest) (fuel : Nat)
    (outer : Atomicity) :
    Takes (runRule grammar (fuel + 2) outer .nullLiteral) ("null.".toList ++ kind.name.toList) rest
      (IsNode .nullLiteral ("null.".toList ++ kind.name.toList)
        (IsNode .typeName kind.name.toList Leafless)) := by
  have htight := tight_compound false
  have hkind : ∃ c name, kind.name.toList = c :: name ∧ c.isLower = true ∧
      ∀ d ∈ name, isKindChar d = true := by
    cases kind <;> exact ⟨_, _, rfl, by decide, by decide⟩
  obtain ⟨c, name, hname, hc, hchars⟩ := hkind
  have htype : Takes ((Pattern.seq (.text ['.']) (.rule .typeName)).run grammar.blank
      ⟨.compound, false⟩ (runRule grammar (fuel + 1) .compound)) (['.'] ++ kind.name.toList)
      rest (IsNode .typeName kind.name.toList Leafless) := by
    rw [hname]
    exact takes_seq_tight htight (takes_text _)
      (takes_call (takes_typeName hc hchars hrest fuel (by decide))) leafless_then
  have hend : Takes ((Pattern.seq (.optional (.seq (.text ['.']) (.rule .typeName)))
      Rule.wordEnd).run grammar.blank ⟨.compound, false⟩ (runRule grammar (fuel + 1) .compound))
      ((['.'] ++ kind.name.toList) ++ []) rest (IsNode .typeName kind.name.toList Leafless) := by
    exact takes_seq_tight htight (takes_optional_some htype) (takes_wordEnd hrest.wordEnd) then_leafless
  rw [List.append_nil] at hend
  refine takes_node (by decide) (Or.inr (Or.inl rfl)) ?_
  show Takes _ ("null".toList ++ (['.'] ++ kind.name.toList)) rest _
  exact takes_seq_tight htight (takes_text _) hend leafless_then

/-! ## Symbols -/

/-- One node, which is read as a name. -/
abbrev IsNameOf (name : String) : List (Node Rule) → Prop :=
  IsOne fun tree => Value.readName tree = .ok name

theorem isNameOf_identifier {name : String} {nodes : List (Node Rule)}
    (hnodes : IsNode .identifier name.toList Leafless nodes) : IsNameOf name nodes := by
  obtain ⟨place, children, rfl, rfl⟩ := hnodes
  refine ⟨_, rfl, ?_⟩
  show Except.ok (String.ofList name.toList) = _
  rw [String.ofList_toList]

theorem isNameOf_quotedSymbol {name : String} {nodes : List (Node Rule)}
    (hnodes : IsQuoted .quotedSymbol .symbolContent '\'' (Escape.escape '\'' name.toList) nodes) :
    IsNameOf name nodes := by
  obtain ⟨place, children, rfl, place', children', rfl, rfl⟩ := hnodes
  refine ⟨_, rfl, ?_⟩
  show Scalar.readQuoted .symbol _ = _
  rw [readQuoted_node (by rfl) (Or.inr rfl) .symbol, String.ofList_toList]

/-- A symbol between quotes. -/
theorem takes_quotedName (name : String) (rest : List Char) (fuel : Nat) (outer : Atomicity) :
    Takes (runRule grammar (fuel + 2) outer .quotedSymbol) (Value.writeQuoted '\'' name.toList) rest
      (IsQuoted .quotedSymbol .symbolContent '\'' (Escape.escape '\'' name.toList)) :=
  takes_quotedSymbol (Escape.quotedText_escape (Or.inr rfl) _) rest fuel outer

/-- A symbol as the grammar has it before colons. -/
abbrev symbolPattern : Pattern Rule :=
  .choice (.rule .quotedSymbol) (.rule .identifier)

/-- A symbol between quotes or a name, before anything that cannot go on with the name. -/
theorem takes_symbol (name : String) (hrest : Avoids Rule.nameChar rest) (context : Grammar.Context)
    (fuel : Nat) {outer : Atomicity} (houter : outer ≠ .token) :
    Takes (symbolPattern.run grammar.blank context (runRule grammar (fuel + 2) outer))
      (Value.writeSymbol name) rest (IsNameOf name) := by
  unfold Value.writeSymbol
  split
  · rename_i hplain
    simp only [Bool.and_eq_true] at hplain
    refine takes_choice_right (refuses_call ?_) ((takes_call
      (takes_identifier hplain.1 hrest fuel houter)).imp fun _ => isNameOf_identifier)
    refine refuses_rule (refuses_seq_left (refuses_text ?_))
    -- A name does not begin with a quote.
    cases hname : name.toList with
    | nil =>
        rw [hname] at hplain
        cases hplain.1
    | cons c chars =>
        rw [hname] at hplain
        have hc := isNameStart_of_isName hplain.1
        apply not_prefix_cons
        rintro rfl
        exact absurd hc (by decide)
  · exact takes_choice_left ((takes_call (takes_quotedName name _ fuel outer)).imp
      fun _ => isNameOf_quotedSymbol)

/-- A written symbol begins with a letter, an underscore or a quote. -/
theorem writeSymbol_head (name : String) :
    ∃ c text, Value.writeSymbol name = c :: text ∧ (c ∈ nameStarts ∨ c = '\'') := by
  unfold Value.writeSymbol
  split
  · rename_i hplain
    simp only [Bool.and_eq_true] at hplain
    cases hname : name.toList with
    | nil =>
        rw [hname] at hplain
        cases hplain.1
    | cons c chars =>
        rw [hname] at hplain
        exact ⟨c, chars, rfl, Or.inl (mem_nameStarts (isNameStart_of_isName hplain.1))⟩
  · exact ⟨_, _, rfl, Or.inr rfl⟩

/-! ## Labels -/

/-- A label, which is read as an annotation. -/
def IsLabel (name : String) (tree : Tree) : Prop :=
  tree.rule = .label ∧ Value.readLabel tree = .ok name

theorem takes_label (name : String) (rest : List Char) (fuel : Nat) (outer : Atomicity) :
    Takes (runRule grammar (fuel + 3) outer .label) (Value.writeSymbol name ++ [':', ':']) rest
      (IsOne (IsLabel name)) := by
  have hsymbol : Takes (symbolPattern.run grammar.blank ⟨.compound, false⟩
      (runRule grammar (fuel + 2) .compound)) (Value.writeSymbol name) ([':', ':'] ++ rest)
      (IsNameOf name) :=
    takes_symbol name (avoids_cons (by decide) _) _ fuel (by decide)
  have hbody : Takes (grammar.runBody (fuel + 2) outer .label)
      (Value.writeSymbol name ++ [':', ':']) rest (IsNameOf name) := by
    exact takes_seq_tight (tight_compound false) hsymbol (takes_text _) then_leafless
  refine (takes_node (by decide) (Or.inr (Or.inl rfl)) hbody).imp ?_
  rintro nodes ⟨place, children, rfl, tree, rfl, hread⟩
  exact ⟨_, rfl, rfl, hread⟩

/-- Without two colons after it a symbol is no label. -/
theorem refuses_label {text : List Char} {fuel : Nat} {good : List (Node Rule) → Prop}
    (hsymbol : Takes (symbolPattern.run grammar.blank ⟨.compound, false⟩
      (runRule grammar fuel .compound)) text rest good) (hcolons : ¬ [':', ':'] <+: rest)
    (outer : Atomicity) : Refuses (runRule grammar (fuel + 1) outer .label) (text ++ rest) := by
  refine refuses_rule ?_
  exact refuses_seq_tight (tight_compound false) hsymbol (refuses_text hcolons)

/-- A symbol between quotes is no label before a stop. -/
theorem refuses_label_quoted (name : String) (hrest : Stops rest) (fuel : Nat)
    (outer : Atomicity) :
    Refuses (runRule grammar (fuel + 3) outer .label)
      (Value.writeQuoted '\'' name.toList ++ rest) :=
  refuses_label (takes_choice_left (takes_call (takes_quotedName name rest fuel .compound)))
    (hrest.not_prefix (by decide) _) outer

/-- A text that begins as a name and has no colon is no label, as its name ends before the stop. -/
theorem refuses_label_word {c : Char} (hc : isNameStart c = true) {tail : List Char}
    (hcolon : ':' ∉ c :: tail) (hrest : Stops rest) (fuel : Nat) (outer : Atomicity) :
    Refuses (runRule grammar (fuel + 3) outer .label) (c :: tail ++ rest) := by
  have hsplit : c :: tail = (c :: tail.takeWhile isNameChar) ++ tail.dropWhile isNameChar := by
    rw [List.cons_append, List.takeWhile_append_dropWhile]
  have hname : isName (c :: tail.takeWhile isNameChar) = true := by
    rw [isName, hc, List.all_takeWhile]
    rfl
  -- Behind the name that the word begins with comes a character that is neither of a name nor a
  -- colon, or the rest.
  have hnext : Avoids Rule.nameChar (tail.dropWhile isNameChar ++ rest) ∧
      ¬ [':', ':'] <+: tail.dropWhile isNameChar ++ rest := by
    cases hdrop : tail.dropWhile isNameChar with
    | nil => exact ⟨hrest.wordEnd, hrest.not_prefix (by decide) _⟩
    | cons d after =>
        have hd : isNameChar d = false := by
          have hhead := List.head?_dropWhile_not isNameChar tail
          rw [hdrop] at hhead
          simpa using hhead
        have hmem : d ∈ c :: tail := by
          rw [hsplit, hdrop]
          simp
        refine ⟨avoids_cons (by rw [contains_nameChar, hd]) _, not_prefix_cons ?_ _ _⟩
        rintro rfl
        exact hcolon hmem
  rw [hsplit, List.append_assoc]
  have hquote : ¬ ['\''] <+: (c :: tail.takeWhile isNameChar) ++ (tail.dropWhile isNameChar ++ rest) := by
    apply not_prefix_cons
    rintro rfl
    exact absurd hc (by decide)
  have hsymbol : Takes (symbolPattern.run grammar.blank ⟨.compound, false⟩
      (runRule grammar (fuel + 2) .compound)) (c :: tail.takeWhile isNameChar)
      (tail.dropWhile isNameChar ++ rest) (IsNode .identifier (c :: tail.takeWhile isNameChar)
        Leafless) :=
    takes_choice_right (refuses_call (refuses_rule (refuses_seq_left (refuses_text hquote))))
      (takes_call (takes_identifier hname hnext.1 fuel (by decide)))
  exact refuses_label hsymbol hnext.2 outer

end DocQuery.Language
