import DocQuery.Language.Tree
import DocQuery.Proofs.Value.Containers
import DocQuery.Proofs.Value.Scalars

/-!
# Values read back

The text of a value is read as an equal value, in the compact layout and in the pretty one. What
can stand in a value is free but for a few scalars: names that stand for something else, floats that
are not finite, timestamps whose year has more than four digits, and bytes of no text.

Main names:

* `Value.Writable` — the values that read back;
* `elementTaken_annotated` — a body with annotations before it;
* `elementTaken_write` — every writable value, by induction on the value;
* `read_of_elementTaken` — whole texts;
* `reads_back` — the result.
-/

namespace DocQuery

open Grammar DocQuery.Language

/-- A value that reads back: all scalars in it do. Annotations and the names of fields are free. -/
inductive Value.Writable : Value → Prop
  | scalar {names : List String} {content : Scalar} (hcontent : content.Writable) :
      Writable (.scalar names content)
  | sequence {names : List String} {form : SequenceForm} {items : List Value}
      (hitems : ∀ item ∈ items, Writable item) : Writable (.sequence names form items)
  | struct {names : List String} {fields : List (String × Value)}
      (hfields : ∀ field ∈ fields, Writable field.2) : Writable (.struct names fields)

namespace Value

variable {rest : List Char} {layout : Layout}

/-! ## Annotations -/

/-- The labels before a body, which itself begins no label. -/
theorem repeats_labels (names : List String) {fuel : Nat} (hrest : Avoids grammar.blank rest)
    (hlabel : Refuses (runRule grammar (fuel + 3) .loose .label) rest) :
    Repeats (runRule grammar (fuel + 3) .loose .label) grammar.blank loosely
      (names.flatMap fun name => writeSymbol name ++ [':', ':']) rest
      (List.Forall₂ IsLabel names) := by
  induction names with
  | nil => exact Repeats.done [] (between_loosely isGap_nil hrest) hlabel .nil
  | cons name names ih =>
      have hsome : writeSymbol name ++ [':', ':'] ≠ [] := by
        simp
      refine Repeats.round [] (writeSymbol name ++ [':', ':']) ?_ hsome
        (takes_label name _ fuel .loose) ih (forall₂_append_one name names)
      exact between_loosely isGap_nil (((opens_symbol name).append _).avoids _)

/-- Labels are read one after the other; what follows them is read as it is. -/
theorem ofParts_labels {names : List String} {labels : List Tree}
    (hlabels : List.Forall₂ IsLabel names labels) (whole : Tree) (before : List String)
    (parts : List Tree) :
    ofParts whole before (labels ++ parts) = ofParts whole (before ++ names) parts := by
  induction hlabels generalizing before with
  | nil => simp
  | cons hlabel _ ih =>
      obtain ⟨hrule, hread⟩ := hlabel
      rw [List.cons_append, ofParts, if_pos hrule, hread]
      show ofParts whole (before ++ [_]) _ = _
      rw [ih, List.append_assoc]
      rfl

theorem opens_annotated (names : List String) {text : List Char} (htext : Opens text) :
    Opens (writeAnnotations layout names ++ text) := by
  unfold writeAnnotations
  split
  · cases names with
    | nil => exact htext
    | cons name names =>
        rw [List.flatMap_cons, List.append_assoc, List.append_assoc]
        exact (opens_symbol name).append _
  · exact htext

/-- A body with annotations before it is taken as a value. -/
theorem takes_annotated (hlayout : layout.annotated = true) (names : List String) {v : Value}
    {text : List Char} {fuel : Nat} (hbody : BodyTaken v text rest (fuel + 3)) :
    Takes (runRule grammar (fuel + 4) .loose .value) (writeAnnotations layout names ++ text) rest
      (IsOne (ReadsAs (v.withAnnotations names))) := by
  have hblank : Avoids grammar.blank (text ++ rest) := hbody.opens.avoids rest
  have hfirst : Avoids grammar.blank (writeAnnotations layout names ++ (text ++ rest)) := by
    rw [← List.append_assoc]
    exact (opens_annotated names hbody.opens).avoids rest
  -- Labels go on until the body, which is none.
  have hlabels : Takes ((Pattern.star (.rule .label)).run grammar.blank loosely
      (runRule grammar (fuel + 3) .loose)) (writeAnnotations layout names) (text ++ rest)
      (List.Forall₂ IsLabel names) := by
    refine takes_star_of_repeats (between_loosely isGap_nil hfirst) ?_
    unfold writeAnnotations
    rw [if_pos hlayout]
    exact repeats_labels names hblank hbody.label
  have hvalue : Takes (grammar.runBody (fuel + 3) .loose .value)
      (writeAnnotations layout names ++ text) rest
      (Then (List.Forall₂ IsLabel names) (IsBodyOf v)) :=
    takes_seq [] hlabels (between_loosely isGap_nil hblank) (takes_call hbody.body) then_intro
  refine (takes_node (by decide) (Or.inl (by decide)) hvalue).imp ?_
  rintro nodes ⟨place, children, rfl, labels, bodies, rfl, hnames, tree, w, rfl, hrule, hread,
    hequal⟩
  refine ⟨_, rfl, w.withAnnotations names, ?_, hequal names⟩
  rw [ofTree, ofParts_labels hnames, List.nil_append, ofParts, if_neg hrule, hread]
  rfl

/-- The same before any stop. -/
theorem elementTaken_annotated (hlayout : layout.annotated = true) (names : List String)
    {v : Value} {text : List Char} {fuel : Nat}
    (hbody : ∀ {rest}, Stops rest → BodyTaken v text rest (fuel + 3)) :
    ElementTaken .value (fuel + 4) (writeAnnotations layout names ++ text)
      (ReadsAs (v.withAnnotations names)) :=
  ⟨opens_annotated names (hbody stops_nil).opens,
    fun hrest => takes_annotated hlayout names (hbody hrest)⟩

/-! ## Values -/

/-- How deep rules may nest in the text of a value: a level of the value takes up to four of them,
and its brackets are two characters. -/
def depthOf (text : List Char) : Nat :=
  4 * text.length + 16

theorem elementTaken_write (hlayout : layout.annotated = true) {v : Value} (hv : v.Writable)
    (depth fuel : Nat) (hfuel : depthOf (v.write layout depth) ≤ fuel) :
    ElementTaken .value fuel (v.write layout depth) (ReadsAs v) := by
  unfold depthOf at hfuel
  -- Each container nests its elements deeper by a fixed number of rules, and its delimiters are two
  -- characters more than any of them, so the bound on nested rules is large enough.
  induction hv generalizing depth fuel with
  | scalar hcontent =>
      rename_i names content
      obtain ⟨fuel, rfl⟩ : ∃ more, fuel = more + 8 := ⟨fuel - 8, by omega⟩
      rw [write]
      exact elementTaken_annotated hlayout names fun hrest => bodyTaken_scalar hcontent hrest fuel
  | sequence hitems ih =>
      rename_i names form items
      obtain ⟨fuel, rfl⟩ : ∃ more, fuel = more + 9 := ⟨fuel - 9, by omega⟩
      rw [write]
      rw [write, List.length_append] at hfuel
      have hwithin : ∀ item ∈ items, ElementTaken .value (fuel + headDepth)
          (write layout (depth + 1) item) (ReadsAs item) := by
        intro item hitem
        have hlength : (write layout (depth + 1) item).length + 2 ≤
            (encloseSequence layout depth form (writeItems layout (depth + 1) items)).length := by
          rw [writeItems_eq_map]
          have hmem : write layout (depth + 1) item ∈ items.map (write layout (depth + 1)) :=
            List.mem_map_of_mem hitem
          cases form with
          | list => exact length_lt_enclose hmem
          | sexp => exact length_lt_enclose hmem
        have hheadDepth : headDepth = 6 := rfl
        exact ih item hitem (depth + 1) (fuel + headDepth) (by omega)
      exact elementTaken_annotated hlayout names fun _ => bodyTaken_sequence form hwithin
  | struct hfields ih =>
      rename_i names fields
      obtain ⟨fuel, rfl⟩ : ∃ more, fuel = more + 10 := ⟨fuel - 10, by omega⟩
      rw [write]
      rw [write, List.length_append] at hfuel
      have hwithin : ∀ field ∈ fields, ElementTaken .value (fuel + headDepth)
          (write layout (depth + 1) field.2) (ReadsAs field.2) := by
        intro field hfield
        have hlength : (writeField layout (depth + 1) field).length + 2 ≤
            (enclose layout depth '\x7b' '\x7d' [',']
              (writeFields layout (depth + 1) fields)).length := by
          rw [writeFields_eq_map]
          exact length_lt_enclose (List.mem_map_of_mem hfield)
        have hvalue : (write layout (depth + 1) field.2).length ≤
            (writeField layout (depth + 1) field).length := by
          unfold writeField
          simp only [List.length_append]
          omega
        have hheadDepth : headDepth = 6 := rfl
        exact ih field hfield (depth + 1) (fuel + headDepth) (by omega)
      exact elementTaken_annotated hlayout names fun _ => bodyTaken_struct hwithin

/-! ## Whole texts -/

/-- The text of a value is a document. -/
theorem read_of_elementTaken {v : Value} {text : List Char}
    (htext : ElementTaken .value (depthBound text.length - 1) text (ReadsAs v)) :
    ∃ w, read (String.ofList text) = .ok w ∧ w.equal v = true := by
  have hfuel : depthBound text.length = depthBound text.length - 2 + 1 + 1 := by
    unfold depthBound
    omega
  rw [show depthBound text.length - 1 = depthBound text.length - 2 + 1 by omega] at htext
  have hopens : Avoids grammar.blank (text ++ []) := htext.opens.avoids []
  have hend : Takes (runRule grammar (depthBound text.length - 2 + 1) .loose .endOfInput) [] []
      (IsNode .endOfInput [] Leafless) :=
    takes_node (by decide) (Or.inl (by decide)) takes_stop
  -- A document is a value and the end of the input.
  have hdocument := takes_seq [] (takes_call (htext.taken stops_nil))
    (between_loosely isGap_nil (avoids_nil _)) (takes_call hend) then_intro
  rw [List.nil_append, List.append_nil] at hdocument
  rw [List.append_nil] at hopens
  obtain ⟨nodes, attempts, hparse, hnodes⟩ : ∃ nodes attempts, grammar.parse .document text =
      (.matched ⟨Place.first.past text, []⟩ [.mk .document text .first nodes], attempts) ∧
        Then (IsOne (ReadsAs v)) (IsNode .endOfInput [] Leafless) nodes :=
    Grammar.parse_of_takes rfl rfl hopens hfuel hdocument
  obtain ⟨_, _, rfl, ⟨tree, rfl, w, hread, hequal⟩, _⟩ := hnodes
  refine ⟨w, ?_, hequal⟩
  unfold read ParseError.parseTree Tree.parse
  rw [String.toList_ofList, hparse]
  exact hread

theorem read_write (hlayout : layout.annotated = true) {v : Value} (hv : v.Writable)
    (depth : Nat) :
    ∃ w, read (String.ofList (v.write layout depth)) = .ok w ∧ w.equal v = true := by
  refine read_of_elementTaken (elementTaken_write hlayout hv depth _ ?_)
  unfold depthOf depthBound
  omega

/-- Both texts of a value are read as equal values. -/
theorem reads_back {v : Value} (hv : v.Writable) :
    (∃ w, read v.toText = .ok w ∧ w.equal v = true) ∧
      ∃ w, read v.toPrettyText = .ok w ∧ w.equal v = true :=
  ⟨read_write rfl hv 0, read_write rfl hv 0⟩

/-- A struct with an annotation that needs quotes and a name that is repeated. -/
def repeatedField : Value :=
  .struct ["now"] [("name", .scalar [] (.text .identifier "x")), ("name", .scalar [] (.null .clob))]

theorem writable_repeatedField : repeatedField.Writable := by
  refine .struct fun field hfield => ?_
  simp only [List.mem_cons, List.not_mem_nil, or_false] at hfield
  rcases hfield with rfl | rfl
  · exact .scalar ⟨by decide, by decide, by decide +kernel⟩
  · exact .scalar trivial

theorem reads_back_repeatedField :
    (∃ w, read "'now'::\x7bname:x,name:null.clob\x7d" = .ok w ∧ w.equal repeatedField = true) ∧
      ∃ w, read "'now'::\x7b\n  name: x,\n  name: null.clob\n\x7d" = .ok w ∧
        w.equal repeatedField = true := by
  have htext : repeatedField.toText = "'now'::\x7bname:x,name:null.clob\x7d" := by
    decide +kernel
  have hpretty : repeatedField.toPrettyText =
      "'now'::\x7b\n  name: x,\n  name: null.clob\n\x7d" := by
    decide +kernel
  rw [← htext, ← hpretty]
  exact reads_back writable_repeatedField

end Value

end DocQuery
