import DocQuery.Proofs.Language.Lobs
import DocQuery.Proofs.Language.Symbols
import DocQuery.Proofs.Value.Bodies

/-!
# Containers read back

The text of a container is its children between two brackets, with blanks before every child and
before the closing bracket; the layout says which blanks these are. The children of lists and
structs stand between commas, those of expressions in parentheses between blanks alone. If the
grammar takes every child, it takes the container, and the tree of the container has the trees of
the children below it, one for each.

Main names:

* `Layout.gap`, `enclose_cons` — the text of a container;
* `ElementTaken` — what the text of a child comes to;
* `takes_commas`, `takes_blanks` — children one after the other;
* `bodyTaken_sequence`, `bodyTaken_struct` — sequences and structs.
-/

namespace DocQuery

open Grammar DocQuery.Language

/-! ## The text of a container -/

/-- The blanks before a line at a depth; on one line there are none. -/
def Layout.gap (layout : Layout) (depth : Nat) : List Char :=
  if layout.pretty then '\n' :: Value.indent depth else []

/-- A text that consists of spaces and ends of lines. -/
def IsGap (gap : List Char) : Prop :=
  ∀ c ∈ gap, c = ' ' ∨ c = '\n'

theorem isGap_nil : IsGap [] := by
  intro c hc
  cases hc

theorem isGap_space : IsGap [' '] := by
  intro c hc
  exact Or.inl (List.mem_singleton.mp hc)

theorem IsGap.append {gap gap' : List Char} (hgap : IsGap gap) (hgap' : IsGap gap') :
    IsGap (gap ++ gap') := by
  intro c hc
  rcases List.mem_append.mp hc with hc | hc
  · exact hgap c hc
  · exact hgap' c hc

theorem Layout.isGap (layout : Layout) (depth : Nat) : IsGap (layout.gap depth) := by
  unfold Layout.gap
  split
  · intro c hc
    rcases List.mem_cons.mp hc with rfl | hc
    · exact Or.inr rfl
    · exact Or.inl (List.eq_of_mem_replicate hc)
  · exact isGap_nil

namespace Value

/-- A first text, and the others with a separator before each. -/
theorem intercalate_cons (separator text : List Char) (texts : List (List Char)) :
    separator.intercalate (text :: texts) = text ++ texts.flatMap (separator ++ ·) := by
  induction texts generalizing text with
  | nil => simp
  | cons next texts ih =>
      rw [List.intercalate_cons_cons, ih, List.flatMap_cons]
      simp only [List.append_assoc]

/-- The text of a container that has children, in both layouts. -/
theorem enclose_cons (layout : Layout) (depth : Nat) (opening closing : Char)
    (separator child : List Char) (children : List (List Char)) :
    enclose layout depth opening closing separator (child :: children) =
      [opening] ++ (layout.gap (depth + 1) ++ ((child ++
        (children.flatMap fun child => separator ++ (layout.gap (depth + 1) ++ child))) ++
          (layout.gap depth ++ [closing]))) := by
  unfold enclose Layout.gap
  cases layout.pretty with
  | false => simp [intercalate_cons]
  | true => simp [intercalate_cons, List.flatMap_map]

theorem enclose_head (layout : Layout) (depth : Nat) (opening closing : Char)
    (separator : List Char) (children : List (List Char)) :
    ∃ tail, enclose layout depth opening closing separator children = opening :: tail := by
  unfold enclose
  split
  · exact ⟨_, rfl⟩
  · split
    · exact ⟨_, rfl⟩
    · exact ⟨_, rfl⟩

/-- The brackets of a container stand around the text of each child. -/
theorem length_lt_enclose {layout : Layout} {depth : Nat} {opening closing : Char}
    {separator child : List Char} {children : List (List Char)} (hchild : child ∈ children) :
    child.length + 2 ≤ (enclose layout depth opening closing separator children).length := by
  cases children with
  | nil => cases hchild
  | cons first others =>
      have hwithin : child.length ≤ first.length +
          (others.flatMap fun child => separator ++ (layout.gap (depth + 1) ++ child)).length := by
        rcases List.mem_cons.mp hchild with rfl | hmem
        · omega
        · have hsublist := List.sublist_flatten_of_mem (List.mem_map_of_mem
            (f := fun child => separator ++ (layout.gap (depth + 1) ++ child)) hmem)
          have hlength := hsublist.length_le
          rw [← List.flatMap_def] at hlength
          simp only [List.length_append] at hlength
          omega
      rw [enclose_cons]
      simp only [List.length_append, List.length_singleton] at hwithin ⊢
      omega

/-- One field: its name, a colon and its value. -/
def writeField (layout : Layout) (depth : Nat) (field : String × Value) : List Char :=
  writeSymbol field.1 ++
    ([':'] ++ ((if layout.pretty then [' '] else []) ++ write layout depth field.2))

theorem writeItems_eq_map (layout : Layout) (depth : Nat) (items : List Value) :
    writeItems layout depth items = items.map (write layout depth) := by
  induction items with
  | nil => rw [writeItems, List.map_nil]
  | cons item items ih => rw [writeItems, ih, List.map_cons]

theorem writeFields_eq_map (layout : Layout) (depth : Nat) (fields : List (String × Value)) :
    writeFields layout depth fields = fields.map (writeField layout depth) := by
  induction fields with
  | nil => rw [writeFields, List.map_nil]
  | cons field fields ih =>
      obtain ⟨name, v⟩ := field
      rw [writeFields, ih, List.map_cons]
      rfl

/-! ## Children -/

/-- The text of a child: it begins with no blank, and a rule takes it before any stop. -/
structure ElementTaken (rule : Rule) (fuel : Nat) (text : List Char) (reads : Tree → Prop) :
    Prop where
  opens : Opens text
  taken : ∀ {rest}, Stops rest → Takes (runRule grammar fuel .loose rule) text rest (IsOne reads)

/-- The surroundings of the parts of a container. -/
abbrev loosely : Grammar.Context := ⟨.loose, true⟩

theorem between_loosely {gap rest : List Char} (hgap : IsGap gap)
    (hrest : Avoids grammar.blank rest) : Between grammar.blank loosely gap rest := by
  refine ⟨?_, hrest⟩
  intro c hc
  rcases hgap c hc with rfl | rfl <;> decide

/-- The closing brackets. -/
def closers : List Char := [']', ')', '\x7d']

theorem avoids_closer {closing : Char} (hclosing : closing ∈ closers) (rest : List Char) :
    Avoids grammar.blank (closing :: rest) := by
  have hall : ∀ c ∈ closers, grammar.blank.contains c = false := by
    decide
  exact avoids_cons (hall closing hclosing) rest

theorem stops_gap {gap : List Char} (hsome : gap ≠ []) (hgap : IsGap gap) (rest : List Char) :
    Stops (gap ++ rest) := by
  cases gap with
  | nil => exact absurd rfl hsome
  | cons c gap =>
      rcases hgap c (List.mem_cons_self ..) with rfl | rfl
      · exact stops_cons (by decide) _
      · exact stops_cons (by decide) _

/-- A closing bracket stops a value, with or without blanks before it. -/
theorem stops_closer {closing : Char} (hclosing : closing ∈ closers) {gap : List Char}
    (hgap : IsGap gap) (rest : List Char) : Stops (gap ++ closing :: rest) := by
  have hall : ∀ c ∈ closers, c ∈ stopChars := by
    decide
  by_cases hnone : gap = []
  · rw [hnone]
    exact stops_cons (hall closing hclosing) rest
  · exact stops_gap hnone hgap _

/-- No child begins with a closing bracket. -/
theorem refuses_closer {rule : Rule} (hrule : rule ∈ [Rule.value, .structField]) {closing : Char}
    (hclosing : closing ∈ closers) (rest : List Char) (fuel : Nat) :
    Refuses (runRule grammar (fuel + headDepth) .loose rule) (closing :: rest) :=
  refuses_of_mem closers [.value, .structField] (by decide) (by decide) hclosing hrule rest fuel
    .loose

section Elements

variable {α : Type} {rule : Rule} {fuel : Nat} {write : α → List Char} {reads : α → Tree → Prop}
  {lead trail rest : List Char} {closing : Char}

/-- A comma and a child. -/
abbrev afterComma (rule : Rule) : Pattern Rule :=
  .seq (.text [',']) (.rule rule)

/-- The children after the first one, each with a comma before it. -/
theorem repeats_commas (as : List α)
    (has : ∀ a ∈ as, ElementTaken rule fuel (write a) (reads a)) (hlead : IsGap lead)
    (htrail : IsGap trail) (hclosing : closing ∈ closers) (rest : List Char) :
    Repeats ((afterComma rule).run grammar.blank loosely (runRule grammar fuel .loose))
        grammar.blank loosely (as.flatMap fun a => [','] ++ (lead ++ write a))
        (trail ++ closing :: rest) (List.Forall₂ reads as) ∧
      Stops ((as.flatMap fun a => [','] ++ (lead ++ write a)) ++ (trail ++ closing :: rest)) := by
  induction as with
  | nil =>
      refine ⟨Repeats.done trail (between_loosely htrail (avoids_closer hclosing rest)) ?_ .nil,
        stops_closer hclosing htrail rest⟩
      refine refuses_seq_left (refuses_text (not_prefix_cons ?_ _ _))
      rintro rfl
      exact absurd hclosing (by decide)
  | cons a as ih =>
      obtain ⟨hrepeats, hstops⟩ := ih fun b hb => has b (List.mem_cons_of_mem _ hb)
      have ha := has a (List.mem_cons_self ..)
      refine ⟨?_, stops_cons (by decide) _⟩
      rw [List.flatMap_cons]
      refine Repeats.round [] ([','] ++ (lead ++ write a))
        (between_loosely isGap_nil (avoids_cons (by decide) _)) (List.cons_ne_nil _ _) ?_ hrepeats
        (forall₂_append_one a as)
      exact takes_seq lead (takes_text [',']) (between_loosely hlead (ha.opens.avoids _))
        (takes_call (ha.taken hstops)) leafless_then

/-- Children between commas, with a comma after the last one or without. -/
abbrev commaPattern (rule : Rule) : Pattern Rule :=
  .seq (.rule rule) (.seq (.star (afterComma rule)) (.optional (.text [','])))

/-- Children between commas, up to the closing bracket. -/
theorem takes_commas (a : α) (as : List α)
    (has : ∀ b ∈ a :: as, ElementTaken rule fuel (write b) (reads b)) (hlead : IsGap lead)
    (htrail : IsGap trail) (hclosing : closing ∈ closers) (rest : List Char) :
    Takes ((commaPattern rule).run grammar.blank loosely (runRule grammar fuel .loose))
      ((write a ++ as.flatMap fun a => [','] ++ (lead ++ write a)) ++ trail) (closing :: rest)
      (List.Forall₂ reads (a :: as)) := by
  have hcloser := avoids_closer hclosing rest
  obtain ⟨hrepeats, hstops⟩ :=
    repeats_commas as (fun b hb => has b (List.mem_cons_of_mem _ hb)) hlead htrail hclosing rest
  have ha := (has a (List.mem_cons_self ..)).taken hstops
  have hcomma : ¬ [','] <+: closing :: rest := by
    refine not_prefix_cons ?_ _ _
    rintro rfl
    exact absurd hclosing (by decide)
  have hlast : Takes ((Pattern.optional (.text [','])).run grammar.blank loosely
      (runRule grammar fuel .loose)) [] (closing :: rest) Leafless :=
    takes_optional_none (refuses_text hcomma)
  rw [List.append_assoc]
  cases as with
  | nil =>
      -- The blanks after the only child stand before the repetition, which is empty.
      have hnone : Takes ((Pattern.seq (.star (afterComma rule)) (.optional (.text [',']))).run
          grammar.blank loosely (runRule grammar fuel .loose)) [] (closing :: rest) Leafless :=
        takes_seq [] (takes_star_none (refuses_seq_left (refuses_text hcomma)))
          (between_loosely isGap_nil hcloser) hlast leafless_then
      have hone : ∀ nodes nodes', IsOne (reads a) nodes → Leafless nodes' →
          List.Forall₂ reads [a] (nodes ++ nodes') := by
        rintro nodes nodes' hnodes rfl
        exact forall₂_append_one a [] nodes [] hnodes .nil
      have htakes := takes_seq trail (takes_call ha) (between_loosely htrail hcloser) hnone hone
      rw [List.append_nil] at htakes
      exact htakes
  | cons b bs =>
      have hfirst : Between grammar.blank loosely []
          (((b :: bs).flatMap fun a => [','] ++ (lead ++ write a)) ++
            (trail ++ closing :: rest)) :=
        between_loosely isGap_nil (avoids_cons (by decide) _)
      have hothers := takes_seq trail (takes_star_of_repeats hfirst hrepeats)
        (between_loosely htrail hcloser) hlast then_leafless
      rw [List.append_nil] at hothers
      generalize (b :: bs).flatMap (fun a => [','] ++ (lead ++ write a)) = tail
        at ha hfirst hothers ⊢
      rw [← List.append_assoc] at ha hfirst
      exact takes_seq [] (takes_call ha) hfirst hothers (forall₂_append_one a (b :: bs))

/-- The children after the first one, each with blanks before it. -/
theorem repeats_blanks {gap : List Char} (hsome : gap ≠ []) (as : List α)
    (has : ∀ a ∈ as, ElementTaken rule fuel (write a) (reads a)) (hgap : IsGap gap)
    (htrail : IsGap trail) (hclosing : closing ∈ closers)
    (hend : Refuses (runRule grammar fuel .loose rule) (closing :: rest)) :
    Repeats (runRule grammar fuel .loose rule) grammar.blank loosely
        (as.flatMap fun a => gap ++ write a) (trail ++ closing :: rest) (List.Forall₂ reads as) ∧
      Stops ((as.flatMap fun a => gap ++ write a) ++ (trail ++ closing :: rest)) := by
  induction as with
  | nil =>
      exact ⟨Repeats.done trail (between_loosely htrail (avoids_closer hclosing rest)) hend .nil,
        stops_closer hclosing htrail rest⟩
  | cons a as ih =>
      obtain ⟨hrepeats, hstops⟩ := ih fun b hb => has b (List.mem_cons_of_mem _ hb)
      have ha := has a (List.mem_cons_self ..)
      rw [List.flatMap_cons, List.append_assoc]
      refine ⟨Repeats.round gap (write a) (between_loosely hgap (ha.opens.avoids _))
        ha.opens.ne_nil (ha.taken hstops) hrepeats (forall₂_append_one a as), ?_⟩
      rw [List.append_assoc]
      exact stops_gap hsome hgap _

/-! ## Brackets -/

/-- A pattern between two brackets. -/
abbrev bracketPattern (opening : Char) (p : Pattern Rule) (closing : Char) : Pattern Rule :=
  .seq (.text [opening]) (.seq p (.text [closing]))

/-- Brackets, with blanks inside them before and after a text. -/
theorem takes_brackets (opening : Char) {p : Pattern Rule} {call : Rule → Runner Rule}
    {text : List Char} {good : List Tree → Prop} (hlead : IsGap lead) (htrail : IsGap trail)
    (hclosing : closing ∈ closers)
    (hfirst : Avoids grammar.blank (text ++ (trail ++ [closing]) ++ rest))
    (hp : Takes (p.run grammar.blank loosely call) text (trail ++ closing :: rest) good) :
    Takes ((bracketPattern opening p closing).run grammar.blank loosely call)
      ([opening] ++ (lead ++ (text ++ (trail ++ [closing])))) rest good := by
  have hcloser : Avoids grammar.blank ([closing] ++ rest) := avoids_closer hclosing rest
  have hinner := takes_seq trail hp (between_loosely htrail hcloser) (takes_text [closing])
    then_leafless
  exact takes_seq lead (takes_text [opening]) (between_loosely hlead hfirst) hinner leafless_then

/-- Brackets around nothing. -/
theorem takes_empty {opening : Char} {p : Pattern Rule} {call : Rule → Runner Rule}
    (hclosing : closing ∈ closers)
    (hp : Takes (p.run grammar.blank loosely call) [] (closing :: rest) Leafless) :
    Takes ((bracketPattern opening p closing).run grammar.blank loosely call) [opening, closing]
      rest (List.Forall₂ reads []) := by
  refine (takes_brackets opening isGap_nil isGap_nil hclosing (avoids_closer hclosing rest) hp).imp ?_
  rintro nodes rfl
  exact .nil

/-- Children between commas in brackets. -/
theorem takes_commaBrackets {opening : Char} (layout : Layout) (depth : Nat)
    (hrule : rule ∈ [Rule.value, .structField]) (hclosing : closing ∈ closers) (as : List α)
    (has : ∀ a ∈ as, ElementTaken rule (fuel + headDepth) (write a) (reads a)) :
    Takes ((bracketPattern opening (.optional (commaPattern rule)) closing).run grammar.blank
        loosely (runRule grammar (fuel + headDepth) .loose))
      (enclose layout depth opening closing [','] (as.map write)) rest
      (List.Forall₂ reads as) := by
  cases as with
  | nil =>
      refine takes_empty hclosing (takes_optional_none (refuses_seq_left (refuses_call ?_)))
      exact refuses_closer hrule hclosing rest fuel
  | cons a as =>
      have hcommas := takes_commas a as has (layout.isGap (depth + 1)) (layout.isGap depth)
        hclosing rest
      have hopens := (has a (List.mem_cons_self ..)).opens
      have hbrackets := takes_brackets opening (layout.isGap (depth + 1)) isGap_nil hclosing
        ((((hopens.append _).append _).append _).avoids rest) (takes_optional_some hcommas)
      rw [List.nil_append] at hbrackets
      rw [List.map_cons, enclose_cons, List.flatMap_map, ← List.append_assoc _ _ [closing]]
      exact hbrackets

/-- Children between blanks in parentheses; between two of them there are some. -/
theorem takes_blankBrackets (layout : Layout) (depth : Nat) {separator : List Char}
    (hseparator : IsGap separator) (hsome : separator ++ layout.gap (depth + 1) ≠ []) (as : List α)
    (has : ∀ a ∈ as, ElementTaken .value (fuel + headDepth) (write a) (reads a)) :
    Takes ((bracketPattern '(' (.star (.rule .value)) ')').run grammar.blank loosely
        (runRule grammar (fuel + headDepth) .loose))
      (enclose layout depth '(' ')' separator (as.map write)) rest (List.Forall₂ reads as) := by
  have hclosing : ')' ∈ closers := by
    decide
  have hend : Refuses (runRule grammar (fuel + headDepth) .loose .value) (')' :: rest) :=
    refuses_closer (by decide) hclosing rest fuel
  cases as with
  | nil => exact takes_empty hclosing (takes_star_none (refuses_call hend))
  | cons a as =>
      have ha := has a (List.mem_cons_self ..)
      obtain ⟨hrepeats, hstops⟩ := repeats_blanks hsome as
        (fun b hb => has b (List.mem_cons_of_mem _ hb))
        (hseparator.append (layout.isGap (depth + 1))) (layout.isGap depth) hclosing hend
      have hstar := takes_star (takes_call (ha.taken hstops)) hrepeats (forall₂_append_one a as)
      rw [List.map_cons, enclose_cons, List.flatMap_map]
      simp only [List.append_assoc separator] at hstar
      refine takes_brackets '(' (layout.isGap (depth + 1)) (layout.isGap depth) hclosing ?_ hstar
      rw [List.append_assoc, List.append_assoc]
      exact ha.opens.avoids _

end Elements

/-! ## Bodies -/

/-- A tree is read as a value that is equal to another one. -/
def ReadsAs (v : Value) (tree : Tree) : Prop :=
  ∃ w, ofTree tree = .ok w ∧ w.equal v = true

theorem ofItems_of_readsAs {items : List Value} {trees : List Tree}
    (htrees : List.Forall₂ ReadsAs items trees) :
    ∃ ws, ofItems trees = .ok ws ∧ equalItems ws items = true := by
  induction htrees with
  | nil => exact ⟨[], rfl, rfl⟩
  | cons htree _ ih =>
      obtain ⟨w, hread, hequal⟩ := htree
      obtain ⟨ws, hreads, hequals⟩ := ih
      refine ⟨w :: ws, ?_, ?_⟩
      · rw [ofItems, hread, hreads]
        rfl
      · rw [equalItems, hequal, hequals]
        rfl

/-- The tree of a field has a tree for the name and one for the value. -/
def FieldReadsAs (field : String × Value) (tree : Tree) : Prop :=
  ∃ text place name child, tree = .mk .structField text place [name, child] ∧
    readName name = .ok field.1 ∧ ReadsAs field.2 child

theorem ofFieldTrees_of_readsAs {fields : List (String × Value)} {trees : List Tree}
    (htrees : List.Forall₂ FieldReadsAs fields trees) :
    ∃ ws, ofFieldTrees trees = .ok ws ∧ equalFields ws fields = true := by
  induction htrees with
  | nil => exact ⟨[], rfl, rfl⟩
  | cons htree _ ih =>
      rename_i field tree fields trees _
      obtain ⟨text, place, name, child, rfl, hname, w, hread, hequal⟩ := htree
      obtain ⟨ws, hreads, hequals⟩ := ih
      obtain ⟨fieldName, v⟩ := field
      refine ⟨(fieldName, w) :: ws, ?_, ?_⟩
      · rw [ofFieldTrees, hname, hread, hreads]
        rfl
      · rw [equalFields, hequal, hequals]
        simp

variable {rest : List Char} {layout : Layout} {depth fuel : Nat}

/-- The rule that takes a sequence. -/
def sequenceRule : SequenceForm → Rule
  | .list => .listValue
  | .sexp => .sexpValue

theorem takes_sequence (form : SequenceForm) {items : List Value}
    (hitems : ∀ item ∈ items, ElementTaken .value (fuel + headDepth)
      (write layout (depth + 1) item) (ReadsAs item)) :
    Takes (grammar.runBody (fuel + headDepth) .loose (sequenceRule form))
      (encloseSequence layout depth form (items.map (write layout (depth + 1)))) rest
      (List.Forall₂ ReadsAs items) := by
  cases form with
  | list => exact takes_commaBrackets layout depth (by decide) (by decide) items hitems
  | sexp =>
      -- On one line a space stands between items, on lines of their own the end of a line.
      have hseparator : IsGap (if layout.pretty then [] else [' ']) := by
        split
        · exact isGap_nil
        · exact isGap_space
      have hsome : (if layout.pretty then [] else [' ']) ++ layout.gap (depth + 1) ≠ [] := by
        unfold Layout.gap
        split <;> simp
      exact takes_blankBrackets layout depth hseparator hsome items hitems

/-- The tree of a sequence is a body of it if the trees of the items are read as the items. -/
theorem isBodyOf_sequence (form : SequenceForm) {items : List Value} {text : List Char}
    {place : Place} {trees : List Tree} (htrees : List.Forall₂ ReadsAs items trees) :
    IsBodyOf (.sequence [] form items) [.mk (sequenceRule form) text place trees] := by
  obtain ⟨ws, hreads, hequals⟩ := ofItems_of_readsAs htrees
  refine ⟨_, .sequence [] form ws, rfl, ?_, ?_, ?_⟩
  · cases form <;> exact Rule.noConfusion
  · cases form <;>
    · simp only [sequenceRule]
      rw [ofBody, hreads]
      rfl
  · intro names
    simp [withAnnotations, equal, hequals]

theorem bodyTaken_sequence (form : SequenceForm) {items : List Value}
    (hitems : ∀ item ∈ items, ElementTaken .value (fuel + headDepth)
      (write layout (depth + 1) item) (ReadsAs item)) :
    BodyTaken (.sequence [] form items)
      (encloseSequence layout depth form (writeItems layout (depth + 1) items)) rest
      (fuel + 8) := by
  rw [writeItems_eq_map]
  have htakes : Takes (runRule grammar (fuel + 1 + headDepth) .loose (sequenceRule form))
      (encloseSequence layout depth form (items.map (write layout (depth + 1)))) rest
      (IsBodyOf (.sequence [] form items)) := by
    refine (takes_node ?_ (Or.inl (by decide)) (takes_sequence form hitems)).imp ?_
    · cases form <;> decide
    · rintro nodes ⟨place, children, rfl, hchildren⟩
      exact isBodyOf_sequence form hchildren
  -- The opening bracket tells both kinds of sequences from all that stands before them.
  cases form with
  | list =>
      obtain ⟨tail, htext⟩ := enclose_head layout depth '[' ']' [',']
        (items.map (write layout (depth + 1)))
      rw [encloseSequence, htext] at htakes ⊢
      exact (leadsTo_of_head ['['] (.label :: rulesBefore .listValue) (by decide) (by decide)
        (by decide) (List.mem_cons_self ..) (fuel + 1) fun r hr => Or.inl hr).bodyTaken htakes
  | sexp =>
      obtain ⟨tail, htext⟩ := enclose_head layout depth '(' ')'
        (if layout.pretty then [] else [' ']) (items.map (write layout (depth + 1)))
      rw [encloseSequence, htext] at htakes ⊢
      exact (leadsTo_of_head ['('] (.label :: rulesBefore .sexpValue) (by decide) (by decide)
        (by decide) (List.mem_cons_self ..) (fuel + 1) fun r hr => Or.inl hr).bodyTaken htakes

/-! ## Fields -/

theorem opens_symbol (name : String) : Opens (writeSymbol name) := by
  obtain ⟨c, chars, hname, hc⟩ := writeSymbol_head name
  have hall : ∀ c ∈ nameStarts, grammar.blank.contains c = false := by
    decide
  rcases hc with hc | rfl
  · exact ⟨c, chars, hname, hall c hc⟩
  · exact ⟨_, chars, hname, by decide⟩

/-- A symbol is no string. -/
theorem refuses_stringLiteral_symbol (name : String) (rest : List Char) (fuel : Nat) :
    Refuses (runRule grammar (fuel + headDepth) .loose .stringLiteral)
      (writeSymbol name ++ rest) := by
  obtain ⟨c, chars, hname, hc⟩ := writeSymbol_head name
  rw [hname]
  refine refuses_of_mem ('\'' :: nameStarts) [.stringLiteral] (by decide) (by decide) ?_
    (List.mem_cons_self ..) _ fuel .loose
  rcases hc with hc | rfl
  · exact List.mem_cons_of_mem _ hc
  · exact List.mem_cons_self ..

/-- A field is taken if its value is. -/
theorem elementTaken_field {field : String × Value}
    (hvalue : ElementTaken .value (fuel + headDepth) (write layout depth field.2)
      (ReadsAs field.2)) :
    ElementTaken .structField (fuel + 1 + headDepth) (writeField layout depth field)
      (FieldReadsAs field) := by
  obtain ⟨name, v⟩ := field
  refine ⟨(opens_symbol name).append _, fun {rest} hrest => ?_⟩
  have hgap : IsGap (if layout.pretty then [' '] else []) := by
    split
    · exact isGap_space
    · exact isGap_nil
  have hnext : Avoids Rule.nameChar ([':'] ++ ((if layout.pretty then [' '] else []) ++
      write layout depth v) ++ rest) := avoids_cons (by decide) _
  -- A name is written as a symbol, which the grammar tries after a string.
  have hsymbol := takes_choice_right (refuses_call (refuses_stringLiteral_symbol name _ fuel))
    (takes_symbol name hnext loosely (fuel + 4) (by decide))
  have hcolon := takes_seq (if layout.pretty then [' '] else []) (takes_text [':'])
    (between_loosely hgap (hvalue.opens.avoids rest)) (takes_call (hvalue.taken hrest))
    leafless_then
  have hbody : Takes (grammar.runBody (fuel + headDepth) .loose .structField)
      (writeField layout depth (name, v)) rest (fun nodes => ∃ tree child,
        nodes = [tree, child] ∧ readName tree = .ok name ∧ ReadsAs v child) := by
    refine takes_seq [] hsymbol (between_loosely isGap_nil (avoids_cons (by decide) _)) hcolon ?_
    rintro nodes nodes' ⟨tree, rfl, hread⟩ ⟨child, rfl, hchild⟩
    exact ⟨tree, child, rfl, hread, hchild⟩
  refine (takes_node (by decide) (Or.inl (by decide)) hbody).imp ?_
  rintro nodes ⟨place, children, rfl, tree, child, rfl, hread, hchild⟩
  exact ⟨_, rfl, _, place, tree, child, rfl, hread, hchild⟩

theorem bodyTaken_struct {fields : List (String × Value)}
    (hfields : ∀ field ∈ fields, ElementTaken .value (fuel + headDepth)
      (write layout (depth + 1) field.2) (ReadsAs field.2)) :
    BodyTaken (.struct [] fields)
      (enclose layout depth '\x7b' '\x7d' [','] (writeFields layout (depth + 1) fields)) rest
      (fuel + 9) := by
  rw [writeFields_eq_map]
  have hbody : Takes (grammar.runBody (fuel + 1 + headDepth) .loose .structValue)
      (enclose layout depth '\x7b' '\x7d' [','] (fields.map (writeField layout (depth + 1)))) rest
      (List.Forall₂ FieldReadsAs fields) :=
    takes_commaBrackets layout depth (by decide) (by decide) fields
      fun field hfield => elementTaken_field (hfields field hfield)
  have htakes : Takes (runRule grammar (fuel + 2 + headDepth) .loose .structValue)
      (enclose layout depth '\x7b' '\x7d' [','] (fields.map (writeField layout (depth + 1)))) rest
      (IsBodyOf (.struct [] fields)) := by
    refine (takes_node (by decide) (Or.inl (by decide)) hbody).imp ?_
    rintro nodes ⟨place, children, rfl, hchildren⟩
    obtain ⟨ws, hreads, hequals⟩ := ofFieldTrees_of_readsAs hchildren
    refine ⟨_, .struct [] ws, rfl, Rule.noConfusion, ?_, ?_⟩
    · rw [ofBody, hreads]
      rfl
    · intro names
      simp [withAnnotations, equal, hequals]
  -- The next character is a blank, a closing bracket or the beginning of a symbol.
  obtain ⟨c, tail, htext, hc⟩ : ∃ c tail, enclose layout depth '\x7b' '\x7d' [',']
      (fields.map (writeField layout (depth + 1))) = '\x7b' :: c :: tail ∧ c ≠ '\x7b' := by
    cases fields with
    | nil => exact ⟨'\x7d', [], rfl, by decide⟩
    | cons field fields =>
        obtain ⟨c, chars, hname, hc⟩ := writeSymbol_head field.1
        rw [List.map_cons, enclose_cons, writeField, hname]
        unfold Layout.gap
        split
        · exact ⟨'\n', _, rfl, by decide⟩
        · refine ⟨c, _, rfl, ?_⟩
          rintro rfl
          exact absurd hc (by decide)
  rw [htext] at htakes ⊢
  refine (leadsTo_of_head ['\x7b'] (.label :: bodyRules.take 8 ++ [.listValue, .sexpValue])
    (by decide) (by decide) (by decide) (List.mem_cons_self ..) (fuel + 2) fun r hr => ?_).bodyTaken
      htakes
  by_cases hlob : r = .clobLiteral ∨ r = .blobLiteral
  · exact Or.inr fun fuel => refuses_lobs hlob hc _ (fuel + 5) .loose
  · have hall : ∀ r ∈ Rule.label :: bodyRules.take 12, (r = .clobLiteral ∨ r = .blobLiteral) ∨
        r ∈ .label :: bodyRules.take 8 ++ [.listValue, .sexpValue] := by
      decide
    exact Or.inl ((hall r hr).resolve_left hlob)

end Value

end DocQuery
