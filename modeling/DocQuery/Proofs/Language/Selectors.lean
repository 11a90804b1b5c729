import DocQuery.Path.Printer
import DocQuery.Proofs.Language.Quotes
import DocQuery.Proofs.Language.Shape
import DocQuery.Proofs.Path.Addressable

/-!
# Selectors in a text

A selector is written in five ways, which the grammar tells apart by the first character: an item
begins with a bracket, a wildcard is a star, a property begins with a quote, a dollar sign or a
letter. The printer has its own test for the names that need no quotes and its own escapes between
quotes; both are narrower than those of the grammar, so that every property reads back.

Main names:

* `quotedText_property`, `unescape_property` — properties between quotes;
* `IsSelector` — a tree that is read as a selector;
* `takes_property`, `takes_item` — the selectors of the two families;
* `takes_selector` — every selector, as it is written.
-/

namespace DocQuery

open Grammar DocQuery.Language Text

variable {rest : List Char}

/-! ## Properties between quotes -/

theorem propertyChar_eq {c : Char} (hslash : c ≠ '\\') (hquote : c ≠ '\'') :
    propertyChar c = [c] := by
  simp [propertyChar, hslash, hquote]

theorem quotedText_property (name : List Char) :
    Escape.QuotedText '\'' (name.flatMap propertyChar) := by
  induction name with
  | nil => exact .nil
  | cons c name ih =>
      rw [List.flatMap_cons]
      by_cases hslash : c = '\\'
      · subst hslash
        exact .escaped ih
      by_cases hquote : c = '\''
      · subst hquote
        exact .escaped ih
      rw [propertyChar_eq hslash hquote]
      exact .plain hquote hslash ih

theorem unescape_property (name : List Char) :
    Escape.unescape (name.flatMap propertyChar) = .ok name := by
  induction name with
  | nil => rfl
  | cons c name ih =>
      have hescaped : ∀ d, d ≠ 'u' → Escape.simple? d = some d →
          Escape.unescape ('\\' :: d :: name.flatMap propertyChar) = .ok (d :: name) := by
        intro d hu hsimple
        rw [Escape.unescape_simple hu hsimple, ih]
        rfl
      rw [List.flatMap_cons]
      by_cases hslash : c = '\\'
      · subst hslash
        exact hescaped '\\' (by decide) rfl
      by_cases hquote : c = '\''
      · subst hquote
        exact hescaped '\'' (by decide) rfl
      rw [propertyChar_eq hslash hquote, List.singleton_append, Escape.unescape_cons hslash, ih]
      rfl

/-! ## The trees of selectors -/

/-- What the tree of a selector holds: a tree that is read as the selector. -/
def ReadsSelector (s : Selector) (tree : Tree) : Prop :=
  ∀ path, WrittenStep.ofSelector path tree = .ok (.plain s)

/-- The tree of a selector. -/
def IsSelector (s : Selector) (tree : Tree) : Prop :=
  tree.rule ≠ .optionalMarker ∧ ∃ inner, tree.children = [inner] ∧ ReadsSelector s inner

theorem isSelector_of_node {s : Selector} {rule : Rule} (hrule : rule ≠ .optionalMarker)
    {text : List Char} {nodes : List Tree}
    (hnodes : IsNode rule text (IsOne (ReadsSelector s)) nodes) : IsOne (IsSelector s) nodes := by
  obtain ⟨place, children, rfl, inner, rfl, hinner⟩ := hnodes
  exact ⟨_, rfl, hrule, inner, rfl, hinner⟩

/-- A selector as the grammar has it in a step. -/
abbrev selectorPattern : Pattern Rule :=
  .choice (.rule .itemSelector) (.rule .propertySelector)

/-- A selector is taken from a text that a rest follows. -/
abbrev TakesSelector (text rest : List Char) (s : Selector) : Prop :=
  Takes (selectorPattern.run grammar.blank ⟨.compound, false⟩ (grammar.call .compound)) text rest
    (IsOne (IsSelector s))

/-- A wildcard is a star in both families. -/
theorem takes_wildcard {rule : Rule} {s : Selector} (hleaves : (grammar.mode rule).LeavesNode .compound)
    (hbody : grammar.body rule = .text ['*'])
    (hread : ∀ path text place children,
      WrittenStep.ofSelector path (.mk rule text place children) = .ok (.plain s))
    (rest : List Char) :
    Takes (grammar.call .compound rule) ['*'] rest (IsOne (ReadsSelector s)) := by
  have htaken : Takes (grammar.callBody .compound rule) ['*'] rest Leafless := by
    unfold Grammar.callBody
    rw [hbody]
    exact takes_text ['*']
  refine (takes_call_node grammar_grounded hleaves htaken).imp ?_
  rintro nodes ⟨place, children, rfl, _⟩
  exact ⟨_, rfl, fun path => hread path _ _ _⟩

/-! ## Properties -/

/-- The alternatives for a property. -/
def propertyRules : List Rule :=
  [.propertyWildcard, .propertyPredicate, .quotedSymbol, .dollarIdentifier, .identifier]

/-- A property is taken by the alternative that its first character decides for. -/
theorem takes_property (rule : Rule) (hrule : rule ∈ propertyRules) (chars : List Char)
    (hverdict : ∀ c ∈ chars, ∀ r ∈ .itemSelector :: propertyRules.takeWhile (· != rule),
      grammar.onHead c headDepth r = .refused)
    (hblank : ∀ c ∈ chars, grammar.blank.contains c = false) {c : Char} (hc : c ∈ chars)
    {tail : List Char} {s : Selector}
    (htakes : Takes (grammar.call .compound rule) (c :: tail) rest (IsOne (ReadsSelector s))) :
    TakesSelector (c :: tail) rest s := by
  have hrefuses : ∀ r ∈ .itemSelector :: propertyRules.takeWhile (· != rule),
      Refuses (grammar.call .compound r) (c :: (tail ++ rest)) := fun r hr =>
    (refuses_of_mem chars _ hverdict hblank hc hr (tail ++ rest) 0 .compound).call grammar_grounded
  refine takes_choice_right (refuses_call (hrefuses _ (List.mem_cons_self ..))) ?_
  refine (takes_call (takes_call_node grammar_grounded (by decide) ?_)).imp fun _ hnodes =>
    isSelector_of_node (s := s) (by decide) hnodes
  exact takes_firstOf_rules hrule (fun r hr => hrefuses r (List.mem_cons_of_mem _ hr)) htakes

theorem takes_propertyWildcard (rest : List Char) : TakesSelector ['*'] rest (.property none) :=
  takes_property .propertyWildcard (by decide) ['*'] (by decide) (by decide)
    (List.mem_singleton_self _) (takes_wildcard (by decide) rfl (fun _ _ _ _ => rfl) rest)

theorem takes_quotedProperty (name : String) (rest : List Char) :
    TakesSelector ('\'' :: (name.toList.flatMap propertyChar ++ ['\''])) rest
      (.property (some name)) := by
  refine takes_property .quotedSymbol (by decide) ['\''] (by decide) (by decide)
    (List.mem_singleton_self _) ?_
  refine ((takes_quotedSymbol (quotedText_property _) rest 0 .compound).call grammar_grounded).imp ?_
  rintro nodes ⟨place, children, rfl, place', children', rfl, rfl⟩
  refine ⟨_, rfl, fun path => ?_⟩
  show (Scalar.readQuoted .symbol _ >>= fun name => pure _) = _
  rw [readQuoted_of_unescape (Or.inr rfl) .symbol (unescape_property _), String.ofList_toList]
  rfl

theorem takes_dollarIdentifier {chars : List Char} (hsome : chars ≠ [])
    (hchars : ∀ c ∈ chars, isNameChar c = true) (hrest : Avoids Rule.nameChar rest) (fuel : Nat) :
    Takes (runRule grammar (fuel + 2) .compound .dollarIdentifier) ('$' :: chars) rest
      (IsNode .dollarIdentifier ('$' :: chars) Leafless) := by
  cases chars with
  | nil => exact absurd rfl hsome
  | cons c chars =>
      have htight := tight_token false
      have hchar : ∀ d ∈ c :: chars, ∀ rest', Takes (runRule grammar (fuel + 1) .token .identChar)
          [d] rest' Leafless := fun d hd rest' => takes_identChar (hchars d hd) rest' fuel
      refine takes_node (by decide) (Or.inl (by decide)) ?_
      show Takes _ (['$'] ++ ([c] ++ chars)) rest Leafless
      refine takes_seq_tight htight (takes_text ['$'])
        (takes_seq_tight htight ?_ ?_ leafless_then) leafless_then
      · exact takes_call (hchar c (List.mem_cons_self ..) _)
      · exact takes_star_chars htight (fun d hd => hchar d (List.mem_cons_of_mem _ hd))
          (refuses_identChar hrest fuel)

theorem isPlainProperty_cons {c : Char} (hc : c ≠ '$') (chars : List Char) :
    isPlainProperty (c :: chars) = isName (c :: chars) := by
  unfold isPlainProperty
  split
  · rename_i heq
    exact absurd (List.cons.inj heq).1 hc
  · rfl

/-- A property that needs no quotes is taken as a whole, if no character of a name follows it. -/
theorem takes_plainProperty {name : String} (hplain : isPlainProperty name.toList = true)
    (hrest : Avoids Rule.nameChar rest) : TakesSelector name.toList rest (.property (some name)) := by
  have hread : ∀ rule ∈ [Rule.identifier, .dollarIdentifier], ∀ nodes,
      IsNode rule name.toList Leafless nodes →
        IsOne (ReadsSelector (.property (some name))) nodes := by
    rintro rule hrule nodes ⟨place, children, rfl, _⟩
    refine ⟨_, rfl, fun path => ?_⟩
    simp only [List.mem_cons, List.not_mem_nil, or_false] at hrule
    rcases hrule with rfl | rfl <;>
      simp only [WrittenStep.ofSelector, Node.rule, Node.text, String.ofList_toList]
  cases hname : name.toList with
  | nil =>
      rw [hname] at hplain
      cases hplain
  | cons c chars =>
      rw [hname] at hplain hread
      -- Names that begin with a dollar sign have a rule of their own.
      by_cases hdollar : c = '$'
      · subst hdollar
        simp only [isPlainProperty, Bool.and_eq_true, Bool.not_eq_true', List.isEmpty_eq_false_iff,
          List.all_eq_true] at hplain
        refine takes_property .dollarIdentifier (by decide) ['$'] (by decide) (by decide)
          (List.mem_singleton_self _) ?_
        exact ((takes_dollarIdentifier hplain.1 hplain.2 hrest 0).call grammar_grounded).imp
          (hread _ (by decide))
      · rw [isPlainProperty_cons hdollar] at hplain
        refine takes_property .identifier (by decide) nameStarts (by decide +kernel) (by decide)
          (mem_nameStarts (isNameStart_of_isName hplain)) ?_
        exact ((takes_identifier hplain hrest 0 (by decide)).call grammar_grounded).imp
          (hread _ (by decide))

/-! ## Items -/

/-- An item between brackets as the grammar has it. -/
abbrev itemPattern : Pattern Rule :=
  .choice (.rule .itemWildcard) (.choice (.rule .itemIndex) (.rule .itemPredicate))

theorem takes_item {text : List Char} {s : Selector}
    (htext : Takes (itemPattern.run grammar.blank ⟨.compound, false⟩ (grammar.call .compound)) text
      (']' :: rest) (IsOne (ReadsSelector s))) :
    TakesSelector ('[' :: (text ++ [']'])) rest s := by
  have htight := tight_compound false
  have hbody : Takes (grammar.callBody .compound .itemSelector) (['['] ++ (text ++ [']'])) rest
      (IsOne (ReadsSelector s)) :=
    takes_seq_tight htight (takes_text ['[']) (takes_seq_tight htight htext (takes_text [']'])
      then_leafless) leafless_then
  refine takes_choice_left (takes_call ?_)
  exact (takes_call_node grammar_grounded (by decide) hbody).imp fun _ hnodes =>
    isSelector_of_node (by decide) hnodes

theorem takes_itemWildcard (rest : List Char) : TakesSelector ['[', '*', ']'] rest (.item none) := by
  have hstar : Takes (grammar.call .compound .itemWildcard) ['*'] (']' :: rest)
      (IsOne (ReadsSelector (.item none))) :=
    takes_wildcard (by decide) rfl (fun _ _ _ _ => rfl) _
  show TakesSelector ('[' :: (['*'] ++ [']'])) rest _
  exact takes_item (takes_choice_left (takes_call hstar))

theorem takes_itemIndex {index : Nat} (hindex : index < 2 ^ 64) (rest : List Char) :
    TakesSelector ('[' :: (Digits.ofNat index ++ [']'])) rest (.item (some index)) := by
  have hdigits : ∀ c ∈ Digits.ofNat index, c.isDigit = true := fun _ hc =>
    Digits.isDigit_of_mem_ofNat hc
  have hstar : Refuses (grammar.call .compound .itemWildcard)
      (Digits.ofNat index ++ (']' :: rest)) := by
    cases hnumber : Digits.ofNat index with
    | nil => exact absurd hnumber (Digits.ofNat_ne_nil index)
    | cons c digits =>
        refine (refuses_of_mem digitChars [.itemWildcard] (by decide) (by decide)
          (mem_digitChars (hdigits c (hnumber ▸ List.mem_cons_self ..))) (List.mem_singleton_self _)
          _ 0 .compound).call grammar_grounded
  refine takes_item (takes_choice_right (refuses_call hstar) (takes_choice_left (takes_call ?_)))
  have hbody : Takes (grammar.callBody .compound .itemIndex) (Digits.ofNat index) (']' :: rest)
      Leafless :=
    takes_call ((takes_digits (Digits.ofNat_ne_nil index) hdigits (avoids_digit (by decide) _)
      0).call grammar_grounded)
  refine (takes_call_node grammar_grounded (by decide) hbody).imp ?_
  rintro nodes ⟨place, children, rfl, _⟩
  refine ⟨_, rfl, fun path => ?_⟩
  simp only [WrittenStep.ofSelector, Node.rule, Node.text, Digits.value_ofNat, hindex, if_true]

/-! ## All selectors -/

/-- A selector is taken as it is written, if no character of a name follows it. -/
theorem takes_selector {s : Selector} (hs : s.Addressable) (hrest : Avoids Rule.nameChar rest) :
    TakesSelector s.write rest s := by
  cases s with
  | property name =>
      cases name with
      | none => exact takes_propertyWildcard rest
      | some name =>
          show TakesSelector (writeProperty name) rest _
          unfold writeProperty
          split
          · rename_i hplain
            exact takes_plainProperty hplain hrest
          · exact takes_quotedProperty name rest
  | item index =>
      cases index with
      | none => exact takes_itemWildcard rest
      | some index => exact takes_itemIndex hs rest

end DocQuery
