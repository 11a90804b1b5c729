import DocQuery.Proofs.Language.Dates
import DocQuery.Proofs.Language.Durations
import DocQuery.Proofs.Language.Lobs
import DocQuery.Proofs.Language.Numbers
import DocQuery.Proofs.Language.Symbols
import DocQuery.Proofs.Number.Binary64.ReadBack
import DocQuery.Proofs.Number.Decimal
import DocQuery.Proofs.Text.Utf8
import DocQuery.Proofs.Value.Bodies

/-!
# Scalars read back

A written scalar is the body of a value, whatever stops it, and the tree that is left is read as an
equal scalar. Numbers differ from each other after their digits, names from keywords after a few
letters, and blobs from clobs after two braces; everything else is told by its first character.

Main names:

* `Scalar.Writable` — the scalars that read back;
* `ScalarTaken` — what the text of a scalar comes to;
* `leadsTo_number` — what ints, decimals and floats have in common;
* `leadsTo_word` — what nulls, bools and identifiers have in common;
* `scalarTaken_int`, `scalarTaken_identifier`, … — one lemma for every sort of scalars;
* `bodyTaken_scalar` — every writable scalar.
-/

namespace DocQuery

open Grammar DocQuery.Language Number Text Text.Digits Time

/-- A scalar that reads back: an identifier is a name that stands for nothing else, a float is
finite, a timestamp has a year of four digits, and the bytes of a clob are those of a text. -/
def Scalar.Writable : Scalar → Prop
  | .float x => x.isFinite = true
  | .timestamp t => t.Plain
  | .text .identifier name =>
    isName name.toList = true ∧ Value.reserved.contains name.toList = false ∧
      isDurationText name.toList = false
  | .clob bytes => ∃ text, Utf8.encode text = bytes
  | _ => True

/-! ## Literals -/

section Literals

variable {raw : List Char} {place : Place} {children : List Tree}

theorem Scalar.ofTree_decimal {d : Decimal} (hread : Decimal.read raw = .ok d) :
    Scalar.ofTree (.mk .decimalLiteral raw place children) = .ok (.decimal d) := by
  simp only [Scalar.ofTree, Node.rule, Node.text, hread]

theorem Scalar.ofTree_timestamp {rule : Rule} {t : Timestamp}
    (hrule : rule ∈ [.dayTimestamp, .monthTimestamp, .yearTimestamp])
    (hread : Timestamp.ofParts (Scalar.timestampParts (.mk rule raw place children)) = .ok t) :
    Scalar.ofTree (.mk rule raw place children) = .ok (.timestamp t) := by
  simp only [List.mem_cons, List.not_mem_nil, or_false] at hrule
  rcases hrule with rfl | rfl | rfl <;> simp only [Scalar.ofTree, Node.rule, hread]

theorem Scalar.ofTree_duration {d : Duration} (hread : Duration.read raw = .ok d) :
    Scalar.ofTree (.mk .durationLiteral raw place children) = .ok (.duration d) := by
  simp only [Scalar.ofTree, Node.rule, Node.text, hread]

theorem Scalar.ofTree_null {kind : Kind}
    (hchildren : IsNode .typeName kind.name.toList Leafless children) :
    Scalar.ofTree (.mk .nullLiteral raw place children) = .ok (.null kind) := by
  obtain ⟨place', children', rfl, rfl⟩ := hchildren
  have hname : Tree.partText? .typeName (.mk .nullLiteral raw place
      [.mk .typeName kind.name.toList place' []]) = some kind.name.toList := rfl
  simp only [Scalar.ofTree, Node.rule, Scalar.readNull, hname, String.ofList_toList,
    Kind.ofName?_name]

end Literals

namespace Value

variable {rest : List Char}

/-- A text leads to a rule, which takes it and leaves a tree that is read as a scalar. -/
structure ScalarTaken (rule : Rule) (content : Scalar) (text rest : List Char) (fuel : Nat) :
    Prop where
  leads : LeadsTo rule text rest (fuel + headDepth)
  takes : Takes (runRule grammar (fuel + headDepth) .loose rule) text rest (IsScalar content)

theorem ScalarTaken.bodyTaken {rule : Rule} {content content' : Scalar} {text : List Char}
    {fuel : Nat} (htaken : ScalarTaken rule content' text rest fuel)
    (hequal : content'.equal content = true) : BodyTaken (.scalar [] content) text rest (fuel + 7) :=
  htaken.leads.bodyTaken (htaken.takes.imp fun _ hnodes => isBodyOf_scalar hnodes hequal)

/-! ## Numbers -/

/-- What a number is not: the alternatives that are left when the digits are followed by nothing
that belongs to a date. -/
theorem refuses_beforeNumber (negative : Bool) {digits : List Char} (hsome : digits ≠ [])
    (hdigits : ∀ c ∈ digits, c.isDigit = true) (hdigit : Avoids .digit rest)
    (hmark : Avoids (.oneOf ['-', 'T']) rest) {rule : Rule}
    (hrule : rule ∈ [.label, .nullLiteral, .boolLiteral, .datedTimestamp, .durationLiteral])
    (fuel : Nat) :
    Refuses (runRule grammar (fuel + headDepth) .loose rule)
      (minus negative ++ (digits ++ rest)) := by
  cases negative with
  | false =>
      -- A date is the one alternative that may begin with a digit.
      by_cases hdated : rule = .datedTimestamp
      · subst hdated
        exact refuses_datedTimestamp hsome hdigits hdigit hmark (fuel + 3) .loose
      · cases digits with
        | nil => exact absurd rfl hsome
        | cons c digits =>
            have hother : rule ∈ [Rule.label, .nullLiteral, .boolLiteral, .durationLiteral] := by
              simpa [hdated] using hrule
            exact refuses_of_mem digitChars _ (by decide) (by decide)
              (mem_digitChars (hdigits c (List.mem_cons_self ..))) hother _ fuel .loose
  | true =>
      -- A duration is the one alternative that may begin with a sign.
      by_cases hduration : rule = .durationLiteral
      · subst hduration
        exact refuses_durationLiteral_minus hsome hdigits rest (fuel + 5) .loose
      · have hother : rule ∈ [Rule.label, .nullLiteral, .boolLiteral, .datedTimestamp] := by
          simpa [hduration] using hrule
        exact refuses_of_mem ['-'] _ (by decide) (by decide) (List.mem_cons_self ..) hother _ fuel
          .loose

theorem opens_number (negative : Bool) {digits : List Char} (hsome : digits ≠ [])
    (hdigits : ∀ c ∈ digits, c.isDigit = true) (tail : List Char) :
    Opens (minus negative ++ (digits ++ tail)) := by
  cases negative with
  | true => exact ⟨'-', _, rfl, by decide⟩
  | false =>
      cases digits with
      | nil => exact absurd rfl hsome
      | cons c digits =>
          have hall : ∀ c ∈ digitChars, grammar.blank.contains c = false := by
            decide
          exact ⟨c, _, rfl, hall c (mem_digitChars (hdigits c (List.mem_cons_self ..)))⟩

/-- A number leads to its rule if the alternatives between dates and this rule refuse it. -/
theorem leadsTo_number {rule : Rule} (hrule : rule ∈ bodyRules) (more : List Rule)
    (hbefore : rulesBefore rule =
      [.nullLiteral, .boolLiteral, .datedTimestamp, .durationLiteral] ++ more)
    {negative : Bool} {digits tail : List Char} (hsome : digits ≠ [])
    (hdigits : ∀ c ∈ digits, c.isDigit = true) (hdigit : Avoids .digit (tail ++ rest))
    (hmark : Avoids (.oneOf ['-', 'T']) (tail ++ rest)) {fuel : Nat}
    (hmore : ∀ r ∈ more, Refuses (runRule grammar (fuel + headDepth) .loose r)
      (minus negative ++ (digits ++ (tail ++ rest)))) :
    LeadsTo rule (minus negative ++ (digits ++ tail)) rest (fuel + headDepth) := by
  have htext : minus negative ++ (digits ++ tail) ++ rest =
      minus negative ++ (digits ++ (tail ++ rest)) := by
    rw [List.append_assoc, List.append_assoc]
  refine ⟨hrule, opens_number negative hsome hdigits tail, ?_, fun r hr => ?_⟩
  · rw [htext]
    exact refuses_beforeNumber negative hsome hdigits hdigit hmark (by decide) (fuel + 1)
  · rw [htext]
    rw [hbefore] at hr
    rcases List.mem_append.mp hr with hr | hr
    · exact refuses_beforeNumber negative hsome hdigits hdigit hmark
        (List.mem_cons_of_mem _ hr) fuel
    · exact hmore r hr

theorem readInt_ofInt (n : Int) : Scalar.readInt (Digits.ofInt n) = n := by
  unfold Digits.ofInt
  split
  · rename_i hneg
    show -(value (ofNat n.natAbs) : Int) = n
    rw [value_ofNat]
    omega
  · rename_i hnonneg
    cases hdigits : ofNat n.natAbs with
    | nil => exact absurd hdigits (ofNat_ne_nil _)
    | cons c digits =>
        have hc : c.isDigit = true := isDigit_of_mem_ofNat (hdigits ▸ List.mem_cons_self ..)
        rw [Scalar.readInt]
        · rw [← hdigits, value_ofNat]
          omega
        · intro rest heq
          exact ne_of_isDigit hc rfl (List.cons.inj heq).1

theorem scalarTaken_int (n : Int) (hrest : Stops rest) (fuel : Nat) :
    ScalarTaken .intLiteral (.int n) (Digits.ofInt n) rest fuel := by
  let p := PointedDigits.ofNat n.natAbs
  have hdigit : Avoids .digit rest := hrest.avoids (by decide)
  have htext : Digits.ofInt n = minus (decide (n < 0)) ++ (p.whole ++ []) := by
    rw [List.append_nil]
    exact ofInt_eq n
  have htakes := takes_intLiteral (decide (n < 0)) p.whole_ne_nil p.isDigit_whole hdigit (fuel + 4)
    loose_ne_token
  rw [htext]
  -- Decimals and floats are tried before ints, and miss a point or a mark.
  refine ⟨leadsTo_number (by decide) [.decimalLiteral, .floatLiteral] (by decide) p.whole_ne_nil
    p.isDigit_whole ?_ ?_ fun r hr => ?_, ?_⟩
  · exact hdigit
  · exact hrest.avoids (by decide)
  · simp only [List.mem_cons, List.not_mem_nil, or_false] at hr
    rcases hr with rfl | rfl
    · exact refuses_decimalLiteral _ p hdigit (hrest.avoids (by decide))
        (hrest.avoids (by decide)) (fuel + 4) .loose
    · exact refuses_floatLiteral _ p.whole_ne_nil p.isDigit_whole hdigit
        (hrest.avoids (by decide)) (hrest.avoids (by decide)) (fuel + 4) .loose
  · rw [List.append_nil]
    refine htakes.imp ?_
    rintro nodes ⟨place, children, rfl, _⟩
    refine isScalar_node (by decide) ?_
    show Except.ok (Scalar.int (Scalar.readInt (minus (decide (n < 0)) ++ ofNat n.natAbs))) = _
    rw [← ofInt_eq, readInt_ofInt]

theorem scalarTaken_decimal (d : Decimal) (hrest : Stops rest) (fuel : Nat) :
    ScalarTaken .decimalLiteral (.decimal d.readBack) (d.write ++ ['d', '0']) rest fuel := by
  have htext : d.write ++ ['d', '0'] =
      minus d.negative ++ (d.pointed.whole ++ (d.pointed.tail ++ ['d', '0'])) := by
    rw [Decimal.write_eq, PointedDigits.text, List.append_assoc, List.append_assoc]
  have htakes := takes_decimalLiteral d.negative d.pointed (hrest.avoids (by decide)) (fuel + 4)
    loose_ne_token
  rw [htext]
  refine ⟨leadsTo_number (by decide) [] (by decide) d.pointed.whole_ne_nil d.pointed.isDigit_whole
    ?_ ?_ (fun r hr => absurd hr List.not_mem_nil), ?_⟩
  · rw [List.append_assoc]
    exact PointedDigits.avoids_tail _ (by decide) (avoids_cons (by decide) _)
  · rw [List.append_assoc]
    exact PointedDigits.avoids_tail _ (by decide) (avoids_cons (by decide) _)
  · refine htakes.imp ?_
    rintro nodes ⟨place, children, rfl, _⟩
    refine isScalar_node (by decide) (Scalar.ofTree_decimal ?_)
    rw [← htext, Decimal.read_write]

theorem scalarTaken_float {x : Binary64} (hfinite : x.isFinite = true) (hrest : Stops rest)
    (fuel : Nat) :
    ScalarTaken .floatLiteral (.float x) (Binary64.Style.value.write x) rest fuel := by
  obtain ⟨l, hwrite, hmarked, hread⟩ := Binary64.exists_literal hfinite
  have hdigit : Avoids .digit rest := hrest.avoids (by decide)
  have htext : l.text =
      minus l.negative ++ (l.pointed.whole ++ (l.pointed.tail ++ exponentText l.power)) := by
    have hmark : l.mark = exponentText l.power := by
      unfold Binary64.Literal.mark
      cases l.power <;> rfl
    rw [Binary64.Literal.text, PointedDigits.text, hmark, List.append_assoc]
  have htakes := takes_floatLiteral l.negative l.pointed l.power hmarked hdigit
    (hrest.avoids (by decide)) (fuel + 4) loose_ne_token
  rw [hwrite, htext]
  -- Decimals are tried before floats; what refuses them is the power of ten or a missing point.
  refine ⟨leadsTo_number (by decide) [.decimalLiteral] (by decide) l.pointed.whole_ne_nil
    l.pointed.isDigit_whole ?_ ?_ fun r hr => ?_, ?_⟩
  · rw [List.append_assoc]
    exact PointedDigits.avoids_tail _ (by decide) (avoids_exponentText _ (by decide) hdigit)
  · rw [List.append_assoc]
    exact PointedDigits.avoids_tail _ (by decide)
      (avoids_exponentText _ (by decide) (hrest.avoids (by decide)))
  · rw [List.mem_singleton.mp hr, List.append_assoc]
    exact refuses_decimalLiteral _ _ (avoids_exponentText _ (by decide) hdigit)
      (avoids_exponentText _ (by decide) (hrest.avoids (by decide)))
      (avoids_exponentText _ (by decide) (hrest.avoids (by decide))) (fuel + 4) .loose
  · refine htakes.imp ?_
    rintro nodes ⟨place, children, rfl, _⟩
    refine isScalar_node (by decide) ?_
    show Except.ok (Scalar.float (Binary64.read (minus l.negative ++
      (l.pointed.whole ++ (l.pointed.tail ++ exponentText l.power))))) = _
    rw [← htext, hread]

/-! ## Times -/

theorem timestamp_head {t : Timestamp} (ht : t.Plain) :
    ∃ c tail, t.write = c :: tail ∧ c.isDigit = true := by
  rw [Timestamp.write_eq ht]
  cases hyear : padded 4 t.parts.year with
  | nil =>
      have hlength := le_length_padded 4 t.parts.year
      rw [hyear] at hlength
      cases hlength
  | cons c digits =>
      exact ⟨c, _, rfl, isDigit_of_mem_padded (hyear ▸ List.mem_cons_self ..)⟩

theorem scalarTaken_timestamp {t : Timestamp} (ht : t.Plain) (hrest : Stops rest) (fuel : Nat) :
    ScalarTaken .datedTimestamp (.timestamp t) t.write rest fuel := by
  obtain ⟨c, tail, htext, hc⟩ := timestamp_head ht
  have htakes : Takes (runRule grammar (fuel + headDepth) .loose .datedTimestamp) t.write rest
      (IsScalar (.timestamp t)) := by
    refine takes_silent rfl (takes_choice_left (takes_call
      ((takes_dayTimestamp ht hrest.wordEnd (fuel + 2) .loose).imp ?_)))
    rintro nodes ⟨place, children, rfl, hchildren⟩
    refine isScalar_node (by decide) (Scalar.ofTree_timestamp (List.mem_cons_self ..) ?_)
    rw [timestampParts_node hchildren, Timestamp.ofParts_parts ht]
  rw [htext] at htakes ⊢
  exact ⟨leadsTo_of_head digitChars [.label, .nullLiteral, .boolLiteral] (by decide) (by decide)
    (by decide) (mem_digitChars hc) fuel fun r hr => Or.inl hr, htakes⟩

theorem scalarTaken_duration (d : Duration) (hrest : Stops rest) (fuel : Nat) :
    ScalarTaken .durationLiteral (.duration d) d.write rest fuel := by
  obtain ⟨negative, text, htext, hcolon⟩ := exists_durationText d
  have htakes : Takes (runRule grammar (fuel + headDepth) .loose .durationLiteral) d.write rest
      (IsScalar (.duration d)) := by
    refine (takes_durationLiteral d ⟨hrest.avoids (by decide), hrest.avoids (by decide)⟩
      hrest.wordEnd (fuel + 2) loose_ne_token).imp ?_
    rintro nodes ⟨place, children, rfl, _⟩
    exact isScalar_node (by decide) (Scalar.ofTree_duration (Duration.read_write d))
  rw [htext] at htakes ⊢
  refine ⟨?_, htakes⟩
  cases negative with
  | true =>
      exact leadsTo_of_head ['-'] [.label, .nullLiteral, .boolLiteral, .datedTimestamp] (by decide)
        (by decide) (by decide) (List.mem_cons_self ..) fuel fun r hr => Or.inl hr
  | false =>
      -- Labels may begin with the same letter, but there is no colon behind a duration.
      refine leadsTo_of_head ['P'] [.nullLiteral, .boolLiteral, .datedTimestamp] (by decide)
        (by decide) (by decide) (List.mem_cons_self ..) fuel fun r hr => ?_
      rcases List.mem_cons.mp hr with rfl | hr
      · refine Or.inr fun fuel => refuses_label_word (by decide) ?_ hrest (fuel + 3) .loose
        intro hmem
        exact hcolon ((List.mem_cons.mp hmem).resolve_left (by decide))
      · exact Or.inl hr

/-! ## Words -/

/-- What begins with a letter and has no colon leads to its rule if the keywords and durations
refuse it. -/
theorem leadsTo_word {rule : Rule} (hrule : rule ∈ bodyRules) {c : Char} {tail : List Char}
    (hc : isNameStart c = true) (hcolon : ':' ∉ c :: tail) (hrest : Stops rest) (fuel : Nat)
    (hbefore : ∀ r ∈ rulesBefore rule, (∀ c ∈ nameStarts, grammar.onHead c headDepth r = .refused) ∨
      ∀ fuel, Refuses (runRule grammar (fuel + headDepth) .loose r) (c :: tail ++ rest)) :
    LeadsTo rule (c :: tail) rest (fuel + headDepth) := by
  refine leadsTo_of_head nameStarts [] (by simp) (by decide) hrule (mem_nameStarts hc) fuel
    fun r hr => ?_
  rcases List.mem_cons.mp hr with rfl | hr
  · exact Or.inr fun fuel => refuses_label_word hc hcolon hrest (fuel + 3) .loose
  · rcases hbefore r hr with hverdict | hrefuses
    · refine Or.inr fun fuel => refuses_of_mem nameStarts [r] ?_ (by decide) (mem_nameStarts hc)
        (List.mem_cons_self ..) _ fuel .loose
      intro c hc r' hr'
      rw [List.mem_singleton.mp hr']
      exact hverdict c hc
    · exact Or.inr hrefuses

theorem scalarTaken_null (kind : Kind) (hrest : Stops rest) (fuel : Nat) :
    ScalarTaken .nullLiteral (.null kind) (writeScalar (.null kind)) rest fuel := by
  have htakes : Takes (runRule grammar (fuel + headDepth) .loose .nullLiteral)
      (writeScalar (.null kind)) rest (IsScalar (.null kind)) := by
    by_cases hnull : kind = .null
    · subst hnull
      refine (takes_nullLiteral hrest.wordEnd (hrest.not_prefix (by decide) []) (fuel + 5) .loose).imp ?_
      rintro nodes ⟨place, children, rfl, rfl⟩
      exact isScalar_node (by decide) rfl
    · have htext : writeScalar (.null kind) = "null.".toList ++ kind.name.toList := by
        cases kind with
        | null => exact absurd rfl hnull
        | _ => rfl
      rw [htext]
      refine (takes_nullLiteral_kind kind hrest (fuel + 4) .loose).imp ?_
      rintro nodes ⟨place, children, rfl, hchildren⟩
      exact isScalar_node (by decide) (Scalar.ofTree_null hchildren)
  -- A label may begin like this, but it ends with a colon.
  have hhead : ∃ tail, writeScalar (.null kind) = 'n' :: tail ∧ ':' ∉ 'n' :: tail := by
    cases kind <;> exact ⟨_, rfl, by decide⟩
  obtain ⟨tail, htext, hcolon⟩ := hhead
  rw [htext] at htakes ⊢
  exact ⟨leadsTo_word (by decide) (by decide) hcolon hrest fuel
    fun r hr => absurd hr List.not_mem_nil, htakes⟩

theorem scalarTaken_bool (b : Bool) (hrest : Stops rest) (fuel : Nat) :
    ScalarTaken .boolLiteral (.bool b) (writeScalar (.bool b)) rest fuel := by
  have htakes : Takes (runRule grammar (fuel + headDepth) .loose .boolLiteral)
      (writeScalar (.bool b)) rest (IsScalar (.bool b)) := by
    refine (takes_boolLiteral b hrest.wordEnd (fuel + 5) (by decide)).imp ?_
    rintro nodes ⟨place, children, rfl, _⟩
    refine isScalar_node (by decide) ?_
    cases b <;> rfl
  have hhead : ∃ c tail, writeScalar (.bool b) = c :: tail ∧ c ∈ ['t', 'f'] ∧
      isNameStart c = true ∧ ':' ∉ c :: tail := by
    cases b <;> exact ⟨_, _, rfl, by decide, by decide, by decide⟩
  obtain ⟨c, tail, htext, hc, hstart, hcolon⟩ := hhead
  rw [htext] at htakes ⊢
  refine ⟨leadsTo_word (by decide) hstart hcolon hrest fuel fun r hr => ?_, htakes⟩
  obtain rfl : r = .nullLiteral := List.mem_singleton.mp hr
  exact Or.inr fun fuel => refuses_of_mem ['t', 'f'] [.nullLiteral] (by decide) (by decide) hc
    (List.mem_cons_self ..) _ fuel .loose

/-- A name that stands for nothing else is taken as an identifier. -/
theorem scalarTaken_identifier {name : String}
    (hname : (Scalar.text .identifier name).Writable) (hrest : Stops rest) (fuel : Nat) :
    ScalarTaken .identifier (.text .identifier name) (writeSymbol name) rest fuel := by
  obtain ⟨hplain, hreserved, hduration⟩ := hname
  have htext : writeSymbol name = name.toList := by
    rw [writeSymbol, hplain, hreserved]
    rfl
  have htakes : Takes (runRule grammar (fuel + headDepth) .loose .identifier) name.toList rest
      (IsScalar (.text .identifier name)) := by
    refine (takes_identifier hplain hrest.wordEnd (fuel + 4) (by decide)).imp ?_
    rintro nodes ⟨place, children, rfl, _⟩
    refine isScalar_node (by decide) ?_
    show Except.ok (Scalar.text .identifier (String.ofList name.toList)) = _
    rw [String.ofList_toList]
  have hother : ∀ keyword ∈ reserved, name.toList ≠ keyword := by
    intro keyword hkeyword heq
    rw [heq, List.contains_iff_mem.mpr hkeyword] at hreserved
    cases hreserved
  -- Three alternatives before it may begin with the same letter, and each refuses a name that is
  -- not written like it.
  have hnull := fun fuel =>
    refuses_nullLiteral hplain (hother _ (by decide)) hrest (fuel + 5) .loose
  have hbool := fun fuel =>
    refuses_boolLiteral hplain (hother _ (by decide)) (hother _ (by decide)) hrest (fuel + 5) .loose
  have hlasting := fun fuel =>
    refuses_durationLiteral hplain hduration hrest (fuel + 2) .loose
  rw [htext]
  cases hchars : name.toList with
  | nil =>
      rw [hchars] at hplain
      cases hplain
  | cons c tail =>
      have hcolon : ':' ∉ c :: tail := by
        intro hmem
        rw [← hchars] at hmem
        exact absurd (isNameChar_of_isName hplain hmem) (by decide)
      rw [hchars] at htakes hnull hbool hlasting hplain
      refine ⟨leadsTo_word (by decide) (isNameStart_of_isName hplain) hcolon hrest fuel
        fun r hr => ?_, htakes⟩
      by_cases hkeyword : r ∈ [Rule.nullLiteral, .boolLiteral, .durationLiteral]
      · simp only [List.mem_cons, List.not_mem_nil, or_false] at hkeyword
        rcases hkeyword with rfl | rfl | rfl
        · exact Or.inr hnull
        · exact Or.inr hbool
        · refine Or.inr fun fuel => ?_
          have hrefuses := hlasting fuel
          rw [show durationDepth + (fuel + 2) = fuel + headDepth from Nat.add_left_comm ..]
            at hrefuses
          exact hrefuses
      -- All others refuse the first character.
      · have hall : ∀ r ∈ rulesBefore .identifier,
            r ∈ [Rule.nullLiteral, .boolLiteral, .durationLiteral] ∨
              ∀ c ∈ nameStarts, grammar.onHead c headDepth r = .refused := by
          decide +kernel
        exact Or.inl ((hall r hr).resolve_left hkeyword)

/-! ## Quoted text -/

theorem scalarTaken_string (text : String) (fuel : Nat) :
    ScalarTaken .stringLiteral (.text .string text) (writeQuoted '"' text.toList) rest fuel := by
  have htakes : Takes (runRule grammar (fuel + headDepth) .loose .stringLiteral)
      (writeQuoted '"' text.toList) rest (IsScalar (.text .string text)) := by
    refine (takes_stringLiteral (Escape.quotedText_escape (Or.inl rfl) text.toList) rest (fuel + 4)
      .loose).imp ?_
    rintro nodes ⟨place, children, rfl, place', children', rfl, rfl⟩
    refine isScalar_node (by decide) ?_
    show (do return Scalar.text .string (← Scalar.readQuoted .string _)) = _
    rw [readQuoted_node (by rfl) (Or.inl rfl) .string, String.ofList_toList]
    rfl
  exact ⟨leadsTo_of_head ['"'] (.label :: rulesBefore .stringLiteral) (by decide) (by decide)
    (by decide) (List.mem_cons_self ..) fuel fun r hr => Or.inl hr, htakes⟩

theorem scalarTaken_quotedSymbol (text : String) (hrest : Stops rest) (fuel : Nat) :
    ScalarTaken .quotedSymbol (.text .quotedSymbol text) (writeQuoted '\'' text.toList) rest fuel := by
  have htakes : Takes (runRule grammar (fuel + headDepth) .loose .quotedSymbol)
      (writeQuoted '\'' text.toList) rest (IsScalar (.text .quotedSymbol text)) := by
    refine (takes_quotedName text rest (fuel + 4) .loose).imp ?_
    rintro nodes ⟨place, children, rfl, place', children', rfl, rfl⟩
    refine isScalar_node (by decide) ?_
    show (do return Scalar.text .quotedSymbol (← Scalar.readQuoted .symbol _)) = _
    rw [readQuoted_node (by rfl) (Or.inr rfl) .symbol, String.ofList_toList]
    rfl
  refine ⟨leadsTo_of_head ['\''] (rulesBefore .quotedSymbol) (by decide) (by decide) (by decide)
    (List.mem_cons_self ..) fuel fun r hr => ?_, htakes⟩
  rcases List.mem_cons.mp hr with rfl | hr
  · exact Or.inr fun fuel => refuses_label_quoted text hrest (fuel + 3) .loose
  · exact Or.inl hr

/-! ## Bytes -/

/-- The tree of bytes is a body of them. -/
theorem isBodyOf_lob {content : Scalar} {tree : Tree} (hrule : tree.rule ≠ .label)
    (hread : ofBody tree = .ok (.scalar [] content)) (hequal : content.equal content = true) :
    IsBodyOf (.scalar [] content) [tree] := by
  refine ⟨tree, _, rfl, hrule, hread, ?_⟩
  intro names
  simp [withAnnotations, equal, hequal]

theorem bodyTaken_blob (bytes : List UInt8) (fuel : Nat) :
    BodyTaken (.scalar [] (.blob bytes)) (writeScalar (.blob bytes)) rest (fuel + 7) := by
  have htext : writeScalar (.blob bytes) = openLob ++ (Base64.encode bytes ++ closeLob) :=
    List.append_assoc ..
  have htakes : Takes (runRule grammar (fuel + headDepth) .loose .blobLiteral)
      (openLob ++ (Base64.encode bytes ++ closeLob)) rest (IsBodyOf (.scalar [] (.blob bytes))) := by
    refine (takes_blobLiteral bytes rest (fuel + 4) .loose).imp ?_
    rintro nodes ⟨place, children, rfl, hchildren⟩
    refine isBodyOf_lob Rule.noConfusion ?_ (by simp [Scalar.equal])
    rw [ofBody, readBlob_node hchildren]
    rfl
  rw [htext]
  -- The clob is tried before the blob, and begins with the same braces.
  refine (leadsTo_of_head ['\x7b'] (.label :: rulesBefore .clobLiteral) (by decide) (by decide)
    (by decide) (List.mem_cons_self ..) fuel fun r hr => ?_).bodyTaken htakes
  rw [show Rule.label :: rulesBefore .blobLiteral =
    (.label :: rulesBefore .clobLiteral) ++ [.clobLiteral] by decide] at hr
  rcases List.mem_append.mp hr with hr | hr
  · exact Or.inl hr
  · refine Or.inr fun fuel => ?_
    rw [List.mem_singleton.mp hr]
    show Refuses _ (openLob ++ (Base64.encode bytes ++ closeLob) ++ rest)
    rw [List.append_assoc, List.append_assoc]
    exact refuses_clobLiteral_blob bytes rest (fuel + 4) .loose

theorem bodyTaken_clob (text : List Char) (fuel : Nat) :
    BodyTaken (.scalar [] (.clob (Utf8.encode text))) (writeScalar (.clob (Utf8.encode text))) rest
      (fuel + 7) := by
  have htext : writeScalar (.clob (Utf8.encode text)) =
      openLob ++ (writeQuoted '"' text ++ closeLob) := by
    rw [writeScalar, Utf8.decode_encode, List.append_assoc]
  have htakes : Takes (runRule grammar (fuel + headDepth) .loose .clobLiteral)
      (openLob ++ (writeQuoted '"' text ++ closeLob)) rest
      (IsBodyOf (.scalar [] (.clob (Utf8.encode text)))) := by
    refine (takes_clobLiteral text rest (fuel + 3) .loose).imp ?_
    rintro nodes ⟨place, children, rfl, hchildren⟩
    refine isBodyOf_lob Rule.noConfusion ?_ (by simp [Scalar.equal])
    rw [ofBody, readClob_node hchildren]
    rfl
  rw [htext]
  exact (leadsTo_of_head ['\x7b'] (.label :: rulesBefore .clobLiteral) (by decide) (by decide)
    (by decide) (List.mem_cons_self ..) fuel fun r hr => Or.inl hr).bodyTaken htakes

/-! ## All scalars -/

/-- A finite number equals itself. -/
theorem equal_float {x : Binary64} (hfinite : x.isFinite = true) :
    (Scalar.float x).equal (.float x) = true := by
  cases x with
  | nan => cases hfinite
  | infinity negative => cases hfinite
  | finite negative s e hcanonical => simp [Scalar.equal, Binary64.equal, Binary64.compare?]

theorem bodyTaken_scalar {content : Scalar} (hcontent : content.Writable) (hrest : Stops rest)
    (fuel : Nat) :
    BodyTaken (.scalar [] content) (writeScalar content) rest (fuel + 7) := by
  cases content with
  | null kind => exact (scalarTaken_null kind hrest fuel).bodyTaken (by simp [Scalar.equal])
  | bool b => exact (scalarTaken_bool b hrest fuel).bodyTaken (by simp [Scalar.equal])
  | int n => exact (scalarTaken_int n hrest fuel).bodyTaken (by simp [Scalar.equal])
  | float x => exact (scalarTaken_float hcontent hrest fuel).bodyTaken (equal_float hcontent)
  | decimal d => exact (scalarTaken_decimal d hrest fuel).bodyTaken d.equal_readBack
  | timestamp t =>
      exact (scalarTaken_timestamp hcontent hrest fuel).bodyTaken (by simp [Scalar.equal])
  | duration d => exact (scalarTaken_duration d hrest fuel).bodyTaken (by simp [Scalar.equal])
  | text form name =>
      cases form with
      | string => exact (scalarTaken_string name fuel).bodyTaken (by simp [Scalar.equal])
      | identifier =>
          exact (scalarTaken_identifier hcontent hrest fuel).bodyTaken (by simp [Scalar.equal])
      | quotedSymbol =>
          exact (scalarTaken_quotedSymbol name hrest fuel).bodyTaken (by simp [Scalar.equal])
  | blob bytes => exact bodyTaken_blob bytes fuel
  | clob bytes =>
      obtain ⟨text, rfl⟩ := hcontent
      exact bodyTaken_clob text fuel

end Value

end DocQuery
