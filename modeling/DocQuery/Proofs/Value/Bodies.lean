import DocQuery.Proofs.Language.Words
import DocQuery.Value.Equality
import DocQuery.Value.Reader

/-!
# The body of a value

The body of a value is taken by one of fifteen alternatives, and the text that a value is written
as must get past all those that stand before its own. Most of them are refused at the first
character, and the ones that are not are named where they are dealt with.

Main names:

* `bodyRules`, `takes_valueBody` — the alternatives in their order;
* `IsBodyOf` — the tree of a body is read as an equal value;
* `BodyTaken` — what the text of a value without its annotations comes to;
* `LeadsTo`, `leadsTo_of_head` — texts that are told from others, mostly by their first character.
-/

namespace DocQuery.Value

open Grammar DocQuery.Language

variable {rest : List Char}

/-! ## Alternatives -/

theorem loose_ne_token : Atomicity.loose ≠ .token := by
  decide

/-- The alternatives for the body of a value, in their order. -/
def bodyRules : List Rule :=
  [.nullLiteral, .boolLiteral, .datedTimestamp, .durationLiteral, .decimalLiteral, .floatLiteral,
    .intLiteral, .stringLiteral, .clobLiteral, .blobLiteral, .listValue, .sexpValue, .structValue,
    .quotedSymbol, .identifier]

/-- The alternatives that are tried before a rule. -/
def rulesBefore (rule : Rule) : List Rule :=
  bodyRules.takeWhile (· != rule)

/-- An alternative takes a text that all alternatives before it refuse. -/
theorem takes_valueBody {rule : Rule} (hrule : rule ∈ bodyRules) {text : List Char} {fuel : Nat}
    {outer : Atomicity} {good : List (Node Rule) → Prop}
    (hbefore : ∀ r ∈ rulesBefore rule, Refuses (runRule grammar fuel outer r) (text ++ rest))
    (htakes : Takes (runRule grammar fuel outer rule) text rest good) :
    Takes (runRule grammar (fuel + 1) outer .valueBody) text rest good := by
  exact takes_silent rfl (takes_firstOf_rules hrule hbefore htakes)

/-! ## Bodies -/

/-- A text begins with a character that is no blank. -/
def Opens (text : List Char) : Prop :=
  ∃ c tail, text = c :: tail ∧ grammar.blank.contains c = false

theorem Opens.avoids {text : List Char} (htext : Opens text) (rest : List Char) :
    Avoids grammar.blank (text ++ rest) := by
  obtain ⟨c, tail, rfl, hc⟩ := htext
  exact avoids_cons hc _

theorem Opens.append {text : List Char} (htext : Opens text) (more : List Char) :
    Opens (text ++ more) := by
  obtain ⟨c, tail, rfl, hc⟩ := htext
  exact ⟨c, tail ++ more, rfl, hc⟩

theorem Opens.ne_nil {text : List Char} (htext : Opens text) : text ≠ [] := by
  obtain ⟨c, tail, rfl, _⟩ := htext
  exact List.cons_ne_nil _ _

/-- One node, which is read as a value that is equal to another one up to annotations. -/
def IsBodyOf (v : Value) (nodes : List (Node Rule)) : Prop :=
  ∃ tree w, nodes = [tree] ∧ tree.rule ≠ .label ∧ ofBody tree = .ok w ∧
    ∀ names, (w.withAnnotations names).equal (v.withAnnotations names) = true

/-- A text is the body of a value: it begins no label, and the grammar takes it as the value. -/
structure BodyTaken (v : Value) (text rest : List Char) (fuel : Nat) : Prop where
  opens : Opens text
  label : Refuses (runRule grammar fuel .loose .label) (text ++ rest)
  body : Takes (runRule grammar fuel .loose .valueBody) text rest (IsBodyOf v)

/-- The rules whose trees are read as scalars. -/
def scalarRules : List Rule :=
  [.nullLiteral, .boolLiteral, .dayTimestamp, .durationLiteral, .decimalLiteral, .floatLiteral,
    .intLiteral, .stringLiteral, .quotedSymbol, .identifier]

theorem ofBody_scalar {tree : Tree} (hrule : tree.rule ∈ scalarRules) :
    ofBody tree = (do return scalar [] (← Scalar.ofTree tree)) := by
  obtain ⟨rule, text, place, children⟩ := tree
  dsimp only [Node.rule] at hrule
  rw [ofBody]
  -- The other cases are those of bytes and containers.
  all_goals
    intro _ _ _ heq
    cases heq
    exact absurd hrule (by decide)

/-- One node, which is read as a scalar. -/
abbrev IsScalar (content : Scalar) : List (Node Rule) → Prop :=
  IsOne fun tree => tree.rule ∈ scalarRules ∧ Scalar.ofTree tree = .ok content

theorem isScalar_node {content : Scalar} {rule : Rule} (hrule : rule ∈ scalarRules)
    {text : List Char} {place : Place} {children : List Tree}
    (hread : Scalar.ofTree (.mk rule text place children) = .ok content) :
    IsScalar content [.mk rule text place children] :=
  ⟨_, rfl, hrule, hread⟩

/-- The tree of a scalar is a body of every scalar that equals it. -/
theorem isBodyOf_scalar {content content' : Scalar} {nodes : List (Node Rule)}
    (hnodes : IsScalar content' nodes) (hequal : content'.equal content = true) :
    IsBodyOf (.scalar [] content) nodes := by
  obtain ⟨tree, rfl, hrule, hread⟩ := hnodes
  refine ⟨_, .scalar [] content', rfl, ?_, ?_, ?_⟩
  · rintro hlabel
    rw [hlabel] at hrule
    exact absurd hrule (by decide)
  · rw [ofBody_scalar hrule, hread]
    rfl
  · intro names
    simp [withAnnotations, equal, hequal]

/-! ## Ways to a rule -/

/-- A text leads to a rule of bodies: it begins no label, and the alternatives before the rule
refuse it. -/
structure LeadsTo (rule : Rule) (text rest : List Char) (fuel : Nat) : Prop where
  among : rule ∈ bodyRules
  opens : Opens text
  label : Refuses (runRule grammar (fuel + 1) .loose .label) (text ++ rest)
  before : ∀ r ∈ rulesBefore rule, Refuses (runRule grammar fuel .loose r) (text ++ rest)

theorem LeadsTo.bodyTaken {v : Value} {rule : Rule} {text : List Char} {fuel : Nat}
    (hleads : LeadsTo rule text rest fuel)
    (htakes : Takes (runRule grammar fuel .loose rule) text rest (IsBodyOf v)) :
    BodyTaken v text rest (fuel + 1) :=
  ⟨hleads.opens, hleads.label, takes_valueBody hleads.among hleads.before htakes⟩

/-- The first character settles most alternatives; the others are refused one by one. -/
theorem leadsTo_of_head (chars : List Char) (rules : List Rule)
    (hverdict : ∀ c ∈ chars, ∀ r ∈ rules, grammar.onHead c headDepth r = .refused)
    (hblank : ∀ c ∈ chars, grammar.blank.contains c = false) {rule : Rule}
    (hrule : rule ∈ bodyRules) {c : Char} (hc : c ∈ chars) {tail : List Char} (fuel : Nat)
    (hothers : ∀ r ∈ Rule.label :: rulesBefore rule, r ∈ rules ∨
      ∀ fuel, Refuses (runRule grammar (fuel + headDepth) .loose r) (c :: tail ++ rest)) :
    LeadsTo rule (c :: tail) rest (fuel + headDepth) := by
  have hrefuses : ∀ r ∈ Rule.label :: rulesBefore rule, ∀ fuel,
      Refuses (runRule grammar (fuel + headDepth) .loose r) (c :: tail ++ rest) := by
    intro r hr fuel
    rcases hothers r hr with hmem | hrefuses
    · exact refuses_of_mem chars rules hverdict hblank hc hmem _ fuel .loose
    · exact hrefuses fuel
  exact ⟨hrule, ⟨c, tail, rfl, hblank c hc⟩, hrefuses _ (List.mem_cons_self ..) (fuel + 1),
    fun r hr => hrefuses r (List.mem_cons_of_mem _ hr) fuel⟩

end DocQuery.Value
