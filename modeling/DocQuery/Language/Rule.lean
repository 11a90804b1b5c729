/-!
# The rules of the language

Three texts share one grammar: expressions, paths and the text of values. `Rule.all` lists
its rules in the order in which they are named when several of them were expected.
-/

namespace DocQuery.Language

/-- The rules of the grammar. -/
inductive Rule
  | endOfInput
  | blank
  | expressionRoot
  | pathRoot
  | pathSet
  | document
  | identStart
  | identChar
  | digits
  | sign
  | identifier
  | dollarIdentifier
  | typeName
  | stringLiteral
  | stringContent
  | quotedSymbol
  | symbolContent
  | nullLiteral
  | boolLiteral
  | decimalLiteral
  | floatLiteral
  | intLiteral
  | timestampLiteral
  | datedTimestamp
  | nowLiteral
  | yearTimestamp
  | monthTimestamp
  | dayTimestamp
  | tsYear
  | tsMonth
  | tsDay
  | tsTime
  | tsHour
  | tsMinute
  | tsSecond
  | tsZone
  | durationLiteral
  | durationDays
  | durationClock
  | durationHours
  | durationMinutes
  | durationSeconds
  | literal
  | notKeyword
  | existsKeyword
  | concatKeyword
  | isKeyword
  | asKeyword
  | inKeyword
  | betweenKeyword
  | matchesKeyword
  | startsKeyword
  | endsKeyword
  | withKeyword
  | containsKeyword
  | hasKeyword
  | annotationKeyword
  | expression
  | binaryOperator
  | power
  | multiply
  | divide
  | modulus
  | add
  | subtract
  | greaterOrEqual
  | lessOrEqual
  | notEqual
  | equal
  | greaterThan
  | lessThan
  | andOperator
  | xorOperator
  | norOperator
  | orOperator
  | operand
  | negation
  | existence
  | concatenation
  | postfixOperand
  | postfixOperation
  | typeCheck
  | negatedTypeCheck
  | inOperation
  | notInOperation
  | betweenOperation
  | notBetweenOperation
  | matchesOperation
  | startsWithOperation
  | endsWithOperation
  | containsOperation
  | hasAnnotationOperation
  | argumentList
  | primary
  | selection
  | relativeSelection
  | relativePath
  | keyReference
  | path
  | pathSegment
  | itemSelector
  | itemIndex
  | itemWildcard
  | itemPredicate
  | propertySelector
  | propertyWildcard
  | propertyPredicate
  | optionalMarker
  | value
  | label
  | valueBody
  | clobLiteral
  | blobLiteral
  | blobContent
  | listValue
  | sexpValue
  | structValue
  | structField
  deriving DecidableEq, Repr

namespace Rule

/-- Every rule, the end of the input first. -/
def all : List Rule :=
  [.endOfInput, .blank, .expressionRoot, .pathRoot, .pathSet, .document, .identStart,
   .identChar, .digits, .sign, .identifier, .dollarIdentifier, .typeName, .stringLiteral,
   .stringContent, .quotedSymbol, .symbolContent, .nullLiteral, .boolLiteral, .decimalLiteral,
   .floatLiteral, .intLiteral, .timestampLiteral, .datedTimestamp, .nowLiteral, .yearTimestamp,
   .monthTimestamp, .dayTimestamp, .tsYear, .tsMonth, .tsDay, .tsTime, .tsHour, .tsMinute,
   .tsSecond, .tsZone, .durationLiteral, .durationDays, .durationClock, .durationHours,
   .durationMinutes, .durationSeconds, .literal, .notKeyword, .existsKeyword, .concatKeyword,
   .isKeyword, .asKeyword, .inKeyword, .betweenKeyword, .matchesKeyword, .startsKeyword,
   .endsKeyword, .withKeyword, .containsKeyword, .hasKeyword, .annotationKeyword, .expression,
   .binaryOperator, .power, .multiply, .divide, .modulus, .add, .subtract, .greaterOrEqual,
   .lessOrEqual, .notEqual, .equal, .greaterThan, .lessThan, .andOperator, .xorOperator,
   .norOperator, .orOperator, .operand, .negation, .existence, .concatenation, .postfixOperand,
   .postfixOperation, .typeCheck, .negatedTypeCheck, .inOperation, .notInOperation,
   .betweenOperation, .notBetweenOperation, .matchesOperation, .startsWithOperation,
   .endsWithOperation, .containsOperation, .hasAnnotationOperation, .argumentList, .primary,
   .selection, .relativeSelection, .relativePath, .keyReference, .path, .pathSegment,
   .itemSelector, .itemIndex, .itemWildcard, .itemPredicate, .propertySelector,
   .propertyWildcard, .propertyPredicate, .optionalMarker, .value, .label, .valueBody,
   .clobLiteral, .blobLiteral, .blobContent, .listValue, .sexpValue, .structValue, .structField]

/-- The name of a rule, as it appears in messages. -/
def name : Rule → String
  | .endOfInput => "EOI"
  | .blank => "WHITESPACE"
  | .expressionRoot => "expression_root"
  | .pathRoot => "path_root"
  | .pathSet => "path_set"
  | .document => "document"
  | .identStart => "ident_start"
  | .identChar => "ident_char"
  | .digits => "digits"
  | .sign => "sign"
  | .identifier => "identifier"
  | .dollarIdentifier => "dollar_identifier"
  | .typeName => "type_name"
  | .stringLiteral => "string_literal"
  | .stringContent => "string_content"
  | .quotedSymbol => "quoted_symbol"
  | .symbolContent => "symbol_content"
  | .nullLiteral => "null_literal"
  | .boolLiteral => "bool_literal"
  | .decimalLiteral => "decimal_literal"
  | .floatLiteral => "float_literal"
  | .intLiteral => "int_literal"
  | .timestampLiteral => "timestamp_literal"
  | .datedTimestamp => "dated_timestamp"
  | .nowLiteral => "now_literal"
  | .yearTimestamp => "year_timestamp"
  | .monthTimestamp => "month_timestamp"
  | .dayTimestamp => "day_timestamp"
  | .tsYear => "ts_year"
  | .tsMonth => "ts_month"
  | .tsDay => "ts_day"
  | .tsTime => "ts_time"
  | .tsHour => "ts_hour"
  | .tsMinute => "ts_minute"
  | .tsSecond => "ts_second"
  | .tsZone => "ts_zone"
  | .durationLiteral => "duration_literal"
  | .durationDays => "duration_days"
  | .durationClock => "duration_clock"
  | .durationHours => "duration_hours"
  | .durationMinutes => "duration_minutes"
  | .durationSeconds => "duration_seconds"
  | .literal => "literal"
  | .notKeyword => "not_keyword"
  | .existsKeyword => "exists_keyword"
  | .concatKeyword => "concat_keyword"
  | .isKeyword => "is_keyword"
  | .asKeyword => "as_keyword"
  | .inKeyword => "in_keyword"
  | .betweenKeyword => "between_keyword"
  | .matchesKeyword => "matches_keyword"
  | .startsKeyword => "starts_keyword"
  | .endsKeyword => "ends_keyword"
  | .withKeyword => "with_keyword"
  | .containsKeyword => "contains_keyword"
  | .hasKeyword => "has_keyword"
  | .annotationKeyword => "annotation_keyword"
  | .expression => "expression"
  | .binaryOperator => "binary_operator"
  | .power => "power"
  | .multiply => "multiply"
  | .divide => "divide"
  | .modulus => "modulus"
  | .add => "add"
  | .subtract => "subtract"
  | .greaterOrEqual => "greater_or_equal"
  | .lessOrEqual => "less_or_equal"
  | .notEqual => "not_equal"
  | .equal => "equal"
  | .greaterThan => "greater_than"
  | .lessThan => "less_than"
  | .andOperator => "and_operator"
  | .xorOperator => "xor_operator"
  | .norOperator => "nor_operator"
  | .orOperator => "or_operator"
  | .operand => "operand"
  | .negation => "negation"
  | .existence => "existence"
  | .concatenation => "concatenation"
  | .postfixOperand => "postfix_operand"
  | .postfixOperation => "postfix_operation"
  | .typeCheck => "type_check"
  | .negatedTypeCheck => "negated_type_check"
  | .inOperation => "in_operation"
  | .notInOperation => "not_in_operation"
  | .betweenOperation => "between_operation"
  | .notBetweenOperation => "not_between_operation"
  | .matchesOperation => "matches_operation"
  | .startsWithOperation => "starts_with_operation"
  | .endsWithOperation => "ends_with_operation"
  | .containsOperation => "contains_operation"
  | .hasAnnotationOperation => "has_annotation_operation"
  | .argumentList => "argument_list"
  | .primary => "primary"
  | .selection => "selection"
  | .relativeSelection => "relative_selection"
  | .relativePath => "relative_path"
  | .keyReference => "key_reference"
  | .path => "path"
  | .pathSegment => "path_segment"
  | .itemSelector => "item_selector"
  | .itemIndex => "item_index"
  | .itemWildcard => "item_wildcard"
  | .itemPredicate => "item_predicate"
  | .propertySelector => "property_selector"
  | .propertyWildcard => "property_wildcard"
  | .propertyPredicate => "property_predicate"
  | .optionalMarker => "optional_marker"
  | .value => "value"
  | .label => "annotation"
  | .valueBody => "value_body"
  | .clobLiteral => "clob_literal"
  | .blobLiteral => "blob_literal"
  | .blobContent => "blob_content"
  | .listValue => "list_value"
  | .sexpValue => "sexp_value"
  | .structValue => "struct_value"
  | .structField => "struct_field"

/-- The rule with a name. -/
def ofName? (name : String) : Option Rule :=
  all.find? (·.name == name)

end Rule

end DocQuery.Language
