import DocQuery.Grammar.Run
import DocQuery.Language.Rule

/-!
# The grammar of the language

The pattern and the mode of every rule. Alternatives are tried in the order written, so a
longer literal stands before one that begins it, and keywords end where a name would end.
-/

namespace DocQuery.Language

open Grammar Grammar.Pattern

namespace Rule

/-- The characters of which names consist. -/
def nameChar : CharClass :=
  .either .alphanumeric (.oneOf ['_'])

/-- The place where a keyword ends. -/
def wordEnd : Pattern Rule :=
  .absent nameChar

/-- A keyword. -/
def word (keyword : String) : Pattern Rule :=
  inOrder [lit keyword, wordEnd]

/-- The letter before the exponent of a decimal number. -/
def letterD : Pattern Rule :=
  .one (.oneOf ['d', 'D'])

/-- The letter before the exponent of a floating point number. -/
def letterE : Pattern Rule :=
  .one (.oneOf ['e', 'E'])

/-- Two digits. -/
def twoDigits : Pattern Rule :=
  times 2 (.one .digit)

/-- Quoted text up to a quote; a backslash takes the next character with it. -/
def quotedUntil (quote : Char) : Pattern Rule :=
  .star <| firstOf
    [inOrder [.absent (.oneOf [quote, '\\']), .one .any], inOrder [lit "\\", .one .any]]

/-- The pattern of a rule. -/
def body : Rule → Pattern Rule
  | .endOfInput => .stop
  | .blank => firstOf [lit " ", lit "\t", lit "\r", lit "\n"]
  | .expressionRoot => inOrder [.start, .rule .expression, .rule .endOfInput]
  | .pathRoot => inOrder [.start, .rule .path, .rule .endOfInput]
  | .pathSet =>
    inOrder [.start, .star (inOrder [.rule .path, .optional (lit ",")]), .rule .endOfInput]
  | .document => inOrder [.start, .rule .value, .rule .endOfInput]
  | .identStart => firstOf [.one .letter, lit "_"]
  | .identChar => firstOf [.one .alphanumeric, lit "_"]
  | .digits => plus (.one .digit)
  | .sign => firstOf [lit "+", lit "-"]
  | .identifier => inOrder [.rule .identStart, .star (.rule .identChar)]
  | .dollarIdentifier => inOrder [lit "$", plus (.rule .identChar)]
  | .typeName => inOrder [.one .lower, .star (firstOf [.one .lower, lit "_"])]
  | .stringLiteral => inOrder [lit "\"", .rule .stringContent, lit "\""]
  | .stringContent => quotedUntil '"'
  | .quotedSymbol => inOrder [lit "'", .rule .symbolContent, lit "'"]
  | .symbolContent => quotedUntil '\''
  | .nullLiteral =>
    inOrder [lit "null", .optional (inOrder [lit ".", .rule .typeName]), wordEnd]
  | .boolLiteral => inOrder [firstOf [lit "true", lit "false"], wordEnd]
  | .decimalLiteral =>
    inOrder [.optional (lit "-"), .rule .digits, .optional (inOrder [lit ".",
      .rule .digits]), letterD, .optional (.rule .sign), .rule .digits]
  | .floatLiteral =>
    inOrder [.optional (lit "-"), .rule .digits, firstOf [inOrder [lit ".", .rule .digits,
      .optional (inOrder [letterE, .optional (.rule .sign), .rule .digits])],
      inOrder [letterE, .optional (.rule .sign), .rule .digits]]]
  | .intLiteral => inOrder [.optional (lit "-"), .rule .digits]
  | .timestampLiteral => firstOf [.rule .nowLiteral, .rule .datedTimestamp]
  | .datedTimestamp =>
    firstOf [.rule .dayTimestamp, .rule .monthTimestamp, .rule .yearTimestamp]
  | .nowLiteral => word "now"
  | .yearTimestamp => inOrder [.rule .tsYear, lit "T", .optional (.rule .tsZone), wordEnd]
  | .monthTimestamp =>
    inOrder [.rule .tsYear, lit "-", .rule .tsMonth, lit "T", .optional (.rule .tsZone),
      wordEnd]
  | .dayTimestamp =>
    inOrder [.rule .tsYear, lit "-", .rule .tsMonth, lit "-", .rule .tsDay,
      .optional (inOrder [lit "T", .optional (.rule .tsTime)]), .optional (.rule .tsZone),
      wordEnd]
  | .tsYear => times 4 (.one .digit)
  | .tsMonth => twoDigits
  | .tsDay => twoDigits
  | .tsTime =>
    inOrder [.rule .tsHour, lit ":", .rule .tsMinute, .optional (inOrder [lit ":",
      .rule .tsSecond])]
  | .tsHour => twoDigits
  | .tsMinute => twoDigits
  | .tsSecond => inOrder [twoDigits, .optional (inOrder [lit ".", plus (.one .digit)])]
  | .tsZone => firstOf [lit "Z", inOrder [.rule .sign, twoDigits, lit ":", twoDigits]]
  | .durationLiteral =>
    inOrder [.optional (lit "-"), lit "P", firstOf [inOrder [.rule .digits, lit "W"],
      inOrder [.rule .durationDays, .optional (.rule .durationClock)], .rule .durationClock],
      wordEnd]
  | .durationDays => inOrder [.rule .digits, lit "D"]
  | .durationClock =>
    inOrder [lit "T", firstOf [inOrder [.rule .durationHours,
      .optional (.rule .durationMinutes), .optional (.rule .durationSeconds)],
      inOrder [.rule .durationMinutes, .optional (.rule .durationSeconds)],
      .rule .durationSeconds]]
  | .durationHours => inOrder [.rule .digits, lit "H"]
  | .durationMinutes => inOrder [.rule .digits, lit "M"]
  | .durationSeconds =>
    inOrder [.rule .digits, .optional (inOrder [lit ".", .rule .digits]), lit "S"]
  | .literal =>
    firstOf [.rule .nullLiteral, .rule .boolLiteral, .rule .timestampLiteral,
      .rule .durationLiteral, .rule .decimalLiteral, .rule .floatLiteral, .rule .intLiteral,
      .rule .stringLiteral]
  | .notKeyword => word "not"
  | .existsKeyword => word "exists"
  | .concatKeyword => word "concat"
  | .isKeyword => word "is"
  | .asKeyword => word "as"
  | .inKeyword => word "in"
  | .betweenKeyword => word "between"
  | .matchesKeyword => word "matches"
  | .startsKeyword => word "starts"
  | .endsKeyword => word "ends"
  | .withKeyword => word "with"
  | .containsKeyword => word "contains"
  | .hasKeyword => word "has"
  | .annotationKeyword => word "annotation"
  | .expression =>
    inOrder [.rule .operand, .star (inOrder [.rule .binaryOperator, .rule .operand])]
  | .binaryOperator =>
    firstOf [.rule .power, .rule .multiply, .rule .divide, .rule .modulus, .rule .add,
      .rule .subtract, .rule .greaterOrEqual, .rule .lessOrEqual, .rule .notEqual,
      .rule .equal, .rule .greaterThan, .rule .lessThan, .rule .andOperator,
      .rule .xorOperator, .rule .norOperator, .rule .orOperator]
  | .power => lit "^"
  | .multiply => lit "*"
  | .divide => lit "/"
  | .modulus => lit "%"
  | .add => lit "+"
  | .subtract => lit "-"
  | .greaterOrEqual => lit ">="
  | .lessOrEqual => lit "<="
  | .notEqual => lit "!="
  | .equal => lit "=="
  | .greaterThan => lit ">"
  | .lessThan => lit "<"
  | .andOperator => word "and"
  | .xorOperator => word "xor"
  | .norOperator => word "nor"
  | .orOperator => word "or"
  | .operand =>
    firstOf [.rule .negation, .rule .existence, .rule .concatenation, .rule .postfixOperand]
  | .negation => inOrder [.rule .notKeyword, .rule .operand]
  | .existence =>
    inOrder [.rule .existsKeyword, firstOf [.rule .selection, .rule .relativeSelection]]
  | .concatenation => inOrder [.rule .concatKeyword, .rule .argumentList]
  | .postfixOperand => inOrder [.rule .primary, .optional (.rule .postfixOperation)]
  | .postfixOperation =>
    firstOf [.rule .negatedTypeCheck, .rule .typeCheck, .rule .inOperation,
      .rule .notInOperation, .rule .betweenOperation, .rule .notBetweenOperation,
      .rule .matchesOperation, .rule .startsWithOperation, .rule .endsWithOperation,
      .rule .containsOperation, .rule .hasAnnotationOperation]
  | .typeCheck => inOrder [.rule .isKeyword, .rule .typeName]
  | .negatedTypeCheck => inOrder [.rule .isKeyword, .rule .notKeyword, .rule .typeName]
  | .inOperation => inOrder [.rule .inKeyword, .rule .argumentList]
  | .notInOperation => inOrder [.rule .notKeyword, .rule .inKeyword, .rule .argumentList]
  | .betweenOperation => inOrder [.rule .betweenKeyword, .rule .argumentList]
  | .notBetweenOperation =>
    inOrder [.rule .notKeyword, .rule .betweenKeyword, .rule .argumentList]
  | .matchesOperation => inOrder [.rule .matchesKeyword, .rule .primary]
  | .startsWithOperation => inOrder [.rule .startsKeyword, .rule .withKeyword, .rule .primary]
  | .endsWithOperation => inOrder [.rule .endsKeyword, .rule .withKeyword, .rule .primary]
  | .containsOperation => inOrder [.rule .containsKeyword, .rule .primary]
  | .hasAnnotationOperation =>
    inOrder [.rule .hasKeyword, .rule .annotationKeyword, .rule .primary]
  | .argumentList =>
    inOrder [lit "(", .rule .expression, .star (inOrder [lit ",", .rule .expression]),
      lit ")"]
  | .primary =>
    firstOf [inOrder [lit "(", .rule .expression, lit ")"], .rule .literal,
      .rule .selection, .rule .relativeSelection, .rule .keyReference]
  | .selection => inOrder [.rule .path, .optional (inOrder [.rule .asKeyword, .rule .typeName])]
  | .relativeSelection =>
    inOrder [.rule .relativePath, .optional (inOrder [.rule .asKeyword, .rule .typeName])]
  | .relativePath => inOrder [lit "@", .optional (.rule .path)]
  | .keyReference => lit "#"
  | .path => plus (inOrder [lit "/", .rule .pathSegment])
  | .pathSegment =>
    inOrder [firstOf [.rule .itemSelector, .rule .propertySelector],
      .optional (.rule .optionalMarker)]
  | .itemSelector =>
    inOrder [lit "[", firstOf [.rule .itemWildcard, .rule .itemIndex, .rule .itemPredicate],
      lit "]"]
  | .itemIndex => .rule .digits
  | .itemWildcard => lit "*"
  | .itemPredicate => inOrder [lit "\x7b", .rule .expression, lit "\x7d"]
  | .propertySelector =>
    firstOf [.rule .propertyWildcard, .rule .propertyPredicate, .rule .quotedSymbol,
      .rule .dollarIdentifier, .rule .identifier]
  | .propertyWildcard => lit "*"
  | .propertyPredicate => inOrder [lit ".\x7b", .rule .expression, lit "\x7d"]
  | .optionalMarker => lit "?"
  | .value => inOrder [.star (.rule .label), .rule .valueBody]
  | .label => inOrder [firstOf [.rule .quotedSymbol, .rule .identifier], lit "::"]
  | .valueBody =>
    firstOf [.rule .nullLiteral, .rule .boolLiteral, .rule .datedTimestamp,
      .rule .durationLiteral, .rule .decimalLiteral, .rule .floatLiteral, .rule .intLiteral,
      .rule .stringLiteral, .rule .clobLiteral, .rule .blobLiteral, .rule .listValue,
      .rule .sexpValue, .rule .structValue, .rule .quotedSymbol, .rule .identifier]
  | .clobLiteral =>
    inOrder [lit "\x7b\x7b", .star (.rule .blank), .rule .stringLiteral,
      .star (.rule .blank), lit "\x7d\x7d"]
  | .blobLiteral =>
    inOrder [lit "\x7b\x7b", .star (.rule .blank), .rule .blobContent, .star (.rule .blank),
      lit "\x7d\x7d"]
  | .blobContent => .star (firstOf [.one .alphanumeric, lit "+", lit "/", lit "="])
  | .listValue =>
    inOrder [lit "[", .optional (inOrder [.rule .value, .star (inOrder [lit ",",
      .rule .value]), .optional (lit ",")]), lit "]"]
  | .sexpValue => inOrder [lit "(", .star (.rule .value), lit ")"]
  | .structValue =>
    inOrder [lit "\x7b", .optional (inOrder [.rule .structField, .star (inOrder [lit ",",
      .rule .structField]), .optional (lit ",")]), lit "\x7d"]
  | .structField =>
    inOrder [firstOf [.rule .stringLiteral, .rule .quotedSymbol, .rule .identifier],
      lit ":", .rule .value]

/-- The mode of a rule. -/
def mode : Rule → Mode
  | .blank | .identStart | .identChar | .digits | .sign | .timestampLiteral | .datedTimestamp
  | .durationDays | .durationClock | .durationHours | .durationMinutes | .durationSeconds |
    .literal | .binaryOperator | .operand | .postfixOperation | .primary | .valueBody => .silent
  | .identifier | .dollarIdentifier | .typeName | .stringContent | .symbolContent |
    .boolLiteral | .decimalLiteral | .floatLiteral | .intLiteral | .nowLiteral | .tsYear |
    .tsMonth | .tsDay | .tsHour | .tsMinute | .tsSecond | .tsZone | .durationLiteral |
    .notKeyword | .existsKeyword | .concatKeyword | .isKeyword | .asKeyword | .inKeyword |
    .betweenKeyword | .matchesKeyword | .startsKeyword | .endsKeyword | .withKeyword |
    .containsKeyword | .hasKeyword | .annotationKeyword | .andOperator | .xorOperator |
    .norOperator | .orOperator | .itemIndex | .blobContent => .token
  | .stringLiteral | .quotedSymbol | .nullLiteral | .yearTimestamp | .monthTimestamp |
    .dayTimestamp | .tsTime | .relativePath | .path | .pathSegment | .itemSelector |
    .propertySelector | .label | .clobLiteral | .blobLiteral => .compound
  | .itemPredicate | .propertyPredicate => .spaced
  | _ => .normal

end Rule

/-- The grammar; blanks are spaces, tabs and ends of lines. -/
def grammar : Grammar Rule :=
  ⟨Rule.mode, Rule.body, .oneOf [' ', '\t', '\r', '\n']⟩

end DocQuery.Language
