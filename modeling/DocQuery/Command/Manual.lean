/-!
# The manual

What the command line says about itself: an overview and a page for each topic.
-/

namespace DocQuery

/-- The topics of the manual. -/
inductive Topic
  | values
  | expressions
  | operators
  | paths
  | queries
  | pruning
  deriving DecidableEq, Repr

namespace Topic

/-- The names of a topic. -/
def names : Topic → List String
  | values => ["values", "value", "types"]
  | expressions => ["expressions", "expression", "expr"]
  | operators => ["operators", "ops"]
  | paths => ["paths", "path"]
  | queries => ["queries", "query", "predicates"]
  | pruning => ["pruning", "prune", "trees"]

/-- All topics. -/
def all : List Topic :=
  [values, expressions, operators, paths, queries, pruning]

/-- The topic with a name, in letters of either case. -/
def ofName? (name : String) : Option Topic :=
  let wanted := String.ofList (name.toList.map Char.toLower)
  all.find? (·.names.contains wanted)

end Topic

namespace Manual

/-- The overview. -/
def overview : List String :=
  ["TRELLIS DOCUMENTATION",
   "",
   "Trellis evaluates typed expressions against annotated documents, selects",
   "values by path, and prunes documents down to the parts a set of paths names.",
   "",
   "DOCUMENTATION TOPICS",
   "",
   "  values        Document kinds, typed nulls, annotations and the text form",
   "  expressions   Literals, selections, existence and type checks",
   "  operators     Arithmetic, comparison, logical and string operators",
   "  paths         Path syntax: names, indices, wildcards, optional steps",
   "  queries       Multi-valued paths with predicates",
   "  pruning       Data trees, required paths and provenance annotations",
   "",
   "COMMANDS",
   "",
   "  trellis eval '<expr>'        Evaluate an expression",
   "  trellis select '<path>'      Select one value (--all for queries)",
   "  trellis prune '<paths>'      Prune a document (--validate to only check)",
   "  trellis check '<expr>'       Parse and kind-check without evaluating",
   "",
   "Input is read from --input or stdin, in the native text form or as JSON",
   "with --json."]

/-- Kinds of values and their text. -/
def valuesPage : List String :=
  ["VALUES - Document kinds and text form",
   "",
   "KINDS",
   "  null bool int float decimal timestamp duration string",
   "  symbol (identifier) quoted_symbol blob clob list sexp struct",
   "",
   "  Every kind has a typed null:  null.int  null.struct  null.string",
   "",
   "TEXT FORM",
   "  42  -7  2.5  1.5e3  12.50d0  true  null",
   "  2024-03-01T10:00:00Z  2024-03-01  2024-03T  2024T",
   "  P1DT2H  PT30S  P2W  -PT1M",
   "  \"text\"  name  'quoted symbol'",
   "  \x7b\x7baGVsbG8=\x7d\x7d   blob (base64)",
   "  \x7b\x7b\"text\"\x7d\x7d     clob",
   "  [1, 2]  (a b c)  \x7bname: \"x\", 'odd key': 1\x7d",
   "",
   "ANNOTATIONS",
   "  tag::value  a::b::[1, 2]",
   "",
   "  Annotations are ordered and travel with the value through pruning."]

/-- Operands and checks. -/
def expressionsPage : List String :=
  ["EXPRESSIONS - Operands and checks",
   "",
   "LITERALS",
   "  Any scalar from the text form, plus `now` for the current time.",
   "",
   "SELECTIONS",
   "  /order/total             Value at a path in the document",
   "  /order/total as decimal  Same, checked against a kind",
   "  /order/note?             Optional step: a missing value selects null",
   "",
   "  A missing required step is an error.",
   "",
   "EXISTENCE AND TYPE CHECKS",
   "  exists /customer/email",
   "  /customer/email is string",
   "  /customer/email is not null",
   "  /amount is number          (int, float or decimal)",
   "",
   "  These never fail on a missing value; they return false.",
   "",
   "OTHER",
   "  not /flag",
   "  concat(/first, \" \", /last)",
   "  /status has annotation \"draft\""]

/-- Operators by tier. -/
def operatorsPage : List String :=
  ["OPERATORS - Tightest binding first",
   "",
   "  ^              power (right to left)",
   "  * / %          multiply, divide, remainder",
   "  + -            add, subtract (numbers, timestamps and durations)",
   "  > < >= <=      ordering",
   "  == !=          equality",
   "  and",
   "  xor",
   "  nor",
   "  or",
   "",
   "NUMBERS",
   "  Ints have no size limit. int with int stays int; int with float is",
   "  float; decimal with int or float is decimal, or float when a value is",
   "  beyond the decimal range. Integer division truncates. Division by zero",
   "  is an error.",
   "",
   "NULLS",
   "  Arithmetic with null yields null of the result kind; comparisons and",
   "  logical operators with null yield null.bool.",
   "",
   "LISTS AND RANGES",
   "  /status in (\"open\", \"held\")",
   "  /status not in (\"closed\")",
   "  /amount between (10, 20)",
   "  /amount not between (10, 20)",
   "",
   "STRINGS",
   "  /name matches \"^[A-Z]\"",
   "  /name starts with \"Dr\"",
   "  /name ends with \"son\"",
   "  /name contains \"an\""]

/-- The steps of paths. -/
def pathsPage : List String :=
  ["PATHS - Addressing values",
   "",
   "  /a/b         field b of field a",
   "  /items/[0]   first item of a list or sexp",
   "  /a/*         every field of a",
   "  /items/[*]   every item",
   "  /'odd key'   quoted field name",
   "  /a/b?        optional step",
   "",
   "  A wildcard in a single-valued selection picks the first child."]

/-- Paths with predicates. -/
def queriesPage : List String :=
  ["QUERIES - Paths with predicates",
   "",
   "  /family/.\x7b# ends with \"ther\"\x7d   fields whose name ends in \"ther\"",
   "  /items/[\x7b@/price > 10\x7d]         items whose price is over 10",
   "  /items/[\x7b# < 2\x7d]                the first two items",
   "",
   "  Inside a predicate, # is the candidate's key and @ the candidate itself.",
   "  A predicate that yields null skips the candidate. Steps into values of",
   "  the wrong shape find nothing rather than failing.",
   "",
   "  trellis select --all '/items/[\x7b@/price > 10\x7d]'"]

/-- Keeping what paths name. -/
def pruningPage : List String :=
  ["PRUNING - Keeping only what paths name",
   "",
   "  trellis prune '/order/id, /order/lines/[0], /customer/name?'",
   "",
   "  Paths are merged into a tree. Pruning copies the document keeping only",
   "  the named parts, in document order. A required part that is missing is",
   "  an error; an optional one is skipped.",
   "",
   "  A wildcard keeps every child of its container, and absorbs any named",
   "  siblings of the same family.",
   "",
   "PROVENANCE",
   "  Pruned lists and sexps are annotated with the indices they came from:",
   "",
   "    \x7bitems: [a, b, c]\x7d  pruned by /items/[0], /items/[2]",
   "    \x7bitems: '$indices:0,2'::[a, c]\x7d",
   "",
   "VALIDATION",
   "  trellis prune --validate '<paths>' checks a document without printing it."]

/-- The page of a topic. -/
def page : Topic → List String
  | .values => valuesPage
  | .expressions => expressionsPage
  | .operators => operatorsPage
  | .paths => pathsPage
  | .queries => queriesPage
  | .pruning => pruningPage

/-- The text of a page, every line with its end. -/
def text (page : List String) : String :=
  String.join (page.map (· ++ "\n"))

end Manual

end DocQuery
