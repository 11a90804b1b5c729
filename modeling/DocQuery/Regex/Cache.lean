import DocQuery.Regex.Reader

/-!
# A bounded store of patterns

The store keeps patterns with what they read as. A clock marks every pattern with the time at which
it was asked for last; where there is no room for a pattern, the one that was not asked for the
longest goes.
-/

namespace DocQuery.Regex

/-- A pattern that is kept. -/
structure Entry where
  pattern : String
  regex : Regex
  /-- When the pattern was asked for last. -/
  lastUsed : Nat

/-- Marks an entry with a time, if it is the one of a pattern. -/
def Entry.mark (pattern : String) (time : Nat) (entry : Entry) : Entry :=
  if entry.pattern == pattern then { entry with lastUsed := time } else entry

/-- The patterns that are kept. -/
structure Cache where
  /-- How many patterns are kept at most. -/
  capacity : Nat
  entries : List Entry
  clock : Nat

namespace Cache

/-- A store without patterns. -/
def new (capacity : Nat) : Cache := ⟨capacity, [], 0⟩

/-- How many patterns there are unless another number is asked for. -/
def defaultCapacity : Nat := 64

/-- The number of patterns that are kept. -/
def size (cache : Cache) : Nat := cache.entries.length

/-- What is kept for a pattern. -/
def find? (cache : Cache) (pattern : String) : Option Regex :=
  (cache.entries.find? (·.pattern == pattern)).map (·.regex)

/-- The clock goes on. -/
def tick (cache : Cache) : Cache :=
  { cache with clock := cache.clock + 1 }

/-- Marks a pattern with the time. -/
def touch (cache : Cache) (pattern : String) : Cache :=
  { cache with entries := cache.entries.map (Entry.mark pattern cache.clock) }

/-- The entry with the earliest mark. -/
def oldest? : List Entry → Option Entry
  | [] => none
  | entry :: entries =>
    match oldest? entries with
    | none => some entry
    | some other => if other.lastUsed < entry.lastUsed then some other else some entry

/-- Makes room for one more pattern. -/
def makeRoom (cache : Cache) : Cache :=
  if cache.size < cache.capacity then cache
  else
    match oldest? cache.entries with
    | none => cache
    | some oldest => { cache with entries := cache.entries.filter (·.pattern != oldest.pattern) }

/-- Keeps a pattern, marked with the time. -/
def insert (cache : Cache) (pattern : String) (r : Regex) : Cache :=
  { cache with entries := ⟨pattern, r, cache.clock⟩ :: cache.entries }

/-- Asks for a pattern. A text that is no regular expression is not kept, and nothing is where there
is no room at all; the clock goes on in any case. -/
def request (cache : Cache) (pattern : String) : Option Regex × Cache :=
  let asked := cache.tick
  match asked.find? pattern with
  | some r => (some r, asked.touch pattern)
  | none =>
    match Regex.read pattern with
    | none => (none, asked)
    | some r =>
      if cache.capacity = 0 then (some r, asked)
      else (some r, asked.makeRoom.tick.insert pattern r)

/-- The capacity and the size, in words. -/
def summary (cache : Cache) : String :=
  s!"RegexCache \x7b capacity: {cache.capacity}, len: {cache.size} \x7d"

end Cache

end DocQuery.Regex
