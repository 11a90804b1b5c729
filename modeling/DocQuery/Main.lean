import DocQuery.Command.Run
import Std.Time.DateTime.Timestamp

/-!
# The command line

Arguments are read into a command and its settings; the document comes from an option or from
the standard input, unless that is a terminal.
-/

namespace DocQuery.CommandLine

open Time

/-- What the arguments say. -/
structure Arguments where
  /-- The words that belong to no option, the last first. -/
  words : List String
  input : Option String
  format : DocumentFormat
  cacheCapacity : Nat
  /-- The options without a value that only some commands have. -/
  flags : List String

/-- No arguments. -/
def Arguments.empty : Arguments :=
  ⟨[], none, .plain, Regex.Cache.defaultCapacity, []⟩

/-- The options without a value, by all of their names. -/
def flagOf? : String → Option String
  | "-a" | "--all" => some "all"
  | "--validate" => some "validate"
  | "-q" | "--query" => some "query"
  | _ => none

/-- Reads arguments from left to right; what cannot be read is the error. -/
def readArguments (found : Arguments) : List String → Except String Arguments
  | [] => .ok found
  | "--json" :: rest => readArguments { found with format.json := true } rest
  | "--pretty" :: rest => readArguments { found with format.pretty := true } rest
  | "-p" :: rest => readArguments { found with format.pretty := true } rest
  | "--input" :: text :: rest => readArguments { found with input := some text } rest
  | "-i" :: text :: rest => readArguments { found with input := some text } rest
  | "--regex-cache-size" :: size :: rest =>
    match size.toNat? with
    | some n => readArguments { found with cacheCapacity := n } rest
    | none => .error size
  | "--" :: rest => .ok { found with words := rest.reverse ++ found.words }
  | word :: rest =>
    match flagOf? word with
    | some flag => readArguments { found with flags := flag :: found.flags } rest
    | none =>
      if word.startsWith "--" then .error word
      else readArguments { found with words := word :: found.words } rest

/-- The command that arguments name. -/
def commandOf? (found : Arguments) : Option Command :=
  match found.words.reverse with
  | ["eval", expression] => some (.eval expression)
  | ["select", path] => some (.select path (found.flags.contains "all"))
  | ["prune", paths] => some (.prune paths (found.flags.contains "validate"))
  | ["check", text] => some (.check text (found.flags.contains "query"))
  | ["docs"] => some (.docs none)
  | ["docs", topic] => some (.docs (some topic))
  | _ => none

/-- What is printed for the output of a command. -/
def shown (command : Command) (output : String) : String :=
  match command with
  | .prune _ true => "Document is valid\n"
  | .docs _ => output
  | _ => output ++ "\n"

/-- Whether a command reads a document. -/
def readsDocument : Command → Bool
  | .check _ _ | .docs _ => false
  | _ => true

/-- The time at which the program runs. -/
def currentTime : IO Timestamp := do
  let now ← Std.Time.Timestamp.now
  return (Timestamp.ofInstant? now.toNanosecondsSinceUnixEpoch.val 0).getD .epoch

/-- The text of the standard input, unless it is a terminal. -/
def standardInput : IO (Option String) := do
  let stream ← IO.getStdin
  if ← stream.isTty then return none
  return some (← stream.readToEnd)

/-- Runs a command, and gives the exit code. -/
def execute (found : Arguments) (command : Command) : IO UInt32 := do
  let input ← match found.input with
    | some text => pure (some text)
    | none => if readsDocument command then standardInput else pure none
  let settings : Settings := ⟨input, found.format, found.cacheCapacity, ← currentTime⟩
  match command.run settings with
  | .ok output =>
    IO.print (shown command output)
    return 0
  | .error e =>
    IO.eprintln e.message
    return 1

end DocQuery.CommandLine

/-- Runs the command that the arguments name. -/
def main (arguments : List String) : IO UInt32 :=
  match DocQuery.CommandLine.readArguments .empty arguments with
  | .error word => do
    IO.eprintln ("unexpected argument '" ++ word ++ "'")
    return 2
  | .ok found =>
    match DocQuery.CommandLine.commandOf? found with
    | some command => DocQuery.CommandLine.execute found command
    | none => do
      IO.eprintln "usage: trellis <eval|select|prune|check|docs> [argument] [options]"
      return 2
