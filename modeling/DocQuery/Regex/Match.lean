import DocQuery.Regex.Basic

/-!
# Matching

A text of `n` characters has `n + 1` spots between them. A pattern moves a set of spots, given
as one mark for each spot, to the set of spots where its matches end. A text matches if
starting anywhere leads somewhere.
-/

namespace DocQuery.Regex

/-- A spot in a text: the characters on both sides. -/
structure Spot where
  before : Option Char
  after : Option Char
  deriving DecidableEq, Repr

/-- The spots of a text that follows a character. -/
def Spot.ofText (before : Option Char) : List Char → List Spot
  | [] => [⟨before, none⟩]
  | c :: cs => ⟨before, some c⟩ :: ofText (some c) cs

theorem Spot.length_ofText (before : Option Char) (cs : List Char) :
    (Spot.ofText before cs).length = cs.length + 1 := by
  induction cs generalizing before with
  | nil => rfl
  | cons c cs ih => simp [Spot.ofText, ih]

/-- Whether there is a character of a set on one side. -/
def CharSet.holdsAt (s : CharSet) (side : Option Char) : Bool :=
  side.any s.contains

/-- Whether an anchor holds at a spot. -/
def Anchor.holds : Anchor → Spot → Bool
  | textStart, p => p.before.isNone
  | textEnd, p => p.after.isNone
  | lineStart false, p => p.before.all (· == '\n')
  | lineStart true, p =>
    p.before.all fun c => c == '\n' || (c == '\r' && p.after != some '\n')
  | lineEnd false, p => p.after.all (· == '\n')
  | lineEnd true, p =>
    p.after.all fun c => c == '\r' || (c == '\n' && p.before != some '\r')
  | boundary w, p => w.holdsAt p.before != w.holdsAt p.after
  | noBoundary w, p => w.holdsAt p.before == w.holdsAt p.after
  | wordStart w, p => !w.holdsAt p.before && w.holdsAt p.after
  | wordEnd w, p => w.holdsAt p.before && !w.holdsAt p.after
  | noWordBefore w, p => !w.holdsAt p.before
  | noWordAfter w, p => !w.holdsAt p.after

/-- A set of spots: for each spot of a text whether it belongs to the set. -/
abbrev Marks := List Bool

/-- The spots in one of two sets. -/
def Marks.union (m k : Marks) : Marks :=
  List.zipWith (· || ·) m k

/-- Takes a step at most `n` times, and stops when it changes nothing any more. -/
def Marks.iterate (step : Marks → Marks) : Nat → Marks → Marks
  | 0, m => m
  | n + 1, m =>
    let next := step m
    if next = m then m else iterate step n next

/-- The spots where matches end that begin at marked spots. -/
def advance (spots : List Spot) : Regex → Marks → Marks
  | empty, m => m
  | one s, m =>
    false :: (List.zipWith (fun p mark => mark && s.holdsAt p.after) spots m).dropLast
  | anchor a, m => List.zipWith (fun p mark => mark && a.holds p) spots m
  | sequence r t, m => advance spots t (advance spots r m)
  | either r t, m => (advance spots r m).union (advance spots t m)
  | repeated r least most, m =>
    let more := match most with
      | some most => most - least
      | none => spots.length
    Marks.iterate (fun m => m.union (advance spots r m)) more
      (Marks.iterate (advance spots r) least m)

/-- Whether some part of a text matches. -/
def isMatch (r : Regex) (text : String) : Bool :=
  let spots := Spot.ofText none text.toList
  (advance spots r (spots.map fun _ => true)).any id

end DocQuery.Regex
