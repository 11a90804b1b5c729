import DocQuery.Grammar.Node

/-!
# What a reader expected

While a text is matched against a grammar, `Attempts` remembers the farthest place at which a
rule failed and which rules failed there. A rule stands for the rules tried inside it, unless
exactly one of them failed where it began.
-/

namespace DocQuery.Grammar

/-- The rules that failed at the farthest place so far, in the order of failing. -/
structure Attempts (ρ : Type) where
  place : Place
  rules : List ρ
  deriving Repr

namespace Attempts

variable {ρ : Type}

/-- Nothing has failed yet. -/
def none : Attempts ρ := ⟨.first, []⟩

/-- How many rules are on record as failed at a place. -/
def countAt (a : Attempts ρ) (place : Place) : Nat :=
  if a.place.offset = place.offset then a.rules.length else 0

/-- Records that a rule failed which began at `place` when `before` rules were on record
there. -/
def fail (a : Attempts ρ) (rule : ρ) (place : Place) (before : Nat) : Attempts ρ :=
  if a.countAt place = before + 1 then a
  else if place.offset = a.place.offset then ⟨a.place, a.rules.take before ++ [rule]⟩
  else if a.place.offset < place.offset then ⟨place, [rule]⟩
  else a

end Attempts

end DocQuery.Grammar
