/-!
# Rounding quotients

The nearest whole number to an exact quotient. Binary and decimal arithmetic and the choice
of printed digits all round through `roundDiv`, each with its own rule for a tie.
-/

namespace DocQuery.Number

/-- What becomes of a quotient halfway between two whole numbers. -/
inductive Tie
  /-- It goes to the even one. -/
  | even
  /-- It goes to the larger one. -/
  | up
  deriving DecidableEq, Repr

/-- Whether a quotient with remainder `r` of divisor `d` over the whole number `q` goes up. -/
def Tie.goesUp (tie : Tie) (q r d : Nat) : Bool :=
  if 2 * r < d then false
  else if d < 2 * r then true
  else match tie with
    | .even => q % 2 == 1
    | .up => true

/-- The whole number nearest to `n / d`. -/
def roundDiv (tie : Tie) (n d : Nat) : Nat :=
  if tie.goesUp (n / d) (n % d) d then n / d + 1 else n / d

end DocQuery.Number
