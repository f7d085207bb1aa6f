/-!
# Multiplication chains

A small whole power is computed by a fixed sequence of products. Constant
folding, lowering and execution all follow the same sequence, so they round in
the same places.
-/

namespace LaneGraph.Power

/-- One product of a chain: the positions of its two factors. Position zero is
the base and position `i + 1` is the result of product `i`. -/
abbrev Product := Nat × Nat

/-- The chain of each exponent from two to sixteen. -/
def chains : List (List Product) :=
  [[(0, 0)],
   [(0, 0), (1, 0)],
   [(0, 0), (1, 1)],
   [(0, 0), (1, 1), (2, 0)],
   [(0, 0), (1, 0), (2, 2)],
   [(0, 0), (1, 0), (2, 2), (3, 0)],
   [(0, 0), (1, 1), (2, 2)],
   [(0, 0), (1, 1), (2, 2), (3, 0)],
   [(0, 0), (1, 1), (2, 0), (3, 3)],
   [(0, 0), (1, 1), (2, 0), (3, 3), (4, 0)],
   [(0, 0), (1, 0), (2, 2), (3, 3)],
   [(0, 0), (1, 0), (2, 2), (3, 3), (4, 0)],
   [(0, 0), (1, 0), (2, 2), (3, 0), (4, 4)],
   [(0, 0), (1, 0), (2, 2), (3, 3), (4, 2)],
   [(0, 0), (1, 1), (2, 2), (3, 3)]]

/-- The chain of a whole exponent; there is none outside two to sixteen. -/
def chain? (exponent : Int32) : Option (List Product) :=
  if 2 ≤ exponent then chains[exponent.toInt.toNat - 2]? else none

/-- Append the products of a chain to the values known so far. -/
def extend {α : Type} (mul : α → α → α) (base : α) : List α → List Product → List α
  | values, [] => values
  | values, (a, b) :: rest =>
    extend mul base (values ++ [mul (values.getD a base) (values.getD b base)]) rest

/-- Evaluate a chain: the last value is the power. -/
def eval {α : Type} (mul : α → α → α) (base : α) (chain : List Product) : α :=
  (extend mul base [base] chain).getLastD base

end LaneGraph.Power
