import TokenReplay.Size

/-!
# Positions

Lines count from one and columns from zero, in bytes. A line may be unknown; a column is always
there, and is zero where nothing better is known.
-/

namespace TokenReplay

/-- The line and column at which a token begins. -/
structure Position where
  line : Option Nat := none
  column : Nat := 0
deriving DecidableEq, Repr, Inhabited

/-- How a position is written: line and column with a colon between them. -/
def Position.render (position : Position) : String :=
  sizeText position.line ++ ":" ++ position.column.repr

end TokenReplay
