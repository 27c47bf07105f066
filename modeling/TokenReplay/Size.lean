/-!
# Bounded sizes

Offsets, lengths, lines and columns are natural numbers. They are kept in machine words, so there is
a largest one, and an addition that would pass it fails instead of wrapping round. Only three
additions in this library can get that far: the offset just past a span, once for its length and
once for its text, and the line below a last token. Everything else either subtracts or is clamped.

`addSize` is the one place where the bound is checked; `addSize_eq_ok_iff` and
`addSize_eq_error_iff` are all that later proofs need to know about it.
-/

namespace TokenReplay

/-- The largest size: that of a word of 64 bits. -/
def maxSize : Nat := 0xffff_ffff_ffff_ffff

/-- The only way in which a computation of this library can fail. -/
inductive Overflow where
  /-- A sum of sizes passes `maxSize`. -/
  | addition
deriving DecidableEq, Repr

def Overflow.message : Overflow → String
  | .addition => "attempt to add with overflow"

/-- The sum of two sizes, if it is a size again. -/
def addSize (a b : Nat) : Except Overflow Nat :=
  if a + b ≤ maxSize then .ok (a + b) else .error .addition

theorem addSize_eq_ok_iff {a b c : Nat} :
    addSize a b = .ok c ↔ a + b = c ∧ c ≤ maxSize := by
  unfold addSize
  split
  · simp only [Except.ok.injEq]
    omega
  · simp only [reduceCtorEq, false_iff]
    omega

theorem addSize_eq_error_iff {a b : Nat} {e : Overflow} :
    addSize a b = .error e ↔ maxSize < a + b := by
  cases e
  unfold addSize
  split
  · simp only [reduceCtorEq, false_iff]
    omega
  · simp only [true_iff]
    omega

/-- How a size that need not be known is written: unknown ones as `-1`. -/
def sizeText : Option Nat → String
  | some n => n.repr
  | none => "-1"

/-! ## Signed distances

Widths and end columns are worked out as signed numbers of the same word length. Those operations
clamp: a result outside of the range is moved to its nearer end. -/

/-- The largest signed number of that length. -/
def maxSigned : Int := 0x7fff_ffff_ffff_ffff

/-- The signed number nearest to `i`. -/
def clampSigned (i : Int) : Int := max (-maxSigned - 1) (min i maxSigned)

theorem clampSigned_of_mem {i : Int} (hlow : -maxSigned - 1 ≤ i) (hhigh : i ≤ maxSigned) :
    clampSigned i = i := by
  unfold clampSigned
  omega

end TokenReplay
