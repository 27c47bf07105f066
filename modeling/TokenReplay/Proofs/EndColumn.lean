import TokenReplay.Proofs.Overflow
import TokenReplay.Proofs.Stretch

/-!
# The column behind a last token

Behind a token with a line feed in its text, the column is worked out in four steps on signed
numbers of one word, each of which clamps: the two ends are made signed, their distance is taken,
one is added, and at last the column of the token. What comes out below zero counts as zero.

For all that, the result is the sum of the column and the width of the span, computed without any
bound and moved into the range once. The reason is that a step which clamps at one end of the range
is never followed by one that leads back. The distance of two sizes is in the range as it is. The
width can only leave it by one, at the upper end, and the column that is added to it is no less than
zero. And where a width would be far below zero, so is the sum with any column.

The ends and the column themselves may still be beyond the range, and then the range is all that is
seen of them. Up to there, the column is the one that was asked for (`Token.EndsAtColumn`).
-/

namespace TokenReplay

/-! ## Moving numbers into the range once -/

/-- The number from zero to the largest signed number that is nearest to `i`. -/
def nearestSize (i : Int) : Int := min maxSigned (max 0 i)

theorem nearestSize_of_mem {i : Int} (hlow : 0 ≤ i) (hhigh : i ≤ maxSigned) :
    nearestSize i = i := by
  rw [nearestSize, Int.max_eq_right hlow, Int.min_eq_right hhigh]

theorem nearestSize_of_neg {i : Int} (h : i < 0) : nearestSize i = 0 := by
  unfold nearestSize maxSigned
  omega

theorem nearestSize_of_gt {i : Int} (h : maxSigned < i) : nearestSize i = maxSigned := by
  unfold nearestSize maxSigned at *
  omega

/-- Clamped at both ends of the signed numbers and then cut off at zero, a number has been moved
into the range. -/
theorem toNat_clampSigned (i : Int) : ((clampSigned i).toNat : Int) = nearestSize i := by
  unfold clampSigned nearestSize maxSigned
  omega

/-- **One clamp.** To a size in the range, a clamped number can as well be added as it is. -/
theorem nearestSize_add_clampSigned {size : Int} (hlow : 0 ≤ size) (hhigh : size ≤ maxSigned)
    (i : Int) : nearestSize (size + clampSigned i) = nearestSize (size + i) := by
  unfold clampSigned nearestSize maxSigned at *
  omega

theorem signedSize_nonneg (n : Nat) : 0 ≤ signedSize n := by
  unfold signedSize maxSigned
  omega

theorem signedSize_of_le {n : Nat} (h : (n : Int) ≤ maxSigned) : signedSize n = n := by
  rw [signedSize, Int.min_eq_left h]

theorem signedSize_le_maxSigned (n : Nat) : signedSize n ≤ maxSigned := Int.min_le_right _ _

/-! ## Widths -/

namespace ByteSpan

/-- The width of a span if the ends are in the range, or at its upper end. An unknown span is one
byte wide. -/
def width : ByteSpan → Int
  | unknown => 1
  | inclusive start stop => signedSize stop - signedSize start + 1

/-- The width is clamped only once, as the distance of two sizes stays in the range. -/
theorem signedWidth_eq (span : ByteSpan) : span.signedWidth = clampSigned span.width := by
  rcases span with _ | ⟨start, stop⟩
  · decide
  · have hdistance : clampSigned (signedSize stop - signedSize start) =
        signedSize stop - signedSize start := by
      have hstart := signedSize_nonneg start
      have hstart' := signedSize_le_maxSigned start
      have hstop := signedSize_nonneg stop
      have hstop' := signedSize_le_maxSigned stop
      exact clampSigned_of_mem (by omega) (by omega)
    rw [signedWidth, stop?_inclusive, start?_inclusive, signedEnd, signedEnd, hdistance, width]

end ByteSpan

namespace Token

variable {token : Token} {text : String}

theorem endColumn_of_notMem (h : '\n' ∉ text.toList) : token.endColumn text = text.utf8ByteSize :=
  if_neg h

theorem endColumn_of_mem (h : '\n' ∈ text.toList) :
    (token.endColumn text : Int) =
      nearestSize (signedSize token.position.column + token.span.width) := by
  rw [endColumn, if_pos h, toNat_clampSigned, ByteSpan.signedWidth_eq,
    nearestSize_add_clampSigned (signedSize_nonneg _) (signedSize_le_maxSigned _)]

/-- The column behind the token if `text` is what there is of its text. -/
structure EndsAtColumn (token : Token) (text : Option String) (column : Nat) : Prop where
  eq_size : '\n' ∉ (text.getD "").toList → column = (text.map String.utf8ByteSize).getD 0
  eq_of_unknown : '\n' ∈ (text.getD "").toList → token.span = .unknown →
    (column : Int) = min maxSigned (min (token.position.column : Int) maxSigned + 1)
  eq_of_inclusive : '\n' ∈ (text.getD "").toList →
    ∀ start stop : Nat, token.span = .inclusive start stop →
      (column : Int) = min maxSigned (max 0 (min (token.position.column : Int) maxSigned +
        min (stop : Int) maxSigned - min (start : Int) maxSigned + 1))
  /-- Where column and ends are in the range, only the sum of all three may be out of it. -/
  eq_of_le : '\n' ∈ (text.getD "").toList →
    ∀ start stop : Nat, token.span = .inclusive start stop →
      (token.position.column : Int) ≤ maxSigned → (start : Int) ≤ maxSigned →
      (stop : Int) ≤ maxSigned → ∀ sum : Int, sum = token.position.column + (stop - start + 1) →
        (0 ≤ sum → sum ≤ maxSigned → (column : Int) = sum) ∧ (sum < 0 → column = 0) ∧
          (maxSigned < sum → (column : Int) = maxSigned)

theorem endsAtColumn_endColumn (token : Token) (text : Option String) :
    token.EndsAtColumn text (token.endColumn (text.getD "")) where
  eq_size := by
    intro hfeed
    rw [endColumn_of_notMem hfeed]
    rcases text with _ | text
    · rfl
    · rfl
  eq_of_unknown := by
    intro hfeed hspan
    have hcolumn := signedSize_nonneg token.position.column
    rw [endColumn_of_mem hfeed, hspan, nearestSize, ByteSpan.width, Int.max_eq_right (by omega),
      signedSize]
  eq_of_inclusive := by
    intro hfeed start stop hspan
    rw [endColumn_of_mem hfeed, hspan, nearestSize, ByteSpan.width, ← Int.add_assoc,
      ← Int.add_sub_assoc, signedSize, signedSize, signedSize]
  eq_of_le := by
    rintro hfeed start stop hspan hcolumn hstart hstop sum rfl
    have hend : (token.endColumn (text.getD "") : Int) =
        nearestSize (token.position.column + (stop - start + 1)) := by
      rw [endColumn_of_mem hfeed, hspan, ByteSpan.width, signedSize_of_le hcolumn,
        signedSize_of_le hstart, signedSize_of_le hstop]
    rw [← Int.natCast_eq_zero, hend]
    exact ⟨nearestSize_of_mem, nearestSize_of_neg, nearestSize_of_gt⟩

end Token

namespace Source

/-- **The end column.** Behind the list, and as long as there is no end of stream token, a source is
in the column behind the last token, if the text of that token can be looked for. -/
theorem endsAtColumn_of_cursor {source : Source} {last : Shared Token} {text : Option String}
    (hcursor : source.cursor = source.size) (hnone : source.eof? = none)
    (hlast : source.tokens.getLast? = some last) (htext : last.value.text = .ok text) :
    ∃ column, source.column = .ok column ∧ last.value.EndsAtColumn text column := by
  have hrest : source.rest = .spent := rest_eq_spent_iff.mpr ⟨hcursor, hnone⟩
  have hhead : source.passed.head? = some last := by
    rw [← getLast?_tokens_of_spent hrest, hlast]
  refine ⟨last.value.endColumn (text.getD ""), ?_, last.value.endsAtColumn_endColumn text⟩
  rw [column_of_spent hrest, hhead, Option.map_some, Option.getD_some, Token.columnAfter, htext]

/-- Behind a token whose span is as wide as can be. -/
def wideSource : Source where
  id := ⟨⟨0⟩, "unit"⟩
  passed := [⟨2, { type := ⟨1⟩, ownText := some "a\nb", span := .inclusive 0 maxSize,
                   position := ⟨some 1, 4⟩ }⟩]
  rest := .spent
  factory := ⟨1, .common false⟩

theorem endsAtColumn_of_cursor_wide : ∃ column, wideSource.cursor = wideSource.size ∧
    wideSource.column = .ok column ∧ (column : Int) = maxSigned := by
  obtain ⟨last, hlast, htext, hspan⟩ : ∃ last, wideSource.tokens.getLast? = some last ∧
      last.value.text = .ok (some "a\nb") ∧ last.value.span = .inclusive 0 maxSize :=
    ⟨_, rfl, rfl, rfl⟩
  obtain ⟨column, hcolumn, hends⟩ := endsAtColumn_of_cursor rfl rfl hlast htext
  refine ⟨column, rfl, hcolumn, ?_⟩
  rw [hends.eq_of_inclusive (by decide) 0 maxSize hspan]
  cases hlast
  decide

end Source

end TokenReplay
