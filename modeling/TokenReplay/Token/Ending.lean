import TokenReplay.Token

/-!
# Where a token ends

Behind the last token of a list there is still a place: that is where the end of the stream goes. It
is worked out from that token alone, so it rests on what the token says about itself and not on the
stream.

The line is the line of the token moved down by the line feeds in its text. The column is another
matter. Without a line feed it is the length of the text, as if the token began its line. With one
it is the column of the token moved by the width of its span, which takes no account of where in the
text the last line feed is. That is the column parser runtimes report, and it is the true one only
for some tokens.
-/

namespace TokenReplay

/-- The number of line feeds. -/
def lineFeeds (s : String) : Nat := s.toList.count '\n'

/-- A size as a signed number. -/
def signedSize (n : Nat) : Int := min n maxSigned

/-- An end of a span as a signed number, with `-1` for one that is not known. -/
def signedEnd : Option Nat → Int
  | some offset => signedSize offset
  | none => -1

/-- The width of a span as a signed number, clamped at each step. Widths of spans that run backwards
are negative, and an unknown span is one byte wide. -/
def ByteSpan.signedWidth (span : ByteSpan) : Int :=
  clampSigned (clampSigned (signedEnd span.stop? - signedEnd span.start?) + 1)

namespace Token

/-- The empty span behind the token. -/
def spanAfter (token : Token) : ByteSpan :=
  match token.span.stop? with
  | some stop => .emptyAfter stop
  | none => .unknown

/-- The line behind the token. The text is read even if the line is unknown. -/
def lineAfter (token : Token) : Except Overflow (Option Nat) :=
  match token.text with
  | .error e => .error e
  | .ok text =>
    match token.position.line with
    | none => .ok none
    | some line =>
      match addSize line (lineFeeds (text.getD "")) with
      | .error e => .error e
      | .ok below => .ok (some below)

/-- The column behind the token if `text` is its text. -/
def endColumn (token : Token) (text : String) : Nat :=
  if '\n' ∈ text.toList then
    (clampSigned (signedSize token.position.column + token.span.signedWidth)).toNat
  else text.utf8ByteSize

/-- The column behind the token. -/
def columnAfter (token : Token) : Except Overflow Nat :=
  match token.text with
  | .error e => .error e
  | .ok text => .ok (token.endColumn (text.getD ""))

theorem columnAfter_eq_error_iff {token : Token} {e : Overflow} :
    token.columnAfter = .error e ↔ token.Unreadable := by
  rw [← text_eq_error_iff (e := e), columnAfter]
  cases token.text <;> simp

/-- The line behind a token overflows if its text is out of reach or reaches below the last line. -/
theorem lineAfter_eq_error_iff {token : Token} {e : Overflow} :
    token.lineAfter = .error e ↔
      token.Unreadable ∨
        ∃ text line, token.text = .ok text ∧ token.position.line = some line ∧
          maxSize < line + lineFeeds (text.getD "") := by
  rw [← text_eq_error_iff (e := e), lineAfter]
  cases token.text with
  | error e' => simp
  | ok text =>
    cases token.position.line with
    | none => simp
    | some line =>
      dsimp only
      cases hsum : addSize line (lineFeeds (text.getD "")) with
      | error e' =>
        have hover := addSize_eq_error_iff.1 hsum
        cases e
        cases e'
        simpa using hover
      | ok below =>
        obtain ⟨rfl, hle⟩ := addSize_eq_ok_iff.1 hsum
        simp only [reduceCtorEq, false_or, false_iff]
        rintro ⟨text', line', htext, hline, hlt⟩
        cases htext
        cases hline
        omega

end Token

end TokenReplay
