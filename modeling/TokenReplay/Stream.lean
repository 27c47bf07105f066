import TokenReplay.Span
import TokenReplay.Text.Bytes

/-!
# Character streams

A stream is a name and its text, all of it in memory. The one thing asked of a stream is the text of
a span.

Reading has two layers of failure. A span may not denote any text of this stream; that is a
`StreamError`, an ordinary answer that callers look at. And the offset just past the span may be too
large to be computed; that is an `Overflow`, which nobody looks at and which takes down whatever
asked for the text. It is checked before everything but the span being known, so even an absurd
span can only overflow if it ends at `maxSize`.
-/

namespace TokenReplay

/-- Why a span has no text in a stream. -/
inductive StreamError where
  /-- The span has no ends. -/
  | unknownSpan
  /-- The span ends before it starts, or beyond the stream, which has `length` bytes. -/
  | outOfBounds (start stop length : Nat)
  /-- One end, `offset`, lies inside of a character. -/
  | notCharBoundary (offset : Nat)
deriving DecidableEq, Repr

def StreamError.message : StreamError → String
  | .unknownSpan => "span has an unknown end"
  | .outOfBounds start stop length =>
    "span " ++ start.repr ++ ":" ++ stop.repr ++ " is outside of a stream of " ++ length.repr ++
      " bytes"
  | .notCharBoundary offset => "offset " ++ offset.repr ++ " is not on a character boundary"

/-- Whether two readings came out the same: equal texts, or equal reasons for having none. -/
def sameReading : Except StreamError String → Except StreamError String → Bool
  | .ok text₁, .ok text₂ => text₁ = text₂
  | .error error₁, .error error₂ => error₁ = error₂
  | _, _ => false

/-- Named text that tokens point into. -/
structure Stream where
  name : String
  data : String
deriving DecidableEq, Repr

namespace Stream

/-- The length in bytes. -/
def length (stream : Stream) : Nat := stream.data.utf8ByteSize

def isEmpty (stream : Stream) : Bool := stream.length == 0

/-- The text from the offset `start` up to the offset `past`, which is excluded. Ends inside of
characters are reported from left to right. -/
def between (stream : Stream) (start past : Nat) : Except StreamError String :=
  match splitAtByte? start stream.data.toList with
  | none => .error (.notCharBoundary start)
  | some (_, rest) =>
    match splitAtByte? (past - start) rest with
    | none => .error (.notCharBoundary past)
    | some (taken, _) => .ok (String.ofList taken)

/-- The text of a span. An empty span is allowed right up to the end of the stream. -/
def text (stream : Stream) : ByteSpan → Except Overflow (Except StreamError String)
  | .unknown => .ok (.error .unknownSpan)
  | .inclusive start stop =>
    match addSize stop 1 with
    | .error e => .error e
    | .ok past =>
      if past < start ∨ stream.length < past then
        .ok (.error (.outOfBounds start stop stream.length))
      else .ok (stream.between start past)

@[simp] theorem text_unknown (stream : Stream) :
    stream.text .unknown = .ok (.error .unknownSpan) := rfl

theorem text_inclusive_of_lt (stream : Stream) (start : Nat) {stop : Nat} (h : stop < maxSize) :
    stream.text (.inclusive start stop) =
      if stop + 1 < start ∨ stream.length < stop + 1 then
        .ok (.error (.outOfBounds start stop stream.length))
      else .ok (stream.between start (stop + 1)) := by
  have hpast : addSize stop 1 = .ok (stop + 1) := addSize_eq_ok_iff.2 ⟨rfl, h⟩
  simp [text, hpast]

theorem between_eq_ok_iff {stream : Stream} {start past : Nat} {text : String} :
    stream.between start past = .ok text ↔
      ∃ front back, stream.data.toList = front ++ (text.toList ++ back) ∧
        byteLength front = start ∧ byteLength text.toList = past - start := by
  rw [between]
  constructor
  · intro h
    cases hcut : splitAtByte? start stream.data.toList with
    | none => simp [hcut] at h
    | some cut =>
      obtain ⟨front, rest⟩ := cut
      obtain ⟨hdata, hfront⟩ := splitAtByte?_eq_some_iff.mp hcut
      cases hcut' : splitAtByte? (past - start) rest with
      | none => simp [hcut, hcut'] at h
      | some cut' =>
        obtain ⟨taken, back⟩ := cut'
        obtain ⟨hrest, htaken⟩ := splitAtByte?_eq_some_iff.mp hcut'
        obtain rfl : String.ofList taken = text := by simpa [hcut, hcut'] using h
        rw [String.toList_ofList]
        exact ⟨front, back, by rw [hrest, hdata], hfront, htaken⟩
  · rintro ⟨front, back, hdata, rfl, hlength⟩
    rw [hdata, splitAtByte?_append]
    dsimp only
    rw [← hlength, splitAtByte?_append]
    dsimp only
    rw [String.ofList_toList]

/-- **Reading** a span gives what stands in the data between its ends, whole characters only. -/
theorem text_inclusive_eq_ok_iff {stream : Stream} {start stop : Nat} {text : String} :
    stream.text (.inclusive start stop) = .ok (.ok text) ↔
      stop < maxSize ∧ ∃ front back, stream.data.toList = front ++ (text.toList ++ back) ∧
        byteLength front = start ∧ start + byteLength text.toList = stop + 1 := by
  by_cases hstop : stop < maxSize
  · rw [text_inclusive_of_lt stream start hstop]
    constructor
    · intro h
      split at h
      case isTrue => simp at h
      case isFalse hbounds =>
        rw [Except.ok.injEq] at h
        obtain ⟨front, back, hdata, hfront, hlength⟩ := between_eq_ok_iff.mp h
        exact ⟨hstop, front, back, hdata, hfront, by omega⟩
    · rintro ⟨-, front, back, hdata, hfront, hlength⟩
      have htotal : stream.length = start + (byteLength text.toList + byteLength back) := by
        rw [length, ← byteLength_toList, hdata, byteLength_append, byteLength_append, hfront]
      rw [if_neg (by omega), Except.ok.injEq]
      exact between_eq_ok_iff.mpr ⟨front, back, hdata, hfront, by omega⟩
  · have hpast : addSize stop 1 = .error .addition := addSize_eq_error_iff.2 (by omega)
    simp [Stream.text, hpast, hstop]

/-- Reading overflows only for a span that ends at the last offset there is. -/
theorem text_eq_error_iff {stream : Stream} {span : ByteSpan} {e : Overflow} :
    stream.text span = .error e ↔ ∃ stop, span.stop? = some stop ∧ maxSize ≤ stop := by
  cases span with
  | unknown => simp
  | inclusive start stop =>
    by_cases h : stop < maxSize
    · rw [text_inclusive_of_lt stream start h]
      simp only [ByteSpan.stop?_inclusive, Option.some.injEq, exists_eq_left']
      constructor
      · split <;> simp
      · omega
    · cases e
      have hpast : addSize stop 1 = .error .addition := addSize_eq_error_iff.2 (by omega)
      simp only [text, hpast, ByteSpan.stop?_inclusive, Option.some.injEq, exists_eq_left',
        true_iff]
      omega

end Stream

end TokenReplay
