import Mathlib.Data.List.DropRight
import TokenReplay.Proofs.EndColumn

/-!
# The true end of the input

An end of stream token is placed by what the last token of the list says about its own end. Where
the last token is one that a scanner cut off the end of a stream, that can be held against the
stream itself: counted over the whole text, with no regard to tokens, the text ends on some line and
in some column. `lineAt` and `columnAt` are those.

The line of the end of stream token is the true one, and its span stands just behind the text, where
reading it gives the empty text. The column is not to be trusted. If the last token has no line
feed, it leaves out what stands ahead of that token on its line; if it has one, it counts in that
and all the text up to the last line feed. What is wrong with the column is thus known to the byte
(`Token.EndsStream`). It is right for tokens without a line feed that begin their line, and for no
others.

The text is read here as a list of characters in two parts, ahead of the last token and from there
on. So the token begins on a character boundary, however many bytes the characters take.
-/

namespace TokenReplay

/-! ## Lines and columns of a text -/

/-- The line on which a text ends that begins on the first one. -/
def lineAt (cs : List Char) : Nat := 1 + cs.count '\n'

/-- The column in which a text ends: the number of bytes behind its last line feed. -/
def columnAt (cs : List Char) : Nat := byteLength (cs.rtakeWhile (· ≠ '\n'))

/-- The number of bytes up to the last line feed, that one included. -/
def bytesToLineStart (cs : List Char) : Nat := byteLength (cs.rdropWhile (· ≠ '\n'))

theorem lineAt_append (front back : List Char) :
    lineAt (front ++ back) = lineAt front + back.count '\n' := by
  rw [lineAt, lineAt, List.count_append, Nat.add_assoc]

@[simp] theorem columnAt_concat_lineFeed (cs : List Char) : columnAt (cs ++ ['\n']) = 0 := by
  rw [columnAt, List.rtakeWhile_concat_neg _ _ _ (by decide), byteLength_nil]

theorem columnAt_concat (cs : List Char) {c : Char} (h : c ≠ '\n') :
    columnAt (cs ++ [c]) = columnAt cs + c.utf8Size := by
  rw [columnAt, List.rtakeWhile_concat_pos _ _ _ (by simpa using h), byteLength_append,
    byteLength_cons, byteLength_nil, Nat.add_zero, columnAt]

theorem columnAt_append_of_notMem (front : List Char) {back : List Char} (h : '\n' ∉ back) :
    columnAt (front ++ back) = columnAt front + byteLength back := by
  induction back using List.reverseRecOn with
  | nil => simp
  | append_singleton back c ih =>
    rw [List.mem_append, List.mem_singleton, not_or] at h
    have hc : c ≠ '\n' := fun heq ↦ h.2 heq.symm
    rw [← List.append_assoc, columnAt_concat _ hc, ih h.1, byteLength_append, byteLength_cons,
      byteLength_nil, Nat.add_zero, Nat.add_assoc]

/-- Behind a line feed, the column does not depend on what came ahead of it. -/
theorem columnAt_append_of_mem (front : List Char) {back : List Char} (h : '\n' ∈ back) :
    columnAt (front ++ back) = columnAt back := by
  induction back using List.reverseRecOn with
  | nil => cases h
  | append_singleton back c ih =>
    by_cases hc : c = '\n'
    · subst hc
      rw [← List.append_assoc, columnAt_concat_lineFeed, columnAt_concat_lineFeed]
    · have hback : '\n' ∈ back := by
        rcases List.mem_append.mp h with hmem | hmem
        · exact hmem
        · exact absurd (List.mem_singleton.mp hmem).symm hc
      rw [← List.append_assoc, columnAt_concat _ hc, columnAt_concat _ hc, ih hback]

theorem bytesToLineStart_add_columnAt (cs : List Char) :
    bytesToLineStart cs + columnAt cs = byteLength cs := by
  rw [bytesToLineStart, columnAt, ← byteLength_append, List.rdropWhile_append_rtakeWhile]

theorem bytesToLineStart_pos {cs : List Char} (h : '\n' ∈ cs) : 0 < bytesToLineStart cs := by
  rw [bytesToLineStart, Nat.pos_iff_ne_zero, Ne, byteLength_eq_zero_iff,
    List.rdropWhile_eq_nil_iff]
  intro hall
  have hfeed := hall '\n' h
  simp at hfeed

theorem length_le_byteLength (cs : List Char) : cs.length ≤ byteLength cs := by
  induction cs with
  | nil => exact Nat.le_refl 0
  | cons c cs ih =>
    have hc := c.utf8Size_pos
    rw [List.length_cons, byteLength_cons]
    omega

/-! ## Tokens at the end of a stream -/

/-- The token covers the text of `stream` from behind `front` to the end, which is `back`, and it
says where that is. -/
structure Token.Covers (token : Token) (stream : Shared Stream) (front back : List Char) :
    Prop where
  toList_data : stream.value.data.toList = front ++ back
  back_ne_nil : back ≠ []
  stream_eq : token.origin.stream = some stream
  span_eq : token.span = .inclusive (byteLength front) (stream.value.length - 1)
  ownText_eq : token.ownText = none ∨ token.ownText = some (String.ofList back)
  position_eq : token.position = ⟨some (lineAt front), columnAt front⟩

theorem Stream.text_behind {stream : Stream} (hpos : 0 < stream.length)
    (hlt : stream.length < maxSize) :
    stream.text (.inclusive stream.length (stream.length - 1)) = .ok (.ok "") := by
  have hlast : stream.length - 1 + 1 = stream.length := by omega
  have hcut : splitAtByte? stream.length stream.data.toList = some (stream.data.toList, []) := by
    rw [splitAtByte?_eq_some_iff]
    exact ⟨List.append_nil _, byteLength_toList stream.data⟩
  rw [text_inclusive_of_lt _ _ (by omega), hlast, if_neg (by omega), between, hcut]
  dsimp only
  rw [Nat.sub_self, splitAtByte?_zero]

namespace Token.Covers

variable {token : Token} {stream : Shared Stream} {front back : List Char}

theorem length_eq (h : token.Covers stream front back) :
    stream.value.length = byteLength front + byteLength back := by
  rw [Stream.length, ← byteLength_toList, h.toList_data, byteLength_append]

theorem byteLength_back_pos (h : token.Covers stream front back) : 0 < byteLength back :=
  Nat.pos_of_ne_zero fun hzero ↦ h.back_ne_nil (byteLength_eq_zero_iff.mp hzero)

theorem text_eq (h : token.Covers stream front back) (hlength : stream.value.length < maxSize) :
    token.text = .ok (some (String.ofList back)) := by
  rcases h.ownText_eq with hnone | hgiven
  · have hpos := h.byteLength_back_pos
    have heq := h.length_eq
    have hlast : stream.value.length - 1 + 1 = stream.value.length := by omega
    have hwidth : stream.value.length - byteLength front = byteLength back := by omega
    have hback := splitAtByte?_append back []
    rw [List.append_nil] at hback
    have hread : stream.value.text token.span = .ok (.ok (String.ofList back)) := by
      rw [h.span_eq, Stream.text_inclusive_of_lt _ _ (by omega), hlast, if_neg (by omega),
        Stream.between, h.toList_data, splitAtByte?_append]
      dsimp only
      rw [hwidth, hback]
    rw [Token.text, hnone, h.stream_eq]
    dsimp only
    rw [hread]
    rfl
  · exact Token.text_of_ownText hgiven

theorem lineAfter_eq (h : token.Covers stream front back)
    (hlength : stream.value.length < maxSize) :
    token.lineAfter = .ok (some (lineAt stream.value.data.toList)) := by
  have hfront := (List.count_le_length (a := '\n') (l := front)).trans (length_le_byteLength front)
  have hback := (List.count_le_length (a := '\n') (l := back)).trans (length_le_byteLength back)
  have heq := h.length_eq
  have hsum : addSize (lineAt front) (lineFeeds (String.ofList back)) =
      .ok (lineAt stream.value.data.toList) := by
    rw [addSize_eq_ok_iff, lineFeeds, String.toList_ofList, h.toList_data, lineAt_append, lineAt]
    exact ⟨rfl, by omega⟩
  rw [Token.lineAfter, h.text_eq hlength, h.position_eq]
  dsimp only [Option.getD_some]
  rw [hsum]

theorem columnAfter_eq (h : token.Covers stream front back)
    (hlength : stream.value.length < maxSize) :
    token.columnAfter = .ok (token.endColumn (String.ofList back)) := by
  rw [Token.columnAfter, h.text_eq hlength]
  rfl

theorem spanAfter_eq (h : token.Covers stream front back)
    (hlength : stream.value.length < maxSize) :
    token.spanAfter = .inclusive stream.value.length (stream.value.length - 1) := by
  have hpos := h.byteLength_back_pos
  have heq := h.length_eq
  have hlast : stream.value.length - 1 + 1 = stream.value.length := by omega
  rw [Token.spanAfter, h.span_eq, ByteSpan.stop?_inclusive]
  dsimp only
  rw [ByteSpan.emptyAfter_of_lt (by omega), hlast]

theorem endColumn_add_column (h : token.Covers stream front back) (hfeed : '\n' ∉ back) :
    token.endColumn (String.ofList back) + token.position.column =
      columnAt stream.value.data.toList := by
  rw [Token.endColumn, String.toList_ofList, if_neg hfeed, ← byteLength_toList,
    String.toList_ofList, h.toList_data, columnAt_append_of_notMem front hfeed, h.position_eq,
    Nat.add_comm]

theorem endColumn_eq (h : token.Covers stream front back) (hfeed : '\n' ∈ back)
    (hlength : (stream.value.length : Int) ≤ maxSigned) :
    token.endColumn (String.ofList back) =
      columnAt stream.value.data.toList + (token.position.column + bytesToLineStart back) := by
  have hpos := h.byteLength_back_pos
  have heq := h.length_eq
  have hfront := bytesToLineStart_add_columnAt front
  have hback := bytesToLineStart_add_columnAt back
  have hfeed' : '\n' ∈ (String.ofList back).toList := by rwa [String.toList_ofList]
  have hcolumn : token.position.column = columnAt front := by rw [h.position_eq]
  have hend := @endColumn_of_mem token _ hfeed'
  rw [h.span_eq, ByteSpan.width, signedSize_of_le (by omega), signedSize_of_le (by omega),
    signedSize_of_le (by omega), nearestSize_of_mem (by omega) (by omega)] at hend
  rw [h.toList_data, columnAt_append_of_mem front hfeed]
  omega

/-- The column is true only behind tokens on a line of their own. -/
theorem endColumn_eq_columnAt_iff (h : token.Covers stream front back)
    (hlength : (stream.value.length : Int) ≤ maxSigned) :
    token.endColumn (String.ofList back) = columnAt stream.value.data.toList ↔
      '\n' ∉ back ∧ token.position.column = 0 := by
  by_cases hfeed : '\n' ∈ back
  · have hpos := bytesToLineStart_pos hfeed
    have heq := h.endColumn_eq hfeed hlength
    constructor
    · omega
    · rintro ⟨hnot, -⟩
      exact absurd hfeed hnot
  · have heq := h.endColumn_add_column hfeed
    constructor
    · intro htrue
      exact ⟨hfeed, by omega⟩
    · rintro ⟨-, hcolumn⟩
      omega

end Token.Covers

/-! ## The end of stream token -/

/-- What the end of stream token `eof` has to say about the end of `stream`, made behind the token
`last`, which covers `back`. -/
structure Token.EndsStream (eof last : Token) (stream : Shared Stream) (back : List Char) :
    Prop where
  isEof_eq_true : eof.isEof = true
  stream_eq : eof.origin.stream = some stream
  line_eq : eof.position.line = some (lineAt stream.value.data.toList)
  span_eq : eof.span = .inclusive stream.value.length (stream.value.length - 1)
  /-- There is text to be read for its span, the empty one. -/
  text_span_eq : stream.value.text eof.span = .ok (.ok "")
  column_eq_iff : eof.position.column = columnAt stream.value.data.toList ↔
    '\n' ∉ back ∧ last.position.column = 0
  /-- Without a line feed in the last token, the column is too small by the column of that token. -/
  column_add_eq : '\n' ∉ back →
    eof.position.column + last.position.column = columnAt stream.value.data.toList
  /-- With one, it is too large, by that column and by the text up to the last line feed. -/
  column_eq : '\n' ∈ back → eof.position.column =
    columnAt stream.value.data.toList + (last.position.column + bytesToLineStart back)

namespace Source

variable {source : Source}

theorem eofRequest_of_covers {last : Shared Token} {stream : Shared Stream}
    {front back : List Char} (hrest : source.rest = .spent)
    (hlast : source.tokens.getLast? = some last) (hcovers : last.value.Covers stream front back)
    (hlength : stream.value.length < maxSize) :
    source.eofRequest = .ok
      { origin := ⟨some source.id.key, some stream⟩
        type := .eof
        text := some "EOF"
        channel := .default
        span := .inclusive stream.value.length (stream.value.length - 1)
        position := ⟨some (lineAt stream.value.data.toList),
          last.value.endColumn (String.ofList back)⟩ } := by
  have hhead : source.passed.head? = some last := by
    rw [← getLast?_tokens_of_spent hrest, hlast]
  have hline : source.line = .ok (some (lineAt stream.value.data.toList)) := by
    rw [line_of_spent hrest, hhead]
    exact hcovers.lineAfter_eq hlength
  have hcolumn : source.column = .ok (last.value.endColumn (String.ofList back)) := by
    rw [column_of_spent hrest, hhead]
    exact hcovers.columnAfter_eq hlength
  have hstream : source.stream? = some stream := by
    rw [stream?_of_spent hrest, hhead]
    exact hcovers.stream_eq
  have hspan : source.eofSpan = .inclusive stream.value.length (stream.value.length - 1) := by
    rw [eofSpan_eq, hhead]
    exact hcovers.spanAfter_eq hlength
  rw [eofRequest, hline, hcolumn, hstream, hspan]

/-- **The true end.** If the last token of the list covers the end of its stream, the common factory
makes an end of stream token behind it, whose line and span are the true ones. Its column is wrong
by what stands on the line ahead of that token, or in the token above its last line. -/
theorem endsStream_of_covers {copyText : Bool} {last : Shared Token} {stream : Shared Stream}
    {front back : List Char} (hcommon : source.factory.value = .common copyText)
    (hcursor : source.cursor = source.size) (hnone : source.eof? = none)
    (hlast : source.tokens.getLast? = some last) (hcovers : last.value.Covers stream front back)
    (hlength : (stream.value.length : Int) ≤ maxSigned) (session : Session) :
    ∃ eof, (source.next session).outcome = .ok eof ∧
      (source.next session).state.eof? = some eof ∧
      eof.value.EndsStream last.value stream back := by
  have hrest : source.rest = .spent := rest_eq_spent_iff.mpr ⟨hcursor, hnone⟩
  have hlt : stream.value.length < maxSize := by
    unfold maxSigned at hlength
    unfold maxSize
    omega
  have hpos : 0 < stream.value.length := by
    rw [hcovers.length_eq]
    exact Nat.add_pos_right _ hcovers.byteLength_back_pos
  have hrequest := eofRequest_of_covers hrest hlast hcovers hlt
  obtain ⟨after, -, hnext⟩ := next_of_spent_of_common hrest hcommon hrequest session
  rw [hnext]
  refine ⟨_, rfl, rfl, ?_⟩
  exact
    { isEof_eq_true := by rfl
      stream_eq := rfl
      line_eq := rfl
      span_eq := rfl
      text_span_eq := Stream.text_behind hpos hlt
      column_eq_iff := hcovers.endColumn_eq_columnAt_iff hlength
      column_add_eq := hcovers.endColumn_add_column
      column_eq := fun hfeed ↦ hcovers.endColumn_eq hfeed hlength }

/-- Behind a token that begins inside of a line and ends inside of another one. -/
def scannedSource : Source where
  id := ⟨⟨0⟩, "unit"⟩
  passed := [⟨3, { type := ⟨1⟩, span := .inclusive 4 8, position := ⟨some 2, 1⟩,
                   origin := { stream := some ⟨2, ⟨"in", "é\nab\ncß"⟩⟩ } }⟩]
  rest := .spent
  factory := ⟨1, .common true⟩

theorem endsStream_of_covers_scanned : ∃ eof, (scannedSource.next {}).outcome = .ok eof ∧
    eof.value.position.line = some 3 ∧ eof.value.position.column = 3 + (1 + 2) ∧
    eof.value.span = .inclusive 9 8 := by
  let stream : Shared Stream := ⟨2, ⟨"in", "é\nab\ncß"⟩⟩
  let last : Shared Token :=
    ⟨3, { type := ⟨1⟩, span := .inclusive 4 8, position := ⟨some 2, 1⟩,
          origin := { stream := some stream } }⟩
  have hcovers : last.value.Covers stream ['é', '\n', 'a'] ['b', '\n', 'c', 'ß'] :=
    { toList_data := String.toList_ofList
      back_ne_nil := by decide
      stream_eq := rfl
      span_eq := by decide
      ownText_eq := .inl rfl
      position_eq := by decide }
  have hlength : (stream.value.length : Int) ≤ maxSigned := by decide
  have hlast : scannedSource.tokens.getLast? = some last := rfl
  have hcommon : scannedSource.factory.value = .common true := rfl
  obtain ⟨eof, hmade, -, hends⟩ :=
    endsStream_of_covers hcommon rfl rfl hlast hcovers hlength {}
  refine ⟨eof, hmade, ?_, ?_, ?_⟩
  · rw [hends.line_eq]
    decide
  · rw [hends.column_eq (by decide)]
    decide
  · rw [hends.span_eq]
    decide

end Source

end TokenReplay
