import TokenReplay.Stream

/-!
# What there is to read

The spans of a stream that have a text are those that cut its data in three, ahead of the text, the
text, and behind it. Every such cut with a byte ahead of its end is the reading of some span, and
empty texts are no exception.

All other spans have one reason for not being read, and which one it is can be told from the span
and the data alone, with no regard to the order in which things are looked at: an end that is not
known, ends that are out of order or beyond the data, and at last an end inside of a character, the
left one if both are. `InsideChar` says what that means on the characters of a text.

`Stream.ReadsAs` has all of this in one place. It also compares readings with `Stream.slice?`, which
knows nothing of characters: it takes out the bytes between two offsets, and it refuses to if the
byte behind one of them goes on with a character. Whatever gets as far as that is a slice.
-/

namespace TokenReplay

/-! ## Offsets inside of characters -/

/-- The offset lies between two bytes of one character. -/
def InsideChar (cs : List Char) (offset : Nat) : Prop :=
  ∃ front c back, cs = front ++ c :: back ∧
    byteLength front < offset ∧ offset < byteLength front + c.utf8Size

theorem InsideChar.pos {cs : List Char} {offset : Nat} (h : InsideChar cs offset) :
    0 < offset := by
  obtain ⟨front, c, back, -, hlow, -⟩ := h
  exact Nat.zero_lt_of_lt hlow

theorem InsideChar.lt_byteLength {cs : List Char} {offset : Nat} (h : InsideChar cs offset) :
    offset < byteLength cs := by
  obtain ⟨front, c, back, rfl, -, hhigh⟩ := h
  rw [byteLength_append, byteLength_cons]
  omega

theorem insideChar_cons_iff {c : Char} {cs : List Char} {offset : Nat} :
    InsideChar (c :: cs) offset ↔
      (0 < offset ∧ offset < c.utf8Size) ∨
        (c.utf8Size ≤ offset ∧ InsideChar cs (offset - c.utf8Size)) := by
  constructor
  · rintro ⟨front, c', back, hcs, hlow, hhigh⟩
    rcases front with _ | ⟨first, front⟩
    · rw [List.nil_append, List.cons.injEq] at hcs
      obtain ⟨rfl, -⟩ := hcs
      rw [byteLength_nil] at hlow hhigh
      exact .inl ⟨hlow, by omega⟩
    · rw [List.cons_append, List.cons.injEq] at hcs
      obtain ⟨rfl, rfl⟩ := hcs
      rw [byteLength_cons] at hlow hhigh
      exact .inr ⟨by omega, front, c', back, rfl, by omega, by omega⟩
  · rintro (⟨hlow, hhigh⟩ | ⟨hle, front, c', back, rfl, hlow, hhigh⟩)
    · exact ⟨[], c, cs, rfl, hlow, by rwa [byteLength_nil, Nat.zero_add]⟩
    · refine ⟨c :: front, c', back, rfl, ?_, ?_⟩
      · rw [byteLength_cons]
        omega
      · rw [byteLength_cons]
        omega

theorem insideChar_append_iff (front : List Char) {cs : List Char} {offset : Nat} :
    InsideChar (front ++ cs) (byteLength front + offset) ↔ InsideChar cs offset := by
  induction front with
  | nil => rw [List.nil_append, byteLength_nil, Nat.zero_add]
  | cons c front ih =>
    have hmoved : c.utf8Size + byteLength front + offset - c.utf8Size =
        byteLength front + offset := by omega
    rw [List.cons_append, insideChar_cons_iff, byteLength_cons, hmoved, ih]
    constructor
    · rintro (⟨-, hhigh⟩ | ⟨-, hinside⟩)
      · omega
      · exact hinside
    · intro hinside
      exact .inr ⟨by omega, hinside⟩

theorem not_insideChar_zero (cs : List Char) : ¬InsideChar cs 0 :=
  fun h ↦ Nat.lt_irrefl 0 h.pos

/-- **No cut.** Up to the end of a list, there is no cut just where characters are in the way. -/
theorem splitAtByte?_eq_none_iff_insideChar {n : Nat} {cs : List Char} (h : n ≤ byteLength cs) :
    splitAtByte? n cs = none ↔ InsideChar cs n := by
  induction cs generalizing n with
  | nil =>
    obtain rfl : n = 0 := Nat.le_zero.mp h
    simp [not_insideChar_zero]
  | cons c cs ih =>
    rcases n with _ | n
    · simp [not_insideChar_zero]
    · rw [byteLength_cons] at h
      rw [insideChar_cons_iff, splitAtByte?]
      by_cases hfits : c.utf8Size ≤ n + 1
      · have hrest : n + 1 - c.utf8Size ≤ byteLength cs := by omega
        rw [if_pos hfits, Option.map_eq_none_iff, ih hrest]
        constructor
        · intro hinside
          exact .inr ⟨hfits, hinside⟩
        · rintro (⟨-, hhigh⟩ | ⟨-, hinside⟩)
          · omega
          · exact hinside
      · rw [if_neg hfits]
        constructor
        · intro _
          exact .inl ⟨by omega, by omega⟩
        · intro _
          rfl

theorem InsideChar.splitAtByte?_eq_none {n : Nat} {cs : List Char} (h : InsideChar cs n) :
    splitAtByte? n cs = none :=
  (splitAtByte?_eq_none_iff_insideChar (Nat.le_of_lt h.lt_byteLength)).mpr h

theorem exists_cut {n : Nat} {cs : List Char} (h : n ≤ byteLength cs) (hinside : ¬InsideChar cs n) :
    ∃ front back, cs = front ++ back ∧ byteLength front = n ∧
      splitAtByte? n cs = some (front, back) := by
  rw [← splitAtByte?_eq_none_iff_insideChar h, ← Ne, Option.ne_none_iff_exists'] at hinside
  obtain ⟨⟨front, back⟩, hcut⟩ := hinside
  obtain ⟨hcs, hfront⟩ := splitAtByte?_eq_some_iff.mp hcut
  exact ⟨front, back, hcs.symm, hfront, hcut⟩

namespace Stream

variable {stream : Stream}

/-! ## What the text between two offsets comes to -/

theorem between_of_insideChar_start {start : Nat} (past : Nat)
    (h : InsideChar stream.data.toList start) :
    stream.between start past = .error (.notCharBoundary start) := by
  rw [between, h.splitAtByte?_eq_none]

theorem between_of_insideChar_past {start past : Nat} (hle : start ≤ past)
    (hstart : ¬InsideChar stream.data.toList start) (h : InsideChar stream.data.toList past) :
    stream.between start past = .error (.notCharBoundary past) := by
  have hpast := h.lt_byteLength
  obtain ⟨front, back, hdata, hfront, hcut⟩ :=
    exists_cut (Nat.le_trans hle (Nat.le_of_lt hpast)) hstart
  obtain ⟨width, rfl⟩ := Nat.exists_eq_add_of_le hle
  -- Seen from the cut, the right end is inside of a character of what is behind it.
  rw [hdata, ← hfront, insideChar_append_iff] at h
  rw [between, hcut]
  dsimp only
  rw [Nat.add_sub_cancel_left, h.splitAtByte?_eq_none]

theorem exists_between_eq_ok {start past : Nat} (hle : start ≤ past)
    (hpast : past ≤ stream.length) (hstart : ¬InsideChar stream.data.toList start)
    (h : ¬InsideChar stream.data.toList past) : ∃ text, stream.between start past = .ok text := by
  rw [length, ← byteLength_toList] at hpast
  obtain ⟨front, back, hdata, hfront, hcut⟩ := exists_cut (Nat.le_trans hle hpast) hstart
  obtain ⟨width, rfl⟩ := Nat.exists_eq_add_of_le hle
  rw [hdata, ← hfront, insideChar_append_iff] at h
  rw [hdata, byteLength_append, hfront, Nat.add_le_add_iff_left] at hpast
  obtain ⟨taken, rest, -, -, hcut'⟩ := exists_cut hpast h
  refine ⟨String.ofList taken, ?_⟩
  rw [between, hcut]
  dsimp only
  rw [Nat.add_sub_cancel_left, hcut']

/-! ## Slices of the bytes -/

/-- The bytes of the data from `start` up to `past`, which is excluded, as a text. There is none
unless the two offsets are in order and neither of them has a byte behind it that goes on with a
character. -/
def slice? (stream : Stream) (start past : Nat) : Option String :=
  if h : start ≤ past ∧ (String.Pos.Raw.mk start).IsValid stream.data ∧
      (String.Pos.Raw.mk past).IsValid stream.data then
    some ⟨stream.data.toByteArray.extract start past,
      (String.Pos.Raw.isValidUTF8_extract_iff _ _ h.1 h.2.2.le_rawEndPos).mpr (.inr h.2)⟩
  else none

theorem slice?_of_data_eq {front text back : String} (hdata : stream.data = front ++ text ++ back) :
    stream.slice? front.utf8ByteSize (front ++ text).utf8ByteSize = some text := by
  have hstart : (String.Pos.Raw.mk front.utf8ByteSize).IsValid stream.data :=
    String.Pos.Raw.isValid_iff_exists_append.mpr
      ⟨front, text ++ back, by rw [hdata, String.append_assoc], rfl⟩
  have hpast : (String.Pos.Raw.mk (front ++ text).utf8ByteSize).IsValid stream.data :=
    String.Pos.Raw.isValid_iff_exists_append.mpr ⟨front ++ text, back, hdata, rfl⟩
  have hle : front.utf8ByteSize ≤ (front ++ text).utf8ByteSize := by
    rw [String.utf8ByteSize_append]
    exact Nat.le_add_right _ _
  have hbytes : stream.data.toByteArray.extract front.utf8ByteSize
      (front ++ text).utf8ByteSize = text.toByteArray := by
    rw [hdata, String.toByteArray_append, ← String.size_toByteArray, ← String.size_toByteArray,
      ByteArray.extract_append_size_left, String.toByteArray_append]
    exact ByteArray.extract_append_eq_right rfl ByteArray.size_append
  rw [slice?, dif_pos ⟨hle, hstart, hpast⟩, Option.some.injEq]
  exact String.toByteArray_inj.mp hbytes

/-! ## Readings -/

/-- The data of the stream is cut in three, and the middle part goes from the offset `start` to the
offset `stop`, both included. -/
structure CutBy (stream : Stream) (start stop : Nat) (front text back : String) : Prop where
  data_eq : stream.data = front ++ text ++ back
  size_front_eq : front.utf8ByteSize = start
  size_eq : (front ++ text).utf8ByteSize = stop + 1

/-- `reading` is what the data of the stream has to say about the span. -/
structure ReadsAs (stream : Stream) (span : ByteSpan) (reading : Except StreamError String) :
    Prop where
  eq_ok_iff : ∀ text, reading = .ok text ↔
    ∃ start stop front back, span = .inclusive start stop ∧ stream.CutBy start stop front text back
  length?_eq : ∀ text, reading = .ok text → span.length? = .ok (some text.utf8ByteSize)
  /-- What is found to be in order can be taken out of the bytes. -/
  slice?_eq : ∀ text start stop, reading = .ok text → span = .inclusive start stop →
    stream.slice? start (stop + 1) = some text
  eq_unknownSpan_iff : reading = .error .unknownSpan ↔ span.start? = none ∨ span.stop? = none
  eq_outOfBounds_iff : ∀ start stop length, reading = .error (.outOfBounds start stop length) ↔
    span = .inclusive start stop ∧ (stop + 1 < start ∨ stream.length < stop + 1) ∧
      length = stream.length
  /-- The left end is reported ahead of the right one. -/
  eq_notCharBoundary_iff : ∀ offset, reading = .error (.notCharBoundary offset) ↔
    ∃ start stop, span = .inclusive start stop ∧ start ≤ stop + 1 ∧ stop + 1 ≤ stream.length ∧
      (InsideChar stream.data.toList start ∧ offset = start ∨
        ¬InsideChar stream.data.toList start ∧ InsideChar stream.data.toList (stop + 1) ∧
          offset = stop + 1)
  inside_of_notCharBoundary : ∀ offset, reading = .error (.notCharBoundary offset) →
    0 < offset ∧ offset < stream.length ∧ InsideChar stream.data.toList offset

/-- Reading a span with known ends comes to one of four things. -/
theorem text_inclusive_cases (stream : Stream) (start : Nat) {stop : Nat} (hstop : stop < maxSize) :
    ((stop + 1 < start ∨ stream.length < stop + 1) ∧
      stream.text (.inclusive start stop) =
        .ok (.error (.outOfBounds start stop stream.length))) ∨
    (start ≤ stop + 1 ∧ stop + 1 ≤ stream.length ∧
      (InsideChar stream.data.toList start ∧
        stream.text (.inclusive start stop) = .ok (.error (.notCharBoundary start)) ∨
      ¬InsideChar stream.data.toList start ∧ InsideChar stream.data.toList (stop + 1) ∧
        stream.text (.inclusive start stop) = .ok (.error (.notCharBoundary (stop + 1))) ∨
      ¬InsideChar stream.data.toList start ∧ ¬InsideChar stream.data.toList (stop + 1) ∧
        ∃ text, stream.text (.inclusive start stop) = .ok (.ok text))) := by
  rw [text_inclusive_of_lt stream start hstop]
  by_cases hbounds : stop + 1 < start ∨ stream.length < stop + 1
  · rw [if_pos hbounds]
    exact .inl ⟨hbounds, rfl⟩
  · have hle : start ≤ stop + 1 := by omega
    have hpast : stop + 1 ≤ stream.length := by omega
    rw [if_neg hbounds]
    refine .inr ⟨hle, hpast, ?_⟩
    by_cases hstart : InsideChar stream.data.toList start
    · exact .inl ⟨hstart, by rw [between_of_insideChar_start _ hstart]⟩
    · by_cases hinside : InsideChar stream.data.toList (stop + 1)
      · exact .inr (.inl ⟨hstart, hinside, by rw [between_of_insideChar_past hle hstart hinside]⟩)
      · obtain ⟨text, htext⟩ := exists_between_eq_ok hle hpast hstart hinside
        exact .inr (.inr ⟨hstart, hinside, text, by rw [htext]⟩)

theorem text_eq_ok_iff_cutBy {start stop : Nat} (hstop : stop < maxSize) {text : String} :
    stream.text (.inclusive start stop) = .ok (.ok text) ↔
      ∃ front back, stream.CutBy start stop front text back := by
  rw [text_inclusive_eq_ok_iff]
  constructor
  · rintro ⟨-, front, back, hdata, hfront, hlength⟩
    refine ⟨String.ofList front, String.ofList back, ?_, ?_, ?_⟩
    · apply String.toList_inj.mp
      rw [String.toList_append, String.toList_append, String.toList_ofList, String.toList_ofList,
        hdata, List.append_assoc]
    · rw [← byteLength_toList, String.toList_ofList, hfront]
    · rw [String.utf8ByteSize_append, ← byteLength_toList, ← byteLength_toList,
        String.toList_ofList, hfront, hlength]
  · rintro ⟨front, back, hdata, hfront, hlength⟩
    refine ⟨hstop, front.toList, back.toList, ?_, ?_, ?_⟩
    · rw [hdata, String.toList_append, String.toList_append, List.append_assoc]
    · rw [byteLength_toList, hfront]
    · rw [byteLength_toList, ← hlength, String.utf8ByteSize_append, hfront]

theorem text_ne_unknownSpan (stream : Stream) (start : Nat) {stop : Nat} (hstop : stop < maxSize) :
    stream.text (.inclusive start stop) ≠ .ok (.error .unknownSpan) := by
  rcases text_inclusive_cases stream start hstop with
    ⟨-, heq⟩ | ⟨-, -, ⟨-, heq⟩ | ⟨-, -, heq⟩ | ⟨-, -, text, heq⟩⟩
  all_goals simp [heq]

theorem text_eq_outOfBounds_iff {start stop : Nat} (hstop : stop < maxSize) {a b length : Nat} :
    stream.text (.inclusive start stop) = .ok (.error (.outOfBounds a b length)) ↔
      (start = a ∧ stop = b) ∧ (stop + 1 < start ∨ stream.length < stop + 1) ∧
        length = stream.length := by
  rcases text_inclusive_cases stream start hstop with
    ⟨hbounds, heq⟩ | ⟨hle, hpast, ⟨-, heq⟩ | ⟨-, -, heq⟩ | ⟨-, -, text, heq⟩⟩
  · rw [heq]
    constructor
    · rintro ⟨⟩
      exact ⟨⟨rfl, rfl⟩, hbounds, rfl⟩
    · rintro ⟨⟨rfl, rfl⟩, -, rfl⟩
      rfl
  -- Within bounds, both sides are out of the question.
  all_goals simp [heq, Nat.not_lt.mpr hle, Nat.not_lt.mpr hpast]

theorem text_eq_notCharBoundary_iff {start stop : Nat} (hstop : stop < maxSize) {offset : Nat} :
    stream.text (.inclusive start stop) = .ok (.error (.notCharBoundary offset)) ↔
      start ≤ stop + 1 ∧ stop + 1 ≤ stream.length ∧
      (InsideChar stream.data.toList start ∧ offset = start ∨
        ¬InsideChar stream.data.toList start ∧ InsideChar stream.data.toList (stop + 1) ∧
          offset = stop + 1) := by
  rcases text_inclusive_cases stream start hstop with
    ⟨hbounds, heq⟩ | ⟨hle, hpast, ⟨hstart, heq⟩ | ⟨hstart, hinside, heq⟩ |
      ⟨hstart, hinside, text, heq⟩⟩
  · simp only [heq, Except.ok.injEq, Except.error.injEq, reduceCtorEq, false_iff]
    omega
  · simp [heq, hle, hpast, hstart, eq_comm]
  · simp [heq, hle, hpast, hstart, hinside, eq_comm]
  · simp [heq, hstart, hinside]

theorem inside_of_text_eq_notCharBoundary {start stop offset : Nat} (hstop : stop < maxSize)
    (h : stream.text (.inclusive start stop) = .ok (.error (.notCharBoundary offset))) :
    0 < offset ∧ offset < stream.length ∧ InsideChar stream.data.toList offset := by
  have hinside : InsideChar stream.data.toList offset := by
    obtain ⟨-, -, ⟨hinside, rfl⟩ | ⟨-, hinside, rfl⟩⟩ := (text_eq_notCharBoundary_iff hstop).mp h
    · exact hinside
    · exact hinside
  refine ⟨hinside.pos, ?_, hinside⟩
  rw [length, ← byteLength_toList]
  exact hinside.lt_byteLength

theorem readsAs_of_text {span : ByteSpan} {reading : Except StreamError String}
    (hspan : ∀ stop, span.stop? = some stop → stop < maxSize)
    (h : stream.text span = .ok reading) : stream.ReadsAs span reading := by
  have hreading : ∀ other, reading = other ↔ stream.text span = .ok other := by
    intro other
    rw [h, Except.ok.injEq]
  rcases span with _ | ⟨start, stop⟩
  · obtain rfl := (hreading _).mpr rfl
    constructor <;> simp
  · have hstop : stop < maxSize := hspan stop rfl
    have hok : ∀ text, reading = .ok text ↔
        ∃ front back, stream.CutBy start stop front text back := by
      intro text
      rw [hreading, text_eq_ok_iff_cutBy hstop]
    exact
      { eq_ok_iff := by
          intro text
          rw [hok]
          constructor
          · rintro ⟨front, back, hcut⟩
            exact ⟨start, stop, front, back, rfl, hcut⟩
          · rintro ⟨_, _, front, back, ⟨⟩, hcut⟩
            exact ⟨front, back, hcut⟩
        length?_eq := by
          intro text htext
          obtain ⟨front, back, -, hfront, hsize⟩ := (hok text).mp htext
          rw [ByteSpan.length?_inclusive_of_lt start hstop, ← hsize, ← hfront,
            String.utf8ByteSize_append, Nat.add_sub_cancel_left]
        slice?_eq := by
          rintro text _ _ htext ⟨⟩
          obtain ⟨front, back, hdata, rfl, hsize⟩ := (hok text).mp htext
          rw [← hsize]
          exact slice?_of_data_eq hdata
        eq_unknownSpan_iff := by
          rw [hreading]
          simp [text_ne_unknownSpan stream start hstop]
        eq_outOfBounds_iff := by
          intro a b length
          rw [hreading, text_eq_outOfBounds_iff hstop, ByteSpan.inclusive.injEq]
          constructor
          · rintro ⟨⟨rfl, rfl⟩, hbounds⟩
            exact ⟨⟨rfl, rfl⟩, hbounds⟩
          · rintro ⟨⟨rfl, rfl⟩, hbounds⟩
            exact ⟨⟨rfl, rfl⟩, hbounds⟩
        eq_notCharBoundary_iff := by
          intro offset
          rw [hreading, text_eq_notCharBoundary_iff hstop]
          constructor
          · intro hoffset
            exact ⟨start, stop, rfl, hoffset⟩
          · rintro ⟨_, _, ⟨⟩, hoffset⟩
            exact hoffset
        inside_of_notCharBoundary := by
          intro offset hoffset
          exact inside_of_text_eq_notCharBoundary hstop ((hreading _).mp hoffset) }

/-- **Readings.** Apart from spans that end at the last offset there is, every span is read, and it
is read as the data of the stream has it. In turn, every part of the data is the reading of a span,
except for the empty one at the very front. -/
theorem reads_slices (hlength : (stream.length : Int) ≤ maxSigned) {span : ByteSpan}
    (hspan : ∀ stop, span.stop? = some stop → stop < maxSize) :
    (∃ reading, stream.text span = .ok reading ∧ stream.ReadsAs span reading) ∧
      ∀ front text back : String, stream.data = front ++ text ++ back → front ++ text ≠ "" →
        stream.text (.inclusive front.utf8ByteSize
          (front.utf8ByteSize + text.utf8ByteSize - 1)) = .ok (.ok text) := by
  constructor
  · rcases hread : stream.text span with e | reading
    · obtain ⟨stop, hstop, hle⟩ := text_eq_error_iff.mp hread
      exact absurd (hspan stop hstop) (by omega)
    · exact ⟨reading, rfl, readsAs_of_text hspan hread⟩
  · intro front text back hdata hne
    have hpos : (front ++ text).utf8ByteSize ≠ 0 := by
      rwa [Ne, String.utf8ByteSize_eq_zero_iff]
    have hsize := hlength
    rw [length, hdata, String.utf8ByteSize_append, maxSigned] at hsize
    rw [String.utf8ByteSize_append] at hpos hsize
    refine (text_eq_ok_iff_cutBy ?_).mpr ⟨front, back, hdata, rfl, ?_⟩
    · unfold maxSize
      omega
    · rw [String.utf8ByteSize_append]
      omega

/-- A letter of two bytes between two of one byte each. -/
def accentedStream : Stream := ⟨"in", "aéb"⟩

theorem reads_slices_accented :
    accentedStream.text (.inclusive 1 1) = .ok (.error (.notCharBoundary 2)) ∧
      accentedStream.text (.inclusive 1 2) = .ok (.ok "é") ∧
      accentedStream.text (.inclusive 4 3) = .ok (.ok "") := by
  have hlength : (accentedStream.length : Int) ≤ maxSigned := by decide
  have hspan : ∀ stop, (ByteSpan.inclusive 1 1).stop? = some stop → stop < maxSize := by
    rintro _ ⟨⟩
    decide
  obtain ⟨⟨reading, hread, hreads⟩, hparts⟩ := reads_slices hlength hspan
  have hinside : InsideChar accentedStream.data.toList 2 := ⟨['a'], 'é', ['b'], by decide⟩
  have hstart : ¬InsideChar accentedStream.data.toList 1 := by
    rw [← splitAtByte?_eq_none_iff_insideChar (by decide)]
    decide
  have hreported : reading = .error (.notCharBoundary 2) :=
    (hreads.eq_notCharBoundary_iff 2).mpr
      ⟨1, 1, rfl, by decide, by decide, .inr ⟨hstart, hinside, rfl⟩⟩
  rw [hread, hreported]
  refine ⟨rfl, ?_, ?_⟩
  · exact hparts "a" "é" "b" (by decide) (by decide)
  · exact hparts "aéb" "" "" (by decide) (by decide)

end Stream

end TokenReplay
