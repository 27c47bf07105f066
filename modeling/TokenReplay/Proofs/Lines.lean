import TokenReplay.Token.Display

/-!
# Lines taken apart

The line for a token tells all that is in it. Nothing in the text is marked as such, so a text may
well look like the end of a line, and the line is still read in one way only. From the left, the
index and the two ends of the span go up to their separators, as numerals have none. What is behind
the text has no quotation marks, so the text ends at the last one of the line, whatever stands in
it. After the type there is a channel or none: the word for a channel begins with a letter, and a
line number does not.

Two things are lost. A missing text looks like the text that says so, and an escape looks like the
backslash and the letter that it is written with. `Token.ShownAlike` is what remains, and texts
without backslashes are told apart (`escapeLines_injective`).
-/

namespace TokenReplay

/-! ## Lists with separators -/

/-- At a character that is in neither front, a list is cut in one way only. -/
theorem append_cons_inj_of_notMem_fronts {c : Char} {front front' back back' : List Char}
    (hfront : c ∉ front) (hfront' : c ∉ front') (h : front ++ c :: back = front' ++ c :: back') :
    front = front' ∧ back = back' := by
  induction front generalizing front' with
  | nil =>
    rcases front' with _ | ⟨d, front'⟩
    · exact ⟨rfl, List.tail_eq_of_cons_eq h⟩
    · obtain rfl : c = d := List.head_eq_of_cons_eq h
      exact absurd List.mem_cons_self hfront'
  | cons d front ih =>
    rw [List.mem_cons, not_or] at hfront
    rcases front' with _ | ⟨d', front'⟩
    · obtain rfl : d = c := List.head_eq_of_cons_eq h
      exact absurd rfl hfront.1
    · rw [List.mem_cons, not_or] at hfront'
      rw [List.cons_append, List.cons_append, List.cons.injEq] at h
      obtain ⟨rfl, hrest⟩ := h
      obtain ⟨rfl, hback⟩ := ih hfront.2 hfront'.2 hrest
      exact ⟨rfl, hback⟩

theorem append_cons_inj_of_notMem_backs {c : Char} {front front' back back' : List Char}
    (hback : c ∉ back) (hback' : c ∉ back') (h : front ++ c :: back = front' ++ c :: back') :
    front = front' ∧ back = back' := by
  have hreversed : back.reverse ++ c :: front.reverse = back'.reverse ++ c :: front'.reverse := by
    have hreverse := congrArg List.reverse h
    rwa [List.reverse_append, List.reverse_append, List.reverse_cons, List.reverse_cons,
      List.append_assoc, List.append_assoc] at hreverse
  obtain ⟨hsame, hsame'⟩ := append_cons_inj_of_notMem_fronts
    (fun hmem ↦ hback (List.mem_reverse.mp hmem)) (fun hmem ↦ hback' (List.mem_reverse.mp hmem))
    hreversed
  exact ⟨List.reverse_inj.mp hsame', List.reverse_inj.mp hsame⟩

/-! ## Numerals -/

theorem sizeText_eq_repr (n : Option Nat) : sizeText n = (n.elim (-1) Int.ofNat).repr := by
  rcases n with _ | n
  · rfl
  · rfl

/-- Written with digits and minus signs only. -/
def Numeral (cs : List Char) : Prop := ∀ c ∈ cs, c.isDigit = true ∨ c = '-'

namespace Numeral

theorem natRepr (n : Nat) : Numeral n.repr.toList := by
  intro c hmem
  rw [Nat.toList_repr] at hmem
  exact .inl (Nat.isDigit_of_mem_toDigits (by decide) (by decide) hmem)

theorem intRepr (i : Int) : Numeral i.repr.toList := by
  rw [Int.repr_eq_if]
  split
  · exact natRepr _
  · rw [String.toList_append]
    intro c hmem
    rcases List.mem_append.mp hmem with hsign | hdigits
    · exact .inr (List.mem_singleton.mp hsign)
    · exact natRepr _ c hdigits

theorem sizeText (n : Option Nat) : Numeral (sizeText n).toList := by
  rw [sizeText_eq_repr]
  exact intRepr _

theorem notMem {cs : List Char} (h : Numeral cs) {c : Char} (hc : ¬(c.isDigit = true ∨ c = '-')) :
    c ∉ cs := fun hmem ↦ hc (h c hmem)

theorem append_cons_inj {front front' back back' : List Char} (hfront : Numeral front)
    (hfront' : Numeral front') {c : Char} (hc : ¬(c.isDigit = true ∨ c = '-'))
    (h : front ++ c :: back = front' ++ c :: back') : front = front' ∧ back = back' :=
  append_cons_inj_of_notMem_fronts (hfront.notMem hc) (hfront'.notMem hc) h

theorem natRepr_inj {n m : Nat} (h : n.repr = m.repr) : n = m := by
  have hdigits : Nat.toDigits 10 n = Nat.toDigits 10 m := by
    rw [← Nat.toList_repr, ← Nat.toList_repr, h]
  rw [← Nat.ofDigitChars_ten_toDigits (n := n), hdigits, Nat.ofDigitChars_ten_toDigits]

theorem natRepr_ne_minus (n : Nat) (digits : String) : n.repr ≠ "-" ++ digits := by
  intro h
  have hminus : '-' ∈ n.repr.toList := by
    rw [h, String.toList_append]
    exact List.mem_append_left _ (List.mem_singleton.mpr rfl)
  rw [Nat.toList_repr] at hminus
  have hdigit := Nat.isDigit_of_mem_toDigits (by decide) (by decide) hminus
  revert hdigit
  decide

theorem intRepr_inj {i j : Int} (h : i.repr = j.repr) : i = j := by
  rcases i with n | n
  · rcases j with m | m
    · rw [natRepr_inj h]
    · exact absurd h (natRepr_ne_minus n _)
  · rcases j with m | m
    · exact absurd h.symm (natRepr_ne_minus m _)
    · have hdigits : (n + 1).repr = (m + 1).repr := String.append_right_inj _ |>.mp h
      rw [Nat.succ.inj (natRepr_inj hdigits)]

end Numeral

theorem sizeText_injective {n m : Option Nat} (h : sizeText n = sizeText m) : n = m := by
  rw [sizeText_eq_repr, sizeText_eq_repr] at h
  have hsame := Numeral.intRepr_inj h
  rcases n with _ | n
  · rcases m with _ | m
    · rfl
    · cases hsame
  · rcases m with _ | m
    · cases hsame
    · rw [Int.ofNat.inj hsame]

theorem ByteSpan.eq_of_ends {span other : ByteSpan} (hstart : span.start? = other.start?)
    (hstop : span.stop? = other.stop?) : span = other := by
  rcases span with _ | ⟨start, stop⟩
  · rcases other with _ | ⟨start', stop'⟩
    · rfl
    · cases hstart
  · rcases other with _ | ⟨start', stop'⟩
    · cases hstart
    · cases hstart
      cases hstop
      rfl

/-! ## Escapes -/

theorem escapeLineChar_ne_nil (c : Char) : escapeLineChar c ≠ [] := by
  unfold escapeLineChar
  grind

/-- If neither character is a backslash, one that is written in front tells of a replacement. -/
theorem escapeLineChar_append_inj {c d : Char} {cs ds : List Char} (hc : c ≠ '\\') (hd : d ≠ '\\')
    (h : escapeLineChar c ++ cs = escapeLineChar d ++ ds) : c = d ∧ cs = ds := by
  unfold escapeLineChar at h
  grind

/-- **Escapes.** Without backslashes, no two texts are escaped alike. -/
theorem escapeLines_injective {text text' : String} (htext : '\\' ∉ text.toList)
    (htext' : '\\' ∉ text'.toList) (h : escapeLines text = escapeLines text') : text = text' := by
  have hlists := congrArg String.toList h
  rw [toList_escapeLines, toList_escapeLines] at hlists
  apply String.toList_inj.mp
  generalize text.toList = cs at htext hlists ⊢
  generalize text'.toList = ds at htext' hlists ⊢
  induction cs generalizing ds with
  | nil =>
    rcases ds with _ | ⟨d, ds⟩
    · rfl
    · rw [List.flatMap_nil, List.flatMap_cons, eq_comm, List.append_eq_nil_iff] at hlists
      exact absurd hlists.1 (escapeLineChar_ne_nil d)
  | cons c cs ih =>
    rw [List.mem_cons, not_or] at htext
    rcases ds with _ | ⟨d, ds⟩
    · rw [List.flatMap_nil, List.flatMap_cons, List.append_eq_nil_iff] at hlists
      exact absurd hlists.1 (escapeLineChar_ne_nil c)
    · rw [List.mem_cons, not_or] at htext'
      rw [List.flatMap_cons, List.flatMap_cons] at hlists
      obtain ⟨rfl, hrest⟩ :=
        escapeLineChar_append_inj (Ne.symm htext.1) (Ne.symm htext'.1) hlists
      rw [ih htext.2 ds htext'.2 hrest]

/-! ## Single lines -/

/-- There is nothing in the text that breaks or shifts a line. -/
def OneLine (cs : List Char) : Prop := ∀ c ∈ cs, c ≠ '\n' ∧ c ≠ '\r' ∧ c ≠ '\t'

theorem Numeral.oneLine {cs : List Char} (h : Numeral cs) : OneLine cs := by
  intro c hmem
  rcases h c hmem with hdigit | rfl
  · refine ⟨?_, ?_, ?_⟩
    all_goals
      rintro rfl
      cases hdigit
  · decide

theorem oneLine_escapeLines (text : String) : OneLine (escapeLines text).toList := by
  rw [toList_escapeLines]
  intro c hmem
  obtain ⟨c', -, hmem'⟩ := List.mem_flatMap.mp hmem
  unfold escapeLineChar at hmem'
  grind

/-! ## Lines for tokens -/

namespace Token

/-- What comes behind the text in the line for a token. -/
def lineTail (token : Token) : List Char :=
  ',' :: '<' :: (token.type.render.toList ++ '>' :: ((shownChannel token.channel).toList ++
    ',' :: ((sizeText token.position.line).toList ++ ':' ::
      (token.position.column.repr.toList ++ [']']))))

theorem toList_displayWith (token : Token) (text : Option String) :
    (token.displayWith text).toList =
      '[' :: '@' :: ((sizeText token.index).toList ++ ',' :: ((sizeText token.span.start?).toList ++
        ':' :: ((sizeText token.span.stop?).toList ++ '=' :: '\x27' :: ((shownText text).toList ++
          '\x27' :: token.lineTail)))) := by
  -- The equation of `displayWith` takes long to be made, so it is done without.
  delta displayWith
  simp only [ByteSpan.render, Position.render, lineTail, String.toList_append, List.append_assoc]
  rfl

theorem toList_shownChannel (channel : Channel) :
    (channel = .default ∧ (shownChannel channel).toList = []) ∨
      (shownChannel channel).toList = ",channel=".toList ++ channel.number.repr.toList := by
  rw [shownChannel]
  split
  · exact .inl ⟨‹_›, rfl⟩
  · exact .inr String.toList_append

theorem notMem_lineTail (token : Token) : '\x27' ∉ token.lineTail := by
  have hmark : ¬(Char.isDigit '\x27' = true ∨ '\x27' = '-') := by decide
  have hchannel : '\x27' ∉ (shownChannel token.channel).toList := by
    rcases toList_shownChannel token.channel with ⟨-, heq⟩ | heq
    · rw [heq]
      exact List.not_mem_nil
    · rw [heq, List.mem_append, not_or]
      exact ⟨by decide, (Numeral.natRepr _).notMem hmark⟩
  have htype := (Numeral.intRepr token.type.code).notMem hmark
  have hline := (Numeral.sizeText token.position.line).notMem hmark
  have hcolumn := (Numeral.natRepr token.position.column).notMem hmark
  rw [lineTail]
  simp only [List.mem_cons, List.mem_append, not_or]
  exact ⟨by decide, by decide, htype, by decide, hchannel, by decide, hline, by decide, hcolumn,
    by decide, List.not_mem_nil⟩

/-- A channel begins with a letter, and no line does. -/
theorem channel_eq_of_append_eq {channel channel' : Channel} {line line' back back' : List Char}
    (hline : Numeral line) (hline' : Numeral line')
    (h : (shownChannel channel).toList ++ ',' :: (line ++ ':' :: back) =
      (shownChannel channel').toList ++ ',' :: (line' ++ ':' :: back')) :
    channel = channel' ∧ line ++ ':' :: back = line' ++ ':' :: back' := by
  have hletter : ∀ line back more : List Char, Numeral line → ',' :: (line ++ ':' :: back) ≠
      ",channel=".toList ++ more := by
    intro line back more hline heq
    rcases line with _ | ⟨c, line⟩
    · cases heq
    · obtain rfl : c = 'c' := List.head_eq_of_cons_eq (List.tail_eq_of_cons_eq heq)
      exact hline.notMem (by decide) List.mem_cons_self
  rcases toList_shownChannel channel with ⟨rfl, heq⟩ | heq
  · rcases toList_shownChannel channel' with ⟨rfl, -⟩ | heq'
    · rw [heq] at h
      exact ⟨rfl, List.tail_eq_of_cons_eq h⟩
    · rw [heq, heq', List.nil_append, List.append_assoc] at h
      exact absurd h (hletter line back _ hline)
  · rcases toList_shownChannel channel' with ⟨rfl, heq'⟩ | heq'
    · rw [heq, heq', List.nil_append, List.append_assoc] at h
      exact absurd h.symm (hletter line' back' _ hline')
    · rw [heq, heq', List.append_assoc, List.append_assoc, List.append_cancel_left_eq] at h
      obtain ⟨hnumber, hrest⟩ :=
        (Numeral.natRepr _).append_cons_inj (Numeral.natRepr _) (by decide) h
      have hsame : channel.number = channel'.number :=
        Numeral.natRepr_inj (String.toList_inj.mp hnumber)
      exact ⟨congrArg Channel.mk hsame, hrest⟩

theorem eq_of_lineTail_eq {token other : Token} (h : token.lineTail = other.lineTail) :
    token.type = other.type ∧ token.channel = other.channel ∧ token.position = other.position := by
  rw [lineTail, lineTail, List.cons.injEq, List.cons.injEq] at h
  obtain ⟨htype, hrest⟩ :=
    (Numeral.intRepr _).append_cons_inj (Numeral.intRepr _) (by decide) h.2.2
  obtain ⟨hchannel, hplace⟩ :=
    channel_eq_of_append_eq (Numeral.sizeText _) (Numeral.sizeText _) hrest
  obtain ⟨hline, hcolumn⟩ :=
    (Numeral.sizeText _).append_cons_inj (Numeral.sizeText _) (by decide) hplace
  have hcode : token.type.code = other.type.code :=
    Numeral.intRepr_inj (String.toList_inj.mp htype)
  have hsize : token.position.line = other.position.line :=
    sizeText_injective (String.toList_inj.mp hline)
  have hnumber : token.position.column = other.position.column :=
    Numeral.natRepr_inj (String.toList_inj.mp (List.append_cancel_right hcolumn))
  have hposition : token.position = other.position := by
    cases hsame : token.position
    rw [hsame] at hsize hnumber
    rw [Position.mk.injEq]
    exact ⟨hsize, hnumber⟩
  exact ⟨congrArg TokenType.mk hcode, hchannel, hposition⟩

theorem eq_of_displayWith_eq {token other : Token} {text text' : Option String}
    (h : token.displayWith text = other.displayWith text') :
    (token.index = other.index ∧ token.span = other.span) ∧ shownText text = shownText text' ∧
      token.lineTail = other.lineTail := by
  have hlists := congrArg String.toList h
  rw [toList_displayWith, toList_displayWith, List.cons.injEq, List.cons.injEq] at hlists
  obtain ⟨hindex, hrest⟩ :=
    (Numeral.sizeText _).append_cons_inj (Numeral.sizeText _) (by decide) hlists.2.2
  obtain ⟨hstart, hrest⟩ :=
    (Numeral.sizeText _).append_cons_inj (Numeral.sizeText _) (by decide) hrest
  obtain ⟨hstop, hrest⟩ :=
    (Numeral.sizeText _).append_cons_inj (Numeral.sizeText _) (by decide) hrest
  -- The text may hold any number of quotation marks, so it is taken from behind.
  obtain ⟨htext, htail⟩ := append_cons_inj_of_notMem_backs token.notMem_lineTail
    other.notMem_lineTail (List.tail_eq_of_cons_eq hrest)
  refine ⟨⟨?_, ?_⟩, String.toList_inj.mp htext, htail⟩
  · exact sizeText_injective (String.toList_inj.mp hindex)
  · exact ByteSpan.eq_of_ends (sizeText_injective (String.toList_inj.mp hstart))
      (sizeText_injective (String.toList_inj.mp hstop))

theorem oneLine_shownText (text : Option String) : OneLine (shownText text).toList := by
  rcases text with _ | text
  · simp [shownText, OneLine]
  · exact oneLine_escapeLines text

theorem oneLine_shownChannel (channel : Channel) : OneLine (shownChannel channel).toList := by
  rcases toList_shownChannel channel with ⟨-, heq⟩ | heq
  · rw [heq]
    exact List.forall_mem_nil _
  · have hword : OneLine ",channel=".toList := by simp [OneLine]
    rw [heq]
    exact List.forall_mem_append.mpr ⟨hword, (Numeral.natRepr _).oneLine⟩

theorem oneLine_displayWith (token : Token) (text : Option String) :
    OneLine (token.displayWith text).toList := by
  have hindex := (Numeral.sizeText token.index).oneLine
  have hstart := (Numeral.sizeText token.span.start?).oneLine
  have hstop := (Numeral.sizeText token.span.stop?).oneLine
  have htype := (Numeral.intRepr token.type.code).oneLine
  have hline := (Numeral.sizeText token.position.line).oneLine
  have hcolumn := (Numeral.natRepr token.position.column).oneLine
  have htext := oneLine_shownText text
  have hchannel := oneLine_shownChannel token.channel
  rw [toList_displayWith, lineTail]
  simp only [OneLine, List.forall_mem_cons, List.forall_mem_append] at *
  exact ⟨by decide, by decide, hindex, by decide, hstart, by decide, hstop, by decide, by decide,
    htext, by decide, by decide, by decide, htype, by decide, hchannel, by decide, hline,
    by decide, hcolumn, by decide, List.forall_mem_nil _⟩

/-! ## Lines taken apart -/

theorem display_eq_ok_iff {token : Token} {line : String} :
    token.display = .ok line ↔ ∃ text, token.text = .ok text ∧ token.displayWith text = line := by
  constructor
  · intro h
    rw [display] at h
    rcases htext : token.text with e | text
    · rw [htext] at h
      cases h
    · rw [htext, Except.ok.injEq] at h
      exact ⟨text, rfl, h⟩
  · rintro ⟨text, htext, rfl⟩
    exact display_of_text htext

/-- Two tokens of which a reader sees the same. -/
structure ShownAlike (token other : Token) : Prop where
  index_eq : token.index = other.index
  span_eq : token.span = other.span
  type_eq : token.type = other.type
  channel_eq : token.channel = other.channel
  position_eq : token.position = other.position
  /-- A missing text looks like the one that says so. -/
  shownText_eq : ∃ text text', token.text = .ok text ∧ other.text = .ok text' ∧
    shownText text = shownText text'
  /-- Only a backslash hides a difference between two texts. -/
  text_eq : ∀ text text', token.text = .ok (some text) → other.text = .ok (some text') →
    '\\' ∉ text.toList → '\\' ∉ text'.toList → text = text'

theorem shownAlike_of_displayWith_eq {token other : Token} {text text' : Option String}
    (htext : token.text = .ok text) (htext' : other.text = .ok text')
    (h : token.displayWith text = other.displayWith text') : ShownAlike token other := by
  obtain ⟨⟨hindex, hspan⟩, hshown, htail⟩ := eq_of_displayWith_eq h
  obtain ⟨htype, hchannel, hposition⟩ := eq_of_lineTail_eq htail
  refine ⟨hindex, hspan, htype, hchannel, hposition, ⟨text, text', htext, htext', hshown⟩, ?_⟩
  intro given given' hgiven hgiven' hplain hplain'
  obtain rfl : text = some given := Except.ok.inj (htext.symm.trans hgiven)
  obtain rfl : text' = some given' := Except.ok.inj (htext'.symm.trans hgiven')
  exact escapeLines_injective hplain hplain' hshown

/-- **Lines taken apart.** The line of a token is a single one, and it belongs to no token but those
that a reader cannot tell from it. Escapes are written for one character at a time. -/
theorem line_taken_apart {token : Token} {line : String} (h : token.display = .ok line) :
    OneLine line.toList ∧ (∀ other : Token, other.display = .ok line → ShownAlike token other) ∧
      ∀ text, (escapeLines text).toList = text.toList.flatMap escapeLineChar := by
  obtain ⟨text, htext, rfl⟩ := display_eq_ok_iff.mp h
  refine ⟨token.oneLine_displayWith text, ?_, toList_escapeLines⟩
  intro other hother
  obtain ⟨text', htext', hsame⟩ := display_eq_ok_iff.mp hother
  exact shownAlike_of_displayWith_eq htext htext' hsame.symm

/-- A token with a text that looks like the end of a line. -/
def ragged (text : String) : Token where
  type := ⟨5⟩
  ownText := some text
  channel := .hidden
  span := .inclusive 2 1
  position := ⟨some 1, 0⟩

/-- A line feed and its escape are shown alike. -/
theorem line_taken_apart_ragged :
    (ragged "\n',<5>,1:0]").display = .ok "[@-1,2:1='\\n',<5>,1:0]',<5>,channel=1,1:0]" ∧
      ShownAlike (ragged "\n',<5>,1:0]") (ragged "\\n',<5>,1:0]") := by
  have hline : (ragged "\n',<5>,1:0]").display =
      .ok "[@-1,2:1='\\n',<5>,1:0]',<5>,channel=1,1:0]" := by
    rfl
  exact ⟨hline, (line_taken_apart hline).2.1 _ rfl⟩

end Token

end TokenReplay
