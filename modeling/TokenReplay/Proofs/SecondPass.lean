import TokenReplay.Proofs.EndColumn
import TokenReplay.Proofs.Halting
import TokenReplay.Proofs.Place

/-!
# Passing over what a pass gave

The last token that a pass gives is of end type, and it is the only one. Most often it stood behind
a list, as the end of stream token. In a source over everything that the pass gave it is a token of
the list like the others, and it ends the next pass from there. So the next pass gives the same once
more, but it leaves its source in a state of another kind: the list has run out, nobody has called
behind it yet, and the factory was not asked for anything.

That holds as long as logging is off. With logging on, a token that was handed out behind a list
without being shown has to be shown now.

## The end of the end

Another call has a second end of stream token made, and the last token of the list is the first one
then. If that was made for a source by a common factory, it ends where it begins
(`Token.EndsInPlace`): behind an empty span comes the same empty span, behind an unknown one an
unknown one, and there is no line feed in its text. It is only the column that gets lost. It is
counted from the text alone, and so it is three, whichever column the first one has.
-/

namespace TokenReplay

/-! ## Tokens that end where they begin -/

namespace Token

/-- Behind the token are its own span and line. The column is the length of its text. -/
structure EndsInPlace (token : Token) : Prop where
  spanAfter_eq : token.spanAfter = token.span
  lineAfter_eq : token.lineAfter = .ok token.position.line
  columnAfter_eq : token.columnAfter = .ok 3

variable {token : Token} {text : String}

theorem spanAfter_eq_emptyAfter {stop : Nat} (h : token.spanAfter.stop? = some stop) :
    token.spanAfter = .emptyAfter stop := by
  rw [spanAfter] at h ⊢
  cases hstop : token.span.stop? with
  | none =>
    rw [hstop] at h
    cases h
  | some last =>
    rw [hstop] at h
    exact congrArg ByteSpan.emptyAfter (ByteSpan.stop?_emptyAfter_eq_some_iff.mp h).1

/-- An empty span is found again behind itself, and so is an unknown one. -/
theorem spanAfter_eq_span
    (h : ∀ stop, token.span.stop? = some stop → token.span = .emptyAfter stop) :
    token.spanAfter = token.span := by
  rw [spanAfter]
  cases hspan : token.span with
  | unknown => rfl
  | inclusive start stop =>
    rw [hspan] at h
    exact (h stop rfl).symm

theorem le_maxSize_of_lineAfter {line : Nat} (h : token.lineAfter = .ok (some line)) :
    line ≤ maxSize := by
  unfold lineAfter at h
  split at h
  · cases h
  split at h
  · cases h
  split at h
  · cases h
  case h_2 hsum =>
    cases h
    exact (addSize_eq_ok_iff.mp hsum).2

theorem lineAfter_of_notMem (htext : token.text = .ok (some text)) (hfeed : '\n' ∉ text.toList)
    (hline : ∀ line, token.position.line = some line → line ≤ maxSize) :
    token.lineAfter = .ok token.position.line := by
  rw [lineAfter, htext]
  cases hposition : token.position.line with
  | none => rfl
  | some line =>
    have hsum : addSize line (lineFeeds text) = .ok line := by
      rw [lineFeeds, List.count_eq_zero_of_not_mem hfeed]
      exact addSize_eq_ok_iff.mpr ⟨rfl, hline line hposition⟩
    dsimp only
    rw [Option.getD_some, hsum]

theorem columnAfter_of_notMem (htext : token.text = .ok (some text))
    (hfeed : '\n' ∉ text.toList) : token.columnAfter = .ok text.utf8ByteSize := by
  rw [columnAfter, htext]
  exact congrArg Except.ok (endColumn_of_notMem hfeed)

end Token

namespace Source

variable {source : Source} {session : Session}

/-! ## What common factories make -/

/-- The token that a common factory makes for the end of the list, if that is at `position`. -/
def endToken (source : Source) (position : Position) : Token where
  type := .eof
  ownText := some "EOF"
  span := source.eofSpan
  position := position
  origin := ⟨some source.id.key, source.stream?⟩

theorem next_of_spent_of_place {copyText : Bool} {position : Position}
    (hrest : source.rest = .spent) (hcommon : source.factory.value = .common copyText)
    (hline : source.line = .ok position.line) (hcolumn : source.column = .ok position.column)
    (session : Session) :
    ∃ after : Session, after.nextSerial = session.nextSerial + 1 ∧
      source.next session =
        ⟨.ok ⟨session.nextSerial, source.endToken position⟩,
          source.past [] (.ended ⟨session.nextSerial, source.endToken position⟩), after⟩ := by
  let request : CreateRequest :=
    { origin := ⟨some source.id.key, source.stream?⟩
      type := .eof
      text := some "EOF"
      channel := .default
      span := source.eofSpan
      position := position }
  have hrequest : source.eofRequest = .ok request :=
    eofRequest_eq_ok_iff.mpr ⟨hline, hcolumn, rfl⟩
  exact next_of_spent_of_common hrest hcommon hrequest session

/-- The next call has `eof` made by a common factory. -/
structure Builds (source : Source) (session : Session) (eof : Shared Token) : Prop where
  rest_eq : source.rest = .spent
  common : ∃ copyText, source.factory.value = .common copyText
  outcome_eq : (source.next session).outcome = .ok eof

variable {eof : Shared Token}

theorem Builds.exists_place (h : source.Builds session eof) :
    ∃ position : Position, source.line = .ok position.line ∧
      source.column = .ok position.column ∧
      eof = ⟨session.nextSerial, source.endToken position⟩ ∧
      (source.next session).session.nextSerial = session.nextSerial + 1 := by
  obtain ⟨hrest, ⟨copyText, hcommon⟩, houtcome⟩ := h
  cases hrequest : source.eofRequest with
  | error e =>
    rw [next_of_unplaced hrest hrequest] at houtcome
    cases houtcome
  | ok request =>
    obtain ⟨hline, hcolumn, -⟩ := eofRequest_eq_ok_iff.mp hrequest
    obtain ⟨after, hserial, hnext⟩ := next_of_spent_of_place hrest hcommon hline hcolumn session
    rw [hnext] at houtcome ⊢
    exact ⟨request.position, hline, hcolumn, (Except.ok.inj houtcome).symm, hserial⟩

theorem eofSpan_eq_emptyAfter {stop : Nat} (h : source.eofSpan.stop? = some stop) :
    source.eofSpan = .emptyAfter stop := by
  rw [eofSpan] at h ⊢
  cases hpassed : source.passed with
  | nil =>
    rw [hpassed] at h
    cases h
  | cons last earlier =>
    rw [hpassed] at h
    exact Token.spanAfter_eq_emptyAfter h

theorem le_maxSize_of_line {line : Nat} (hrest : source.rest = .spent)
    (h : source.line = .ok (some line)) : line ≤ maxSize := by
  rw [line_of_spent hrest] at h
  cases hhead : source.passed.head? with
  | none =>
    rw [hhead] at h
    cases h
  | some last =>
    rw [hhead] at h
    exact Token.le_maxSize_of_lineAfter h

theorem Builds.endsInPlace (h : source.Builds session eof) : eof.value.EndsInPlace := by
  obtain ⟨position, hline, -, rfl, -⟩ := h.exists_place
  have htext : (source.endToken position).text = .ok (some "EOF") := Token.text_of_ownText rfl
  have hfeed : '\n' ∉ "EOF".toList := by decide
  refine ⟨?_, ?_, Token.columnAfter_of_notMem htext hfeed⟩
  · exact Token.spanAfter_eq_span fun _ ↦ eofSpan_eq_emptyAfter
  · refine Token.lineAfter_of_notMem htext hfeed fun line hposition ↦ ?_
    exact le_maxSize_of_line h.rest_eq (hline.trans (congrArg Except.ok hposition))

/-! ## A second end of stream token -/

/-- The next call builds `second`, for the place behind `eof`. -/
structure BuildsBehind (source : Source) (session : Session) (eof second : Shared Token) :
    Prop where
  next_eq : ∃ after,
    source.next session = ⟨.ok second, source.past [] (.ended second), after⟩
  serial_eq : second.serial = session.nextSerial
  isEof_eq_true : second.value.isEof = true
  span_eq : second.value.span = eof.value.span
  line_eq : second.value.position.line = eof.value.position.line
  /-- It does not matter in which column `eof` is. -/
  column_eq : second.value.position.column = 3
  stream_eq : second.value.origin.stream = eof.value.origin.stream

theorem exists_buildsBehind {copyText : Bool} (hrest : source.rest = .spent)
    (hcommon : source.factory.value = .common copyText) (hlast : source.passed.head? = some eof)
    (hplace : eof.value.EndsInPlace) (session : Session) :
    ∃ second, source.BuildsBehind session eof second := by
  have hline : source.line = .ok eof.value.position.line := by
    rw [line_of_spent hrest, hlast]
    exact hplace.lineAfter_eq
  have hcolumn : source.column = .ok 3 := by
    rw [column_of_spent hrest, hlast]
    exact hplace.columnAfter_eq
  obtain ⟨after, -, hnext⟩ :=
    @next_of_spent_of_place source copyText ⟨eof.value.position.line, 3⟩ hrest hcommon hline hcolumn
      session
  refine ⟨_, ⟨after, hnext⟩, rfl, rfl, ?_, rfl, rfl, ?_⟩
  · rw [endToken, eofSpan_eq, hlast]
    exact hplace.spanAfter_eq
  · rw [endToken, stream?_of_spent hrest, hlast]
    rfl

/-! ## New sources over what was given -/

/-- A new source over `list`, with a given factory or with one of its own. -/
inductive IsNew (list : List (Shared Token)) : Source → Prop
  | withFactory (name : String) (factory : Shared Factory) (session : Session) :
      IsNew list (withFactory list name factory session).1
  | ofTokens (name : String) (session : Session) : IsNew list (ofTokens list name session).1

theorem IsNew.passed_eq {list : List (Shared Token)} (h : IsNew list source) :
    source.passed = [] := by
  cases h <;> rfl

theorem IsNew.rest_eq {list : List (Shared Token)} (h : IsNew list source) :
    source.rest = .ofList list := by
  cases h <;> rfl

section NotLogging

variable {front later : List (Shared Token)} {mark : Shared Token} {limit : Nat}
variable (hquiet : session.logging = false)
include hquiet

theorem next_of_not_logging (hrest : source.rest = .tokens mark later) :
    source.next session = ⟨.ok mark, source.past [mark] (.ofList later), session⟩ :=
  next_of_tokens hrest (Session.logHandedOut_of_not_logging hquiet _ _ _)

/-- Without logging, calls in a row lead up to the next mark of the list and do nothing else. -/
theorem haul_of_not_logging (hlist : source.rest.toList = front ++ mark :: later)
    (hfront : ∀ token ∈ front, token.value.isEof = false) (hmark : mark.value.isEof = true)
    (hlimit : front.length < limit) :
    (haul limit source session).outcome = .ok true ∧
      (haul limit source session).tokens = front ++ [mark] ∧
      (haul limit source session).state = source.past (front ++ [mark]) (.ofList later) ∧
      (haul limit source session).session = session := by
  obtain ⟨limit, rfl⟩ := Nat.exists_eq_add_of_lt hlimit
  clear hlimit
  induction front generalizing source with
  | nil =>
    have hnext := next_of_not_logging hquiet (Rest.toList_eq_cons_iff.mp hlist)
    have hgiven : (source.next session).outcome = .ok mark := by rw [hnext]
    rw [haul_succ_of_isEof hgiven hmark]
    refine ⟨rfl, Haul.tokens_single hgiven _, ?_, ?_⟩
    · rw [Haul.single, Pull.step, hnext]
      rfl
    · rw [Haul.single, Pull.step, hnext]
  | cons token front ih =>
    obtain ⟨htoken, hfront⟩ := List.forall_mem_cons.mp hfront
    rw [List.cons_append] at hlist
    have hnext := next_of_not_logging hquiet (Rest.toList_eq_cons_iff.mp hlist)
    have hgiven : (source.next session).outcome = .ok token := by rw [hnext]
    have hback : (source.past [token] (.ofList (front ++ mark :: later))).rest.toList =
        front ++ mark :: later := Rest.toList_ofList _
    obtain ⟨houtcome, htokens, hstate, hsession⟩ := ih hback hfront
    rw [List.length_cons, Nat.succ_add, Nat.succ_add, haul_succ hgiven htoken,
      Haul.outcome_cons, Haul.tokens_cons hgiven, Haul.state_cons, Haul.session_cons, hnext]
    dsimp only
    refine ⟨houtcome, ?_, ?_, hsession⟩
    · rw [htokens, List.cons_append]
    · rw [hstate, past_past, List.singleton_append, List.cons_append]

end NotLogging

/-- As long as nothing is logged, a pass gives `front` and `last` and a recording keeps `front`, and
both leave the source as `state`. -/
structure Repeats (source : Source) (front : List (Shared Token)) (last : Shared Token)
    (state : Source) : Prop where
  /-- The session stays as it was, so that no request is sent to any factory. -/
  drain_eq : ∀ quiet : Session, quiet.logging = false →
    source.drain quiet = some ⟨.ok (front ++ [last]), state, quiet⟩
  record_eq : ∀ (quiet : Session) (name : String), quiet.logging = false →
    ∃ step made, source.record name quiet = some step ∧ step.outcome = .ok made ∧
      step.state = state ∧ step.session.calls = quiet.calls ∧
      made.tokens = front ∧ made.cursor = 0 ∧ made.id.name = name
  tokens_eq : state.tokens = front ++ [last]
  cursor_eq : state.cursor = (front ++ [last]).length
  /-- Nobody has called behind the list. -/
  eof?_eq : state.eof? = none
  factory_eq : state.factory = source.factory

theorem IsNew.repeats {front : List (Shared Token)} {last : Shared Token}
    (h : IsNew (front ++ [last]) source)
    (hfront : ∀ token ∈ front, token.value.isEof = false) (hlast : last.value.isEof = true) :
    source.Repeats front last (source.past (front ++ [last]) .spent) := by
  have hlist : source.rest.toList = front ++ last :: [] := by
    rw [h.rest_eq, Rest.toList_ofList]
  have hlength : front.length < source.rest.toList.length := by
    rw [hlist, List.length_append]
    exact Nat.lt_succ_self _
  refine ⟨fun quiet hquiet ↦ ?_, fun quiet name hquiet ↦ ?_, ?_, ?_, rfl, rfl⟩
  · obtain ⟨houtcome, htokens, hstate, hsession⟩ := haul_of_not_logging hquiet hlist hfront hlast
      (Nat.lt_add_right 2 hlength)
    rw [drain_eq_haul, Haul.finish, houtcome]
    dsimp only
    rw [htokens, hstate, hsession]
    rfl
  · obtain ⟨houtcome, htokens, hstate, hsession⟩ := haul_of_not_logging hquiet hlist hfront hlast
      (Nat.lt_add_right 1 hlength)
    rw [record_eq_haul]
    dsimp only
    rw [houtcome, htokens, hstate, hsession, List.dropLast_concat,
      Session.emit_of_not_logging hquiet]
    exact ⟨_, _, rfl, rfl, rfl, rfl, tokens_ofTokens _ _ _, rfl, rfl⟩
  · rw [tokens, past, h.passed_eq, Rest.toList_spent, List.append_nil, List.append_nil,
      List.reverse_reverse]
  · rw [cursor, past, h.passed_eq, List.append_nil, List.length_reverse]

/-- **Passing over what a pass gave.** What a pass gives ends with its only token of end type. If
nothing is logged, a pass over a new source made of that, with any name and any factory, gives the
same tokens once more. It leaves the source at the end of its list, without an end of stream token
and without a request having been sent, and a recording keeps everything but the last token. If that
token was made for some source by a common factory, and there is a common factory to ask, then the
next call builds one of its own behind it, at the same place but for the column. -/
theorem repeats_of_drain {step : Step Source (List (Shared Token))} {list : List (Shared Token)}
    (hdrain : source.drain session = some step) (hok : step.outcome = .ok list) :
    ∃ front last, list = front ++ [last] ∧ last.value.isEof = true ∧
      (∀ token ∈ front, token.value.isEof = false) ∧
      ∀ fresh, IsNew list fresh → ∃ state, fresh.Repeats front last state ∧
        ∀ copyText, fresh.factory.value = .common copyText →
        ∀ (maker : Source) (made : Session), maker.Builds made last →
        ∀ later, ∃ second, state.BuildsBehind later last second ∧
          ((maker.next made).session.nextSerial ≤ later.nextSerial →
            second.serial ≠ last.serial) := by
  rw [drain_eq_haul] at hdrain
  obtain ⟨houtcome, rfl⟩ := Haul.outcome_of_finish_eq_some hdrain hok
  obtain ⟨front, last, htokens, hlast, hfront⟩ := tokens_haul_of_outcome_eq_true houtcome
  rw [htokens]
  refine ⟨front, last, rfl, hlast, hfront, fun fresh hnew ↦ ⟨_, hnew.repeats hfront hlast, ?_⟩⟩
  intro copyText hcommon maker made hbuilds later
  have hhead : (fresh.past (front ++ [last]) .spent).passed.head? = some last := by
    rw [past, List.reverse_append]
    rfl
  obtain ⟨second, hsecond⟩ :=
    exists_buildsBehind (rest_past _ _ _) hcommon hhead hbuilds.endsInPlace later
  refine ⟨second, hsecond, fun hlater ↦ ?_⟩
  obtain ⟨position, -, -, hmade, hserial⟩ := hbuilds.exists_place
  rw [hsecond.serial_eq, hmade]
  rw [hserial] at hlater
  exact Nat.ne_of_gt hlater

/-- The first end of stream token is in column seven, the second one in column three. -/
theorem repeats_of_drain_broken :
    let source := (withFactory History.brokenTokens "unit" ⟨0, .common true⟩ {}).1
    let now : Session := { nextSerial := 10 }
    let later : Session := { nextSerial := 20 }
    ∃ step eof state second,
      source.drain now = some step ∧ step.outcome = .ok (History.brokenTokens ++ [eof]) ∧
      eof.value.position = ⟨some 2, 7⟩ ∧
      (ofTokens (History.brokenTokens ++ [eof]) "again" later).1.drain later =
        some ⟨.ok (History.brokenTokens ++ [eof]), state, later⟩ ∧
      (state.next later).outcome = .ok second ∧ second.serial ≠ eof.serial ∧
      second.value.position = ⟨some 2, 3⟩ := by
  intro source now later
  obtain ⟨step, eof, hdrain, hok, hposition, hmade⟩ : ∃ step eof,
      source.drain now = some step ∧ step.outcome = .ok (History.brokenTokens ++ [eof]) ∧
      eof.value.position = ⟨some 2, 7⟩ ∧
      ((source.past History.brokenTokens .spent).next now).outcome = .ok eof :=
    ⟨_, _, rfl, rfl, rfl, rfl⟩
  obtain ⟨front, last, hlist, -, -, hfresh⟩ := repeats_of_drain hdrain hok
  obtain ⟨rfl, hlast⟩ := List.append_inj' hlist rfl
  obtain rfl : eof = last := List.singleton_inj.mp hlast
  obtain ⟨state, hrepeats, hsecond⟩ := hfresh _ (.ofTokens "again" later)
  have hbuilds : (source.past History.brokenTokens .spent).Builds now eof :=
    ⟨rfl, ⟨true, rfl⟩, hmade⟩
  obtain ⟨second, hbehind, hother⟩ := hsecond false rfl _ now hbuilds later
  obtain ⟨after, hnext⟩ := hbehind.next_eq
  refine ⟨step, eof, state, second, hdrain, hok, hposition, hrepeats.drain_eq later rfl,
    by rw [hnext], hother ?_, ?_⟩
  · obtain ⟨-, -, -, -, hserial⟩ := hbuilds.exists_place
    rw [hserial]
    decide
  · have hline := hbehind.line_eq
    rw [hposition] at hline
    exact congr (congrArg Position.mk hline) hbehind.column_eq

end Source

end TokenReplay
