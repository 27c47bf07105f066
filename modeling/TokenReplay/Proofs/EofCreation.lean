import TokenReplay.Proofs.Factories
import TokenReplay.Proofs.History

/-!
# The end of stream token is made once

A source sends at most one request to a factory in all its life, if its factories answer. It is sent
by the first call that succeeds behind the list, and it goes to the factory that is in place at that
moment. What it asks for depends on the last token of the list and on nothing else: `endRequest` has
it in full, but for the position, which is what the source says of itself just before the call. That
has to be said with care, since after the call the source speaks of the new token.

From then on the new token is all that the source hands out, whichever factories come after.

## The invariant

A history is in one of two stages. Before the end of stream token is made, no request was sent and
no call behind the list has succeeded (`History.Unmade`). Afterwards the calls fall apart into those
before the one that had it made, that one, and those after it (`History.Made`). A call that fails
stays in the stage it found: behind the list it fails for want of a position, and then no request
was sent.
-/

namespace TokenReplay

/-- What a source asks for at the end of a list. -/
def endRequest (tokens : List (Shared Token)) (key : SourceKey) (position : Position) :
    CreateRequest where
  origin := ⟨some key, tokens.getLast?.bind fun last ↦ last.value.origin.stream⟩
  type := .eof
  text := some "EOF"
  channel := .default
  span :=
    match tokens.getLast?.bind fun last ↦ last.value.span.stop? with
    | some stop => .emptyAfter stop
    | none => .unknown
  position := position

/-- Nothing that a source asks for ends at the last offset. -/
theorem lt_maxSize_of_stop?_endRequest {tokens : List (Shared Token)} {key : SourceKey}
    {position : Position} {stop : Nat}
    (h : (endRequest tokens key position).span.stop? = some stop) : stop < maxSize := by
  rw [endRequest] at h
  dsimp only at h
  split at h
  case h_1 last hlast => exact (ByteSpan.stop?_emptyAfter_eq_some_iff.mp h).2
  case h_2 => cases h

namespace Source

variable {source : Source}

/-- Behind the list, the token that was handed out last is the last one of the list. -/
theorem getLast?_tokens_of_spent (hrest : source.rest = .spent) :
    source.tokens.getLast? = source.passed.head? := by
  rw [tokens, hrest, Rest.toList_spent, List.append_nil, List.getLast?_reverse]

theorem eq_endRequest_of_spent {request : CreateRequest} (hrest : source.rest = .spent)
    (h : source.eofRequest = .ok request) :
    request = endRequest source.tokens source.id.key request.position := by
  obtain ⟨-, -, hrequest⟩ := eofRequest_eq_ok_iff.mp h
  rw [endRequest, getLast?_tokens_of_spent hrest]
  rw [stream?, hrest, eofSpan] at hrequest
  generalize request.position = position at hrequest ⊢
  rw [hrequest]
  cases source.passed with
  | nil => rfl
  | cons last earlier => rfl

end Source

namespace History

variable {tokens : List (Shared Token)} {id : SourceId} {history : History}

/-! ## The two stages -/

/-- No call has succeeded behind the list. -/
structure Unmade (tokens : List (Shared Token)) (history : History) : Prop where
  calls_eq : history.calls = []
  eof?_eq : history.source.eof? = none
  token?_eq : ∀ pull ∈ history.pulls, pull.source.cursor = tokens.length → pull.token? = none

/-- The call `pull`, made between `before` and `after`, had `eof` made for the source `id`. -/
structure Made (tokens : List (Shared Token)) (id : SourceId) (history : History)
    (before : List Pull) (pull : Pull) (after : List Pull) (eof : Shared Token) : Prop where
  pulls_eq : history.pulls = before ++ pull :: after
  /-- It is the first call to succeed behind the list. -/
  token?_before : ∀ earlier ∈ before, earlier.source.cursor = tokens.length → earlier.token? = none
  cursor_eq : pull.source.cursor = tokens.length
  token?_eq : pull.token? = some eof
  /-- Its request goes to the factory in place, with the position that the source is at, and `eof`
  is what comes back. -/
  request_eq : ∃ position creation, pull.source.line = .ok position.line ∧
    pull.source.column = .ok position.column ∧
    pull.calls = [⟨pull.source.factory.serial, some id.name, endRequest tokens id.key position⟩] ∧
    pull.source.factory.value.create (endRequest tokens id.key position) = .ok creation ∧
    (pull.session.realize creation.product).1 = eof
  /-- There is no request but that one. -/
  calls_eq : history.calls = pull.calls
  token?_after : ∀ later ∈ after, later.token? = some eof
  eof?_eq : history.source.eof? = some eof

theorem pull_eq {session : Session} {step : Step Source (Shared Token)}
    (h : history.source.next session = step) :
    history.pull session =
      ⟨step.state, history.pulls ++ [⟨history.source, session⟩],
        history.calls ++ step.session.callsSince session⟩ := by
  subst h
  rfl

theorem Unmade.pull_of_next_eq (h : history.Unmade tokens) {session : Session}
    {step : Step Source (Shared Token)} (hnext : history.source.next session = step)
    (hcalls : step.session.calls = session.calls) (heof : step.state.eof? = none)
    (htoken : history.source.cursor = tokens.length → step.outcome.toOption = none) :
    (history.pull session).Unmade tokens := by
  rw [pull_eq hnext]
  refine ⟨?_, heof, ?_⟩
  · rw [h.calls_eq, Session.callsSince_of_calls_eq hcalls, List.append_nil]
  · intro pull hmem hcursor
    rcases List.mem_append.mp hmem with hmem | hmem
    · exact h.token?_eq pull hmem hcursor
    · obtain rfl := List.mem_singleton.mp hmem
      rw [Pull.token?, Pull.step, hnext]
      exact htoken hcursor

/-- **The step from one stage to the other.** -/
theorem Unmade.pull (h : history.Unmade tokens) (htokens : history.source.tokens = tokens)
    (hid : history.source.id = id) (hanswers : history.source.factory.value.Answers)
    (session : Session) :
    (history.pull session).Unmade tokens ∨
      ∃ before pull after eof, (history.pull session).Made tokens id before pull after eof := by
  have hsize : history.source.size = tokens.length := by rw [← htokens, Source.length_tokens]
  generalize hnext : history.source.next session = step
  cases Source.advance_of_next_eq hnext with
  | listed hrest hlog =>
    refine .inl (h.pull_of_next_eq hnext (Session.calls_of_logHandedOut hlog) ?_ ?_)
    · exact Rest.eof?_ofList _
    -- A token of the list is not handed out behind it.
    · intro hcursor
      rw [← hsize] at hcursor
      exact absurd hcursor (Source.cursor_ne_size_of_tokens hrest)
  | unshown hrest hlog => exact .inl (h.pull_of_next_eq hnext rfl h.eof?_eq fun _ ↦ rfl)
  | again hrest =>
    have hsome := Source.eof?_eq_some_iff.mpr hrest
    rw [h.eof?_eq] at hsome
    cases hsome
  | unplaced hrest hrequest => exact .inl (h.pull_of_next_eq hnext rfl h.eof?_eq fun _ ↦ rfl)
  | refused hrest hrequest hcreate hcalls =>
    -- The factory answers whatever the source asks of it.
    rw [Source.eq_endRequest_of_spent hrest hrequest] at hcreate
    obtain ⟨creation, hcreation⟩ := hanswers _ fun _ ↦ lt_maxSize_of_stop?_endRequest
    rw [hcreate] at hcreation
    cases hcreation
  | @built request creation eof after hrest hrequest hcreate heof hcalls =>
    obtain ⟨hline, hcolumn, -⟩ := Source.eofRequest_eq_ok_iff.mp hrequest
    have hend := Source.eq_endRequest_of_spent hrest hrequest
    rw [htokens, hid] at hend
    generalize request.position = position at hline hcolumn hend
    subst hend
    have hpull : (⟨history.source, session⟩ : Pull).calls =
        [⟨history.source.factory.serial, some id.name, endRequest tokens id.key position⟩] := by
      rw [Pull.calls, Pull.step, hnext, Session.callsSince_of_calls_push hcalls, Source.callFor,
        hid]
    refine .inr ⟨history.pulls, ⟨history.source, session⟩, [], eof, ?_⟩
    rw [pull_eq hnext]
    refine ⟨rfl, h.token?_eq, ?_, ?_, ?_, ?_, ?_, rfl⟩
    · rw [Source.cursor_eq_size_of_spent hrest, hsize]
    · rw [Pull.token?, Pull.step, hnext]
      rfl
    · exact ⟨position, creation, hline, hcolumn, hpull, hcreate, heof⟩
    · rw [h.calls_eq, List.nil_append, Pull.calls, Pull.step, hnext]
    · intro later hmem
      cases hmem

theorem Made.pull {before : List Pull} {pull : Pull} {after : List Pull} {eof : Shared Token}
    (h : history.Made tokens id before pull after eof) (session : Session) :
    (history.pull session).Made tokens id before pull (after ++ [⟨history.source, session⟩])
      eof := by
  have hnext := Source.next_of_eof? h.eof?_eq session
  rw [pull_eq hnext]
  refine ⟨?_, h.token?_before, h.cursor_eq, h.token?_eq, h.request_eq, ?_, ?_, h.eof?_eq⟩
  · rw [h.pulls_eq, List.append_assoc, List.cons_append]
  · rw [Session.callsSince_of_calls_eq rfl, List.append_nil]
    exact h.calls_eq
  · intro later hmem
    rcases List.mem_append.mp hmem with hmem | hmem
    · exact h.token?_after later hmem
    · obtain rfl := List.mem_singleton.mp hmem
      rw [Pull.token?, Pull.step, hnext]
      rfl

/-- The history is in one of the two stages. -/
def Staged (tokens : List (Shared Token)) (id : SourceId) (history : History) : Prop :=
  history.Unmade tokens ∨ ∃ before pull after eof, history.Made tokens id before pull after eof

theorem Staged.setFactory (h : history.Staged tokens id) (factory : Shared Factory) :
    (history.setFactory factory).Staged tokens id := by
  rcases h with h | ⟨before, pull, after, eof, h⟩
  · exact .inl ⟨h.calls_eq, h.eof?_eq, h.token?_eq⟩
  · exact .inr ⟨before, pull, after, eof, h.pulls_eq, h.token?_before, h.cursor_eq, h.token?_eq,
      h.request_eq, h.calls_eq, h.token?_after, h.eof?_eq⟩

theorem Staged.pull (h : history.Staged tokens id) (htokens : history.source.tokens = tokens)
    (hid : history.source.id = id) (hanswers : history.source.factory.value.Answers)
    (session : Session) : (history.pull session).Staged tokens id := by
  rcases h with h | ⟨before, pull, after, eof, h⟩
  · exact h.pull htokens hid hanswers session
  · exact .inr ⟨before, pull, _, eof, h.pull session⟩

theorem Staged.length_calls_le (h : history.Staged tokens id) : history.calls.length ≤ 1 := by
  rcases h with h | ⟨before, pull, after, eof, h⟩
  · rw [h.calls_eq]
    exact Nat.zero_le 1
  · obtain ⟨position, creation, -, -, hcalls, -, -⟩ := h.request_eq
    rw [h.calls_eq, hcalls]
    exact Nat.le_refl 1

theorem staged_ofSource (tokens : List (Shared Token)) (name : String) (factory : Shared Factory)
    (session : Session) :
    (ofSource (Source.withFactory tokens name factory session).1).Staged tokens id := by
  refine .inl ⟨rfl, Rest.eof?_ofList tokens, ?_⟩
  intro pull hmem
  cases hmem

/-- **One request, once.** If all factories answer, at most one request is sent in all: by the first
call that succeeds behind the list, to the factory in place, for a token that never changes again.
-/
theorem made_once (tokens : List (Shared Token)) (name : String) (factory : Shared Factory)
    (session : Session) {turns : List Turn} {history : History}
    (hanswers : ∀ other ∈ factory :: Turn.factories turns, other.value.Answers)
    (hrun : (ofSource (Source.withFactory tokens name factory session).1).run? turns =
      some history) :
    history.calls.length ≤ 1 ∧
      (history.Unmade tokens ∨
        ∃ before pull after eof, history.Made tokens
          (Source.withFactory tokens name factory session).1.id before pull after eof) := by
  have hstaged : (history.source.tokens = tokens ∧
      history.source.id = (Source.withFactory tokens name factory session).1.id ∧
      history.source.factory.value.Answers) ∧
      history.Staged tokens (Source.withFactory tokens name factory session).1.id := by
    refine History.induction (P := fun history ↦ (history.source.tokens = tokens ∧
      history.source.id = (Source.withFactory tokens name factory session).1.id ∧
      history.source.factory.value.Answers) ∧
      history.Staged tokens (Source.withFactory tokens name factory session).1.id) hrun ?_ ?_ ?_
    · rintro history other hmem ⟨⟨htokens, hid, -⟩, h⟩
      exact ⟨⟨htokens, hid, hanswers other (List.mem_cons_of_mem _ hmem)⟩, h.setFactory other⟩
    · rintro history session ⟨⟨htokens, hid, hanswer⟩, h⟩
      refine ⟨⟨?_, ?_, ?_⟩, h.pull htokens hid hanswer session⟩
      · rw [History.pull, Source.tokens_next, htokens]
      · rw [History.pull, Source.id_next, hid]
      · rwa [History.pull, Source.factory_next]
    · refine ⟨⟨?_, rfl, ?_⟩, staged_ofSource tokens name factory session⟩
      · exact Source.tokens_withFactory tokens name factory session
      · exact hanswers factory List.mem_cons_self
  exact ⟨hstaged.2.length_calls_le, hstaged.2⟩

/-- One token, read from a stream. -/
def shortTokens : List (Shared Token) :=
  [⟨1, { type := ⟨1⟩, span := .inclusive 0 1, position := ⟨some 1, 0⟩,
         origin := { stream := some ⟨2, ⟨"in", "a\n"⟩⟩ } }⟩]

/-- The factory is replaced ahead of the end of stream token and once more behind it. -/
def replacingTurns : List Turn :=
  let session : Session := { nextSerial := 10 }
  [⟨session, .next⟩, ⟨session, .setFactory ⟨3, .forwarding true true⟩⟩, ⟨session, .next⟩,
    ⟨session, .setFactory ⟨4, .fixed ⟨5, { type := ⟨7⟩ }⟩⟩⟩, ⟨session, .next⟩,
    ⟨session, .drain⟩]

theorem made_once_replaced : ∃ history,
    (ofSource (Source.withFactory shortTokens "unit" ⟨0, .common false⟩ {}).1).run? replacingTurns =
      some history ∧
    (history.calls.length ≤ 1 ∧
      (history.Unmade shortTokens ∨ ∃ before pull after eof, history.Made shortTokens
        (Source.withFactory shortTokens "unit" ⟨0, .common false⟩ {}).1.id before pull after eof)) ∧
    history.calls = [⟨3, some "unit", endRequest shortTokens ⟨0⟩ ⟨some 2, 2⟩⟩] := by
  obtain ⟨history, hrun, hcalls⟩ : ∃ history,
      (ofSource (Source.withFactory shortTokens "unit" ⟨0, .common false⟩ {}).1).run?
        replacingTurns = some history ∧
      history.calls = [⟨3, some "unit", endRequest shortTokens ⟨0⟩ ⟨some 2, 2⟩⟩] := by
    refine ⟨_, rfl, ?_⟩
    decide
  refine ⟨history, hrun, made_once shortTokens "unit" ⟨0, .common false⟩ {} ?_ hrun, hcalls⟩
  intro other hmem
  have hmem : other ∈ [⟨0, .common false⟩, ⟨3, .forwarding true true⟩,
      ⟨4, .fixed ⟨5, { type := ⟨7⟩ }⟩⟩] := hmem
  rcases List.mem_cons.mp hmem with rfl | hmem
  · exact Factory.answers_common false
  rcases List.mem_cons.mp hmem with rfl | hmem
  · exact Factory.answers_forwarding true true
  · obtain rfl := List.mem_singleton.mp hmem
    exact Factory.answers_fixed _

end History

end TokenReplay
