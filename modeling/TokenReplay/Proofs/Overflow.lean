import TokenReplay.Proofs.EofCreation

/-!
# When sources and factories overflow

Asking a source where it is, asking it for a token, and having a factory make one can all overflow,
and it is always for one of two reasons: a text has to be read whose span ends at the last offset,
or the line feeds of a last token lead past the last line. `overflow_iff` says exactly when that is.

## Where it can happen

Within the list a source reads nothing. It looks at the text of its last token only behind the list,
and only until the end of stream token is there; from then on that token is asked, and it brings
line and column with it. So there is one state of the source in which line and column can fail, and
the call that would end this state is the one that fails with them. Logging adds a second place,
since a token of the list has to be shown before it is handed out.

No change of the factory helps, as the request is never made out (`next_eq_error_iff`).
-/

namespace TokenReplay

/-- Nothing comes behind the token: its text is out of reach, or the line feeds in it lead past the
last line. -/
def Token.EndsAll (token : Token) : Prop :=
  token.Unreadable ∨
    ∃ text line, token.text = .ok text ∧ token.position.line = some line ∧
      maxSize < line + lineFeeds (text.getD "")

namespace Source

variable {source : Source} {e : Overflow}

theorem rest_eq_spent_iff :
    source.rest = .spent ↔ source.cursor = source.size ∧ source.eof? = none := by
  constructor
  · intro hrest
    refine ⟨cursor_eq_size_of_spent hrest, ?_⟩
    rw [eof?, hrest]
    rfl
  · rintro ⟨hcursor, hnone⟩
    cases hrest : source.rest with
    | tokens next later => exact absurd hcursor (cursor_ne_size_of_tokens hrest)
    | spent => rfl
    | ended eof =>
      rw [eof?_eq_some_iff.mpr hrest] at hnone
      cases hnone

theorem getElem?_tokens_cursor : source.tokens[source.cursor]? = source.rest.toList.head? := by
  rw [toList_rest_eq_drop, List.head?_drop]

theorem line_eq_error_iff :
    source.line = .error e ↔
      source.rest = .spent ∧ ∃ last, source.tokens.getLast? = some last ∧ last.value.EndsAll := by
  cases hrest : source.rest with
  | tokens next later => simp [line, hrest]
  | ended eof => simp [line, hrest]
  | spent =>
    rw [getLast?_tokens_of_spent hrest, line, hrest]
    cases source.passed with
    | nil => simp
    | cons last earlier =>
      have hlast := @Token.lineAfter_eq_error_iff last.value e
      simpa [Token.EndsAll] using hlast

theorem column_eq_error_iff :
    source.column = .error e ↔
      source.rest = .spent ∧
        ∃ last, source.tokens.getLast? = some last ∧ last.value.Unreadable := by
  cases hrest : source.rest with
  | tokens next later => simp [column, hrest]
  | ended eof => simp [column, hrest]
  | spent =>
    rw [getLast?_tokens_of_spent hrest, column, hrest]
    cases source.passed with
    | nil => simp
    | cons last earlier =>
      have hlast := @Token.columnAfter_eq_error_iff last.value e
      simpa using hlast

theorem line_eq_error_of_column (h : source.column = .error e) : source.line = .error e := by
  obtain ⟨hrest, last, hlast, hunreadable⟩ := column_eq_error_iff.mp h
  exact line_eq_error_iff.mpr ⟨hrest, last, hlast, .inl hunreadable⟩

theorem eofRequest_eq_error_iff : source.eofRequest = .error e ↔ source.line = .error e := by
  rw [eofRequest]
  cases hline : source.line with
  | error e' => simp
  | ok line =>
    cases hcolumn : source.column with
    | error e' =>
      rw [line_eq_error_of_column hcolumn] at hline
      cases hline
    | ok column => simp

theorem next_eq_error_iff_of_tokens {token : Shared Token} {later : List (Shared Token)}
    (hrest : source.rest = .tokens token later) (session : Session) :
    (source.next session).outcome = .error e ↔
      session.logging = true ∧ token.value.Unreadable := by
  have hlogged := @Session.logHandedOut_eq_error_iff session source.id.name source.cursor
    token.value e
  rw [← hlogged, next, hrest]
  dsimp only
  cases session.logHandedOut source.id.name source.cursor token.value <;> simp

theorem next_eq_error_iff_of_spent (hrest : source.rest = .spent)
    (hanswers : source.factory.value.Answers) (session : Session) :
    (source.next session).outcome = .error e ↔ source.line = .error e := by
  rw [← eofRequest_eq_error_iff, next_of_spent hrest, buildEof]
  cases hrequest : source.eofRequest with
  | error e' => simp
  | ok request =>
    have hend := eq_endRequest_of_spent hrest hrequest
    obtain ⟨creation, hcreation⟩ := hanswers request fun stop hstop ↦ by
      rw [hend] at hstop
      exact lt_maxSize_of_stop?_endRequest hstop
    have hfst := session.fst_create source.factory (some source.id.name)
      (some ⟨source.id.name⟩) request
    rw [hcreation] at hfst
    dsimp only
    generalize session.create source.factory (some source.id.name) (some ⟨source.id.name⟩)
      request = created at hfst ⊢
    obtain ⟨outcome, after⟩ := created
    dsimp only at hfst
    subst hfst
    simp [Except.map]

/-- **A call fails** if there is no line to put the end of stream token on, or if the token under
the cursor has to be shown and cannot be. -/
theorem next_eq_error_iff {session : Session} (hanswers : source.factory.value.Answers) :
    (source.next session).outcome = .error e ↔
      source.line = .error e ∨
        (session.logging = true ∧
          ∃ token, source.tokens[source.cursor]? = some token ∧ token.value.Unreadable) := by
  rw [getElem?_tokens_cursor]
  -- In each state of the rest, one of the two reasons is ruled out.
  cases hrest : source.rest with
  | tokens token later =>
    rw [next_eq_error_iff_of_tokens hrest, line, hrest]
    simp
  | spent =>
    rw [next_eq_error_iff_of_spent hrest hanswers]
    simp
  | ended eof =>
    rw [next_of_ended hrest, line, hrest]
    simp

end Source

namespace History

/-- When a source over `tokens` overflows here, and when a common factory does. -/
structure Overflows (tokens : List (Shared Token)) (history : History) : Prop where
  line_iff : history.source.line = .error .addition ↔
    history.source.cursor = tokens.length ∧ history.source.eof? = none ∧
      ∃ last, tokens.getLast? = some last ∧ last.value.EndsAll
  column_iff : history.source.column = .error .addition ↔
    history.source.cursor = tokens.length ∧ history.source.eof? = none ∧
      ∃ last, tokens.getLast? = some last ∧ last.value.Unreadable
  /-- Logging adds a reason of its own. -/
  next_iff : ∀ now : Session, (history.source.next now).outcome = .error .addition ↔
    (history.source.cursor = tokens.length ∧ history.source.eof? = none ∧
      ∃ last, tokens.getLast? = some last ∧ last.value.EndsAll) ∨
    (now.logging = true ∧
      ∃ token, tokens[history.source.cursor]? = some token ∧ token.value.Unreadable)
  create_iff : ∀ (copyText : Bool) (request : CreateRequest),
    (Factory.common copyText).create request = .error .addition ↔
      copyText = true ∧ (request.tokenWith request.text).Unreadable
  /-- Text that is not there for any other reason is done without. -/
  exists_creation : ∀ (copyText : Bool) (request : CreateRequest) stream error,
    request.text = none → request.origin.stream = some stream →
      stream.value.text request.span = .ok (.error error) →
      ∃ copyFailure, (Factory.common copyText).create request =
        .ok ⟨.fresh (request.tokenWith none), copyFailure⟩

/-- **Overflow.** In every state that can be reached, line, column and calls for tokens fail for the
reasons given here and for no others, and so does a common factory. -/
theorem overflow_iff (tokens : List (Shared Token)) (name : String) (factory : Shared Factory)
    (session : Session) {turns : List Turn} {history : History}
    (hanswers : ∀ other ∈ factory :: Turn.factories turns, other.value.Answers)
    (hrun : (ofSource (Source.withFactory tokens name factory session).1).run? turns =
      some history) : history.Overflows tokens := by
  have htokens : history.source.tokens = tokens := tokens_eq_of_run? hrun
  have hanswer := hanswers _ (factory_mem_of_run? hrun)
  have hspent : history.source.rest = .spent ↔
      history.source.cursor = tokens.length ∧ history.source.eof? = none := by
    rw [Source.rest_eq_spent_iff, ← Source.length_tokens, htokens]
  have hline : history.source.line = .error .addition ↔
      history.source.cursor = tokens.length ∧ history.source.eof? = none ∧
        ∃ last, tokens.getLast? = some last ∧ last.value.EndsAll := by
    rw [Source.line_eq_error_iff, hspent, htokens, and_assoc]
  refine ⟨hline, ?_, ?_, fun copyText request ↦ Factory.commonCreate_eq_error_iff, ?_⟩
  · rw [Source.column_eq_error_iff, hspent, htokens, and_assoc]
  · intro now
    rw [Source.next_eq_error_iff hanswer, hline, htokens]
  · intro copyText request stream error htext hstream hread
    cases copyText with
    | false =>
      refine ⟨none, ?_⟩
      rw [Factory.create, Factory.commonCreate_false, htext]
    | true => exact ⟨_, Factory.commonCreate_of_text_eq_error htext hstream hread⟩

/-- A list of one token, which would have to be read up to the last offset of a stream. -/
def farTokens : List (Shared Token) :=
  [⟨1, { type := ⟨1⟩, span := .inclusive 0 maxSize,
         origin := { stream := some ⟨2, ⟨"in", "ab"⟩⟩ } }⟩]

theorem overflow_iff_far : ∃ history,
    (ofSource (Source.withFactory farTokens "unit" ⟨0, .common false⟩ {}).1).run? [⟨{}, .next⟩] =
      some history ∧
    (history.source.next {}).outcome = .error .addition := by
  obtain ⟨history, hrun, hcursor, heof⟩ : ∃ history,
      (ofSource (Source.withFactory farTokens "unit" ⟨0, .common false⟩ {}).1).run? [⟨{}, .next⟩] =
        some history ∧ history.source.cursor = 1 ∧ history.source.eof? = none := ⟨_, rfl, rfl, rfl⟩
  have hanswers : ∀ other ∈ (⟨0, .common false⟩ : Shared Factory) :: Turn.factories [⟨{}, .next⟩],
      other.value.Answers := by
    intro other hmem
    obtain rfl := List.mem_singleton.mp hmem
    exact Factory.answers_common false
  have hoverflows := overflow_iff farTokens "unit" ⟨0, .common false⟩ {} hanswers hrun
  refine ⟨history, hrun, (hoverflows.next_iff {}).mpr (.inl ⟨hcursor, heof, _, rfl, .inl ?_⟩)⟩
  exact ⟨rfl, Option.some_ne_none _, maxSize, rfl, Nat.le_refl _⟩

/-- Nothing guards a source from a span that ends at the last offset, nor a factory that copies. -/
theorem overflow_of_far : ∃ history,
    (ofSource (Source.withFactory farTokens "unit" ⟨0, .common false⟩ {}).1).run? [⟨{}, .next⟩] =
      some history ∧
    history.source.line = .error .addition ∧ history.source.column = .error .addition ∧
    (history.source.next {}).outcome = .error .addition ∧
    (Factory.common true).create
      { origin := { stream := some ⟨2, ⟨"in", "ab"⟩⟩ }, type := ⟨1⟩, text := none,
        channel := .default, span := .inclusive 0 maxSize, position := ⟨some 1, 0⟩ } =
      .error .addition :=
  ⟨_, rfl, rfl, rfl, rfl, rfl⟩

end History

end TokenReplay
