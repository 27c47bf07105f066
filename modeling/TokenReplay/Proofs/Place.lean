import TokenReplay.Proofs.Factories
import TokenReplay.Proofs.History

/-!
# Where a source says it is

Line, column and stream of a source are those of the token that it hands out next. For a token of
the list this is how they are defined, and so it is for an end of stream token that is there
already. The one that is not there yet is the case to prove: the source works out three answers from
its last token, each on its own, and the token that is made afterwards has to agree with all of
them.

It does if the factory leaves the place alone (`Factory.KeepsPlace`), since the source sends its own
answers along with the request. So whoever asks a source where it is cannot tell whether the end of
stream token was made already.
-/

namespace TokenReplay

namespace Source

/-- The source says of itself what there is to say of `token`. -/
structure IsAt (source : Source) (token : Token) : Prop where
  line_eq : source.line = .ok token.position.line
  column_eq : source.column = .ok token.position.column
  stream?_eq : source.stream? = token.origin.stream

variable {source : Source} {token : Shared Token}

theorem isAt_of_tokens {later : List (Shared Token)} (hrest : source.rest = .tokens token later) :
    source.IsAt token.value := by
  refine ⟨?_, ?_, ?_⟩
  · rw [line, hrest]
  · rw [column, hrest]
  · rw [stream?, hrest]

theorem isAt_of_ended (hrest : source.rest = .ended token) : source.IsAt token.value := by
  refine ⟨?_, ?_, ?_⟩
  · rw [line, hrest]
  · rw [column, hrest]
  · rw [stream?, hrest]

theorem isAt_of_eofRequest {request : CreateRequest} {made : Token}
    (hrequest : source.eofRequest = .ok request) (hposition : made.position = request.position)
    (horigin : made.origin = request.origin) : source.IsAt made := by
  obtain ⟨hline, hcolumn, heq⟩ := eofRequest_eq_ok_iff.mp hrequest
  refine ⟨?_, ?_, ?_⟩
  · rw [hposition, hline]
  · rw [hposition, hcolumn]
  · rw [horigin, heq]

/-- **One call.** The source was where the token is that it hands out. -/
theorem isAt_of_next {session : Session} (hkeeps : source.factory.value.KeepsPlace)
    (h : (source.next session).outcome = .ok token) : source.IsAt token.value := by
  generalize hnext : source.next session = step at h
  cases advance_of_next_eq hnext with
  | listed hrest hlog =>
    cases h
    exact isAt_of_tokens hrest
  | unshown hrest hlog => cases h
  | again hrest =>
    cases h
    exact isAt_of_ended hrest
  | unplaced hrest hrequest => cases h
  | refused hrest hrequest hcreate hcalls => cases h
  | @built request creation eof after hrest hrequest hcreate heof hcalls =>
    cases h
    obtain ⟨hposition, horigin⟩ := hkeeps request creation hcreate
    -- Whatever its identity, the token looks as the factory made it.
    have hvalue : token.value = creation.product.token := by
      rw [← heof, Session.value_realize]
    rw [hvalue]
    exact isAt_of_eofRequest hrequest hposition horigin

theorem isAt_next_of_cursor_eq {session : Session} (hcursor : source.cursor = source.size)
    (h : (source.next session).outcome = .ok token) :
    (source.next session).state.IsAt token.value := by
  rcases rest_of_outcome_eq_ok h with ⟨later, hrest, -⟩ | ⟨-, hended⟩
  · exact absurd hcursor (cursor_ne_size_of_tokens hrest)
  · exact isAt_of_ended hended

end Source

namespace History

/-- **The place of the next token.** Whatever was done to a source, if its factories leave the place
alone, it is at the token that the next call hands out. Behind the list, the call changes none of
the answers. -/
theorem place_of_next (tokens : List (Shared Token)) (name : String) (factory : Shared Factory)
    (session now : Session) {turns : List Turn} {history : History} {token : Shared Token}
    (hkeeps : ∀ other ∈ factory :: Turn.factories turns, other.value.KeepsPlace)
    (hrun : (ofSource (Source.withFactory tokens name factory session).1).run? turns = some history)
    (hnext : (history.source.next now).outcome = .ok token) :
    history.source.line = .ok token.value.position.line ∧
      history.source.column = .ok token.value.position.column ∧
      history.source.stream? = token.value.origin.stream ∧
      (history.source.cursor = tokens.length →
        (history.source.next now).state.line = history.source.line ∧
          (history.source.next now).state.column = history.source.column ∧
          (history.source.next now).state.stream? = history.source.stream?) := by
  have hbefore := Source.isAt_of_next (hkeeps _ (factory_mem_of_run? hrun)) hnext
  refine ⟨hbefore.line_eq, hbefore.column_eq, hbefore.stream?_eq, fun hcursor ↦ ?_⟩
  have hsize : history.source.size = tokens.length := by
    rw [← Source.length_tokens, tokens_eq_of_run? hrun]
  have hafter := Source.isAt_next_of_cursor_eq (hcursor.trans hsize.symm) hnext
  refine ⟨?_, ?_, ?_⟩
  · rw [hafter.line_eq, hbefore.line_eq]
  · rw [hafter.column_eq, hbefore.column_eq]
  · rw [hafter.stream?_eq, hbefore.stream?_eq]

/-- A list of one token that goes on past a line feed. -/
def brokenTokens : List (Shared Token) :=
  [⟨1, { type := ⟨1⟩, ownText := some "a\nb", span := .inclusive 0 2, position := ⟨some 1, 4⟩,
         origin := { stream := some ⟨2, ⟨"in", "a\nb"⟩⟩ } }⟩]

theorem place_of_next_broken : ∃ history token,
    (ofSource (Source.withFactory brokenTokens "unit" ⟨0, .common true⟩ {}).1).run?
      [⟨{}, .next⟩, ⟨{}, .setFactory ⟨3, .forwarding false true⟩⟩] = some history ∧
    (history.source.next {}).outcome = .ok token ∧ token.value.position = ⟨some 2, 7⟩ ∧
    history.source.line = .ok (some 2) ∧ history.source.column = .ok 7 ∧
    (history.source.next {}).state.line = history.source.line := by
  obtain ⟨history, token, hrun, hnext, hplace, hcursor⟩ : ∃ history token,
      (ofSource (Source.withFactory brokenTokens "unit" ⟨0, .common true⟩ {}).1).run?
        [⟨{}, .next⟩, ⟨{}, .setFactory ⟨3, .forwarding false true⟩⟩] = some history ∧
      (history.source.next {}).outcome = .ok token ∧ token.value.position = ⟨some 2, 7⟩ ∧
      history.source.cursor = 1 := ⟨_, _, rfl, rfl, rfl, rfl⟩
  have hkeeps : ∀ other ∈ (⟨0, .common true⟩ : Shared Factory) ::
      Turn.factories [⟨{}, .next⟩, ⟨{}, .setFactory ⟨3, .forwarding false true⟩⟩],
      other.value.KeepsPlace := by
    intro other hmem
    rcases List.mem_cons.mp hmem with rfl | hmem
    · exact Factory.keepsPlace_common true
    · obtain rfl := List.mem_singleton.mp hmem
      exact Factory.keepsPlace_forwarding false true
  obtain ⟨hline, hcolumn, -, hafter⟩ :=
    place_of_next brokenTokens "unit" ⟨0, .common true⟩ {} {} hkeeps hrun hnext
  rw [hplace] at hline hcolumn
  exact ⟨history, token, hrun, hnext, hplace, hline, hcolumn, (hafter hcursor).1⟩

end History

end TokenReplay
