import TokenReplay.Source

/-!
# What becomes of a call for a token

A call for a token can go six ways. Three of them give a token: the next one of the list, the end of
stream token that is there already, or one that is made just now. The other three fail: the token
cannot be shown in the log, the place behind the list cannot be worked out, or the factory gives up.

`Source.Advance` has one constructor for each of them, and each constructor says everything there is
to say about the step: on what condition it is taken, what the call gives, and what becomes of
source and session. So nobody has to open `Source.next` again, and a property of all calls is a case
distinction.

A request goes to a factory in two of the six cases, and it is a single one in both.
-/

namespace TokenReplay

namespace Source

/-- The note about a request that the source sends to its factory. -/
def callFor (source : Source) (request : CreateRequest) : Call :=
  ⟨source.factory.serial, some source.id.name, request⟩

theorem eofRequest_eq_ok_iff {source : Source} {request : CreateRequest} :
    source.eofRequest = .ok request ↔
      source.line = .ok request.position.line ∧ source.column = .ok request.position.column ∧
        request =
          { origin := ⟨some source.id.key, source.stream?⟩
            type := .eof
            text := some "EOF"
            channel := .default
            span := source.eofSpan
            position := request.position } := by
  rw [eofRequest]
  cases source.line with
  | error e => simp
  | ok line =>
    cases source.column with
    | error e => simp
    | ok column =>
      dsimp only
      constructor
      · intro h
        cases h
        exact ⟨rfl, rfl, rfl⟩
      · rintro ⟨hline, hcolumn, hrequest⟩
        rw [Except.ok.inj hline, Except.ok.inj hcolumn, hrequest]

/-- The steps that a call for a token can come to. -/
inductive Advance (source : Source) (session : Session) : Step Source (Shared Token) → Prop
  /-- The next token of the list is handed out. -/
  | listed {token : Shared Token} {later : List (Shared Token)} {logged : Session}
      (hrest : source.rest = .tokens token later)
      (hlog : session.logHandedOut source.id.name source.cursor token.value = .ok logged) :
      Advance source session
        ⟨.ok token, { source with passed := token :: source.passed, rest := .ofList later }, logged⟩
  /-- The next token of the list cannot be shown. -/
  | unshown {token : Shared Token} {later : List (Shared Token)} {e : Overflow}
      (hrest : source.rest = .tokens token later)
      (hlog : session.logHandedOut source.id.name source.cursor token.value = .error e) :
      Advance source session ⟨.error e, source, session⟩
  /-- The end of stream token is handed out once more. -/
  | again {eof : Shared Token} (hrest : source.rest = .ended eof) :
      Advance source session ⟨.ok eof, source, session⟩
  /-- There is no telling where the list ends. -/
  | unplaced {e : Overflow} (hrest : source.rest = .spent)
      (hrequest : source.eofRequest = .error e) :
      Advance source session ⟨.error e, source, session⟩
  /-- The factory does not answer. -/
  | refused {request : CreateRequest} {e : Overflow} {after : Session}
      (hrest : source.rest = .spent) (hrequest : source.eofRequest = .ok request)
      (hcreate : source.factory.value.create request = .error e)
      (hcalls : after.calls = session.calls.push (source.callFor request)) :
      Advance source session ⟨.error e, source, after⟩
  /-- The end of stream token is made. -/
  | built {request : CreateRequest} {creation : Creation} {eof : Shared Token} {after : Session}
      (hrest : source.rest = .spent) (hrequest : source.eofRequest = .ok request)
      (hcreate : source.factory.value.create request = .ok creation)
      (heof : (session.realize creation.product).1 = eof)
      (hcalls : after.calls = session.calls.push (source.callFor request)) :
      Advance source session ⟨.ok eof, { source with rest := .ended eof }, after⟩

/-- Every call comes to one of these steps. -/
theorem advance_next (source : Source) (session : Session) :
    source.Advance session (source.next session) := by
  cases hrest : source.rest with
  | tokens token later =>
    cases hlog : session.logHandedOut source.id.name source.cursor token.value with
    | error e =>
      rw [next_of_unshown hrest hlog]
      exact .unshown hrest hlog
    | ok logged =>
      rw [next_of_tokens hrest hlog]
      exact .listed hrest hlog
  | ended eof =>
    rw [next_of_ended hrest]
    exact .again hrest
  | spent =>
    cases hrequest : source.eofRequest with
    | error e =>
      rw [next_of_unplaced hrest hrequest]
      exact .unplaced hrest hrequest
    | ok request =>
      -- Of the session afterwards no more is kept than the request it has noted.
      have hcalls := session.calls_create source.factory (some source.id.name)
        (some ⟨source.id.name⟩) request
      have hfst := session.fst_create source.factory (some source.id.name)
        (some ⟨source.id.name⟩) request
      cases hcreate : source.factory.value.create request with
      | error e =>
        rw [hcreate] at hfst
        rw [next_of_refused hrest hrequest (Prod.ext hfst rfl)]
        exact .refused hrest hrequest hcreate hcalls
      | ok creation =>
        rw [hcreate] at hfst
        rw [next_of_built hrest hrequest (Prod.ext hfst rfl)]
        refine .built hrest hrequest hcreate rfl ?_
        rw [Session.calls_emit, hcalls]
        rfl

theorem advance_of_next_eq {source : Source} {session : Session} {step : Step Source (Shared Token)}
    (h : source.next session = step) : source.Advance session step :=
  h ▸ source.advance_next session

/-- A token that was handed out was the next of the list, or it stands behind the list from now on.
-/
theorem rest_of_outcome_eq_ok {source : Source} {session : Session} {token : Shared Token}
    (h : (source.next session).outcome = .ok token) :
    (∃ later, source.rest = .tokens token later ∧
      (source.next session).state.rest = .ofList later) ∨
    (source.rest.toList = [] ∧ (source.next session).state.rest = .ended token) := by
  generalize hstep : source.next session = step at h ⊢
  cases advance_of_next_eq hstep with
  | listed hrest hlog =>
    cases h
    exact .inl ⟨_, hrest, rfl⟩
  | unshown hrest hlog => cases h
  | again hrest =>
    cases h
    refine .inr ⟨?_, hrest⟩
    rw [hrest, Rest.toList_ended]
  | unplaced hrest hrequest => cases h
  | refused hrest hrequest hcreate hcalls => cases h
  | built hrest hrequest hcreate heof hcalls =>
    cases h
    refine .inr ⟨?_, rfl⟩
    rw [hrest, Rest.toList_spent]

end Source

end TokenReplay
