import TokenReplay.Proofs.Log

/-!
# The log accounts for the run

From the log of a source one can read off where it is. Each token of the list leaves one line when
it is handed out, so these lines are the list up to the cursor, in order. The making of the end of
stream token leaves one line, once, with the span and the position that the factory was asked for.
Ahead of it there may be a warning, which can only come from a factory that copies text and has gone
without the text that the source gave it. Each recording leaves a line when it is done, and there
are no other lines at all. `History.Accounted` has the full account, down to the words.

## The invariant

What the calls have logged is the listing of the tokens handed out and, once there is an end of
stream token, what its making has left, behind the listing (`History.Logged`). As calls that fail
and calls behind the end log nothing, a call leaves it at that, or adds one line to the listing, or
has the end of stream token made.
-/

namespace TokenReplay

/-! ## What the log of a history consists of -/

/-- The lines for tokens of a list that are handed out from its front on, as far as they can be
shown. -/
def listing (name : String) (tokens : List (Shared Token)) : List (Except Overflow Line) :=
  tokens.mapIdx fun index token ↦ token.value.display.map (.handedOut name index)

theorem listing_concat (name : String) (tokens : List (Shared Token)) (token : Shared Token) :
    listing name (tokens ++ [token]) =
      listing name tokens ++ [token.value.display.map (.handedOut name tokens.length)] :=
  List.mapIdx_concat

theorem level_of_listing {name : String} {tokens : List (Shared Token)} {lines : List Line}
    (h : lines.map .ok = listing name tokens) {line : Line} (hmem : line ∈ lines) :
    line.level = "TRACE" ∧ line.during = none := by
  have hlisted : .ok line ∈ listing name tokens := h ▸ List.mem_map_of_mem hmem
  obtain ⟨index, hindex, hline⟩ := List.mem_mapIdx.mp hlisted
  cases hdisplay : tokens[index].value.display with
  | error e =>
    rw [hdisplay] at hline
    cases hline
  | ok display =>
    rw [hdisplay] at hline
    cases hline
    exact ⟨rfl, rfl⟩

theorem during_of_closing {name : String} {request : CreateRequest}
    {warning : Option CopyFailure} {line : Line} (hmem : line ∈ closing name request warning) :
    line.level ≠ "TRACE" ∧ line.during = some (.makeEof name) := by
  rcases List.mem_append.mp hmem with hmem | hmem
  · obtain ⟨failure, -, rfl⟩ := Option.map_eq_some_iff.mp (Option.mem_toList.mp hmem)
    exact ⟨(by decide : "WARN" ≠ "TRACE"), rfl⟩
  · obtain rfl := List.mem_singleton.mp hmem
    exact ⟨(by decide : "DEBUG" ≠ "TRACE"), rfl⟩

/-- The text of an end of stream token cannot be copied if the factory copies texts, goes without
the one it was given, and finds none in the stream of the last token. -/
theorem Factory.PassesOn.copyFailure_of_spent {copyText dropText : Bool} {source : Source}
    {request : CreateRequest} {creation : Creation}
    (hpasses : source.factory.value.PassesOn copyText dropText) (hrest : source.rest = .spent)
    (hrequest : source.eofRequest = .ok request)
    (hcreate : source.factory.value.create request = .ok creation) (failure : CopyFailure) :
    creation.copyFailure = some failure ↔ copyText = true ∧ dropText = true ∧
      ∃ last stream, source.tokens.getLast? = some last ∧
        last.value.origin.stream = some stream ∧ stream.value.name = failure.stream ∧
        stream.value.text request.span = .ok (.error failure.error) := by
  have hend := Source.eq_endRequest_of_spent hrest hrequest
  have htext : request.text = some "EOF" := by rw [hend, endRequest]
  have hstream : request.origin.stream =
      source.tokens.getLast?.bind fun last ↦ last.value.origin.stream := by
    rw [hend, endRequest]
  have hdrop : (if dropText then none else some "EOF") = none ↔ dropText = true := by
    cases dropText <;> simp
  rw [hpasses.create_eq] at hcreate
  rw [Factory.copyFailure_of_commonCreate hcreate]
  dsimp only
  rw [htext, hstream, hdrop]
  refine and_congr_right fun _ ↦ and_congr_right fun _ ↦ ?_
  constructor
  · rintro ⟨stream, hlast, hread⟩
    obtain ⟨last, hlast, hstream⟩ := Option.bind_eq_some_iff.mp hlast
    exact ⟨last, stream, hlast, hstream, hread⟩
  · rintro ⟨last, stream, hlast, hstream, hread⟩
    exact ⟨stream, Option.bind_eq_some_iff.mpr ⟨last, hlast, hstream⟩, hread⟩

namespace Pull

variable {pull : Pull}

/-- The call is made, with logging on, of a source over `tokens` with that identity, the factory of
which is a common one, directly or not. -/
structure Within (pull : Pull) (id : SourceId)
    (tokens : List (Shared Token)) : Prop where
  logging : pull.session.logging = true
  id_eq : pull.source.id = id
  tokens_eq : pull.source.tokens = tokens
  passesOn : ∃ copyText dropText, pull.source.factory.value.PassesOn copyText dropText

/-- If factories answer, a request makes the end of stream token. -/
theorem calls_of_eof?_eq_none (hanswers : pull.source.factory.value.Answers)
    (h : pull.step.state.eof? = none) : pull.calls = [] := by
  have hsame : pull.step.session.calls = pull.session.calls → pull.calls = [] :=
    Session.callsSince_of_calls_eq
  generalize hstep : pull.step = step at h hsame
  cases Source.advance_of_next_eq hstep with
  | listed hrest hlog => exact hsame (Session.calls_of_logHandedOut hlog)
  | unshown hrest hlog => exact hsame rfl
  | again hrest => exact hsame rfl
  | unplaced hrest hrequest => exact hsame rfl
  | refused hrest hrequest hcreate hcalls =>
    rw [Source.eq_endRequest_of_spent hrest hrequest] at hcreate
    obtain ⟨creation, hcreation⟩ := hanswers _ fun _ ↦ lt_maxSize_of_stop?_endRequest
    rw [hcreate] at hcreation
    cases hcreation
  | built hrest hrequest hcreate heof hcalls => cases h

theorem closing_of_spent {eof : Shared Token} (hlogging : pull.session.logging = true)
    (hrest : pull.source.rest = .spent) (htoken : pull.token? = some eof) :
    ∃ request creation, pull.source.eofRequest = .ok request ∧
      pull.source.factory.value.create request = .ok creation ∧
      pull.lines = closing pull.source.id.name request creation.copyFailure ∧
      pull.calls = [pull.source.callFor request] := by
  rw [token?_eq_some_iff] at htoken
  have hentry := entry_lines hlogging
  rw [htoken] at hentry
  generalize pull.step.state = state, pull.lines = added at hentry ⊢
  cases hentry with
  | listed hother hdisplay =>
    rw [hrest] at hother
    cases hother
  | again hother =>
    rw [hrest] at hother
    cases hother
  | @built _ request creation _ hrequest hcreate =>
    refine ⟨request, creation, hrequest, hcreate, rfl, ?_⟩
    have hpush : ∀ call, pull.step.session.calls = pull.session.calls.push call →
        pull.calls = [call] := fun _ ↦ Session.callsSince_of_calls_push
    generalize hstep : pull.step = step at htoken hpush
    cases Source.advance_of_next_eq hstep with
    | listed hother hlog =>
      rw [hrest] at hother
      cases hother
    | unshown hother hlog => cases htoken
    | again hother =>
      rw [hrest] at hother
      cases hother
    | unplaced hother hunplaced => cases htoken
    | refused hother hsame hrefused hcalls => cases htoken
    | built hother hsame hmade heof hcalls =>
      obtain rfl := Except.ok.inj (hrequest.symm.trans hsame)
      exact hpush _ hcalls

end Pull

namespace History

variable {history later : History} {turns : List Turn}

/-- What was logged about the end of stream token, by whether there is one yet. -/
inductive Closes (history : History) : List Line → Prop
  | unmade (heof : history.source.eof? = none) (hcalls : history.calls = []) : Closes history []
  | made {eof : Shared Token} {pull : Pull} (heof : history.source.eof? = some eof)
      (hmem : pull ∈ history.pulls) (hrest : pull.source.rest = .spent)
      (htoken : pull.token? = some eof) (hcalls : history.calls = pull.calls) :
      Closes history pull.lines

/-- The calls have logged the tokens of the list that were handed out, and `ending` behind them. -/
structure Logged (history : History) (ending : List Line) : Prop where
  lines_eq : (history.pulls.flatMap Pull.lines).map .ok =
    listing history.source.id.name history.source.passed.reverse ++ ending.map .ok
  closes : history.Closes ending

/-- **The step of the log.** -/
theorem Logged.pull {ending : List Line} (h : history.Logged ending)
    (hanswers : history.source.factory.value.Answers) {session : Session}
    (hlogging : session.logging = true) :
    ∃ ending, (history.pull session).Logged ending := by
  obtain ⟨hlines, hcloses⟩ := h
  have hpulls : ((history.pull session).pulls.flatMap Pull.lines).map Except.ok =
      (history.pulls.flatMap Pull.lines).map Except.ok ++
        ((⟨history.source, session⟩ : Pull).lines.map .ok : List (Except Overflow Line)) := by
    rw [History.pull, List.flatMap_append, List.flatMap_singleton, List.map_append]
  have hid : (history.pull session).source.id = history.source.id := Source.id_next session
  rw [hlines] at hpulls
  cases hcloses with
  | @made eof pull heof hmem hrest htoken hcalls =>
    obtain ⟨hnone, hnocalls⟩ := @Pull.lines_of_eof? ⟨history.source, session⟩ _ heof
    have hsource : (history.pull session).source = history.source := by
      rw [History.pull, Source.next_of_eof? heof]
    refine ⟨pull.lines, ?_, .made (hsource ▸ heof) (List.mem_append_left _ hmem) hrest htoken ?_⟩
    · rw [hpulls, hnone, hsource, List.map_nil, List.append_nil]
    · rw [History.pull, hnocalls, List.append_nil, hcalls]
  | unmade heof hcalls =>
    have hentry := @Pull.entry_lines ⟨history.source, session⟩ hlogging
    have hnocalls := @Pull.calls_of_eof?_eq_none ⟨history.source, session⟩ hanswers
    have hlater : (history.pull session).calls = (⟨history.source, session⟩ : Pull).calls := by
      rw [History.pull, hcalls, List.nil_append]
    have hstate : (history.pull session).source = (⟨history.source, session⟩ : Pull).step.state :=
      rfl
    rw [← hlater] at hnocalls
    rw [List.map_nil, List.append_nil, ← hid] at hpulls
    generalize hout : (⟨history.source, session⟩ : Pull).step.outcome = outcome,
      (⟨history.source, session⟩ : Pull).step.state = state,
      hadded : (⟨history.source, session⟩ : Pull).lines = added
      at hentry hnocalls hstate hpulls
    cases hentry with
    | @listed token later display hrest hdisplay =>
      have hnone : (history.pull session).source.eof? = none := by
        rw [hstate, Source.eof?_past, Rest.eof?_ofList]
      have hpassed : (history.pull session).source.passed.reverse =
          history.source.passed.reverse ++ [token] := by
        rw [hstate, Source.past, List.reverse_append, List.reverse_reverse]
      refine ⟨[], ?_, .unmade hnone (hnocalls (hstate ▸ hnone))⟩
      rw [hpulls, hpassed, listing_concat, hdisplay, List.length_reverse, hid, List.map_nil,
        List.append_nil]
      rfl
    | again hrest =>
      rw [Source.eof?_eq_some_iff.mpr hrest] at heof
      cases heof
    | failed e =>
      refine ⟨[], ?_, .unmade (hstate ▸ heof) (hnocalls heof)⟩
      rw [hpulls, hstate]
    | @built eof request creation hrest hrequest hcreate =>
      have hsome : (history.pull session).source.eof? = some eof := by
        rw [hstate]
        rfl
      have hthere : (⟨history.source, session⟩ : Pull) ∈ (history.pull session).pulls :=
        List.mem_append_right _ List.mem_cons_self
      rw [← hadded] at hpulls
      refine ⟨_, ?_, .made hsome hthere hrest (Pull.token?_eq_some_iff.mpr hout) hlater⟩
      rw [hpulls, hstate]
      rfl

theorem logged_of_run? (hrun : history.run? turns = some later)
    (hfactories : ∀ factory ∈ Turn.factories turns, factory.value.Answers)
    (hanswers : history.source.factory.value.Answers)
    (hlogging : ∀ pull ∈ later.pulls, pull.session.logging = true)
    (h : (∀ pull ∈ history.pulls, pull.session.logging = true) →
      ∃ ending, history.Logged ending) : ∃ ending, later.Logged ending := by
  have hinvariant := History.induction
    (P := fun later ↦ later.source.factory.value.Answers ∧
      ((∀ pull ∈ later.pulls, pull.session.logging = true) → ∃ ending, later.Logged ending))
    hrun ?_ ?_ ⟨hanswers, h⟩
  · exact hinvariant.2 hlogging
  · rintro history factory hmem ⟨-, h⟩
    refine ⟨hfactories factory hmem, fun hall ↦ ?_⟩
    obtain ⟨ending, hlines, hcloses⟩ := h hall
    refine ⟨ending, hlines, ?_⟩
    cases hcloses with
    | unmade heof hcalls => exact .unmade heof hcalls
    | made heof hmem hrest htoken hcalls => exact .made heof hmem hrest htoken hcalls
  · rintro history session ⟨hanswers, h⟩
    refine ⟨?_, fun hall ↦ ?_⟩
    · rwa [History.pull, Source.factory_next]
    · obtain ⟨ending, hlogged⟩ := h fun pull hmem ↦ hall pull (List.mem_append_left _ hmem)
      refine hlogged.pull hanswers ?_
      exact hall ⟨history.source, session⟩ (List.mem_append_right _ List.mem_cons_self)

/-! ## The account -/

theorem Logged.filter_eq {tokens : List (Shared Token)} {ending : List Line}
    (h : history.Logged ending)
    (hwithin : ∀ pull ∈ history.pulls, pull.Within history.source.id tokens) :
    ((history.pulls.flatMap Pull.lines).filter (·.level = "TRACE")).map .ok =
        listing history.source.id.name history.source.passed.reverse ∧
      (history.pulls.flatMap Pull.lines).filter (·.during.isSome) = ending := by
  obtain ⟨front, back, hsplit, hfront, hback⟩ := List.map_eq_append_iff.mp h.lines_eq
  obtain rfl : back = ending := (List.map_inj_right fun _ _ ↦ Except.ok.inj).mp hback
  have hending : ∀ line ∈ back,
      line.level ≠ "TRACE" ∧ line.during = some (.makeEof history.source.id.name) := by
    cases h.closes with
    | unmade heof hcalls =>
      intro line hmem
      cases hmem
    | @made eof pull heof hmem hrest htoken hcalls =>
      obtain ⟨request, creation, -, -, hlines, -⟩ :=
        Pull.closing_of_spent (hwithin pull hmem).logging hrest htoken
      rw [hlines, (hwithin pull hmem).id_eq]
      exact fun line ↦ during_of_closing
  rw [hsplit, List.filter_append, List.filter_append]
  refine ⟨?_, ?_⟩
  · rw [List.filter_eq_self.mpr, List.filter_eq_nil_iff.mpr, List.append_nil, hfront]
    · intro line hmem
      simpa using (hending line hmem).1
    · intro line hmem
      simpa using (level_of_listing hfront hmem).1
  · rw [List.filter_eq_nil_iff.mpr, List.filter_eq_self.mpr, List.nil_append]
    · intro line hmem
      rw [(hending line hmem).2]
      rfl
    · intro line hmem
      rw [(level_of_listing hfront hmem).2]
      exact Bool.false_ne_true

/-- The call `pull` had `eof` made as `request` asks for it, `warning` was logged about that, if
anything, and then that it was made. -/
structure ClosedBy (tokens : List (Shared Token)) (log : List Line) (history : History)
    (pull : Pull) (eof : Shared Token) (request : CreateRequest) (warning : Option CopyFailure) :
    Prop where
  mem_pulls : pull ∈ history.pulls
  rest_eq : pull.source.rest = .spent
  token?_eq : pull.token? = some eof
  /-- No other request was sent. -/
  calls_eq : history.calls = [pull.source.callFor request]
  filter_log : log.filter (·.during.isSome) = closing history.source.id.name request warning
  infix_log : closing history.source.id.name request warning <:+: log
  /-- There is a warning if the factory in place copies text, goes without the text it was given,
  and finds none in the stream of the last token. -/
  warning_iff : ∃ copyText dropText, pull.source.factory.value.PassesOn copyText dropText ∧
    ∀ failure, warning = some failure ↔ copyText = true ∧ dropText = true ∧
      ∃ last stream, tokens.getLast? = some last ∧ last.value.origin.stream = some stream ∧
        stream.value.name = failure.stream ∧
        stream.value.text request.span = .ok (.error failure.error)

/-- What was logged in the course of the turns is one line for each token of the list that was
handed out, what belongs to the making of the end of stream token, and one line for each recording.
-/
structure Accounted (tokens : List (Shared Token)) (turns : List Turn) (episodes : List Episode)
    (history : History) : Prop where
  turns_eq : episodes.map Episode.turn = turns
  ends : ∀ episode ∈ episodes, episode.Ends
  /-- Lines are only ever added. -/
  lines_step : ∀ episode ∈ episodes,
    episode.step.session.lines = episode.turn.session.lines ++ episode.lines
  listed : ((Episode.log episodes).filter (·.level = "TRACE")).map .ok =
    listing history.source.id.name (tokens.take history.source.cursor)
  /-- Without an end of stream token nothing is logged about its making. -/
  unclosed : history.source.eof? = none →
    history.calls = [] ∧ (Episode.log episodes).filter (·.during.isSome) = []
  /-- An end of stream token was made once, and its making is in the log once. -/
  closed : ∀ eof, history.source.eof? = some eof → ∃ pull request warning,
    history.ClosedBy tokens (Episode.log episodes) pull eof request warning
  /-- A recording adds its line behind those of its calls. -/
  recorded : ∀ episode ∈ episodes, episode.source.id = history.source.id ∧
    ∃ others, episode.lines = others ++ episode.recorded ∧ ∀ line ∈ others,
      line.level = "TRACE" ∨ line.during = some (.makeEof history.source.id.name)

theorem Logged.unclosed {ending : List Line} (h : history.Logged ending)
    (hnone : history.source.eof? = none) : history.calls = [] ∧ ending = [] := by
  cases h.closes with
  | unmade heof hcalls => exact ⟨hcalls, rfl⟩
  | made heof hmem hrest htoken hcalls =>
    rw [hnone] at heof
    cases heof

theorem Logged.closed {tokens : List (Shared Token)} {log ending : List Line} {eof : Shared Token}
    (h : history.Logged ending) (hsome : history.source.eof? = some eof)
    (hwithin : ∀ pull ∈ history.pulls, pull.Within history.source.id tokens)
    (hfilter : log.filter (·.during.isSome) = ending)
    (hpiece : ∀ pull ∈ history.pulls, pull.lines <:+: log) :
    ∃ pull request warning, history.ClosedBy tokens log pull eof request warning := by
  cases h.closes with
  | unmade heof hcalls =>
    rw [hsome] at heof
    cases heof
  | @made made pull heof hmem hrest htoken hcalls =>
    obtain rfl : made = eof := Option.some.inj (heof.symm.trans hsome)
    obtain ⟨hlogging, hid, htokens, copyText, dropText, hpasses⟩ := hwithin pull hmem
    obtain ⟨request, creation, hrequest, hcreate, hlines, hsent⟩ :=
      Pull.closing_of_spent hlogging hrest htoken
    have hthere := hpiece pull hmem
    rw [hlines, hid] at hfilter hthere
    refine ⟨pull, request, creation.copyFailure, hmem, hrest, htoken, ?_, hfilter, hthere, copyText,
      dropText, hpasses, fun failure ↦ ?_⟩
    · rw [hcalls, hsent]
    · rw [← htokens]
      exact hpasses.copyFailure_of_spent hrest hrequest hcreate failure

section Run

variable {start : Source}

theorem logs_of_run? (hrun : (ofSource start).run? turns = some history)
    (hlogging : ∀ turn ∈ turns, turn.session.logging = true) :
    ∀ episode ∈ start.episodes turns, episode.Logs := by
  obtain ⟨hturns, hends, -⟩ := episodes_of_run? hrun
  intro episode hmem
  refine (hends episode hmem).1.logs (hlogging episode.turn ?_)
  rw [← hturns]
  exact List.mem_map_of_mem hmem

theorem within_of_run? (hrun : (ofSource start).run? turns = some history)
    (hlogging : ∀ turn ∈ turns, turn.session.logging = true)
    (hfactories : ∀ other ∈ start.factory :: Turn.factories turns,
      ∃ copyText dropText, other.value.PassesOn copyText dropText) :
    ∀ pull ∈ history.pulls, pull.Within start.id start.tokens := by
  obtain ⟨-, hends, hpulls⟩ := episodes_of_run? hrun
  obtain ⟨hfirst, hothers⟩ := List.forall_mem_cons.mp hfactories
  have hkept := (forall_pulls (P := fun source ↦ source.tokens = start.tokens ∧
    ∃ copyText dropText, source.factory.value.PassesOn copyText dropText) hrun ?_ ?_ ?_ ?_).2
  · intro pull hmem
    obtain ⟨htokens, hpasses⟩ := hkept pull hmem
    rw [hpulls] at hmem
    obtain ⟨episode, hepisode, hpull⟩ := List.mem_flatMap.mp hmem
    obtain ⟨hstill, hid⟩ := (logs_of_run? hrun hlogging episode hepisode).pulls_logging pull hpull
    exact ⟨hstill, hid.trans (hends episode hepisode).2, htokens, hpasses⟩
  · rintro source other hmem ⟨hlist, -⟩
    exact ⟨hlist, hothers other hmem⟩
  · rintro source session h
    rwa [Source.tokens_next, Source.factory_next]
  · exact ⟨rfl, hfirst⟩
  · intro pull hmem
    cases hmem

theorem exists_accounted (hnew : start.passed = []) (hnone : start.eof? = none)
    (hlogging : ∀ turn ∈ turns, turn.session.logging = true)
    (hfactories : ∀ other ∈ start.factory :: Turn.factories turns,
      ∃ copyText dropText, other.value.PassesOn copyText dropText) :
    ∃ history, (ofSource start).run? turns = some history ∧
      history.Accounted start.tokens turns (start.episodes turns) := by
  have hmakes : ∀ other ∈ start.factory :: Turn.factories turns,
      other.value.MakesEof ∧ other.value.Answers := by
    intro other hmem
    obtain ⟨copyText, dropText, hpasses⟩ := hfactories other hmem
    exact ⟨hpasses.makesEof, hpasses.answers⟩
  obtain ⟨hfirst, hothers⟩ := List.forall_mem_cons.mp hmakes
  obtain ⟨history, hrun⟩ : ∃ history, (ofSource start).run? turns = some history :=
    exists_run? (Source.wellEnded_of_eof?_eq_none hfirst.1 hnone)
      fun other hmem ↦ (hothers other hmem).1
  have hid : history.source.id = start.id := id_of_run? hrun
  have htokens : history.source.tokens = start.tokens := tokens_of_run? hrun
  obtain ⟨hturns, hends, hpulls⟩ := episodes_of_run? hrun
  have hpulls : history.pulls = (start.episodes turns).flatMap Episode.pulls := hpulls
  have hlogs := logs_of_run? hrun hlogging
  have hwithin := within_of_run? hrun hlogging hfactories
  rw [← hid] at hwithin
  obtain ⟨ending, hlogged⟩ : ∃ ending, history.Logged ending := by
    refine logged_of_run? hrun (fun other hmem ↦ (hothers other hmem).2) hfirst.2
      (fun pull hmem ↦ (hwithin pull hmem).logging) fun _ ↦ ⟨[], ?_, .unmade hnone rfl⟩
    rw [ofSource, hnew]
    rfl
  obtain ⟨htrace, hbuilding⟩ := hlogged.filter_eq hwithin
  have htake : start.tokens.take history.source.cursor = history.source.passed.reverse := by
    rw [← htokens, Source.tokens]
    exact List.take_left' List.length_reverse
  have hfilter : (Episode.log (start.episodes turns)).filter (·.during.isSome) = ending := by
    rw [Episode.filter_log hlogs fun _ _ ↦ rfl, ← hpulls, hbuilding]
  refine ⟨history, hrun, hturns, fun episode hmem ↦ (hends episode hmem).1,
    fun episode hmem ↦ (hlogs episode hmem).lines_step, ?_, ?_, ?_, fun episode hmem ↦ ⟨?_, ?_⟩⟩
  · rw [Episode.filter_log hlogs fun _ _ ↦ rfl, ← hpulls, htrace, htake]
  · intro hnone
    rw [hfilter]
    exact hlogged.unclosed hnone
  · intro eof hsome
    refine hlogged.closed hsome hwithin hfilter fun pull hmem ↦ ?_
    exact Episode.infix_log hlogs (hpulls ▸ hmem)
  · exact (hends episode hmem).2.trans hid.symm
  · refine ⟨_, (hlogs episode hmem).lines_eq, fun line hline ↦ ?_⟩
    obtain ⟨pull, hpull, hline⟩ := List.mem_flatMap.mp hline
    have hthere := hwithin pull (hpulls ▸ List.mem_flatMap.mpr ⟨episode, hmem, hpull⟩)
    rw [← hthere.id_eq]
    exact Pull.level_or_during hthere.logging hline

end Run

/-- **The log accounts for the run.** -/
theorem accounted (tokens : List (Shared Token)) (name : String) (factory : Shared Factory)
    (session : Session) (turns : List Turn)
    (hfactories : ∀ other ∈ factory :: Turn.factories turns,
      ∃ copyText dropText, other.value.PassesOn copyText dropText)
    (hlogging : ∀ turn ∈ turns, turn.session.logging = true) :
    ∃ history,
      (ofSource (Source.withFactory tokens name factory session).1).run? turns = some history ∧
      history.Accounted tokens turns
        ((Source.withFactory tokens name factory session).1.episodes turns) := by
  have haccounted := @exists_accounted turns (Source.withFactory tokens name factory session).1 rfl
    (Rest.eof?_ofList tokens) hlogging hfactories
  rwa [Source.tokens_withFactory] at haccounted

/-- Two words, the latter of them from a stream, though from nowhere in particular. -/
def wordTokens : List (Shared Token) :=
  [⟨1, { type := ⟨1⟩, ownText := some "a" }⟩,
    ⟨3, { type := ⟨1⟩, ownText := some "b", origin := { stream := some ⟨2, ⟨"in", "ab"⟩⟩ } }⟩]

/-- The end of stream token is made in the course of a recording, by a factory that drops its text
and then looks for it in the stream. -/
def loggingTurns : List Turn :=
  let logging : Session := { logging := true, nextSerial := 10 }
  [⟨logging, .next⟩, ⟨logging, .setFactory ⟨4, .forwarding true true⟩⟩, ⟨logging, .record "copy"⟩,
    ⟨logging, .next⟩, ⟨logging, .drain⟩]

theorem accounted_words : ∃ history,
    (ofSource (Source.withFactory wordTokens "unit" ⟨0, .common false⟩ {}).1).run? loggingTurns =
      some history ∧
    history.Accounted wordTokens loggingTurns
      ((Source.withFactory wordTokens "unit" ⟨0, .common false⟩ {}).1.episodes loggingTurns) ∧
    Episode.log
        ((Source.withFactory wordTokens "unit" ⟨0, .common false⟩ {}).1.episodes loggingTurns) =
      [⟨"TRACE", "unit: token 0 is [@-1,-1:-1='a',<1>,-1:0]", [], none⟩,
        ⟨"TRACE", "unit: token 1 is [@-1,-1:-1='b',<1>,-1:0]", [], none⟩,
        ⟨"WARN", "could not copy token text from `in`: span has an unknown end", [],
          some ⟨"make_eof", "INFO", [("source", "unit")]⟩⟩,
        ⟨"DEBUG", "built end of stream token", [("span", "-1:-1"), ("position", "-1:1")],
          some ⟨"make_eof", "INFO", [("source", "unit")]⟩⟩,
        ⟨"DEBUG", "recorded 1 tokens from `unit`", [], none⟩] := by
  obtain ⟨history, hrun, haccounted⟩ :=
    accounted wordTokens "unit" ⟨0, .common false⟩ {} loggingTurns
      (by
        intro other hmem
        have hmem : other ∈ [⟨0, .common false⟩, ⟨4, .forwarding true true⟩] := hmem
        rcases List.mem_cons.mp hmem with rfl | hmem
        · exact ⟨false, false, .common false⟩
        · obtain rfl := List.mem_singleton.mp hmem
          exact ⟨true, true, .forwarding true true⟩)
      (by decide)
  exact ⟨history, hrun, haccounted, by decide⟩

end History

end TokenReplay
