import TokenReplay.Proofs.EofCreation
import TokenReplay.Proofs.Stretch

/-!
# What is added to the log

The log grows by what happens, and while logging is on it can be said exactly by what. A call for a
token adds one line for a token of the list, or what belongs to the making of the end of stream
token, or nothing; a failed call always adds nothing (`Source.Entry`). An operation adds the lines
of its calls, one after the other, and if it makes a recording one more behind them
(`Episode.Ends.logs`).

## The lines

All this is said about the log as it is read (`Session.lines`). What the lines say is spelled out
here once more, in full, apart from the events that they come from; that the two agree is found
where an event is logged, in `Source.entry_next` and in `Episode.Ends.logs`.

## The log of a run

Others may write to the log between two turns of a source, so the log that is looked at here is put
together from what each of the turns adds to the log of its session (`Episode.log`). Apart from the
lines for recordings it consists of the lines of the calls that the history has on record
(`Episode.filter_log`), which is why nothing more is said about operations after this.
-/

namespace TokenReplay

/-! ## What the lines say -/

/-- The making of the end of stream token of the source. -/
def Activity.makeEof (source : String) : Activity where
  name := "make_eof"
  level := "INFO"
  fields := [("source", source)]

namespace Line

/-- The token `index` of the list of the source was handed out. -/
def handedOut (source : String) (index : Nat) (display : String) : Line where
  level := "TRACE"
  message := source ++ ": token " ++ index.repr ++ " is " ++ display

/-- The end of stream token of the source was built, for this span and position. -/
def builtEof (source : String) (span : ByteSpan) (position : Position) : Line where
  level := "DEBUG"
  message := "built end of stream token"
  fields := [("span", span.render), ("position", position.render)]
  during := some (.makeEof source)

/-- The text of the end of stream token of the source could not be copied. -/
def copyFailed (source : String) (failure : CopyFailure) : Line where
  level := "WARN"
  message := "could not copy token text from `" ++ failure.stream ++ "`: " ++ failure.error.message
  during := some (.makeEof source)

/-- So many tokens of the source were recorded. -/
def recorded (count : Nat) (source : String) : Line where
  level := "DEBUG"
  message := "recorded " ++ count.repr ++ " tokens from `" ++ source ++ "`"

end Line

/-- What is logged about the making of an end of stream token. -/
def closing (name : String) (request : CreateRequest) (warning : Option CopyFailure) : List Line :=
  (warning.map (.copyFailed name)).toList ++ [.builtEof name request.span request.position]

theorem map_line_copyFailed (name : String) (warning : Option CopyFailure) :
    (warning.map (Event.copyFailed (some ⟨name⟩))).toList.map Event.line =
      (warning.map (Line.copyFailed name)).toList := by
  cases warning with
  | none => rfl
  | some failure => rfl

/-! ## What is added to a log -/

namespace Session

/-- The log in words. -/
def lines (session : Session) : List Line := session.log.toList.map Event.line

/-- The lines that were added since `earlier`. -/
def linesSince (session earlier : Session) : List Line :=
  session.lines.drop earlier.lines.length

theorem linesSince_of_lines_eq {session earlier : Session} {added : List Line}
    (h : session.lines = earlier.lines ++ added) : session.linesSince earlier = added := by
  rw [linesSince, h, List.drop_left]

theorem lines_of_toList_log_eq {session earlier : Session} {events : List Event}
    (h : session.log.toList = earlier.log.toList ++ events) :
    session.lines = earlier.lines ++ events.map Event.line := by
  rw [lines, h, List.map_append, lines]

theorem toList_log_emit {session : Session} (h : session.logging = true) (event : Event) :
    (session.emit event).log.toList = session.log.toList ++ [event] := by
  rw [emit_of_logging h, Array.toList_push]

theorem lines_emit {session : Session} (h : session.logging = true) (event : Event) :
    (session.emit event).lines = session.lines ++ [event.line] :=
  lines_of_toList_log_eq (toList_log_emit h event)

@[simp] theorem log_realize (session : Session) (product : Product) :
    (session.realize product).2.log = session.log := by
  cases product <;> rfl

@[simp] theorem logging_realize (session : Session) (product : Product) :
    (session.realize product).2.logging = session.logging := by
  cases product <;> rfl

theorem log_create {session : Session} {factory : Shared Factory} {source : Option String}
    {during : Option Building} {request : CreateRequest} {creation : Creation}
    (hlogging : session.logging = true) (h : factory.value.create request = .ok creation) :
    (session.create factory source during request).2.logging = true ∧
      (session.create factory source during request).2.log.toList =
        session.log.toList ++ (creation.copyFailure.map (.copyFailed during)).toList := by
  rw [create, h]
  dsimp only
  rw [logging_realize, log_realize]
  cases creation.copyFailure with
  | none => exact ⟨hlogging, (List.append_nil _).symm⟩
  | some failure =>
    dsimp only
    rw [logging_emit]
    refine ⟨hlogging, ?_⟩
    exact @toList_log_emit (session.note ⟨factory.serial, source, request⟩) hlogging _

theorem log_create_of_error {session : Session} {factory : Shared Factory}
    {source : Option String} {during : Option Building} {request : CreateRequest} {e : Overflow}
    (hlogging : session.logging = true) (h : factory.value.create request = .error e) :
    (session.create factory source during request).2.logging = true ∧
      (session.create factory source during request).2.log = session.log := by
  rw [create, h]
  exact ⟨hlogging, rfl⟩

end Session

/-- The lines that a call for a token added to the log. -/
def Pull.lines (pull : Pull) : List Line := pull.step.session.linesSince pull.session

namespace Source

variable {source : Source} {session : Session}

/-! ## The lines of a call -/

/-- What a call logs, by what it comes to. -/
inductive Entry (source : Source) : Except Overflow (Shared Token) → Source → List Line → Prop
  | listed {token : Shared Token} {later : List (Shared Token)} {display : String}
      (hrest : source.rest = .tokens token later) (hdisplay : token.value.display = .ok display) :
      Entry source (.ok token) (source.past [token] (.ofList later))
        [.handedOut source.id.name source.cursor display]
  | again {eof : Shared Token} (hrest : source.rest = .ended eof) :
      Entry source (.ok eof) source []
  | failed (e : Overflow) : Entry source (.error e) source []
  | built {eof : Shared Token} {request : CreateRequest} {creation : Creation}
      (hrest : source.rest = .spent) (hrequest : source.eofRequest = .ok request)
      (hcreate : source.factory.value.create request = .ok creation) :
      Entry source (.ok eof) (source.past [] (.ended eof))
        (closing source.id.name request creation.copyFailure)

theorem entry_of_request {request : CreateRequest} (hlogging : session.logging = true)
    (hrest : source.rest = .spent) (hrequest : source.eofRequest = .ok request) :
    ∃ added, source.Entry (source.next session).outcome (source.next session).state added ∧
      (source.next session).session.logging = true ∧
      (source.next session).session.lines = session.lines ++ added := by
  have hfst := session.fst_create source.factory (some source.id.name) (some ⟨source.id.name⟩)
    request
  cases hcreate : source.factory.value.create request with
  | error e =>
    obtain ⟨hstill, hlog⟩ := @Session.log_create_of_error session _ (some source.id.name)
      (some ⟨source.id.name⟩) _ _ hlogging hcreate
    rw [hcreate] at hfst
    rw [next_of_refused hrest hrequest (Prod.ext hfst rfl)]
    refine ⟨[], .failed e, hstill, ?_⟩
    rw [List.append_nil, Session.lines, hlog, Session.lines]
  | ok creation =>
    obtain ⟨hstill, hlog⟩ := @Session.log_create session _ (some source.id.name)
      (some ⟨source.id.name⟩) _ _ hlogging hcreate
    rw [hcreate] at hfst
    rw [next_of_built hrest hrequest (Prod.ext hfst rfl)]
    refine ⟨_, .built hrest hrequest hcreate, ?_, ?_⟩
    · rwa [Session.logging_emit]
    · rw [closing, Session.lines_emit hstill, Session.lines_of_toList_log_eq hlog,
        map_line_copyFailed, List.append_assoc]
      rfl

/-- **One call** adds its lines to the log, while logging is on. -/
theorem entry_next (hlogging : session.logging = true) :
    ∃ added, source.Entry (source.next session).outcome (source.next session).state added ∧
      (source.next session).session.logging = true ∧
      (source.next session).session.lines = session.lines ++ added := by
  cases hrest : source.rest with
  | tokens token later =>
    cases hdisplay : token.value.display with
    | error e =>
      have hlog : session.logHandedOut source.id.name source.cursor token.value = .error e := by
        rw [Session.logHandedOut, if_pos hlogging, hdisplay]
      rw [next_of_unshown hrest hlog]
      exact ⟨[], .failed e, hlogging, (List.append_nil _).symm⟩
    | ok display =>
      have hlog : session.logHandedOut source.id.name source.cursor token.value =
          .ok (session.emit (.handedOut source.id.name source.cursor display)) := by
        rw [Session.logHandedOut, if_pos hlogging, hdisplay]
      rw [next_of_tokens hrest hlog]
      refine ⟨_, .listed hrest hdisplay, ?_, Session.lines_emit hlogging _⟩
      rwa [Session.logging_emit]
  | ended eof =>
    rw [next_of_ended hrest]
    exact ⟨[], .again hrest, hlogging, (List.append_nil _).symm⟩
  | spent =>
    cases hrequest : source.eofRequest with
    | error e =>
      rw [next_of_unplaced hrest hrequest]
      exact ⟨[], .failed e, hlogging, (List.append_nil _).symm⟩
    | ok request => exact entry_of_request hlogging hrest hrequest

end Source

namespace Pull

variable {pull : Pull}

theorem lines_step (hlogging : pull.session.logging = true) :
    pull.step.session.logging = true ∧
      pull.step.session.lines = pull.session.lines ++ pull.lines := by
  obtain ⟨added, -, hstill, hlog⟩ := @Source.entry_next pull.source _ hlogging
  rw [lines, step, Session.linesSince_of_lines_eq hlog]
  exact ⟨hstill, hlog⟩

theorem entry_lines (hlogging : pull.session.logging = true) :
    pull.source.Entry pull.step.outcome pull.step.state pull.lines := by
  obtain ⟨added, hentry, -, hlog⟩ := @Source.entry_next pull.source _ hlogging
  rw [lines, step, Session.linesSince_of_lines_eq hlog]
  exact hentry

theorem lines_of_eof? {eof : Shared Token} (h : pull.source.eof? = some eof) :
    pull.lines = [] ∧ pull.calls = [] := by
  rw [lines, calls, step, Source.next_of_eof? h]
  exact ⟨Session.linesSince_of_lines_eq (List.append_nil _).symm,
    Session.callsSince_of_calls_eq rfl⟩

/-- What a call logs is about a token of the list, or it belongs to the making of the end of stream
token. -/
theorem level_or_during (hlogging : pull.session.logging = true) {line : Line}
    (hmem : line ∈ pull.lines) :
    line.level = "TRACE" ∨ line.during = some (.makeEof pull.source.id.name) := by
  have hentry := entry_lines hlogging
  generalize pull.step.outcome = outcome, pull.step.state = state, pull.lines = added
    at hentry hmem
  cases hentry with
  | listed hrest hdisplay =>
    obtain rfl := List.mem_singleton.mp hmem
    exact .inl rfl
  | again hrest => cases hmem
  | failed e => cases hmem
  | @built eof request creation hrest hrequest hcreate =>
    refine .inr ?_
    rcases List.mem_append.mp hmem with hmem | hmem
    · obtain ⟨failure, -, rfl⟩ := Option.map_eq_some_iff.mp (Option.mem_toList.mp hmem)
      rfl
    · obtain rfl := List.mem_singleton.mp hmem
      rfl

end Pull

/-! ## The lines of an operation -/

namespace Source

theorem lines_ofTokens (tokens : List (Shared Token)) (name : String) (session : Session) :
    (ofTokens tokens name session).2.lines = session.lines := rfl

/-- What a haul that begins with this source and this session adds to the log. -/
structure Haul.Logs (haul : Haul) (source : Source) (session : Session) : Prop where
  logging : haul.session.logging = true
  pulls_logging : ∀ pull ∈ haul.pulls, pull.session.logging = true ∧ pull.source.id = source.id
  lines_eq : haul.session.lines = session.lines ++ haul.pulls.flatMap Pull.lines

theorem Haul.logs_single {source : Source} {session : Session} (hlogging : session.logging = true)
    (outcome : Except Overflow Bool) :
    (Haul.single ⟨source, session⟩ outcome).Logs source session := by
  obtain ⟨hstill, hlog⟩ := @Pull.lines_step ⟨source, session⟩ hlogging
  refine ⟨hstill, ?_, ?_⟩
  · intro pull hmem
    obtain rfl := List.mem_singleton.mp hmem
    exact ⟨hlogging, rfl⟩
  · rw [Haul.single, List.flatMap_singleton]
    exact hlog

theorem logs_haul {limit : Nat} {source : Source} {session : Session}
    (hlogging : session.logging = true) : (haul limit source session).Logs source session := by
  fun_induction haul limit source session with
  | case1 source session =>
    refine ⟨hlogging, ?_, (List.append_nil _).symm⟩
    intro pull hmem
    cases hmem
  | case2 limit source session e h => exact Haul.logs_single hlogging _
  | case3 limit source session token h heof => exact Haul.logs_single hlogging _
  | case4 limit source session token h heof ih =>
    obtain ⟨hstill, hlog⟩ := @Pull.lines_step ⟨source, session⟩ hlogging
    obtain ⟨hend, hpulls, hlater⟩ := ih hstill
    refine ⟨hend, ?_, ?_⟩
    · rw [Haul.pulls_cons, List.forall_mem_cons]
      refine ⟨⟨hlogging, rfl⟩, fun pull hmem ↦ ?_⟩
      obtain ⟨hstays, hid⟩ := hpulls pull hmem
      exact ⟨hstays, by rw [hid, id_next]⟩
    · rw [Pull.step] at hlog
      rw [Haul.session_cons, Haul.pulls_cons, hlater, hlog, List.flatMap_cons, List.append_assoc]

end Source

/-- A turn that came to an end: the source it was done to, and the step that was made of it. -/
structure Episode where
  source : Source
  turn : Turn
  step : Step Source Source.Answer

namespace Episode

variable (episode : Episode)

/-- The calls for tokens. -/
def pulls : List Pull := episode.source.pulls episode.turn.session episode.turn.op

/-- The lines that were added to the log. -/
def lines : List Line := episode.step.session.linesSince episode.turn.session

/-- The line for a recording, if one was made. -/
def recorded : List Line :=
  match episode.step.outcome with
  | .ok (.recording made) => [.recorded made.size episode.source.id.name]
  | _ => []

/-- The step is what the operation came to. -/
def Ends : Prop :=
  episode.source.perform episode.turn.session episode.turn.op = some episode.step

variable {episode}

theorem recorded_of_ne (h : ∀ made, episode.step.outcome ≠ .ok (.recording made)) :
    episode.recorded = [] := by
  rw [recorded]
  split
  case h_1 made houtcome => exact absurd houtcome (h made)
  case h_2 => rfl

theorem recorded_of_eq {made : Source} (h : episode.step.outcome = .ok (.recording made)) :
    episode.recorded = [.recorded made.size episode.source.id.name] := by
  rw [recorded, h]

/-- What an operation was found to add to the log, and what it is made of. -/
structure Logs (episode : Episode) : Prop where
  pulls_logging : ∀ pull ∈ episode.pulls,
    pull.session.logging = true ∧ pull.source.id = episode.source.id
  lines_step : episode.step.session.lines = episode.turn.session.lines ++ episode.lines
  lines_eq : episode.lines = episode.pulls.flatMap Pull.lines ++ episode.recorded

theorem logs_of_lines_step
    (hpulls : ∀ pull ∈ episode.pulls,
      pull.session.logging = true ∧ pull.source.id = episode.source.id)
    (hlog : episode.step.session.lines =
      episode.turn.session.lines ++ (episode.pulls.flatMap Pull.lines ++ episode.recorded)) :
    episode.Logs := by
  have hlines : episode.lines = episode.pulls.flatMap Pull.lines ++ episode.recorded :=
    Session.linesSince_of_lines_eq hlog
  exact ⟨hpulls, by rw [hlines, hlog], hlines⟩

theorem logs_of_idle (hpulls : episode.pulls = [])
    (hsession : episode.step.session = episode.turn.session)
    (houtcome : ∀ made, episode.step.outcome ≠ .ok (.recording made)) : episode.Logs := by
  refine logs_of_lines_step ?_ ?_
  · intro pull hmem
    rw [hpulls] at hmem
    cases hmem
  · rw [hpulls, recorded_of_ne houtcome, hsession, List.flatMap_nil, List.append_nil,
      List.append_nil]

theorem logs_of_haul {limit : Nat} (hlogging : episode.turn.session.logging = true)
    (hpulls : episode.pulls = (Source.haul limit episode.source episode.turn.session).pulls)
    (hsession : episode.step.session =
      (Source.haul limit episode.source episode.turn.session).session)
    (houtcome : ∀ made, episode.step.outcome ≠ .ok (.recording made)) : episode.Logs := by
  obtain ⟨-, hall, hlog⟩ := @Source.logs_haul limit episode.source _ hlogging
  refine logs_of_lines_step ?_ ?_
  · rwa [hpulls]
  · rw [hpulls, recorded_of_ne houtcome, hsession, List.append_nil, hlog]

/-- **One operation** adds to the log what its calls add to it, and a line for the recording if it
makes one. -/
theorem Ends.logs (h : episode.Ends) (hlogging : episode.turn.session.logging = true) :
    episode.Logs := by
  obtain ⟨source, ⟨session, op⟩, step⟩ := episode
  have h : source.perform session op = some step := h
  cases op with
  | next =>
    cases h
    obtain ⟨-, hlog⟩ := @Pull.lines_step ⟨source, session⟩ hlogging
    refine logs_of_lines_step ?_ ?_
    · intro pull hmem
      obtain rfl := List.mem_singleton.mp hmem
      exact ⟨hlogging, rfl⟩
    · rw [recorded_of_ne, List.append_nil, pulls, Source.pulls, List.flatMap_singleton]
      · exact hlog
      · intro made hmade
        obtain ⟨token, -, htoken⟩ := Step.outcome_map_eq_ok_iff.mp hmade
        cases htoken
  | skip =>
    cases h
    exact logs_of_idle rfl rfl fun made hmade ↦ by cases hmade
  | more =>
    cases h
    exact logs_of_idle rfl rfl fun made hmade ↦ by cases hmade
  | setFactory factory =>
    cases h
    exact logs_of_idle rfl rfl fun made hmade ↦ by cases hmade
  | ask query =>
    cases h
    refine logs_of_idle rfl rfl fun made hmade ↦ ?_
    -- A recording that is told of has a token that was handed out for it.
    obtain ⟨last, -, hnone⟩ := Source.tells_of_answer_eq_ok hmade
    cases List.append_ne_nil_of_right_ne_nil made.tokens (List.cons_ne_nil last []) hnone.symm
  | take count =>
    rw [Source.perform, Source.take_eq_haul, Option.some.injEq] at h
    subst h
    refine logs_of_haul hlogging rfl rfl fun made hmade ↦ ?_
    obtain ⟨items, -, hitems⟩ := Step.outcome_map_eq_ok_iff.mp hmade
    cases hitems
  | drain =>
    rw [Source.perform, Source.drain_eq_haul] at h
    obtain ⟨drained, hdrained, rfl⟩ := Option.map_eq_some_iff.mp h
    refine logs_of_haul hlogging rfl (Source.Haul.state_of_finish_eq_some hdrained).2
      fun made hmade ↦ ?_
    obtain ⟨tokens, -, htokens⟩ := Step.outcome_map_eq_ok_iff.mp hmade
    cases htokens
  | record name =>
    obtain ⟨taken, htaken, rfl⟩ := Option.map_eq_some_iff.mp h
    have hid := Source.id_of_path (Source.path_haul (source.rest.toList.length + 1) source session)
    obtain ⟨hstill, hall, hlog⟩ :=
      @Source.logs_haul (source.rest.toList.length + 1) source session hlogging
    rw [Source.record_eq_haul] at htaken
    dsimp only at htaken
    split at htaken
    · cases htaken
      exact logs_of_haul hlogging rfl rfl fun made hmade ↦ by cases hmade
    · cases htaken
    -- The recording is made when the calls are over, and its line comes behind theirs.
    · cases htaken
      refine logs_of_lines_step hall ?_
      rw [recorded_of_eq rfl, Step.session_map, Source.lines_ofTokens, Session.lines_emit hstill,
        hlog, List.append_assoc, hid, ← Source.length_tokens, Source.tokens_ofTokens]
      rfl

/-- The lines that were logged in the course of the turns. -/
def log (episodes : List Episode) : List Line := episodes.flatMap lines

theorem log_cons (episode : Episode) (episodes : List Episode) :
    log (episode :: episodes) = episode.lines ++ log episodes := List.flatMap_cons

/-- Leaving lines for recordings aside, the log is that of the calls. -/
theorem filter_log {episodes : List Episode} (h : ∀ episode ∈ episodes, episode.Logs)
    {p : Line → Bool} (hp : ∀ count source, p (.recorded count source) = false) :
    (log episodes).filter p = ((episodes.flatMap pulls).flatMap Pull.lines).filter p := by
  induction episodes with
  | nil => rfl
  | cons episode episodes ih =>
    rw [List.forall_mem_cons] at h
    have hrecorded : episode.recorded.filter p = [] := by
      rw [recorded]
      split
      case h_1 made houtcome => exact List.filter_cons_of_neg (by rw [hp]; exact Bool.false_ne_true)
      case h_2 => rfl
    rw [log_cons, h.1.lines_eq, List.filter_append, List.filter_append, hrecorded, List.append_nil,
      ih h.2, List.flatMap_cons, List.flatMap_append, List.filter_append]

theorem infix_log {episodes : List Episode} (h : ∀ episode ∈ episodes, episode.Logs) {pull : Pull}
    (hmem : pull ∈ episodes.flatMap pulls) : pull.lines <:+: log episodes := by
  obtain ⟨episode, hepisode, hpull⟩ := List.mem_flatMap.mp hmem
  obtain ⟨before, after, hsplit⟩ := List.append_of_mem hepisode
  obtain ⟨earlier, later, hpulls⟩ := List.append_of_mem hpull
  have hlog : log episodes = log before ++ (episode.lines ++ log after) := by
    rw [hsplit, log, List.flatMap_append, List.flatMap_cons]
    rfl
  have hlines : episode.lines = earlier.flatMap Pull.lines ++
      (pull.lines ++ (later.flatMap Pull.lines ++ episode.recorded)) := by
    rw [(h episode hepisode).lines_eq, hpulls, List.flatMap_append, List.flatMap_cons,
      List.append_assoc, List.append_assoc]
  refine ⟨log before ++ earlier.flatMap Pull.lines,
    later.flatMap Pull.lines ++ episode.recorded ++ log after, ?_⟩
  rw [hlog, hlines]
  simp only [List.append_assoc]

end Episode

/-! ## The turns one by one -/

/-- The turns of a source one by one, up to the first that is endless. -/
def Source.episodes (source : Source) : List Turn → List Episode
  | [] => []
  | turn :: turns =>
    match source.perform turn.session turn.op with
    | none => []
    | some step => ⟨source, turn, step⟩ :: step.state.episodes turns

namespace History

variable {history later : History} {turns : List Turn}

theorem episodes_of_run? (hrun : history.run? turns = some later) :
    (history.source.episodes turns).map Episode.turn = turns ∧
      (∀ episode ∈ history.source.episodes turns,
        episode.Ends ∧ episode.source.id = history.source.id) ∧
      later.pulls = history.pulls ++ (history.source.episodes turns).flatMap Episode.pulls := by
  induction turns generalizing history with
  | nil =>
    cases hrun
    refine ⟨rfl, ?_, (List.append_nil _).symm⟩
    intro episode hmem
    cases hmem
  | cons turn turns ih =>
    rw [run?, List.foldlM_cons] at hrun
    obtain ⟨middle, hturn, hrest⟩ := Option.bind_eq_some_iff.mp hrun
    obtain ⟨step, hstep, rfl⟩ := Option.map_eq_some_iff.mp hturn
    obtain ⟨hturns, hends, hpulls⟩ := ih hrest
    have hepisodes : history.source.episodes (turn :: turns) =
        ⟨history.source, turn, step⟩ :: step.state.episodes turns := by
      rw [Source.episodes, hstep]
    rw [hepisodes]
    refine ⟨?_, List.forall_mem_cons.mpr ⟨⟨hstep, rfl⟩, fun episode hmem ↦ ?_⟩, ?_⟩
    · rw [List.map_cons, hturns]
    · rw [← Source.id_of_perform hstep]
      exact hends episode hmem
    · rw [hpulls, List.flatMap_cons, List.append_assoc]
      rfl

end History

end TokenReplay
