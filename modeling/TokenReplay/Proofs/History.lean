import TokenReplay.Proofs.Haul

/-!
# Histories of a source

A history is what has become of a source so far, together with every call for a token that was made
and every request that was sent to a factory on the way. Histories grow by operations, one turn
after the other, and a history breaks off where an operation would never end.

## Turns

Between two operations the session is in the hands of others: further sources work in it, tokens are
made, and logging goes on or off. So each turn brings the session it takes place in, and nothing is
asked of how that came about from the session of the turn before. Runs in which every operation
finds what the last one left are among these, and what holds of all histories holds of them.

## Small steps

Operations differ in how many calls for tokens they make, and when they stop. For the source this
makes no difference: apart from the change of a factory nothing but calls has an effect on it, so
what is kept by a single call and by a change of the factory is kept by any number of operations.
That is `History.induction`, by which every statement about histories is proved.
-/

namespace TokenReplay

/-- An operation and the session in which it is done. -/
structure Turn where
  session : Session
  op : Source.Op

namespace Turn

/-- The factory that is installed in a turn. -/
def factory? (turn : Turn) : Option (Shared Factory) :=
  match turn.op with
  | .setFactory factory => some factory
  | _ => none

/-- The factories that are installed in the course of the turns. -/
def factories (turns : List Turn) : List (Shared Factory) := turns.filterMap factory?

theorem mem_factories_cons {turn : Turn} {turns : List Turn} {factory : Shared Factory} :
    factory ∈ factories (turn :: turns) ↔
      turn.factory? = some factory ∨ factory ∈ factories turns := by
  rw [factories, List.filterMap_cons]
  cases turn.factory? <;> simp [factories, eq_comm]

end Turn

namespace Source

/-- The calls for tokens that an operation makes. -/
def pulls (source : Source) (session : Session) : Op → List Pull
  | .next => [⟨source, session⟩]
  | .take count => (haul count source session).pulls
  | .drain => (haul (source.rest.toList.length + 2) source session).pulls
  | .record _ => (haul (source.rest.toList.length + 1) source session).pulls
  | .skip | .more | .ask _ | .setFactory _ => []

theorem tokens_ofTokens (tokens : List (Shared Token)) (name : String) (session : Session) :
    (ofTokens tokens name session).1.tokens = tokens := tokens_withFactory _ _ _ _

theorem calls_ofTokens (tokens : List (Shared Token)) (name : String) (session : Session) :
    (ofTokens tokens name session).2.calls = session.calls := rfl

theorem state_of_record_eq_some {source : Source} {name : String} {session : Session}
    {step : Step Source Source} (h : source.record name session = some step) :
    step.state = (haul (source.rest.toList.length + 1) source session).state ∧
      step.session.calls = (haul (source.rest.toList.length + 1) source session).session.calls := by
  rw [record_eq_haul] at h
  dsimp only at h
  split at h
  · cases h
    exact ⟨rfl, rfl⟩
  · cases h
  · cases h
    refine ⟨rfl, ?_⟩
    rw [calls_ofTokens, Session.calls_emit]

/-- What an answer tells of the tokens that were handed out for it. A pass that has ended is filled
up with nothing, and a recording goes without its last token. -/
def Answer.Tells (handedOut : List (Shared Token)) : Answer → Prop
  | .token given => handedOut = [given]
  | .items given => ∃ missing, given = handedOut.map some ++ List.replicate missing none
  | .tokens given => handedOut = given
  | .recording made => ∃ last, last.value.isEof = true ∧ handedOut = made.tokens ++ [last]
  | .done | .flag _ | .number _ | .name _ | .line _ | .stream _ | .factory _ | .eof _ =>
    handedOut = []

theorem tells_of_answer_eq_ok {source : Source} {query : Query} {answer : Answer}
    (h : source.answer query = .ok answer) : answer.Tells [] := by
  cases query with
  | line =>
    rw [Source.answer] at h
    cases hline : source.line with
    | error e =>
      rw [hline] at h
      cases h
    | ok line =>
      rw [hline] at h
      cases h
      rfl
  | column =>
    rw [Source.answer] at h
    cases hcolumn : source.column with
    | error e =>
      rw [hcolumn] at h
      cases h
    | ok column =>
      rw [hcolumn] at h
      cases h
      rfl
  | _ =>
    cases h
    rfl

theorem tells_of_record {source recording : Source} {name : String} {session : Session}
    {step : Step Source Source} (h : source.record name session = some step)
    (hok : step.outcome = .ok recording) :
    (Answer.recording recording).Tells
      (haul (source.rest.toList.length + 1) source session).tokens := by
  rw [record_eq_haul] at h
  dsimp only at h
  split at h
  · cases h
    cases hok
  · cases h
  case h_3 houtcome =>
    cases h
    cases hok
    obtain ⟨front, last, htokens, hlast, -⟩ := tokens_haul_of_outcome_eq_true houtcome
    refine ⟨last, hlast, ?_⟩
    rw [tokens_ofTokens, htokens, List.dropLast_concat]

/-- **Calls give what is answered.** An operation that succeeds answers with the tokens of the calls
it is kept as. -/
theorem tells_of_perform {source : Source} {session : Session} {op : Op} {step : Step Source Answer}
    {answer : Answer} (h : source.perform session op = some step)
    (hok : step.outcome = .ok answer) :
    answer.Tells ((source.pulls session op).filterMap Pull.token?) := by
  cases op with
  | next =>
    cases h
    obtain ⟨token, htoken, rfl⟩ := Step.outcome_map_eq_ok_iff.mp hok
    exact Haul.tokens_single htoken (.ok true)
  | ask query =>
    cases h
    exact tells_of_answer_eq_ok hok
  | take count =>
    rw [perform, take_eq_haul, Option.some.injEq] at h
    subst h
    obtain ⟨items, hitems, rfl⟩ := Step.outcome_map_eq_ok_iff.mp hok
    dsimp only at hitems
    cases houtcome : (haul count source session).outcome with
    | error e =>
      rw [houtcome] at hitems
      cases hitems
    | ok ended =>
      rw [houtcome] at hitems
      cases hitems
      exact ⟨_, rfl⟩
  | drain =>
    rw [perform, drain_eq_haul] at h
    obtain ⟨drained, hdrained, rfl⟩ := Option.map_eq_some_iff.mp h
    obtain ⟨tokens, htokens, rfl⟩ := Step.outcome_map_eq_ok_iff.mp hok
    exact (Haul.outcome_of_finish_eq_some hdrained htokens).2.symm
  | record name =>
    obtain ⟨recorded, hrecorded, rfl⟩ := Option.map_eq_some_iff.mp h
    obtain ⟨recording, hrecording, rfl⟩ := Step.outcome_map_eq_ok_iff.mp hok
    exact tells_of_record hrecorded hrecording
  | _ =>
    cases h
    cases hok
    rfl

/-- **Operations are calls.** An operation changes the factory, or it does to the source and to the
list of requests what its calls for tokens do, and nothing else. -/
theorem perform_cases {source : Source} {session : Session} {op : Op} {step : Step Source Answer}
    (h : source.perform session op = some step) :
    (∃ factory, op = .setFactory factory ∧ step.state = source.setFactory factory ∧
      step.session = session) ∨
    (Path source (source.pulls session op) step.state ∧
      step.session.calls.toList =
        session.calls.toList ++ (source.pulls session op).flatMap Pull.calls) := by
  have idle : Path source [] source ∧
      session.calls.toList = session.calls.toList ++ [].flatMap Pull.calls :=
    ⟨.nil source, by rw [List.flatMap_nil, List.append_nil]⟩
  cases op with
  | next =>
    cases h
    refine .inr ⟨.cons (.nil _), ?_⟩
    rw [pulls, List.flatMap_singleton]
    exact Pull.toList_calls_step ⟨source, session⟩
  | skip =>
    cases h
    exact .inr idle
  | more =>
    cases h
    exact .inr idle
  | ask query =>
    cases h
    exact .inr idle
  | setFactory factory =>
    cases h
    exact .inl ⟨factory, rfl, rfl, rfl⟩
  | take count =>
    rw [perform, take_eq_haul, Option.some.injEq] at h
    subst h
    exact .inr ⟨path_haul _ _ _, toList_calls_haul _ _ _⟩
  | drain =>
    rw [perform, drain_eq_haul] at h
    obtain ⟨drained, hdrained, rfl⟩ := Option.map_eq_some_iff.mp h
    obtain ⟨hstate, hsession⟩ := Haul.state_of_finish_eq_some hdrained
    rw [Step.state_map, Step.session_map, hstate, hsession]
    exact .inr ⟨path_haul _ _ _, toList_calls_haul _ _ _⟩
  | record name =>
    obtain ⟨recorded, hrecorded, rfl⟩ := Option.map_eq_some_iff.mp h
    obtain ⟨hstate, hcalls⟩ := state_of_record_eq_some hrecorded
    rw [Step.state_map, Step.session_map, hstate, hcalls]
    exact .inr ⟨path_haul _ _ _, toList_calls_haul _ _ _⟩

theorem id_of_path {source last : Source} {pulls : List Pull} (h : Path source pulls last) :
    last.id = source.id := by
  induction h with
  | nil source => rfl
  | cons hpath ih => rw [ih, id_next]

theorem tokens_of_path {source last : Source} {pulls : List Pull}
    (h : Path source pulls last) : last.tokens = source.tokens := by
  induction h with
  | nil source => rfl
  | cons hpath ih => rw [ih, tokens_next]

theorem id_of_perform {source : Source} {session : Session} {op : Op} {step : Step Source Answer}
    (h : source.perform session op = some step) : step.state.id = source.id := by
  rcases perform_cases h with ⟨factory, -, hstate, -⟩ | ⟨hpath, -⟩
  · rw [hstate]
    rfl
  · exact id_of_path hpath

end Source

/-! ## Histories -/

/-- What has become of a source so far. -/
structure History where
  source : Source
  /-- The calls for tokens, in order. -/
  pulls : List Pull
  /-- The requests that factories were sent, in order. -/
  calls : List Call

namespace History

/-- The history of a source that nothing was done to. -/
def ofSource (source : Source) : History := ⟨source, [], []⟩

/-- The tokens that were handed out, in order. -/
def handedOut (history : History) : List (Shared Token) := history.pulls.filterMap Pull.token?

/-- The history with one more operation. -/
def turn? (history : History) (turn : Turn) : Option History :=
  (history.source.perform turn.session turn.op).map fun step ↦
    { source := step.state
      pulls := history.pulls ++ history.source.pulls turn.session turn.op
      calls := history.calls ++ step.session.callsSince turn.session }

/-- The history with further operations, if all of them end. -/
def run? (history : History) (turns : List Turn) : Option History := turns.foldlM turn? history

/-- The history with one more call for a token. -/
def pull (history : History) (session : Session) : History where
  source := (history.source.next session).state
  pulls := history.pulls ++ [⟨history.source, session⟩]
  calls := history.calls ++ (⟨history.source, session⟩ : Pull).calls

/-- The history with another factory in place. -/
def setFactory (history : History) (factory : Shared Factory) : History :=
  { history with source := history.source.setFactory factory }

@[simp] theorem handedOut_setFactory (history : History) (factory : Shared Factory) :
    (history.setFactory factory).handedOut = history.handedOut := rfl

theorem handedOut_pull (history : History) (session : Session) :
    (history.pull session).handedOut =
      history.handedOut ++ (⟨history.source, session⟩ : Pull).token?.toList := by
  rw [handedOut, pull, List.filterMap_append, ← handedOut]
  cases h : (⟨history.source, session⟩ : Pull).token? <;> simp [h]

/-- The answer to a turn tells of the tokens that the turn adds to those handed out. -/
theorem tells_of_turn {history : History} {turn : Turn} {step : Step Source Source.Answer}
    {answer : Source.Answer} (h : history.source.perform turn.session turn.op = some step)
    (hok : step.outcome = .ok answer) :
    ∃ later given, history.turn? turn = some later ∧
      later.handedOut = history.handedOut ++ given ∧ answer.Tells given := by
  have hturn : history.turn? turn = some
      { source := step.state
        pulls := history.pulls ++ history.source.pulls turn.session turn.op
        calls := history.calls ++ step.session.callsSince turn.session } := by
    rw [turn?, h, Option.map_some]
  exact ⟨_, _, hturn, List.filterMap_append, Source.tells_of_perform h hok⟩

theorem run?_append (history : History) (turns more : List Turn) :
    history.run? (turns ++ more) = (history.run? turns).bind (run? · more) :=
  List.foldlM_append

/-! ## Induction along a history -/

variable {P : History → Prop}

theorem of_path (hpull : ∀ history session, P history → P (history.pull session))
    {source last : Source} {pulls : List Pull} (hpath : Source.Path source pulls last)
    (front : List Pull) (calls : List Call) (h : P ⟨source, front, calls⟩) :
    P ⟨last, front ++ pulls, calls ++ pulls.flatMap Pull.calls⟩ := by
  -- Every call adds to what was there before, which therefore differs from case to case.
  induction hpath generalizing front calls with
  | nil source =>
    rw [List.append_nil, List.flatMap_nil, List.append_nil]
    exact h
  | cons hpath ih =>
    have hstep := ih _ _ (hpull _ _ h)
    rwa [List.append_assoc, List.append_assoc] at hstep

theorem of_turn (hpull : ∀ history session, P history → P (history.pull session))
    {history later : History} {turn : Turn}
    (hset : ∀ factory, turn.factory? = some factory → P (history.setFactory factory))
    (hturn : history.turn? turn = some later) (h : P history) : P later := by
  obtain ⟨step, hstep, rfl⟩ := Option.map_eq_some_iff.mp hturn
  rcases Source.perform_cases hstep with ⟨factory, hop, hstate, hsession⟩ | ⟨hpath, hcalls⟩
  -- No call is made for a change of the factory, so neither list gets longer.
  · have hnone : step.session.callsSince turn.session = [] :=
      Session.callsSince_of_calls_eq (congrArg Session.calls hsession)
    have hfactory : turn.factory? = some factory := by rw [Turn.factory?, hop]
    rw [hnone, hop, Source.pulls, List.append_nil, List.append_nil, hstate]
    exact hset factory hfactory
  · have hsince : step.session.callsSince turn.session =
        (history.source.pulls turn.session turn.op).flatMap Pull.calls :=
      Session.callsSince_of_toList_calls_eq hcalls
    rw [hsince]
    exact of_path hpull hpath _ _ h

/-- **Induction along a history.** What every call for a token keeps, and every change to one of the
factories that the turns bring, is kept by the turns. -/
protected theorem induction {history later : History} {turns : List Turn}
    (hrun : history.run? turns = some later)
    (hset : ∀ history, ∀ factory ∈ Turn.factories turns, P history → P (history.setFactory factory))
    (hpull : ∀ history session, P history → P (history.pull session)) (h : P history) :
    P later := by
  induction turns generalizing history with
  | nil =>
    cases hrun
    exact h
  | cons turn turns ih =>
    rw [run?, List.foldlM_cons] at hrun
    obtain ⟨middle, hturn, hrest⟩ := Option.bind_eq_some_iff.mp hrun
    refine ih hrest (fun history factory hmem ↦ hset history factory ?_) ?_
    · exact Turn.mem_factories_cons.mpr (.inr hmem)
    · refine of_turn hpull (fun factory hfactory ↦ ?_) hturn h
      exact hset history factory (Turn.mem_factories_cons.mpr (.inl hfactory)) h

/-- What calls and new factories keep of a source holds at each call. -/
theorem forall_pulls {P : Source → Prop} {history later : History} {turns : List Turn}
    (hrun : history.run? turns = some later)
    (hset : ∀ source, ∀ factory ∈ Turn.factories turns, P source → P (source.setFactory factory))
    (hnext : ∀ source session, P source → P (Source.next source session).state)
    (h : P history.source) (hpulls : ∀ pull ∈ history.pulls, P pull.source) :
    P later.source ∧ ∀ pull ∈ later.pulls, P pull.source := by
  refine History.induction
    (P := fun later ↦ P later.source ∧ ∀ pull ∈ later.pulls, P pull.source) hrun ?_ ?_ ⟨h, hpulls⟩
  · rintro history factory hmem ⟨hsource, hall⟩
    exact ⟨hset _ factory hmem hsource, hall⟩
  · rintro history session ⟨hsource, hall⟩
    refine ⟨hnext _ session hsource, fun pull hmem ↦ ?_⟩
    rcases List.mem_append.mp hmem with hmem | hmem
    · exact hall pull hmem
    · obtain rfl := List.mem_singleton.mp hmem
      exact hsource

/-! ## What stays

Some things about a source are settled when it is made, and one is settled on the way. -/

section

variable {history later : History} {turns : List Turn}

theorem tokens_of_run? (hrun : history.run? turns = some later) :
    later.source.tokens = history.source.tokens := by
  refine History.induction (P := fun later ↦ later.source.tokens = history.source.tokens)
    hrun ?_ ?_ rfl
  · intro later factory _ h
    exact h
  · intro later session h
    rw [pull, Source.tokens_next, h]

theorem id_of_run? (hrun : history.run? turns = some later) :
    later.source.id = history.source.id := by
  refine History.induction (P := fun later ↦ later.source.id = history.source.id) hrun ?_ ?_ rfl
  · intro later factory _ h
    exact h
  · intro later session h
    rw [pull, Source.id_next, h]

theorem eof?_of_run? {eof : Shared Token} (hrun : history.run? turns = some later)
    (h : history.source.eof? = some eof) : later.source.eof? = some eof := by
  refine History.induction (P := fun later ↦ later.source.eof? = some eof) hrun ?_ ?_ h
  · intro later factory _ h
    exact h
  · intro later session h
    rw [pull, Source.next_of_eof? h, h]

end

section

variable {tokens : List (Shared Token)} {name : String} {factory : Shared Factory}
  {session : Session} {history : History} {turns : List Turn}

theorem tokens_eq_of_run?
    (hrun : (ofSource (Source.withFactory tokens name factory session).1).run? turns =
      some history) : history.source.tokens = tokens := by
  rw [tokens_of_run? hrun]
  exact Source.tokens_withFactory tokens name factory session

theorem factory_mem_of_run?
    (hrun : (ofSource (Source.withFactory tokens name factory session).1).run? turns =
      some history) : history.source.factory ∈ factory :: Turn.factories turns := by
  refine History.induction
    (P := fun history ↦ history.source.factory ∈ factory :: Turn.factories turns) hrun ?_ ?_ ?_
  · intro history other hmem _
    exact List.mem_cons_of_mem _ hmem
  · intro history session h
    rwa [pull, Source.factory_next]
  · exact List.mem_cons_self

end

end History

end TokenReplay
