import TokenReplay.Proofs.Factories
import TokenReplay.Proofs.History

/-!
# How far calls in a row lead

Calls that are made in a row hand out tokens of the list, and it is the last of them that makes the
difference: it gives a token of end type or it fails. `haul_eq_last` says so in one sentence. All
that came before the last call are tokens of the list of other types, in order; the session has
changed in nothing but its log meanwhile; and state, session and outcome are those of the last call.

There is one more way, which is to be cut off by the limit. A haul that goes on past the list is cut
off only if the token at its end is not of end type, and `outcome_haul_ne_false` rules this out for
factories that make end of stream tokens as they were asked for. So their sources can be passed over
and recorded at any time.

## Moving along

`Source.past` is the source further along in its list. Two moves make one, and every statement here
says where a source is in these terms, starting from the source before the first call. Where tokens
can be shown, so many calls make a move of so many tokens (`after_of_readable`), and behind the list
one more puts the end of stream token in place (`next_of_spent_of_common`).
-/

namespace TokenReplay

theorem Session.eq_of_logHandedOut {session logged : Session} {source : String} {index : Nat}
    {token : Token} (h : session.logHandedOut source index token = .ok logged) :
    logged = { session with log := logged.log } := by
  unfold Session.logHandedOut at h
  split at h
  case isTrue hlogging =>
    split at h
    · cases h
    · rw [Session.emit_of_logging hlogging] at h
      cases h
      rfl
  case isFalse =>
    cases h
    rfl

namespace Source

/-! ## Moving along the list -/

/-- The source with `front` handed out, and with `rest` still to come. -/
def past (source : Source) (front : List (Shared Token)) (rest : Rest) : Source :=
  { source with passed := front.reverse ++ source.passed, rest := rest }

section Past

variable (source : Source) (front : List (Shared Token)) (rest : Rest)

@[simp] theorem rest_past : (source.past front rest).rest = rest := rfl

@[simp] theorem eof?_past : (source.past front rest).eof? = rest.eof? := rfl

@[simp] theorem past_nil : source.past [] source.rest = source := rfl

@[simp] theorem past_past (more : List (Shared Token)) (further : Rest) :
    (source.past front rest).past more further = source.past (front ++ more) further := by
  rw [past, past, past, List.reverse_append, List.append_assoc]

theorem tokens_past (h : source.rest.toList = front ++ rest.toList) :
    (source.past front rest).tokens = source.tokens := by
  rw [tokens, past, List.reverse_append, List.reverse_reverse, List.append_assoc, tokens, h]

end Past

variable {source : Source} {session : Session}

theorem past_nil_of_eof?_eq_none (h : source.eof? = none) :
    source.past [] (.ofList source.rest.toList) = source := by
  rw [Rest.ofList_toList h, past_nil]

/-- **One move.** A token that was handed out is the next one of the list, which takes the source
one further, or it stands behind the list from now on. -/
theorem state_next_of_ok {token : Shared Token} (h : (source.next session).outcome = .ok token) :
    (∃ later, source.rest = .tokens token later ∧
      (source.next session).state = source.past [token] (.ofList later) ∧
      (source.next session).session =
        { session with log := (source.next session).session.log } ∧
      (session.logging = true → ¬token.value.Unreadable)) ∨
    (source.rest.toList = [] ∧ (source.next session).state = source.past [] (.ended token)) := by
  generalize hstep : source.next session = step at h ⊢
  cases advance_of_next_eq hstep with
  | listed hrest hlog =>
    cases h
    refine .inl ⟨_, hrest, rfl, Session.eq_of_logHandedOut hlog, fun hlogging hunreadable ↦ ?_⟩
    have herror := (@Session.logHandedOut_eq_error_iff session source.id.name source.cursor
      token.value .addition).mpr ⟨hlogging, hunreadable⟩
    rw [herror] at hlog
    cases hlog
  | unshown hrest hlog => cases h
  | again hrest =>
    cases h
    refine .inr ⟨?_, ?_⟩
    · rw [hrest, Rest.toList_ended]
    · rw [← hrest, past_nil]
  | unplaced hrest hrequest => cases h
  | refused hrest hrequest hcreate hcalls => cases h
  | built hrest hrequest hcreate heof hcalls =>
    cases h
    refine .inr ⟨?_, rfl⟩
    rw [hrest, Rest.toList_spent]

theorem next_of_readable {token : Shared Token} {later : List (Shared Token)}
    (hrest : source.rest = .tokens token later)
    (hreadable : session.logging = true → ¬token.value.Unreadable) :
    (source.next session).outcome = .ok token ∧
      (source.next session).state = source.past [token] (.ofList later) := by
  cases hlog : session.logHandedOut source.id.name source.cursor token.value with
  | error e =>
    obtain ⟨hlogging, hunreadable⟩ := Session.logHandedOut_eq_error_iff.mp hlog
    exact absurd hunreadable (hreadable hlogging)
  | ok logged =>
    rw [next_of_tokens hrest hlog]
    exact ⟨rfl, rfl⟩

/-! ## Behind the list -/

theorem line_of_spent (hrest : source.rest = .spent) :
    source.line = (source.passed.head?.map fun last ↦ last.value.lineAfter).getD (.ok none) := by
  rw [line, hrest]
  cases source.passed <;> rfl

theorem column_of_spent (hrest : source.rest = .spent) :
    source.column = (source.passed.head?.map fun last ↦ last.value.columnAfter).getD (.ok 0) := by
  rw [column, hrest]
  cases source.passed <;> rfl

theorem stream?_of_spent (hrest : source.rest = .spent) :
    source.stream? = source.passed.head?.bind fun last ↦ last.value.origin.stream := by
  rw [stream?, hrest]
  cases source.passed <;> rfl

theorem eofSpan_eq (source : Source) :
    source.eofSpan = (source.passed.head?.map fun last ↦ last.value.spanAfter).getD .unknown := by
  rw [eofSpan]
  cases source.passed <;> rfl

theorem next_of_spent_of_common {copyText : Bool} {request : CreateRequest}
    (hrest : source.rest = .spent) (hcommon : source.factory.value = .common copyText)
    (hrequest : source.eofRequest = .ok request) (session : Session) :
    ∃ after : Session, after.nextSerial = session.nextSerial + 1 ∧
      source.next session =
        ⟨.ok ⟨session.nextSerial, request.tokenWith request.text⟩,
          source.past [] (.ended ⟨session.nextSerial, request.tokenWith request.text⟩), after⟩ := by
  have htext : request.text = some "EOF" := by
    obtain ⟨-, -, heq⟩ := eofRequest_eq_ok_iff.mp hrequest
    rw [heq]
  have hcreate : source.factory.value.create request =
      .ok { product := .fresh (request.tokenWith request.text) } := by
    rw [hcommon, htext]
    exact Factory.commonCreate_of_text copyText htext
  refine ⟨((session.note (source.callFor request)).share (request.tokenWith request.text)).2.emit
    (.builtEof source.id.name request.span request.position), ?_, ?_⟩
  · rw [Session.nextSerial_emit]
    rfl
  · rw [next_of_spent hrest, buildEof, hrequest]
    dsimp only
    rw [Session.create, hcreate]
    rfl

/-! ## Calls in given sessions -/

/-- The source after a call for a token in each of the sessions. -/
def after (source : Source) (sessions : List Session) : Source :=
  sessions.foldl (fun source session ↦ (source.next session).state) source

@[simp] theorem after_nil (source : Source) : source.after [] = source := rfl

@[simp] theorem after_cons (source : Source) (session : Session) (sessions : List Session) :
    source.after (session :: sessions) = (source.next session).state.after sessions := rfl

theorem after_append (source : Source) (sessions more : List Session) :
    source.after (sessions ++ more) = (source.after sessions).after more :=
  List.foldl_append

@[simp] theorem id_after (source : Source) (sessions : List Session) :
    (source.after sessions).id = source.id := by
  induction sessions generalizing source with
  | nil => rfl
  | cons session sessions ih => rw [after_cons, ih, id_next]

theorem after_of_ended {eof : Shared Token} (hrest : source.rest = .ended eof)
    (sessions : List Session) : source.after sessions = source := by
  induction sessions with
  | nil => rfl
  | cons session sessions ih => rw [after_cons, next_of_ended hrest, ih]

theorem after_of_readable {front later : List (Shared Token)} {sessions : List Session}
    (hnone : source.eof? = none) (hlist : source.rest.toList = front ++ later)
    (hlength : sessions.length = front.length)
    (hreadable : ∀ other ∈ sessions, other.logging = true →
      ∀ token ∈ front, ¬token.value.Unreadable) :
    source.after sessions = source.past front (.ofList later) := by
  induction front generalizing source sessions with
  | nil =>
    obtain rfl := List.length_eq_zero_iff.mp hlength
    rw [List.nil_append] at hlist
    rw [after_nil, ← hlist, past_nil_of_eof?_eq_none hnone]
  | cons token front ih =>
    obtain ⟨session, sessions, rfl⟩ := List.exists_cons_of_length_eq_add_one hlength
    rw [List.forall_mem_cons] at hreadable
    have hrest : source.rest = .tokens token (front ++ later) := by
      rw [← Rest.ofList_toList hnone, hlist]
      rfl
    obtain ⟨-, hstate⟩ := next_of_readable hrest fun hlogging ↦
      hreadable.1 hlogging token List.mem_cons_self
    have hmiddle : (source.past [token] (.ofList (front ++ later))).eof? = none :=
      Rest.eof?_ofList _
    have hthere := ih hmiddle (Rest.toList_ofList _) (Nat.succ.inj hlength)
      fun other hmem hlogging token hfront ↦
        hreadable.2 other hmem hlogging token (List.mem_cons_of_mem _ hfront)
    rw [after_cons, hstate, hthere, past_past, List.singleton_append]

/-! ## The last call -/

/-- The haul handed out `front` and came to its end by a call in the session `now`, with `rest`
still to come. -/
structure LastCall (source : Source) (session : Session) (haul : Haul)
    (front : List (Shared Token)) (rest : Rest) (now : Session) : Prop where
  toList_eq : source.rest.toList = front ++ rest.toList
  eof?_eq : source.eof? = rest.eof?
  isEof_eq_false : ∀ token ∈ front, token.value.isEof = false
  readable : session.logging = true → ∀ token ∈ front, ¬token.value.Unreadable
  now_eq : now = { session with log := now.log }
  state_eq : haul.state = ((source.past front rest).next now).state
  session_eq : haul.session = ((source.past front rest).next now).session
  /-- The call fails, or it gives a token of end type. -/
  outcome_eq :
    (∃ e, ((source.past front rest).next now).outcome = .error e ∧ haul.outcome = .error e ∧
      haul.tokens = front) ∨
    (∃ last, ((source.past front rest).next now).outcome = .ok last ∧
      last.value.isEof = true ∧ haul.outcome = .ok true ∧ haul.tokens = front ++ [last])

theorem lastCall_of_single {haul : Haul}
    (hstate : haul.state = (source.next session).state)
    (hsession : haul.session = (source.next session).session)
    (houtcome : (∃ e, (source.next session).outcome = .error e ∧ haul.outcome = .error e ∧
        haul.tokens = []) ∨
      (∃ last, (source.next session).outcome = .ok last ∧ last.value.isEof = true ∧
        haul.outcome = .ok true ∧ haul.tokens = [last])) :
    source.LastCall session haul [] source.rest session := by
  refine ⟨rfl, rfl, ?_, ?_, rfl, hstate, hsession, houtcome⟩
  · intro token hmem
    cases hmem
  · intro _ token hmem
    cases hmem

theorem LastCall.cons {token : Shared Token} {later : List (Shared Token)} {now after : Session}
    {haul : Haul} {front : List (Shared Token)} {rest : Rest}
    (h : (source.past [token] (.ofList later)).LastCall after haul front rest now)
    (hrest : source.rest = .tokens token later) (htoken : token.value.isEof = false)
    (hafter : after = { session with log := after.log })
    (hreadable : session.logging = true → ¬token.value.Unreadable)
    (hnext : (source.next session).outcome = .ok token) :
    source.LastCall session (haul.cons ⟨source, session⟩) (token :: front) rest now := by
  have hpast : (source.past [token] (.ofList later)).past front rest =
      source.past (token :: front) rest := past_past _ _ _ _ _
  have htokens := Haul.tokens_cons hnext haul
  obtain ⟨hlist, heof, hfront, hothers, hnow, hstate, hsession, houtcome⟩ := h
  rw [hpast] at hstate hsession houtcome
  refine ⟨?_, ?_, ?_, ?_, ?_, hstate, hsession, ?_⟩
  · rw [hrest, Rest.toList_tokens, List.cons_append, ← hlist, rest_past, Rest.toList_ofList]
  · rw [← heof, eof?_past, Rest.eof?_ofList, eof?, hrest]
    rfl
  · exact List.forall_mem_cons.mpr ⟨htoken, hfront⟩
  · intro hlogging
    have hstill : after.logging = true := by rwa [hafter]
    exact List.forall_mem_cons.mpr ⟨hreadable hlogging, hothers hstill⟩
  · rw [hnow, hafter]
  · rw [Haul.outcome_cons, htokens]
    rcases houtcome with ⟨e, hlast, hhaul, htail⟩ | ⟨last, hlast, hend, hhaul, htail⟩
    · exact .inl ⟨e, hlast, hhaul, by rw [htail]⟩
    · exact .inr ⟨last, hlast, hend, hhaul, by rw [htail, List.cons_append]⟩

/-- **The last call.** Calls in a row are cut off, or they come to their end by the last one. -/
theorem haul_eq_last (limit : Nat) (source : Source) (session : Session) :
    (haul limit source session).outcome = .ok false ∨
      ∃ front rest now, source.LastCall session (haul limit source session) front rest now := by
  fun_induction haul limit source session with
  | case1 source session => exact .inl rfl
  | case2 limit source session e hnext =>
    have hnone : (⟨source, session⟩ : Pull).token? = none := by
      rw [Pull.token?, Pull.step, hnext]
      rfl
    refine .inr ⟨[], source.rest, session, lastCall_of_single rfl rfl ?_⟩
    exact .inl ⟨e, hnext, rfl, List.filterMap_cons_none hnone⟩
  | case3 limit source session token hnext heof =>
    refine .inr ⟨[], source.rest, session, lastCall_of_single rfl rfl ?_⟩
    exact .inr ⟨token, hnext, heof, rfl, Haul.tokens_single hnext _⟩
  | case4 limit source session token hnext heof ih =>
    have hother : token.value.isEof = false := Bool.eq_false_iff.mpr heof
    rcases state_next_of_ok hnext with ⟨later, hrest, hstate, hafter, hreadable⟩ | ⟨-, hstate⟩
    · rcases ih with hcut | ⟨front, rest, now, h⟩
      · exact .inl hcut
      · generalize hhaul : haul limit (source.next session).state (source.next session).session =
          hauled at h ⊢
        rw [hstate] at h
        exact .inr ⟨token :: front, rest, now, h.cons hrest hother hafter hreadable hnext⟩
    -- Behind the list the same token comes again until the limit is reached.
    · refine .inl ?_
      rw [Haul.outcome_cons, hstate]
      exact outcome_haul_of_ended rfl hother limit _

section LastCall

variable {haul : Haul} {front : List (Shared Token)} {rest : Rest} {now : Session}

theorem LastCall.outcome_next_of_error (h : source.LastCall session haul front rest now)
    {e : Overflow} (herror : haul.outcome = .error e) :
    ((source.past front rest).next now).outcome = .error e := by
  rcases h.outcome_eq with ⟨e', hnext, hhaul, -⟩ | ⟨last, -, -, hhaul, -⟩
  · rw [herror] at hhaul
    cases hhaul
    exact hnext
  · rw [herror] at hhaul
    cases hhaul

theorem LastCall.exists_last_of_ok (h : source.LastCall session haul front rest now)
    {ended : Bool} (hok : haul.outcome = .ok ended) :
    ∃ last, ((source.past front rest).next now).outcome = .ok last ∧
      last.value.isEof = true ∧ haul.tokens = front ++ [last] := by
  rcases h.outcome_eq with ⟨e, -, hhaul, -⟩ | ⟨last, hnext, hend, -, htokens⟩
  · rw [hok] at hhaul
    cases hhaul
  · exact ⟨last, hnext, hend, htokens⟩

end LastCall

theorem exists_lastCall {limit : Nat} (h : (haul limit source session).outcome ≠ .ok false) :
    ∃ front rest now, source.LastCall session (haul limit source session) front rest now :=
  (haul_eq_last limit source session).resolve_left h

/-! ## Limits that are high enough -/

theorem haul_add {limit : Nat} {source : Source} {session : Session} (extra : Nat)
    (h : (haul limit source session).outcome ≠ .ok false) :
    haul (limit + extra) source session = haul limit source session := by
  fun_induction haul limit source session with
  | case1 source session => exact absurd rfl h
  | case2 limit source session e hnext => rw [Nat.succ_add, haul_succ_of_error hnext]
  | case3 limit source session token hnext heof =>
    rw [Nat.succ_add, haul_succ_of_isEof hnext heof]
  | case4 limit source session token hnext heof ih =>
    rw [Nat.succ_add, haul_succ hnext (Bool.eq_false_iff.mpr heof), ih h]

/-- The end of stream token of the source is of end type, or it will be. -/
structure WellEnded (source : Source) : Prop where
  makesEof : source.factory.value.MakesEof
  isEof_eof : ∀ eof, source.eof? = some eof → eof.value.isEof = true

theorem wellEnded_of_eof?_eq_none (hmakes : source.factory.value.MakesEof)
    (hnone : source.eof? = none) : source.WellEnded := by
  refine ⟨hmakes, fun eof hsome ↦ ?_⟩
  rw [hnone] at hsome
  cases hsome

theorem WellEnded.isEof_of_next (h : source.WellEnded) {token : Shared Token}
    (hlist : source.rest.toList = []) (hnext : (source.next session).outcome = .ok token) :
    token.value.isEof = true := by
  generalize hstep : source.next session = step at hnext
  cases advance_of_next_eq hstep with
  | listed hrest hlog =>
    rw [hrest] at hlist
    cases hlist
  | unshown hrest hlog => cases hnext
  | again hrest =>
    cases hnext
    exact h.isEof_eof token (eof?_eq_some_iff.mpr hrest)
  | unplaced hrest hrequest => cases hnext
  | refused hrest hrequest hcreate hcalls => cases hnext
  | @built request creation eof after hrest hrequest hcreate heof hcalls =>
    cases hnext
    have htype : request.type = .eof := by
      obtain ⟨-, -, hrequest⟩ := eofRequest_eq_ok_iff.mp hrequest
      rw [hrequest]
    rw [← heof, Session.value_realize]
    exact h.makesEof request creation htype hcreate

theorem WellEnded.next (h : source.WellEnded) (session : Session) :
    (source.next session).state.WellEnded := by
  refine ⟨by rw [factory_next]; exact h.makesEof, fun eof hsome ↦ ?_⟩
  cases hnext : (source.next session).outcome with
  | error e =>
    rw [state_next_of_error hnext] at hsome
    exact h.isEof_eof eof hsome
  | ok token =>
    rcases state_next_of_ok hnext with ⟨later, -, hstate, -, -⟩ | ⟨hlist, hstate⟩
    · rw [hstate, eof?_past, Rest.eof?_ofList] at hsome
      cases hsome
    · rw [hstate] at hsome
      obtain rfl : token = eof := Option.some.inj hsome
      exact h.isEof_of_next hlist hnext

theorem WellEnded.of_path {pulls : List Pull} {last : Source} (hpath : Path source pulls last)
    (h : source.WellEnded) : last.WellEnded := by
  induction hpath with
  | nil source => exact h
  | cons hpath ih => exact ih (h.next _)

/-- **No cut.** If end of stream tokens are of end type, a haul with room for the list and one token
behind it is not cut off. -/
theorem WellEnded.outcome_haul_ne_false {limit : Nat} (h : source.WellEnded)
    (hlimit : source.rest.toList.length < limit) :
    (haul limit source session).outcome ≠ .ok false := by
  fun_induction haul limit source session with
  | case1 source session => exact absurd hlimit (Nat.not_lt_zero _)
  | case2 limit source session e hnext => simp [Haul.single]
  | case3 limit source session token hnext heof => simp [Haul.single]
  | case4 limit source session token hnext heof ih =>
    rcases state_next_of_ok hnext with ⟨later, hrest, hstate, -, -⟩ | ⟨hlist, -⟩
    · rw [Haul.outcome_cons]
      refine ih (h.next session) ?_
      rw [hrest, Rest.toList_tokens, List.length_cons] at hlimit
      rw [hstate, rest_past, Rest.toList_ofList]
      exact Nat.lt_of_succ_lt_succ hlimit
    · exact absurd (h.isEof_of_next hlist hnext) heof

/-- **No operation is endless** if end of stream tokens are of end type. -/
theorem WellEnded.exists_perform (h : source.WellEnded) (session : Session) (op : Op) :
    ∃ step, source.perform session op = some step := by
  cases op with
  | drain =>
    obtain ⟨step, hstep⟩ : ∃ step, source.drain session = some step := by
      rw [← Option.ne_none_iff_exists', drain_eq_haul, ne_eq, Haul.finish_eq_none_iff]
      exact h.outcome_haul_ne_false (by omega)
    exact ⟨_, by rw [perform, hstep, Option.map_some]⟩
  | record name =>
    have hcut : (haul (source.rest.toList.length + 1) source session).outcome ≠ .ok false :=
      h.outcome_haul_ne_false (Nat.lt_succ_self _)
    obtain ⟨step, hstep⟩ : ∃ step, source.record name session = some step := by
      rw [record_eq_haul]
      rcases houtcome : (haul (source.rest.toList.length + 1) source session).outcome with e | _ | _
      · simp [houtcome]
      · exact absurd houtcome hcut
      · simp [houtcome]
    exact ⟨_, by rw [perform, hstep, Option.map_some]⟩
  | _ => exact ⟨_, rfl⟩

theorem WellEnded.perform (h : source.WellEnded) {op : Op} {step : Step Source Answer}
    (hstep : source.perform session op = some step)
    (hset : ∀ factory, op = .setFactory factory → factory.value.MakesEof) :
    step.state.WellEnded := by
  rcases perform_cases hstep with ⟨factory, hop, hstate, -⟩ | ⟨hpath, -⟩
  · rw [hstate]
    exact ⟨hset factory hop, h.isEof_eof⟩
  · exact .of_path hpath h

end Source

/-- Turns come to an end, if all factories make tokens of end type where they should. -/
theorem History.exists_run? {turns : List Turn} {history : History}
    (h : history.source.WellEnded)
    (hmakes : ∀ factory ∈ Turn.factories turns, factory.value.MakesEof) :
    ∃ later, history.run? turns = some later := by
  induction turns generalizing history with
  | nil => exact ⟨history, rfl⟩
  | cons turn turns ih =>
    obtain ⟨step, hstep⟩ := h.exists_perform turn.session turn.op
    have hset : ∀ factory, turn.op = .setFactory factory → factory.value.MakesEof := by
      intro factory hop
      exact hmakes factory (Turn.mem_factories_cons.mpr (.inl (by rw [Turn.factory?, hop])))
    obtain ⟨later, hlater⟩ := @ih
      { source := step.state
        pulls := history.pulls ++ history.source.pulls turn.session turn.op
        calls := history.calls ++ step.session.callsSince turn.session }
      (h.perform hstep hset)
      fun factory hmem ↦ hmakes factory (Turn.mem_factories_cons.mpr (.inr hmem))
    refine ⟨later, ?_⟩
    rw [run?, List.foldlM_cons, turn?, hstep]
    exact hlater

/-! ## Histories of single calls -/

/-- Calls for tokens, one in each session. -/
def Turn.calls (sessions : List Session) : List Turn := sessions.map fun session ↦ ⟨session, .next⟩

theorem History.exists_run?_calls {history : History} {front later : List (Shared Token)}
    {sessions : List Session} (hnone : history.source.eof? = none)
    (hlist : history.source.rest.toList = front ++ later)
    (hlength : sessions.length = front.length)
    (hreadable : ∀ other ∈ sessions, other.logging = true →
      ∀ token ∈ front, ¬token.value.Unreadable) :
    ∃ reached, history.run? (Turn.calls sessions) = some reached ∧
      reached.source = history.source.past front (.ofList later) ∧
      reached.handedOut = history.handedOut ++ front := by
  induction front generalizing history sessions with
  | nil =>
    obtain rfl := List.length_eq_zero_iff.mp hlength
    refine ⟨history, rfl, ?_, by rw [List.append_nil]⟩
    rw [List.nil_append] at hlist
    rw [← hlist, Source.past_nil_of_eof?_eq_none hnone]
  | cons token front ih =>
    obtain ⟨session, sessions, rfl⟩ := List.exists_cons_of_length_eq_add_one hlength
    rw [List.forall_mem_cons] at hreadable
    have hrest : history.source.rest = .tokens token (front ++ later) := by
      rw [← Rest.ofList_toList hnone, hlist]
      rfl
    obtain ⟨hgiven, hstate⟩ := Source.next_of_readable hrest fun hlogging ↦
      hreadable.1 hlogging token List.mem_cons_self
    have hturn : history.turn? ⟨session, .next⟩ = some (history.pull session) := rfl
    have hsource : (history.pull session).source =
        history.source.past [token] (.ofList (front ++ later)) := hstate
    obtain ⟨reached, hrun, hthere, hhanded⟩ := @ih (history.pull session) sessions
      (by rw [hsource, Source.eof?_past, Rest.eof?_ofList])
      (by rw [hsource, Source.rest_past, Rest.toList_ofList]) (Nat.succ.inj hlength)
      fun other hmem hlogging token hfront ↦
        hreadable.2 other hmem hlogging token (List.mem_cons_of_mem _ hfront)
    refine ⟨reached, ?_, ?_, ?_⟩
    · rw [Turn.calls, List.map_cons, run?, List.foldlM_cons, hturn]
      exact hrun
    · rw [hthere, hsource, Source.past_past, List.singleton_append]
    · have htoken : (⟨history.source, session⟩ : Pull).token? = some token :=
        Pull.token?_eq_some_iff.mpr hgiven
      rw [hhanded, handedOut_pull, htoken, Option.toList_some, List.append_assoc,
        List.singleton_append]

end TokenReplay
