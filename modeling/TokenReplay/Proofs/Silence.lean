import TokenReplay.Proofs.Stretch

/-!
# Without logging

A session that is silent logs nothing. Apart from the log everything in it goes on as before: the
same serials are given out, and the same requests are noted. So whatever was done with logging on is
done again when it is off, with the same outcome, and all one has to do to get from one session to
the other is to forget the log (`Session.silent`).

There is one thing for which this is not true. The entry for a token of a list shows that token, and
a token whose text is out of reach cannot be shown. A source is legible if there is no such token in
its list, and legible sources do not notice whether anybody listens: call by call
(`Source.next_silent`), and hence in all operations that calls are made for.

Legible sources stay legible, and what is recorded from them is legible too.
-/

namespace TokenReplay

/-! ## Sessions -/

namespace Session

/-- The session with logging off and without its log. -/
def silent (session : Session) : Session := { session with logging := false, log := #[] }

@[simp] theorem silent_emit (session : Session) (event : Event) :
    (session.emit event).silent = session.silent := by
  unfold emit
  split <;> rfl

@[simp] theorem emit_silent (session : Session) (event : Event) :
    session.silent.emit event = session.silent := emit_of_not_logging rfl event

theorem share_silent {α : Type} (session : Session) (value : α) :
    session.silent.share value = ((session.share value).1, (session.share value).2.silent) := rfl

theorem issue_silent (session : Session) :
    session.silent.issue = (session.issue.1, session.issue.2.silent) := rfl

theorem realize_silent (session : Session) (product : Product) :
    session.silent.realize product =
      ((session.realize product).1, (session.realize product).2.silent) := by
  cases product <;> rfl

theorem create_silent (session : Session) (factory : Shared Factory) (source : Option String)
    (during : Option Building) (request : CreateRequest) :
    session.silent.create factory source during request =
      ((session.create factory source during request).1,
        (session.create factory source during request).2.silent) := by
  have hnoted : session.silent.note ⟨factory.serial, source, request⟩ =
      (session.note ⟨factory.serial, source, request⟩).silent := rfl
  rw [create, create, hnoted]
  cases factory.value.create request with
  | error e => rfl
  | ok creation =>
    dsimp only
    cases creation.copyFailure with
    | none =>
      dsimp only
      rw [realize_silent]
    | some failure =>
      dsimp only
      rw [emit_silent, ← silent_emit _ (.copyFailed during failure), realize_silent]

theorem exists_logHandedOut {token : Token} (h : ¬token.Unreadable) (session : Session)
    (source : String) (index : Nat) :
    ∃ logged, session.logHandedOut source index token = .ok logged ∧
      logged.silent = session.silent := by
  cases hlog : session.logHandedOut source index token with
  | error e => exact absurd (logHandedOut_eq_error_iff.mp hlog).2 h
  | ok logged =>
    refine ⟨logged, rfl, ?_⟩
    unfold logHandedOut at hlog
    split at hlog
    · split at hlog
      · cases hlog
      · cases hlog
        exact silent_emit _ _
    · cases hlog
      rfl

end Session

/-- The step as it is without logging. -/
def Step.silent {σ α : Type} (step : Step σ α) : Step σ α :=
  { step with session := step.session.silent }

namespace Source

/-! ## Legible sources -/

/-- All tokens in the list of the source can be shown. -/
def Legible (source : Source) : Prop := ∀ token ∈ source.tokens, ¬token.value.Unreadable

variable {source : Source} {session : Session}

theorem Legible.next (h : source.Legible) (session : Session) :
    (source.next session).state.Legible := by
  rwa [Legible, tokens_next]

theorem Legible.of_path {pulls : List Pull} {last : Source} (hpath : Path source pulls last)
    (h : source.Legible) : last.Legible := by
  induction hpath with
  | nil source => exact h
  | cons hpath ih => exact ih (h.next _)

/-- **One call** comes to the same without logging. -/
theorem Legible.next_silent (h : source.Legible) (session : Session) :
    source.next session.silent = (source.next session).silent := by
  cases hrest : source.rest with
  | tokens token later =>
    have hmem : token ∈ source.tokens := by
      rw [tokens, hrest]
      exact List.mem_append_right _ List.mem_cons_self
    obtain ⟨logged, hlog, hlogged⟩ :=
      session.exists_logHandedOut (h token hmem) source.id.name source.cursor
    rw [next_of_tokens hrest hlog,
      next_of_tokens hrest (Session.logHandedOut_of_not_logging rfl _ _ _), Step.silent, hlogged]
  | ended eof => rw [next_of_ended hrest, next_of_ended hrest, Step.silent]
  | spent =>
    cases hrequest : source.eofRequest with
    | error e =>
      rw [next_of_unplaced hrest hrequest, next_of_unplaced hrest hrequest, Step.silent]
    | ok request =>
      have hsilent := session.create_silent source.factory (some source.id.name)
        (some ⟨source.id.name⟩) request
      rcases hcreated : session.create source.factory (some source.id.name)
        (some ⟨source.id.name⟩) request with ⟨e | eof, after⟩
      · rw [hcreated] at hsilent
        rw [next_of_refused hrest hrequest hcreated, next_of_refused hrest hrequest hsilent,
          Step.silent]
      · rw [hcreated] at hsilent
        rw [next_of_built hrest hrequest hcreated, next_of_built hrest hrequest hsilent,
          Step.silent, Session.silent_emit, Session.emit_silent]

/-! ## Calls in a row -/

/-- `silent` is what is left of the haul `loud` if nothing is logged. -/
structure Haul.Mutes (silent loud : Haul) : Prop where
  toStep_eq : silent.toStep = loud.toStep.silent
  tokens_eq : silent.tokens = loud.tokens

theorem Legible.token?_silent (h : source.Legible) (session : Session) :
    (⟨source, session.silent⟩ : Pull).token? = (⟨source, session⟩ : Pull).token? := by
  rw [Pull.token?, Pull.step, h.next_silent]
  rfl

theorem Legible.mutes_single (h : source.Legible) (session : Session)
    (outcome : Except Overflow Bool) :
    (Haul.single ⟨source, session.silent⟩ outcome).Mutes
      (Haul.single ⟨source, session⟩ outcome) := by
  refine ⟨?_, ?_⟩
  · rw [Haul.single, Pull.step, h.next_silent]
    rfl
  · rw [Haul.tokens, Haul.single, List.filterMap_cons, h.token?_silent]
    rfl

theorem Legible.mutes_cons (h : source.Legible) {session : Session} {silent loud : Haul}
    (hmutes : silent.Mutes loud) :
    (silent.cons ⟨source, session.silent⟩).Mutes (loud.cons ⟨source, session⟩) := by
  refine ⟨hmutes.toStep_eq, ?_⟩
  have htokens := hmutes.tokens_eq
  rw [Haul.tokens, Haul.tokens] at htokens
  rw [Haul.tokens, Haul.tokens, Haul.pulls_cons, Haul.pulls_cons, List.filterMap_cons,
    List.filterMap_cons, h.token?_silent, htokens]

theorem Legible.haul_silent (limit : Nat) (h : source.Legible) :
    (haul limit source session.silent).Mutes (haul limit source session) := by
  fun_induction haul limit source session with
  | case1 source session => exact ⟨rfl, rfl⟩
  | case2 limit source session e hnext =>
    have hsame : (source.next session.silent).outcome = .error e := by
      rw [h.next_silent, Step.silent, hnext]
    rw [haul_succ_of_error hsame]
    exact h.mutes_single session _
  | case3 limit source session token hnext heof =>
    have hsame : (source.next session.silent).outcome = .ok token := by
      rw [h.next_silent, Step.silent, hnext]
    rw [haul_succ_of_isEof hsame heof]
    exact h.mutes_single session _
  | case4 limit source session token hnext heof ih =>
    have hsame : (source.next session.silent).outcome = .ok token := by
      rw [h.next_silent, Step.silent, hnext]
    rw [haul_succ hsame (Bool.eq_false_iff.mpr heof), h.next_silent]
    exact h.mutes_cons (ih (h.next session))

/-! ## Passes and recordings -/

theorem Legible.take_silent (h : source.Legible) (count : Nat) (session : Session) :
    source.take count session.silent = (source.take count session).silent := by
  obtain ⟨hstep, htokens⟩ := @haul_silent source session count h
  rw [take_eq_haul, take_eq_haul, htokens, hstep]
  rfl

theorem Legible.take (h : source.Legible) (count : Nat) (session : Session) :
    (source.take count session).state.Legible := by
  rw [take_eq_haul]
  exact .of_path (path_haul _ _ _) h

theorem finish_silent {α : Type} {silent loud : Haul} (h : silent.Mutes loud) (value : α) :
    silent.finish value = (loud.finish value).map Step.silent := by
  rw [Haul.finish, Haul.finish, h.toStep_eq]
  dsimp only [Step.silent]
  rcases loud.outcome with e | _ | _ <;> rfl

theorem Legible.drain_silent (h : source.Legible) (session : Session) :
    source.drain session.silent = (source.drain session).map Step.silent := by
  have hmutes := @haul_silent source session (source.rest.toList.length + 2) h
  rw [drain_eq_haul, drain_eq_haul, hmutes.tokens_eq, finish_silent hmutes]

theorem Legible.drain (h : source.Legible) {step : Step Source (List (Shared Token))}
    (hstep : source.drain session = some step) : step.state.Legible := by
  rw [drain_eq_haul] at hstep
  rw [(Haul.state_of_finish_eq_some hstep).1]
  exact .of_path (path_haul _ _ _) h

theorem ofTokens_silent (tokens : List (Shared Token)) (name : String) (session : Session) :
    ofTokens tokens name session.silent =
      ((ofTokens tokens name session).1, (ofTokens tokens name session).2.silent) := rfl

theorem withFactory_silent (tokens : List (Shared Token)) (name : String)
    (factory : Shared Factory) (session : Session) :
    withFactory tokens name factory session.silent =
      ((withFactory tokens name factory session).1,
        (withFactory tokens name factory session).2.silent) := rfl

theorem Legible.pullWithin_silent (h : source.Legible) (limit : Nat) (session : Session) :
    pullWithin limit source session.silent = (pullWithin limit source session).map Step.silent := by
  have hmutes := @haul_silent source session limit h
  rw [pullWithin_eq_haul, pullWithin_eq_haul, hmutes.tokens_eq, finish_silent hmutes]

theorem Legible.record_silent (h : source.Legible) (name : String) (session : Session) :
    source.record name session.silent = (source.record name session).map Step.silent := by
  rw [record, record, h.pullWithin_silent]
  rcases pullWithin (source.rest.toList.length + 1) source session with
    _ | ⟨e | tokens, state, after⟩
  · rfl
  · rfl
  · dsimp only [Option.map_some, Step.silent]
    rw [Session.emit_silent, ← Session.silent_emit after (.recorded tokens.length state.id.name),
      ofTokens_silent]

theorem Legible.record (h : source.Legible) {name : String} {step : Step Source Source}
    (hstep : source.record name session = some step) :
    step.state.Legible ∧ ∀ made, step.outcome = .ok made → made.Legible := by
  obtain ⟨hstate, -⟩ := state_of_record_eq_some hstep
  refine ⟨?_, fun made hmade ↦ ?_⟩
  · rw [hstate]
    exact .of_path (path_haul _ _ _) h
  -- What was recorded are the tokens ahead of the last call, and these are from the list.
  · obtain ⟨end₁, -, htokens⟩ := tells_of_record hstep hmade
    have hended : (haul (source.rest.toList.length + 1) source session).outcome = .ok true := by
      rw [record_eq_haul] at hstep
      dsimp only at hstep
      split at hstep
      · cases hstep
        cases hmade
      · cases hstep
      · assumption
    have hcut : (haul (source.rest.toList.length + 1) source session).outcome ≠ .ok false := by
      rw [hended]
      exact fun h ↦ Bool.noConfusion (Except.ok.inj h)
    obtain ⟨front, rest, now, hlast⟩ := exists_lastCall hcut
    obtain ⟨end₂, -, -, hfront⟩ := hlast.exists_last_of_ok hended
    have hmade : made.tokens = front := List.append_inj_left' (htokens.symm.trans hfront) rfl
    intro token hmem
    refine h token (List.mem_append_right _ ?_)
    rw [hlast.toList_eq, ← hmade]
    exact List.mem_append_left _ hmem

end Source

end TokenReplay
