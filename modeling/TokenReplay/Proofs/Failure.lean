import TokenReplay.Proofs.Overflow
import TokenReplay.Proofs.Stretch

/-!
# What a failed call leaves behind

Nothing is lost by a call that fails, and nothing is gained by trying again. `Source.Blocked` is the
state in which calls fail, and it speaks of the source and of logging but not of a factory: either
the end of the list was reached and there is no telling where it is, or the token under the cursor
cannot be shown. In such a state a call leaves source and session as they are (`Blocked.next`), and
so does everything else that can be done to the source, short of a change of the factory, which does
not help. Only turning logging off may.

The factories of this library add no failures of their own. What a source asks for never ends at the
last offset, whatever the span of its last token, so a factory that looks into the stream for text
can always do so.

A recording that fails has handed out some tokens before, and those are gone. The source is left at
the token that made it fail.
-/

namespace TokenReplay

/-- The factories of this library. -/
inductive Factory.Stock : Factory → Prop
  | common (copyText : Bool) : Stock (.common copyText)
  | forwarding (copyText dropText : Bool) : Stock (.forwarding copyText dropText)
  | fixed (token : Shared Token) : Stock (.fixed token)

theorem Factory.Stock.answers {factory : Factory} (h : factory.Stock) : factory.Answers := by
  cases h with
  | common copyText => exact answers_common copyText
  | forwarding copyText dropText => exact answers_forwarding copyText dropText
  | fixed token => exact answers_fixed token

namespace Source

variable {source : Source} {session : Session}

/-! ## Blocked sources -/

/-- Calls fail here before a factory comes into it, if logging is on or off as `logging` says. -/
def Blocked (source : Source) (logging : Bool) : Prop :=
  (source.cursor = source.size ∧ source.eof? = none ∧
    ∃ last, source.tokens.getLast? = some last ∧ last.value.EndsAll) ∨
  (logging = true ∧
    ∃ token, source.tokens[source.cursor]? = some token ∧ token.value.Unreadable)

theorem next_eq_error_iff_blocked {e : Overflow} (hanswers : source.factory.value.Answers) :
    (source.next session).outcome = .error e ↔ source.Blocked session.logging := by
  rw [next_eq_error_iff hanswers, line_eq_error_iff, rest_eq_spent_iff, and_assoc, Blocked]

/-- **A failed call** changes nothing at all, whichever factory is in place. -/
theorem Blocked.next (h : source.Blocked session.logging) :
    source.next session = ⟨.error .addition, source, session⟩ := by
  rcases h with ⟨hcursor, hnone, hends⟩ | ⟨hlogging, token, htoken, hunreadable⟩
  · have hrest : source.rest = .spent := rest_eq_spent_iff.mpr ⟨hcursor, hnone⟩
    have hline : source.line = .error .addition := line_eq_error_iff.mpr ⟨hrest, hends⟩
    exact next_of_unplaced hrest (eofRequest_eq_error_iff.mpr hline) session
  · rw [getElem?_tokens_cursor] at htoken
    obtain ⟨later, hlist⟩ := List.head?_eq_some_iff.mp htoken
    have hlog : session.logHandedOut source.id.name source.cursor token.value =
        .error .addition := Session.logHandedOut_eq_error_iff.mpr ⟨hlogging, hunreadable⟩
    cases hrest : source.rest with
    | tokens next later =>
      rw [hrest, Rest.toList_tokens] at hlist
      cases hlist
      rw [Source.next, hrest]
      dsimp only
      rw [hlog]
    | spent =>
      rw [hrest] at hlist
      cases hlist
    | ended eof =>
      rw [hrest] at hlist
      cases hlist

theorem Blocked.setFactory {logging : Bool} (h : source.Blocked logging)
    (factory : Shared Factory) : (source.setFactory factory).Blocked logging := h

/-- Of calls in a row the first fails, and there is no second one. -/
theorem Blocked.eq_of_mem_pulls_haul (h : source.Blocked session.logging) {limit : Nat}
    {pull : Pull} (hmem : pull ∈ (haul limit source session).pulls) : pull = ⟨source, session⟩ := by
  cases limit with
  | zero => cases hmem
  | succ limit =>
    rw [haul, h.next] at hmem
    exact List.mem_singleton.mp hmem

theorem Blocked.eq_of_mem_pulls (h : source.Blocked session.logging) {op : Op} {pull : Pull}
    (hmem : pull ∈ source.pulls session op) : pull = ⟨source, session⟩ := by
  cases op with
  | next => exact List.mem_singleton.mp hmem
  | take count => exact h.eq_of_mem_pulls_haul hmem
  | drain => exact h.eq_of_mem_pulls_haul hmem
  | record name => exact h.eq_of_mem_pulls_haul hmem
  | _ => cases hmem

theorem Blocked.eq_of_path (h : source.Blocked session.logging) {pulls : List Pull} {last : Source}
    (hpath : Path source pulls last) (hpulls : ∀ pull ∈ pulls, pull = ⟨source, session⟩) :
    last = source := by
  induction hpath with
  | nil source => rfl
  | @cons source here pulls last hpath ih =>
    obtain ⟨hhere, hrest⟩ := List.forall_mem_cons.mp hpulls
    obtain rfl : here = session := congrArg Pull.session hhere
    rw [h.next] at hpath ih
    exact ih h hrest

/-- **Operations on a blocked source** do no more than to change its factory. -/
theorem Blocked.perform (h : source.Blocked session.logging) {op : Op} {step : Step Source Answer}
    (hstep : source.perform session op = some step) :
    (∃ factory, step.state = source.setFactory factory) ∧ step.session.calls = session.calls ∧
      ∀ pull ∈ source.pulls session op, pull.step.outcome = .error .addition := by
  have hfailed : ∀ pull ∈ source.pulls session op,
      pull.step = ⟨.error .addition, source, session⟩ := by
    intro pull hmem
    obtain rfl := h.eq_of_mem_pulls hmem
    exact h.next
  refine ⟨?_, ?_, fun pull hmem ↦ by rw [hfailed pull hmem]⟩
  · rcases perform_cases hstep with ⟨factory, -, hstate, -⟩ | ⟨hpath, -⟩
    · exact ⟨factory, hstate⟩
    · exact ⟨source.factory, h.eq_of_path hpath fun pull hmem ↦ h.eq_of_mem_pulls hmem⟩
  · rcases perform_cases hstep with ⟨-, -, -, hsession⟩ | ⟨-, hcalls⟩
    · rw [hsession]
    · have hnone : (source.pulls session op).flatMap Pull.calls = [] := by
        refine List.flatMap_eq_nil_iff.mpr fun pull hmem ↦ ?_
        obtain rfl := h.eq_of_mem_pulls hmem
        rw [Pull.calls, hfailed _ hmem]
        exact Session.callsSince_of_calls_eq rfl
      rw [hnone, List.append_nil] at hcalls
      exact Array.toList_inj.mp hcalls

/-- **A failed recording** has handed out the tokens ahead of the one that it failed at, and they
are of other types. No request was sent for it. -/
theorem record_eq_error {name : String} {e : Overflow} {step : Step Source Source}
    (hanswers : source.factory.value.Answers) (h : source.record name session = some step)
    (herror : step.outcome = .error e) :
    ∃ pulled rest, source.rest.toList = pulled ++ rest.toList ∧ rest.eof? = none ∧
      (∀ token ∈ pulled, token.value.isEof = false) ∧ step.state = source.past pulled rest ∧
      step.session = { session with log := step.session.log } ∧
      step.state.Blocked session.logging := by
  rw [record_eq_haul] at h
  dsimp only at h
  split at h
  case h_1 houtcome =>
    cases h
    have hnever : (haul (source.rest.toList.length + 1) source session).outcome ≠ .ok false := by
      simp [houtcome]
    obtain ⟨front, rest, now, hlast⟩ := exists_lastCall hnever
    have hnext := hlast.outcome_next_of_error houtcome
    obtain ⟨hlist, -, hfront, -, hnow, hstate, hsession, -⟩ := hlast
    have hlogging : now.logging = session.logging := by rw [hnow]
    have hthere : (source.past front rest).factory.value.Answers := hanswers
    have hblocked := (next_eq_error_iff_blocked hthere).mp hnext
    rw [hblocked.next] at hstate hsession
    rw [hlogging] at hblocked
    refine ⟨front, rest, hlist, ?_, hfront, hstate, ?_, ?_⟩
    -- With an end of stream token at hand no call would have failed.
    · cases hrest : rest with
      | tokens next later => rfl
      | spent => rfl
      | ended eof =>
        rw [next_of_ended hrest] at hnext
        cases hnext
    · dsimp only
      rw [hsession]
      exact hnow
    · dsimp only
      rwa [hstate]
  case h_2 => cases h
  case h_3 =>
    cases h
    cases herror

end Source

namespace History

/-- **No way out.** As long as logging stays on or off, a blocked source stays where it is, and
every call that is made fails without sending a request. -/
theorem blocked_of_run? {logging : Bool} {history later : History} {turns : List Turn}
    (h : history.source.Blocked logging) (hsame : ∀ turn ∈ turns, turn.session.logging = logging)
    (hrun : history.run? turns = some later) :
    (∃ factory, later.source = history.source.setFactory factory) ∧
      later.calls = history.calls ∧
      ∃ failed, later.pulls = history.pulls ++ failed ∧
        ∀ pull ∈ failed, pull.step.outcome = .error .addition := by
  induction turns generalizing history with
  | nil =>
    cases hrun
    exact ⟨⟨_, rfl⟩, rfl, [], by rw [List.append_nil], fun pull hmem ↦ by cases hmem⟩
  | cons turn turns ih =>
    obtain ⟨hlogging, hrest⟩ := List.forall_mem_cons.mp hsame
    rw [run?, List.foldlM_cons] at hrun
    obtain ⟨middle, hturn, hmore⟩ := Option.bind_eq_some_iff.mp hrun
    obtain ⟨step, hstep, rfl⟩ := Option.map_eq_some_iff.mp hturn
    have hhere : history.source.Blocked turn.session.logging := by rwa [hlogging]
    obtain ⟨⟨factory, hfactory⟩, hcalls, hfailed⟩ := hhere.perform hstep
    have hstill : step.state.Blocked logging := by
      rw [hfactory]
      exact h.setFactory factory
    obtain ⟨⟨last, hlast⟩, hnone, failed, hpulls, hall⟩ := ih hstill hrest hmore
    refine ⟨⟨last, ?_⟩, ?_, history.source.pulls turn.session turn.op ++ failed, ?_, ?_⟩
    · rw [hlast, hfactory]
      rfl
    · rw [hnone, Session.callsSince_of_calls_eq hcalls, List.append_nil]
    · rw [hpulls, List.append_assoc]
    · intro pull hmem
      rcases List.mem_append.mp hmem with hmem | hmem
      · exact hfailed pull hmem
      · exact hall pull hmem

/-- How calls of a source over `tokens` fail from here on, with logging as in `now`. -/
structure FailsForGood (tokens : List (Shared Token)) (now : Session) (history : History) :
    Prop where
  fails_iff : (history.source.next now).outcome = .error .addition ↔
    (history.source.cursor = tokens.length ∧ history.source.eof? = none ∧
      ∃ last, tokens.getLast? = some last ∧ last.value.EndsAll) ∨
    (now.logging = true ∧
      ∃ token, tokens[history.source.cursor]? = some token ∧ token.value.Unreadable)
  /-- The factory answers whatever request it is sent. -/
  answered : history.source.cursor = tokens.length → history.source.eof? = none →
    ∀ request, history.source.eofRequest = .ok request →
      ∃ creation, history.source.factory.value.create request = .ok creation
  /-- A call that fails changes nothing. -/
  next_eq : (history.source.next now).outcome = .error .addition →
    history.source.next now = ⟨.error .addition, history.source, now⟩
  /-- Nothing that is done to the source then helps. -/
  lasting : (history.source.next now).outcome = .error .addition →
    ∀ more later, (∀ turn ∈ more, turn.session.logging = now.logging) →
      history.run? more = some later →
      (∃ other, later.source = history.source.setFactory other) ∧
        later.calls = history.calls ∧
        (∃ failed, later.pulls = history.pulls ++ failed ∧
          ∀ pull ∈ failed, pull.step.outcome = .error .addition) ∧
        ∀ again : Session, again.logging = now.logging →
          (later.source.next again).outcome = .error .addition
  /-- A recording that fails takes what comes before the token that it fails at. -/
  record : ∀ (copy : String) (step : Step Source Source),
    history.source.record copy now = some step → step.outcome = .error .addition →
    ∃ pulled rest, history.source.rest.toList = pulled ++ rest.toList ∧ rest.eof? = none ∧
      (∀ token ∈ pulled, token.value.isEof = false) ∧
      step.state = history.source.past pulled rest ∧
      step.session = { now with log := step.session.log } ∧
      ∀ again : Session, again.logging = now.logging →
        (step.state.next again).outcome = .error .addition

/-- **Failure for good.** With a factory of this library, a call fails for the reasons given here
and for no others, and never in the factory. It leaves source and session as they were, and every
later call fails as well while logging stays on or off, whatever is done to the source meanwhile and
whichever factories are installed. A recording that fails leaves the source at the token that it
failed at. -/
theorem fails_for_good (tokens : List (Shared Token)) (name : String) (factory : Shared Factory)
    (session now : Session) {turns : List Turn} {history : History}
    (hrun : (ofSource (Source.withFactory tokens name factory session).1).run? turns =
      some history)
    (hstock : history.source.factory.value.Stock) : history.FailsForGood tokens now := by
  have htokens : history.source.tokens = tokens := tokens_eq_of_run? hrun
  have hsize : history.source.size = tokens.length := by rw [← htokens, Source.length_tokens]
  have hanswers : history.source.factory.value.Answers := hstock.answers
  have hblocked : (history.source.next now).outcome = .error .addition →
      history.source.Blocked now.logging := (Source.next_eq_error_iff_blocked hanswers).mp
  refine ⟨?_, ?_, fun hfailed ↦ (hblocked hfailed).next, ?_, ?_⟩
  · rw [Source.next_eq_error_iff_blocked hanswers, Source.Blocked, htokens, hsize]
  · intro hcursor hnone request hrequest
    have hrest : history.source.rest = .spent :=
      Source.rest_eq_spent_iff.mpr ⟨hcursor.trans hsize.symm, hnone⟩
    have hend := Source.eq_endRequest_of_spent hrest hrequest
    refine hanswers request fun stop hstop ↦ ?_
    rw [hend] at hstop
    exact lt_maxSize_of_stop?_endRequest hstop
  · intro hfailed more later hsame hmore
    obtain ⟨⟨other, hother⟩, hcalls, hpulls⟩ := blocked_of_run? (hblocked hfailed) hsame hmore
    refine ⟨⟨other, hother⟩, hcalls, hpulls, fun again hagain ↦ ?_⟩
    have hlater : later.source.Blocked again.logging := by
      rw [hother, hagain]
      exact (hblocked hfailed).setFactory other
    rw [hlater.next]
  · intro copy step hstep herror
    obtain ⟨pulled, rest, hlist, hnone, hpulled, hstate, hsession, hstuck⟩ :=
      Source.record_eq_error hanswers hstep herror
    refine ⟨pulled, rest, hlist, hnone, hpulled, hstate, hsession, fun again hagain ↦ ?_⟩
    rw [← hagain] at hstuck
    rw [hstuck.next]

/-- A word, and behind it a token whose text is out of reach. -/
def astrayTokens : List (Shared Token) :=
  [⟨1, { type := ⟨1⟩, ownText := some "a" }⟩,
    ⟨2, { type := ⟨2⟩, span := .inclusive 0 maxSize,
          origin := { stream := some ⟨3, ⟨"in", "a"⟩⟩ } }⟩]

/-- With logging on, neither another factory nor another way to ask gets past the second token. -/
theorem fails_for_good_astray :
    let loud : Session := { logging := true, nextSerial := 10 }
    ∃ history later,
      (ofSource (Source.withFactory astrayTokens "unit" ⟨0, .common false⟩ {}).1).run?
        [⟨{}, .next⟩] = some history ∧
      history.run? [⟨loud, .setFactory ⟨4, .fixed ⟨5, { type := .eof }⟩⟩⟩, ⟨loud, .drain⟩,
        ⟨loud, .record "copy"⟩] = some later ∧
      later.source.cursor = 1 ∧ later.pulls.length = 3 ∧ later.calls = [] ∧
      (later.source.next loud).outcome = .error .addition := by
  intro loud
  let more : List Turn := [⟨loud, .setFactory ⟨4, .fixed ⟨5, { type := .eof }⟩⟩⟩, ⟨loud, .drain⟩,
    ⟨loud, .record "copy"⟩]
  obtain ⟨history, later, hrun, hmore, hfactory, hcursor, hthere, hpulls, hnone⟩ : ∃ history later,
      (ofSource (Source.withFactory astrayTokens "unit" ⟨0, .common false⟩ {}).1).run?
        [⟨{}, .next⟩] = some history ∧ history.run? more = some later ∧
      history.source.factory.value = .common false ∧ history.source.cursor = 1 ∧
      later.source.cursor = 1 ∧ later.pulls.length = 3 ∧ history.calls = [] :=
    ⟨_, _, rfl, rfl, rfl, rfl, rfl, rfl, rfl⟩
  have hstock : history.source.factory.value.Stock := by
    rw [hfactory]
    exact .common false
  have hgood :=
    fails_for_good astrayTokens "unit" ⟨0, .common false⟩ {} loud hrun hstock
  have hfailed : (history.source.next loud).outcome = .error .addition := by
    refine hgood.fails_iff.mpr (.inr ⟨rfl, ?_⟩)
    rw [hcursor]
    exact ⟨_, rfl, rfl, Option.some_ne_none _, maxSize, rfl, Nat.le_refl _⟩
  have hloud : ∀ turn ∈ more, turn.session.logging = loud.logging := by decide
  obtain ⟨-, hcalls, -, hagain⟩ := hgood.lasting hfailed more later hloud hmore
  refine ⟨history, later, hrun, hmore, hthere, hpulls, ?_, hagain loud rfl⟩
  rw [hcalls, hnone]

end History

end TokenReplay
