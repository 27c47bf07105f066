import TokenReplay.Proofs.Advance
import TokenReplay.Source.Op

/-!
# Calls for tokens, made in a row

Whatever is done to a source comes down to calls for tokens. A single one is an operation of its
own, a pass makes a number of them, and so does a recording, and each of the latter has a loop of
its own. Here the three loops become one. `Source.haul` makes calls until one of them fails, one of
them gives a token of end type, or a limit is reached, and it keeps a record of them;
`take_eq_haul`, `drain_eq_haul` and `record_eq_haul` say how the three operations follow from what
was hauled.

## What is kept of a call

A call is kept as the source and the session that it was made in. Everything else follows from
those, as a call does the same thing whenever it is made in the same circumstances: what it gave,
where it led to, and which requests it sent. A failed call is a call like any other.

## The limit

Passes and recordings may never end, and both are cut off at a limit that depends on what is left of
the list. A haul that has gone past the list without a token of end type gets the same token for
ever, so a higher limit would not have helped (`outcome_haul_eq_false`).
-/

namespace TokenReplay

/-! ## Calls -/

/-- A call for a token, by the circumstances it was made in. -/
structure Pull where
  source : Source
  session : Session

namespace Pull

def step (pull : Pull) : Step Source (Shared Token) := pull.source.next pull.session

/-- The token that was handed out, if the call did not fail. -/
def token? (pull : Pull) : Option (Shared Token) := pull.step.outcome.toOption

/-- The requests that were sent to a factory. -/
def calls (pull : Pull) : List Call := pull.step.session.callsSince pull.session

theorem token?_eq_some_iff {pull : Pull} {token : Shared Token} :
    pull.token? = some token ↔ pull.step.outcome = .ok token := by
  unfold token?
  cases pull.step.outcome <;> simp [Except.toOption]

theorem toList_calls_step (pull : Pull) :
    pull.step.session.calls.toList = pull.session.calls.toList ++ pull.calls := by
  have hsame : pull.step.session.calls = pull.session.calls →
      pull.step.session.calls.toList = pull.session.calls.toList ++ pull.calls := by
    intro h
    rw [calls, Session.callsSince_of_calls_eq h, h, List.append_nil]
  have hpush : ∀ call, pull.step.session.calls = pull.session.calls.push call →
      pull.step.session.calls.toList = pull.session.calls.toList ++ pull.calls := by
    intro call h
    rw [calls, Session.callsSince_of_calls_push h, h, Array.toList_push]
  generalize hstep : pull.step = step at hsame hpush ⊢
  cases Source.advance_of_next_eq hstep with
  | listed hrest hlog => exact hsame (Session.calls_of_logHandedOut hlog)
  | unshown hrest hlog => exact hsame rfl
  | again hrest => exact hsame rfl
  | unplaced hrest hrequest => exact hsame rfl
  | refused hrest hrequest hcreate hcalls => exact hpush _ hcalls
  | built hrest hrequest hcreate heof hcalls => exact hpush _ hcalls

end Pull

namespace Source

/-- Calls that are made one after the other lead from one source to another. -/
inductive Path : Source → List Pull → Source → Prop
  | nil (source : Source) : Path source [] source
  | cons {source : Source} {session : Session} {pulls : List Pull} {last : Source}
      (h : Path (source.next session).state pulls last) :
      Path source (⟨source, session⟩ :: pulls) last

/-! ## Hauls -/

/-- Calls made in a row and what came of them. The outcome says whether a token of end type was the
last that was handed out. -/
structure Haul extends Step Source Bool where
  pulls : List Pull

namespace Haul

/-- The tokens that were handed out, in order. -/
def tokens (haul : Haul) : List (Shared Token) := haul.pulls.filterMap Pull.token?

/-- The haul of a single call. -/
def single (pull : Pull) (outcome : Except Overflow Bool) : Haul :=
  ⟨⟨outcome, pull.step.state, pull.step.session⟩, [pull]⟩

/-- The haul with another call made before it. -/
def cons (pull : Pull) (haul : Haul) : Haul := { haul with pulls := pull :: haul.pulls }

@[simp] theorem outcome_cons (pull : Pull) (haul : Haul) :
    (haul.cons pull).outcome = haul.outcome := rfl

@[simp] theorem state_cons (pull : Pull) (haul : Haul) : (haul.cons pull).state = haul.state := rfl

@[simp] theorem session_cons (pull : Pull) (haul : Haul) :
    (haul.cons pull).session = haul.session := rfl

@[simp] theorem pulls_cons (pull : Pull) (haul : Haul) :
    (haul.cons pull).pulls = pull :: haul.pulls := rfl

/-- What is made of a haul that was to go on up to a token of end type: nothing, if it was cut off.
-/
def finish {α : Type} (haul : Haul) (value : α) : Option (Step Source α) :=
  match haul.outcome with
  | .error e => some ⟨.error e, haul.state, haul.session⟩
  | .ok false => none
  | .ok true => some ⟨.ok value, haul.state, haul.session⟩

theorem finish_eq_none_iff {α : Type} {haul : Haul} {value : α} :
    haul.finish value = none ↔ haul.outcome = .ok false := by
  rw [finish]
  rcases haul.outcome with e | _ | _ <;> simp

theorem state_of_finish_eq_some {α : Type} {haul : Haul} {value : α} {step : Step Source α}
    (h : haul.finish value = some step) :
    step.state = haul.state ∧ step.session = haul.session := by
  rw [finish] at h
  split at h
  · cases h
    exact ⟨rfl, rfl⟩
  · cases h
  · cases h
    exact ⟨rfl, rfl⟩

theorem outcome_of_finish_eq_some {α : Type} {haul : Haul} {value given : α} {step : Step Source α}
    (h : haul.finish value = some step) (hok : step.outcome = .ok given) :
    haul.outcome = .ok true ∧ given = value := by
  rw [finish] at h
  split at h
  · cases h
    cases hok
  · cases h
  case h_3 houtcome =>
    cases h
    cases hok
    exact ⟨houtcome, rfl⟩

section Tokens

variable {source : Source} {session : Session} {token : Shared Token}

theorem tokens_single (h : (source.next session).outcome = .ok token)
    (outcome : Except Overflow Bool) : (single ⟨source, session⟩ outcome).tokens = [token] :=
  List.filterMap_cons_some (Pull.token?_eq_some_iff.2 h)

theorem tokens_cons (h : (source.next session).outcome = .ok token) (haul : Haul) :
    (haul.cons ⟨source, session⟩).tokens = token :: haul.tokens :=
  List.filterMap_cons_some (Pull.token?_eq_some_iff.2 h)

end Tokens

end Haul

/-- Calls for tokens up to the first failure or token of end type, but no more than `limit`. -/
def haul : Nat → Source → Session → Haul
  | 0, source, session => ⟨⟨.ok false, source, session⟩, []⟩
  | limit + 1, source, session =>
    match (source.next session).outcome with
    | .error e => .single ⟨source, session⟩ (.error e)
    | .ok token =>
      if token.value.isEof then .single ⟨source, session⟩ (.ok true)
      else
        (haul limit (source.next session).state (source.next session).session).cons
          ⟨source, session⟩

section First

variable {source : Source} {session : Session} {token : Shared Token}

theorem haul_succ_of_error {e : Overflow} (hnext : (source.next session).outcome = .error e)
    (limit : Nat) : haul (limit + 1) source session = .single ⟨source, session⟩ (.error e) := by
  rw [haul, hnext]

theorem haul_succ_of_isEof (hnext : (source.next session).outcome = .ok token)
    (htype : token.value.isEof = true) (limit : Nat) :
    haul (limit + 1) source session = .single ⟨source, session⟩ (.ok true) := by
  rw [haul, hnext]
  exact if_pos htype

theorem haul_succ (hnext : (source.next session).outcome = .ok token)
    (htype : token.value.isEof = false) (limit : Nat) :
    haul (limit + 1) source session =
      (haul limit (source.next session).state (source.next session).session).cons
        ⟨source, session⟩ := by
  rw [haul, hnext]
  dsimp only
  rw [htype, if_neg Bool.false_ne_true]

end First

theorem path_haul (limit : Nat) (source : Source) (session : Session) :
    Path source (haul limit source session).pulls (haul limit source session).state := by
  fun_induction haul limit source session with
  | case1 source session => exact .nil source
  | case2 limit source session e h => exact .cons (.nil _)
  | case3 limit source session token h heof => exact .cons (.nil _)
  | case4 limit source session token h heof ih => exact .cons ih

theorem toList_calls_haul (limit : Nat) (source : Source) (session : Session) :
    (haul limit source session).session.calls.toList =
      session.calls.toList ++ (haul limit source session).pulls.flatMap Pull.calls := by
  fun_induction haul limit source session with
  | case1 source session => simp
  | case2 limit source session e h =>
    rw [Haul.single, List.flatMap_singleton]
    exact Pull.toList_calls_step ⟨source, session⟩
  | case3 limit source session token h heof =>
    rw [Haul.single, List.flatMap_singleton]
    exact Pull.toList_calls_step ⟨source, session⟩
  | case4 limit source session token h heof ih =>
    have hstep := Pull.toList_calls_step ⟨source, session⟩
    rw [Pull.step] at hstep
    rw [Haul.session_cons, Haul.pulls_cons, ih, List.flatMap_cons, hstep, List.append_assoc]

theorem tokens_haul_of_outcome_eq_true {limit : Nat} {source : Source} {session : Session}
    (h : (haul limit source session).outcome = .ok true) :
    ∃ front last, (haul limit source session).tokens = front ++ [last] ∧
      last.value.isEof = true ∧ ∀ token ∈ front, token.value.isEof = false := by
  fun_induction haul limit source session with
  | case1 source session => cases h
  | case2 limit source session e hnext => cases h
  | case3 limit source session token hnext heof =>
    refine ⟨[], token, Haul.tokens_single hnext _, heof, ?_⟩
    intro other hmem
    cases hmem
  | case4 limit source session token hnext heof ih =>
    obtain ⟨front, last, htokens, hlast, hfront⟩ := ih h
    refine ⟨token :: front, last, ?_, hlast, ?_⟩
    · rw [Haul.tokens_cons hnext, htokens, List.cons_append]
    · exact List.forall_mem_cons.2 ⟨Bool.eq_false_iff.2 heof, hfront⟩

/-! ## Passes and recordings as hauls -/

theorem next?_of_unfinished (source : Source) (session : Session) :
    (⟨source, false⟩ : Pass).next? session =
      match (source.next session).outcome with
      | .error e => ⟨.error e, ⟨(source.next session).state, false⟩, (source.next session).session⟩
      | .ok token =>
        ⟨.ok (some token), ⟨(source.next session).state, token.value.isEof⟩,
          (source.next session).session⟩ := by
  unfold Pass.next?
  obtain ⟨outcome, state, after⟩ := source.next session
  cases outcome <;> rfl

theorem take_of_finished (count : Nat) (source : Source) (session : Session) :
    (⟨source, true⟩ : Pass).take count session =
      ⟨.ok (List.replicate count none), ⟨source, true⟩, session⟩ := by
  induction count with
  | zero => rfl
  | succ count ih =>
    rw [Pass.take, Pass.next?_of_finished rfl]
    dsimp only
    rw [ih]
    rfl

theorem take_succ (count : Nat) (source : Source) (session : Session) :
    source.take (count + 1) session =
      match (source.next session).outcome with
      | .error e => ⟨.error e, (source.next session).state, (source.next session).session⟩
      | .ok token =>
        if token.value.isEof then
          ⟨.ok (some token :: List.replicate count none), (source.next session).state,
            (source.next session).session⟩
        else
          ((source.next session).state.take count (source.next session).session).map
            (some token :: ·) := by
  rw [take, Pass.take, next?_of_unfinished]
  cases (source.next session).outcome with
  | error e => rfl
  | ok token =>
    dsimp only
    cases token.value.isEof with
    | true => rw [take_of_finished]; rfl
    | false => rfl

/-- **Giving up a pass.** Behind its end a pass gives nothing for each further item. -/
theorem take_eq_haul (count : Nat) (source : Source) (session : Session) :
    source.take count session =
      { outcome := (haul count source session).outcome.map fun _ ↦
          (haul count source session).tokens.map some ++
            List.replicate (count - (haul count source session).tokens.length) none
        state := (haul count source session).state
        session := (haul count source session).session } := by
  -- Both make the same calls, so the cases are those of the haul.
  fun_induction haul count source session with
  | case1 source session => rfl
  | case2 limit source session e h =>
    rw [take_succ, h]
    rfl
  | case3 limit source session token h heof =>
    rw [take_succ, h, Haul.tokens_single h]
    dsimp only
    rw [if_pos heof]
    rfl
  | case4 limit source session token h heof ih =>
    rw [take_succ, h, Haul.tokens_cons h]
    dsimp only
    rw [if_neg heof, ih, List.length_cons, Nat.succ_sub_succ, Haul.outcome_cons]
    cases (haul limit (source.next session).state (source.next session).session).outcome <;> rfl

/-- **Collecting a pass.** The end of a pass shows only in the item behind it, so the limit has to
leave room for one more. -/
theorem collectWithin_eq_haul (limit : Nat) (source : Source) (session : Session) :
    (⟨source, false⟩ : Pass).collectWithin limit session =
      match (haul limit source session).outcome with
      | .error e =>
        some ⟨.error e, ⟨(haul limit source session).state, false⟩,
          (haul limit source session).session⟩
      | .ok false => none
      | .ok true =>
        if (haul limit source session).tokens.length < limit then
          some ⟨.ok (haul limit source session).tokens, ⟨(haul limit source session).state, true⟩,
            (haul limit source session).session⟩
        else none := by
  fun_induction haul limit source session with
  | case1 source session => rfl
  | case2 limit source session e h =>
    rw [Pass.collectWithin, next?_of_unfinished, h]
    rfl
  | case3 limit source session token h heof =>
    rw [Pass.collectWithin, next?_of_unfinished, h, Haul.tokens_single h]
    dsimp only
    cases limit with
    | zero => rfl
    | succ limit =>
      have hroom : [token].length < limit + 1 + 1 := by simp
      rw [Pass.collectWithin, Pass.next?_of_finished heof, if_pos hroom, heof]
      rfl
  | case4 limit source session token h heof ih =>
    rw [Pass.collectWithin, next?_of_unfinished, h, Haul.tokens_cons h]
    dsimp only
    rw [Bool.eq_false_iff.2 heof, ih, Haul.outcome_cons, List.length_cons]
    rcases (haul limit (source.next session).state (source.next session).session).outcome with
      e | _ | _
    · rfl
    · rfl
    · dsimp only
      by_cases hroom : (haul limit (source.next session).state
          (source.next session).session).tokens.length < limit
      · rw [if_pos hroom, if_pos (Nat.succ_lt_succ hroom)]
        rfl
      · rw [if_neg hroom, if_neg (mt Nat.lt_of_succ_lt_succ hroom)]
        rfl

theorem pullWithin_succ (limit : Nat) (source : Source) (session : Session) :
    pullWithin (limit + 1) source session =
      match (source.next session).outcome with
      | .error e => some ⟨.error e, (source.next session).state, (source.next session).session⟩
      | .ok token =>
        if token.value.isEof then
          some ⟨.ok [], (source.next session).state, (source.next session).session⟩
        else
          (pullWithin limit (source.next session).state (source.next session).session).map
            fun step ↦ step.map (token :: ·) := by
  rw [pullWithin]
  obtain ⟨outcome, state, after⟩ := source.next session
  cases outcome <;> rfl

/-- **Pulling for a recording.** The token of end type is left out. -/
theorem pullWithin_eq_haul (limit : Nat) (source : Source) (session : Session) :
    pullWithin limit source session =
      (haul limit source session).finish (haul limit source session).tokens.dropLast := by
  fun_induction haul limit source session with
  | case1 source session => rfl
  | case2 limit source session e h =>
    rw [pullWithin_succ, h]
    rfl
  | case3 limit source session token h heof =>
    rw [pullWithin_succ, h, Haul.tokens_single h]
    dsimp only
    rw [if_pos heof]
    rfl
  | case4 limit source session token h heof ih =>
    rw [pullWithin_succ, h, Haul.tokens_cons h]
    dsimp only
    rw [if_neg heof, ih, Haul.finish, Haul.finish, Haul.outcome_cons]
    rcases houtcome : (haul limit (source.next session).state
      (source.next session).session).outcome with e | _ | _
    · rfl
    · rfl
    -- The last token of the haul is the last of the longer one only if there is one at all.
    · obtain ⟨front, last, htokens, -, -⟩ := tokens_haul_of_outcome_eq_true houtcome
      rw [htokens, ← List.cons_append, List.dropLast_concat, List.dropLast_concat]
      rfl

/-! ## The limit of a haul -/

theorem outcome_haul_of_ended {source : Source} {eof : Shared Token}
    (hrest : source.rest = .ended eof) (heof : eof.value.isEof = false) (limit : Nat)
    (session : Session) : (haul limit source session).outcome = .ok false := by
  induction limit with
  | zero => rfl
  | succ limit ih =>
    have hnext := next_of_ended hrest session
    rw [haul_succ (by rw [hnext]) heof, Haul.outcome_cons, hnext, ih]

/-- A haul that has gone past the list without coming to an end never does. -/
theorem outcome_haul_eq_false {bound : Nat} {source : Source} {session : Session}
    (hbound : source.rest.toList.length < bound)
    (h : (haul bound source session).outcome = .ok false) (limit : Nat) :
    (haul limit source session).outcome = .ok false := by
  obtain ⟨bound, rfl⟩ := Nat.exists_eq_add_of_lt hbound
  clear hbound
  fun_induction haul limit source session with
  | case1 source session => rfl
  | case2 limit source session e hnext =>
    rwa [haul_succ_of_error hnext] at h
  | case3 limit source session token hnext heof =>
    rwa [haul_succ_of_isEof hnext heof] at h
  | case4 limit source session token hnext heof ih =>
    rw [haul_succ hnext (Bool.eq_false_iff.2 heof), Haul.outcome_cons] at h
    rw [Haul.outcome_cons]
    -- A token of the list takes the bound down with it; any other one comes for ever.
    rcases rest_of_outcome_eq_ok hnext with ⟨later, hrest, hlater⟩ | ⟨-, hended⟩
    · refine ih ?_
      rw [hrest, Rest.toList_tokens, List.length_cons, Nat.succ_add] at h
      rwa [hlater, Rest.toList_ofList]
    · exact outcome_haul_of_ended hended (Bool.eq_false_iff.2 heof) limit _

theorem length_tokens_haul_le {limit : Nat} {source : Source} {session : Session}
    (h : (haul limit source session).outcome = .ok true) :
    (haul limit source session).tokens.length ≤ source.rest.toList.length + 1 := by
  fun_induction haul limit source session with
  | case1 source session => cases h
  | case2 limit source session e hnext => cases h
  | case3 limit source session token hnext heof =>
    rw [Haul.tokens_single hnext, List.length_singleton]
    exact Nat.le_add_left _ _
  | case4 limit source session token hnext heof ih =>
    rw [Haul.outcome_cons] at h
    rw [Haul.tokens_cons hnext, List.length_cons]
    rcases rest_of_outcome_eq_ok hnext with ⟨later, hrest, hlater⟩ | ⟨-, hended⟩
    · have hle := ih h
      rw [hlater, Rest.toList_ofList] at hle
      rw [hrest, Rest.toList_tokens, List.length_cons]
      exact Nat.succ_le_succ hle
    · rw [outcome_haul_of_ended hended (Bool.eq_false_iff.2 heof)] at h
      cases h

theorem drain_eq_haul (source : Source) (session : Session) :
    source.drain session =
      (haul (source.rest.toList.length + 2) source session).finish
        (haul (source.rest.toList.length + 2) source session).tokens := by
  rw [drain, collectWithin_eq_haul, Haul.finish]
  rcases houtcome : (haul (source.rest.toList.length + 2) source session).outcome with e | _ | _
  · rfl
  · rfl
  · have hle := length_tokens_haul_le houtcome
    dsimp only
    rw [if_pos (Nat.lt_succ_of_le hle)]
    rfl

/-- A drain gives nothing only if no limit would have been high enough. -/
theorem drain_eq_none_iff {source : Source} {session : Session} :
    source.drain session = none ↔
      ∀ limit, (⟨source, false⟩ : Pass).collectWithin limit session = none := by
  constructor
  · intro h limit
    rw [drain_eq_haul, Haul.finish_eq_none_iff] at h
    rw [collectWithin_eq_haul, outcome_haul_eq_false (by omega) h]
  · intro h
    rw [drain, h, Option.map_none]

/-- **Recording.** The new source is made only after everything was pulled. -/
theorem record_eq_haul (source : Source) (name : String) (session : Session) :
    source.record name session =
      let hauled := haul (source.rest.toList.length + 1) source session
      let made := ofTokens hauled.tokens.dropLast name
        (hauled.session.emit (.recorded hauled.tokens.dropLast.length hauled.state.id.name))
      match hauled.outcome with
      | .error e => some ⟨.error e, hauled.state, hauled.session⟩
      | .ok false => none
      | .ok true => some ⟨.ok made.1, hauled.state, made.2⟩ := by
  rw [record, pullWithin_eq_haul, Haul.finish]
  dsimp only
  rcases (haul (source.rest.toList.length + 1) source session).outcome with e | _ | _ <;> rfl

theorem record_eq_none_iff {source : Source} {name : String} {session : Session} :
    source.record name session = none ↔ ∀ limit, pullWithin limit source session = none := by
  constructor
  · intro h limit
    have hstuck : (haul (source.rest.toList.length + 1) source session).outcome = .ok false := by
      rw [record_eq_haul] at h
      rcases houtcome : (haul (source.rest.toList.length + 1) source session).outcome with e | _ | _
      · simp [houtcome] at h
      · rfl
      · simp [houtcome] at h
    rw [pullWithin_eq_haul, Haul.finish_eq_none_iff]
    exact outcome_haul_eq_false (Nat.lt_succ_self _) hstuck limit
  · intro h
    rw [record, h]

end Source

end TokenReplay
