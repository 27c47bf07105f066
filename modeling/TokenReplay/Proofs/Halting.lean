import TokenReplay.Proofs.Stretch

/-!
# When passes and recordings end

Passes and recordings call for tokens until one of end type comes, and nothing of their own bounds
the number of calls. Within the list every call leaves one token less. Behind it the same token
comes for ever, and it is up to a factory what type that token has. So a pass ends at a token of the
list, or with the first call behind the list, or never.

`Source.Halts` names the three ways to come to an end. What makes it useful is that it can be told
call by call: a source halts if the token that it hands out is of end type, or if the source that
the call leaves behind halts (`halts_iff_of_next`). From this follows when calls in a row end, by
induction along them, and after how many calls (`outcome_haul_iff`, `length_pulls_haul`).

## Loops and limits

The loops of this library are run with a limit, which says how often they may go round. A loop
without a limit ends if and only if it ends within some limit, so that is what is proved here, and
the least such limit is the number of calls.

## Without an end

What a source that does not halt hands out behind its list is never of end type. Once it was handed
out it stays, and no factory that is installed afterwards is asked for anything (`Source.Endless`).
Before that the factory still matters, so a source that does not halt may be made to.
-/

namespace TokenReplay

namespace Source

variable {source : Source} {session : Session}

/-! ## Sources that halt -/

/-- The source when its list has run out, ahead of the first call behind it. -/
def runOut (source : Source) : Source := source.past source.rest.toList .spent

/-- Calls in a row come to a token of end type, if none of them fails. -/
inductive Halts (source : Source) : Prop
  /-- There is one among the tokens of the list that are still to come. -/
  | listed {token : Shared Token} (hmem : token ∈ source.rest.toList)
      (htype : token.value.isEof = true) : Halts source
  /-- The end of stream token that is there is one. -/
  | again {eof : Shared Token} (hsome : source.eof? = some eof) (htype : eof.value.isEof = true) :
      Halts source
  /-- The factory makes one of what it will be asked for. -/
  | built {request : CreateRequest} {creation : Creation} (hnone : source.eof? = none)
      (hrequest : source.runOut.eofRequest = .ok request)
      (hcreate : source.factory.value.create request = .ok creation)
      (htype : creation.product.token.isEof = true) : Halts source

theorem halts_iff :
    source.Halts ↔
      (∃ token ∈ source.rest.toList, token.value.isEof = true) ∨
      (∃ eof, source.eof? = some eof ∧ eof.value.isEof = true) ∨
      (source.eof? = none ∧ ∃ request creation, source.runOut.eofRequest = .ok request ∧
        source.factory.value.create request = .ok creation ∧
        creation.product.token.isEof = true) := by
  constructor
  · rintro (⟨hmem, htype⟩ | ⟨hsome, htype⟩ | ⟨hnone, hrequest, hcreate, htype⟩)
    · exact .inl ⟨_, hmem, htype⟩
    · exact .inr (.inl ⟨_, hsome, htype⟩)
    · exact .inr (.inr ⟨hnone, _, _, hrequest, hcreate, htype⟩)
  · rintro (⟨_, hmem, htype⟩ | ⟨_, hsome, htype⟩ | ⟨hnone, _, _, hrequest, hcreate, htype⟩)
    · exact .listed hmem htype
    · exact .again hsome htype
    · exact .built hnone hrequest hcreate htype

theorem runOut_of_spent (hrest : source.rest = .spent) : source.runOut = source := by
  rw [runOut, hrest]
  have hpast := source.past_nil
  rwa [hrest] at hpast

theorem runOut_past {front later : List (Shared Token)}
    (hlist : source.rest.toList = front ++ later) :
    (source.past front (.ofList later)).runOut = source.runOut := by
  rw [runOut, rest_past, Rest.toList_ofList, past_past, runOut, hlist]

theorem halts_iff_of_tokens {token : Shared Token} {later : List (Shared Token)}
    (hrest : source.rest = .tokens token later) :
    source.Halts ↔ token.value.isEof = true ∨ (source.past [token] (.ofList later)).Halts := by
  have hlist : source.rest.toList = [token] ++ later := by
    rw [hrest, Rest.toList_tokens, List.singleton_append]
  have hnone : source.eof? = none := by
    rw [eof?, hrest]
    rfl
  have hback : (source.past [token] (.ofList later)).rest.toList = later := Rest.toList_ofList later
  constructor
  · rintro (⟨hmem, htype⟩ | ⟨hsome, -⟩ | ⟨-, hrequest, hcreate, htype⟩)
    · rw [hlist, List.singleton_append, List.mem_cons] at hmem
      rcases hmem with rfl | hmem
      · exact .inl htype
      · exact .inr (.listed (by rwa [hback]) htype)
    · rw [hnone] at hsome
      exact absurd hsome (Option.some_ne_none _).symm
    · rw [← runOut_past hlist] at hrequest
      exact .inr (.built (Rest.eof?_ofList later) hrequest hcreate htype)
  · rintro (htype | ⟨hmem, htype⟩ | ⟨hsome, -⟩ | ⟨-, hrequest, hcreate, htype⟩)
    · exact .listed (by rw [hlist]; exact List.mem_cons_self) htype
    · rw [hback] at hmem
      exact .listed (by rw [hlist]; exact List.mem_cons_of_mem _ hmem) htype
    · rw [eof?_past, Rest.eof?_ofList] at hsome
      exact absurd hsome (Option.some_ne_none _).symm
    · rw [runOut_past hlist] at hrequest
      exact .built hnone hrequest hcreate htype

theorem halts_iff_of_ended {eof : Shared Token} (hrest : source.rest = .ended eof) :
    source.Halts ↔ eof.value.isEof = true := by
  have heof : source.eof? = some eof := eof?_eq_some_iff.mpr hrest
  constructor
  · rintro (⟨hmem, -⟩ | ⟨hsome, htype⟩ | ⟨hnone, -, -, -⟩)
    · rw [hrest, Rest.toList_ended] at hmem
      exact absurd hmem List.not_mem_nil
    · rwa [← Option.some.inj (heof.symm.trans hsome)] at htype
    · rw [heof] at hnone
      exact absurd hnone (Option.some_ne_none _)
  · exact .again heof

theorem halts_iff_of_spent {request : CreateRequest} {creation : Creation}
    (hrest : source.rest = .spent) (hrequest : source.eofRequest = .ok request)
    (hcreate : source.factory.value.create request = .ok creation) :
    source.Halts ↔ creation.product.token.isEof = true := by
  have hnone : source.eof? = none := by
    rw [eof?, hrest]
    rfl
  have hsame : source.runOut.eofRequest = .ok request := by rw [runOut_of_spent hrest, hrequest]
  constructor
  · rintro (⟨hmem, -⟩ | ⟨hsome, -⟩ | ⟨-, hrequest', hcreate', htype⟩)
    · rw [hrest, Rest.toList_spent] at hmem
      exact absurd hmem List.not_mem_nil
    · rw [hnone] at hsome
      exact absurd hsome (Option.some_ne_none _).symm
    · rw [← Except.ok.inj (hsame.symm.trans hrequest')] at hcreate'
      rwa [← Except.ok.inj (hcreate.symm.trans hcreate')] at htype
  · exact .built hnone hsame hcreate

theorem halts_iff_of_next_behind {token : Shared Token} (hlist : source.rest.toList = [])
    (hnext : (source.next session).outcome = .ok token) :
    source.Halts ↔ token.value.isEof = true := by
  generalize hstep : source.next session = step at hnext
  cases advance_of_next_eq hstep with
  | listed hrest hlog =>
    rw [hrest] at hlist
    cases hlist
  | unshown hrest hlog => cases hnext
  | again hrest =>
    cases hnext
    exact halts_iff_of_ended hrest
  | unplaced hrest hrequest => cases hnext
  | refused hrest hrequest hcreate hcalls => cases hnext
  | built hrest hrequest hcreate heof hcalls =>
    cases hnext
    rw [← heof, Session.value_realize]
    exact halts_iff_of_spent hrest hrequest hcreate

/-- **One call.** A source halts if it hands out a token of end type, or if it halts after that. -/
theorem halts_iff_of_next {token : Shared Token}
    (hnext : (source.next session).outcome = .ok token) :
    source.Halts ↔ token.value.isEof = true ∨ (source.next session).state.Halts := by
  rcases state_next_of_ok hnext with ⟨later, hrest, hstate, -, -⟩ | ⟨hlist, hstate⟩
  · rw [hstate]
    exact halts_iff_of_tokens hrest
  · rw [halts_iff_of_next_behind hlist hnext, hstate, halts_iff_of_ended (rest_past _ _ _), or_self]

/-! ## Calls that end -/

/-- The number of tokens that are handed out ahead of the next one of end type, or of the end of the
list. -/
def distance (source : Source) : Nat := source.rest.toList.findIdx (·.value.isEof)

theorem distance_of_isEof {token : Shared Token} (htype : token.value.isEof = true)
    (hnext : (source.next session).outcome = .ok token) : source.distance = 0 := by
  rw [distance]
  rcases state_next_of_ok hnext with ⟨later, hrest, -, -, -⟩ | ⟨hlist, -⟩
  · rw [hrest, Rest.toList_tokens, List.findIdx_cons, htype, cond_true]
  · rw [hlist, List.findIdx_nil]

theorem distance_of_tokens {token : Shared Token} {later : List (Shared Token)}
    (hrest : source.rest = .tokens token later) (htype : token.value.isEof = false) :
    source.distance = (source.past [token] (.ofList later)).distance + 1 := by
  rw [distance, distance, hrest, Rest.toList_tokens, List.findIdx_cons, htype, cond_false,
    rest_past, Rest.toList_ofList]

/-- **The end of calls in a row.** If none of them fails, they end if and only if the source halts
and the limit is beyond the tokens ahead of the end. -/
theorem outcome_haul_iff {limit : Nat} {ended : Bool}
    (h : (haul limit source session).outcome = .ok ended) :
    ended = true ↔ source.Halts ∧ source.distance < limit := by
  fun_induction haul limit source session with
  | case1 source session =>
    rw [← Except.ok.inj h]
    simp
  | case2 limit source session e hnext => exact absurd h (by simp [Haul.single])
  | case3 limit source session token hnext htype =>
    rw [← Except.ok.inj h, distance_of_isEof htype hnext, halts_iff_of_next hnext]
    simp [htype]
  | case4 limit source session token hnext htype ih =>
    rw [ih h, halts_iff_of_next hnext]
    rcases state_next_of_ok hnext with ⟨later, hrest, hstate, -, -⟩ | ⟨-, hstate⟩
    · rw [distance_of_tokens hrest (Bool.eq_false_iff.mpr htype), hstate, Nat.succ_lt_succ_iff,
        or_iff_right htype]
    -- Behind the list, neither the source before the call nor the one after it halts.
    · rw [hstate, halts_iff_of_ended (rest_past _ _ _), or_self]
      simp [htype]

theorem length_pulls_haul {limit : Nat} (h : (haul limit source session).outcome = .ok true) :
    (haul limit source session).pulls.length = source.distance + 1 ∧
      (haul limit source session).tokens.length = source.distance + 1 := by
  fun_induction haul limit source session with
  | case1 source session => cases h
  | case2 limit source session e hnext => cases h
  | case3 limit source session token hnext htype =>
    rw [distance_of_isEof htype hnext, Haul.tokens_single hnext]
    exact ⟨rfl, rfl⟩
  | case4 limit source session token hnext htype ih =>
    rw [Haul.outcome_cons] at h
    rw [Haul.pulls_cons, Haul.tokens_cons hnext, List.length_cons, List.length_cons, (ih h).1,
      (ih h).2]
    rcases state_next_of_ok hnext with ⟨later, hrest, hstate, -, -⟩ | ⟨-, hstate⟩
    · rw [distance_of_tokens hrest (Bool.eq_false_iff.mpr htype), hstate]
      exact ⟨rfl, rfl⟩
    · rw [hstate, outcome_haul_of_ended (rest_past _ _ _) (Bool.eq_false_iff.mpr htype)] at h
      cases h

/-! ## Calls that do not fail -/

/-- However many items a pass is asked for, none of its calls fails. -/
def Unfailing (source : Source) (session : Session) : Prop :=
  ∀ count e, (source.take count session).outcome ≠ .error e

theorem unfailing_iff :
    source.Unfailing session ↔
      ∀ limit, ∃ ended, (haul limit source session).outcome = .ok ended := by
  constructor
  · intro h limit
    cases houtcome : (haul limit source session).outcome with
    | ok ended => exact ⟨ended, rfl⟩
    | error e =>
      refine absurd ?_ (h limit e)
      rw [take_eq_haul, houtcome]
      rfl
  · intro h count e hfailed
    obtain ⟨ended, hended⟩ := h count
    rw [take_eq_haul, hended] at hfailed
    cases hfailed

/-- The first call gives a token. If that is not the end, the calls behind it do not fail either. -/
theorem Unfailing.exists_next (h : source.Unfailing session) :
    ∃ token, (source.next session).outcome = .ok token ∧
      (token.value.isEof = false →
        (source.next session).state.Unfailing (source.next session).session) := by
  rw [unfailing_iff] at h
  cases hnext : (source.next session).outcome with
  | error e =>
    obtain ⟨ended, hended⟩ := h 1
    rw [haul_succ_of_error hnext] at hended
    cases hended
  | ok token =>
    refine ⟨token, rfl, fun htype ↦ unfailing_iff.mpr fun limit ↦ ?_⟩
    obtain ⟨ended, hended⟩ := h (limit + 1)
    rw [haul_succ hnext htype] at hended
    exact ⟨ended, hended⟩

theorem exists_outcome_haul {bound : Nat} {ended : Bool}
    (hbound : source.rest.toList.length < bound)
    (h : (haul bound source session).outcome = .ok ended) (limit : Nat) :
    ∃ ended, (haul limit source session).outcome = .ok ended := by
  obtain ⟨bound, rfl⟩ := Nat.exists_eq_add_of_lt hbound
  clear hbound
  fun_induction haul limit source session with
  | case1 source session => exact ⟨false, rfl⟩
  | case2 limit source session e hnext =>
    rw [haul_succ_of_error hnext] at h
    cases h
  | case3 limit source session token hnext htype => exact ⟨true, rfl⟩
  | case4 limit source session token hnext htype ih =>
    have hother : token.value.isEof = false := Bool.eq_false_iff.mpr htype
    rw [Haul.outcome_cons]
    rcases state_next_of_ok hnext with ⟨later, hrest, hstate, -, -⟩ | ⟨-, hstate⟩
    · refine ih ?_
      rw [haul_succ hnext hother, Haul.outcome_cons, hrest, Rest.toList_tokens, List.length_cons,
        Nat.succ_add] at h
      rwa [hstate, rest_past, Rest.toList_ofList, ← hstate]
    · exact ⟨false, by rw [hstate, outcome_haul_of_ended (rest_past _ _ _) hother]⟩

/-- The list and one token behind it show whether calls fail. -/
theorem unfailing_of_take {items : List (Option (Shared Token))}
    (h : (source.take (source.rest.toList.length + 1) session).outcome = .ok items) :
    source.Unfailing session := by
  rw [take_eq_haul] at h
  refine unfailing_iff.mpr fun limit ↦ ?_
  cases houtcome : (haul (source.rest.toList.length + 1) source session).outcome with
  | error e =>
    rw [houtcome] at h
    cases h
  | ok ended => exact exists_outcome_haul (Nat.lt_succ_self _) houtcome limit

/-! ## What comes to an end, and after how many calls -/

/-- Passes and recordings end with the token at `index` of the list or, if that is the size of the
list, with the one behind it. -/
structure EndsAt (source : Source) (session : Session) (index : Nat) : Prop where
  cursor_le : source.cursor ≤ index
  le_size : index ≤ source.size
  /-- From the cursor on, no other token up to that place is of end type. -/
  isEof_iff : ∀ i token, source.cursor ≤ i → i ≤ index → source.tokens[i]? = some token →
    (token.value.isEof = true ↔ i = index)
  length_pulls_drain : (source.pulls session .drain).length = index - source.cursor + 1
  length_pulls_record : ∀ name,
    (source.pulls session (.record name)).length = index - source.cursor + 1
  /-- A pass goes round once more than it calls for tokens, to see that it has ended. -/
  collectWithin_iff : ∀ limit, (⟨source, false⟩ : Pass).collectWithin limit session ≠ none ↔
    index - source.cursor + 1 < limit
  pullWithin_iff : ∀ limit, pullWithin limit source session ≠ none ↔ index - source.cursor < limit
  drain_eq : ∃ step list, source.drain session = some step ∧ step.outcome = .ok list ∧
    list.length = index - source.cursor + 1
  record_eq : ∀ name, ∃ step made, source.record name session = some step ∧
    step.outcome = .ok made ∧ made.size = index - source.cursor

theorem distance_le (source : Source) : source.distance ≤ source.rest.toList.length :=
  List.findIdx_le_length

theorem isEof_iff_of_le_distance {i : Nat} {token : Shared Token} (hle : i ≤ source.distance)
    (htoken : source.rest.toList[i]? = some token) :
    token.value.isEof = true ↔ i = source.distance := by
  obtain ⟨hlt, rfl⟩ := List.getElem?_eq_some_iff.mp htoken
  rcases Nat.lt_or_eq_of_le hle with hbefore | rfl
  · have hother := List.not_of_lt_findIdx hbefore
    simp only [hother, Bool.false_eq_true, false_iff]
    exact Nat.ne_of_lt hbefore
  · simp only [iff_true]
    exact List.findIdx_getElem (p := fun token : Shared Token ↦ token.value.isEof)

section Unfailing

variable (hgood : source.Unfailing session)
include hgood

theorem Unfailing.pullWithin_iff (limit : Nat) :
    pullWithin limit source session ≠ none ↔ source.Halts ∧ source.distance < limit := by
  obtain ⟨ended, hended⟩ := unfailing_iff.mp hgood limit
  rw [pullWithin_eq_haul, ne_eq, Haul.finish_eq_none_iff, hended, ← outcome_haul_iff hended,
    Except.ok.injEq, Bool.not_eq_false]

theorem Unfailing.collectWithin_iff (limit : Nat) :
    (⟨source, false⟩ : Pass).collectWithin limit session ≠ none ↔
      source.Halts ∧ source.distance + 1 < limit := by
  obtain ⟨ended, hended⟩ := unfailing_iff.mp hgood limit
  have hiff := outcome_haul_iff hended
  rw [collectWithin_eq_haul, hended]
  cases ended with
  | false =>
    simp only [Bool.false_eq_true, false_iff, not_and] at hiff
    simp only [ne_eq, not_true_eq_false, false_iff, not_and]
    intro hhalts hlt
    exact hiff hhalts (Nat.lt_of_succ_lt hlt)
  | true =>
    rw [(length_pulls_haul hended).2]
    simp only [true_iff] at hiff
    simp [hiff.1]

/-- **Sources that halt.** Passes and recordings end, after as many calls as it takes to get to the
first token of end type. -/
theorem Halts.endsAt (h : source.Halts) :
    source.EndsAt session (source.cursor + source.distance) := by
  have hdistance := source.distance_le
  have hpulls : ∀ limit, source.rest.toList.length < limit →
      (haul limit source session).outcome = .ok true := by
    intro limit hlimit
    obtain ⟨ended, hended⟩ := unfailing_iff.mp hgood limit
    rw [(outcome_haul_iff hended).mpr ⟨h, Nat.lt_of_le_of_lt hdistance hlimit⟩] at hended
    exact hended
  refine ⟨Nat.le_add_right _ _, Nat.add_le_add_left hdistance _, ?_, ?_, ?_, ?_, ?_, ?_, ?_⟩
  · intro i token hcursor hle htoken
    obtain ⟨i, rfl⟩ := Nat.exists_eq_add_of_le hcursor
    rw [Nat.add_left_cancel_iff]
    refine isEof_iff_of_le_distance (Nat.le_of_add_le_add_left hle) ?_
    rwa [toList_rest_eq_drop, List.getElem?_drop]
  · rw [Nat.add_sub_cancel_left]
    exact (length_pulls_haul (hpulls _ (by omega))).1
  · intro name
    rw [Nat.add_sub_cancel_left]
    exact (length_pulls_haul (hpulls _ (Nat.lt_succ_self _))).1
  · intro limit
    rw [hgood.collectWithin_iff, and_iff_right h, Nat.add_sub_cancel_left]
  · intro limit
    rw [hgood.pullWithin_iff, and_iff_right h, Nat.add_sub_cancel_left]
  · have hended := hpulls (source.rest.toList.length + 2) (by omega)
    rw [drain_eq_haul, Haul.finish, hended, Nat.add_sub_cancel_left]
    exact ⟨_, _, rfl, rfl, (length_pulls_haul hended).2⟩
  · intro name
    have hended := hpulls (source.rest.toList.length + 1) (Nat.lt_succ_self _)
    rw [record_eq_haul]
    dsimp only
    rw [hended, Nat.add_sub_cancel_left]
    refine ⟨_, _, rfl, rfl, ?_⟩
    rw [← length_tokens, tokens_ofTokens, List.length_dropLast, (length_pulls_haul hended).2,
      Nat.add_sub_cancel]

end Unfailing

/-! ## What never comes to an end -/

/-- The source hands out `eof` for ever, and no pass and no recording of it ends. -/
structure Endless (source : Source) (eof : Shared Token) : Prop where
  isEof_eq_false : eof.value.isEof = false
  eof?_eq : source.eof? = some eof
  next_eq : ∀ session, source.next session = ⟨.ok eof, source, session⟩
  collectWithin_eq : ∀ limit session,
    (⟨source, false⟩ : Pass).collectWithin limit session = none
  pullWithin_eq : ∀ limit session, pullWithin limit source session = none

theorem endless_of_eof? {eof : Shared Token} (hsome : source.eof? = some eof)
    (htype : eof.value.isEof = false) : source.Endless eof := by
  have hrest : source.rest = .ended eof := eof?_eq_some_iff.mp hsome
  refine ⟨htype, hsome, next_of_eof? hsome, fun limit session ↦ ?_, fun limit session ↦ ?_⟩
  · rw [collectWithin_eq_haul, outcome_haul_of_ended hrest htype]
  · rw [pullWithin_eq_haul, Haul.finish_eq_none_iff, outcome_haul_of_ended hrest htype]

theorem tokens_haul_of_ended {eof : Shared Token} (hrest : source.rest = .ended eof)
    (htype : eof.value.isEof = false) (limit : Nat) (session : Session) :
    (haul limit source session).tokens = List.replicate limit eof := by
  induction limit with
  | zero => rfl
  | succ limit ih =>
    have hnext := next_of_ended hrest session
    have hgiven : (source.next session).outcome = .ok eof := by rw [hnext]
    rw [haul_succ hgiven htype, Haul.tokens_cons hgiven, hnext, ih, List.replicate_succ]

/-- **Sources that do not halt.** Calls in a row hand out the list, and then one token for ever that
is not of end type. -/
theorem exists_tokens_haul_of_not_halts (h : ¬source.Halts) (hgood : source.Unfailing session) :
    ∃ eof : Shared Token, eof.value.isEof = false ∧ ∀ count,
      (haul count source session).tokens =
        (source.rest.toList ++ List.replicate count eof).take count := by
  induction hlist : source.rest.toList generalizing source session with
  | nil =>
    obtain ⟨eof, hnext, -⟩ := hgood.exists_next
    rw [halts_iff_of_next_behind hlist hnext, Bool.not_eq_true] at h
    refine ⟨eof, h, fun count ↦ ?_⟩
    rw [List.nil_append, List.take_replicate, Nat.min_self]
    obtain ⟨later, hrest, -⟩ | ⟨-, hended⟩ := rest_of_outcome_eq_ok hnext
    · rw [hrest] at hlist
      cases hlist
    · cases count with
      | zero => rfl
      | succ count =>
        rw [haul_succ hnext h, Haul.tokens_cons hnext, tokens_haul_of_ended hended h,
          List.replicate_succ]
  | cons token list ih =>
    obtain ⟨given, hnext, hbehind⟩ := hgood.exists_next
    rw [halts_iff_of_next hnext, not_or, Bool.not_eq_true] at h
    obtain ⟨later, hrest, hthere⟩ | ⟨hnil, -⟩ := rest_of_outcome_eq_ok hnext
    · rw [hrest, Rest.toList_tokens, List.cons.injEq] at hlist
      obtain ⟨rfl, rfl⟩ := hlist
      obtain ⟨eof, htype, htokens⟩ := ih h.2 (hbehind h.1) (by rw [hthere, Rest.toList_ofList])
      refine ⟨eof, htype, fun count ↦ ?_⟩
      cases count with
      | zero => rfl
      | succ count =>
        have hmore : (later ++ List.replicate (count + 1) eof).take count =
            (later ++ List.replicate count eof).take count := by
          rw [List.replicate_succ', ← List.append_assoc, List.take_append_of_le_length]
          rw [List.length_append, List.length_replicate]
          exact Nat.le_add_left _ _
        rw [haul_succ hnext h.1, Haul.tokens_cons hnext, htokens, List.cons_append,
          List.take_succ_cons, hmore]
    · rw [hnil] at hlist
      cases hlist

theorem exists_take_of_not_halts (h : ¬source.Halts) (hgood : source.Unfailing session) :
    ∃ eof : Shared Token, eof.value.isEof = false ∧ ∀ count,
      (source.take count session).outcome =
        .ok (((source.rest.toList ++ List.replicate count eof).take count).map some) := by
  obtain ⟨eof, htype, htokens⟩ := exists_tokens_haul_of_not_halts h hgood
  refine ⟨eof, htype, fun count ↦ ?_⟩
  obtain ⟨ended, hended⟩ := unfailing_iff.mp hgood count
  have hlength : (haul count source session).tokens.length = count := by
    rw [htokens, List.length_take, List.length_append, List.length_replicate]
    exact Nat.min_eq_left (Nat.le_add_left _ _)
  rw [take_eq_haul, hended, hlength, Nat.sub_self, List.replicate_zero, List.append_nil, htokens]
  rfl

theorem not_halts_next (h : ¬source.Halts) (session : Session) :
    ¬(source.next session).state.Halts := by
  cases hnext : (source.next session).outcome with
  | error e => rwa [state_next_of_error hnext]
  | ok token =>
    rw [halts_iff_of_next hnext, not_or] at h
    exact h.2

end Source

/-! ## Histories without an end -/

namespace History

variable {source : Source} {later : History} {turns : List Turn}

theorem eof?_of_mem_pulls (hrun : (ofSource source).run? turns = some later) :
    ∀ pull ∈ later.pulls, pull.source.cursor = pull.source.size → ∀ token,
      pull.token? = some token → later.source.eof? = some token := by
  refine History.induction
    (P := fun later ↦ ∀ pull ∈ later.pulls, pull.source.cursor = pull.source.size → ∀ token,
      pull.token? = some token → later.source.eof? = some token) hrun ?_ ?_ ?_
  · intro history factory _ h
    exact h
  · intro history session h pull hmem hcursor token htoken
    rcases List.mem_append.mp hmem with hmem | hmem
    · have hsome := h pull hmem hcursor token htoken
      rw [History.pull, Source.next_of_eof? hsome, hsome]
    · obtain rfl := List.mem_singleton.mp hmem
      rcases Source.rest_of_outcome_eq_ok (Pull.token?_eq_some_iff.mp htoken) with
        ⟨later, hrest, -⟩ | ⟨-, hended⟩
      · exact absurd hcursor (Source.cursor_ne_size_of_tokens hrest)
      · exact Source.eof?_eq_some_iff.mpr hended
  · intro pull hmem
    exact absurd hmem List.not_mem_nil

/-- With its factory left in place, a source that does not halt never will. -/
theorem not_halts_of_run? (h : ¬source.Halts) (hsame : Turn.factories turns = [])
    (hrun : (ofSource source).run? turns = some later) : ¬later.source.Halts := by
  refine History.induction (P := fun later ↦ ¬later.source.Halts) hrun ?_ ?_ h
  · intro history factory hmem _
    rw [hsame] at hmem
    exact absurd hmem List.not_mem_nil
  · intro history session h
    exact Source.not_halts_next h session

/-- **No way to an end.** Once a token that is not of end type stands behind the list, every call
gives that token, and no pass and no recording ends, whichever factories are installed. -/
theorem endless_of_run? {eof : Shared Token} (hsome : source.eof? = some eof)
    (htype : eof.value.isEof = false) (hrun : (ofSource source).run? turns = some later) :
    later.source.Endless eof ∧ ∀ pull ∈ later.pulls, pull.token? = some eof := by
  obtain ⟨hlater, hpulls⟩ := forall_pulls (P := fun source ↦ source.eof? = some eof) hrun
    (fun _ _ _ h ↦ h)
    (fun source session h ↦ by rw [Source.next_of_eof? h, h]) hsome
    (fun pull hmem ↦ absurd hmem List.not_mem_nil)
  refine ⟨Source.endless_of_eof? hlater htype, fun pull hmem ↦ ?_⟩
  rw [Pull.token?, Pull.step, Source.next_of_eof? (hpulls pull hmem)]
  rfl

/-- What comes of passes and recordings that are begun here, in a source over `tokens`, if no call
fails in them. -/
structure EndsOrNever (tokens : List (Shared Token)) (now : Session) (history : History) :
    Prop where
  /-- The source halts at a token of end type, on the list or behind it. The one behind the list may
  yet have to be made. -/
  halts_iff : history.source.Halts ↔
    (∃ token ∈ tokens.drop history.source.cursor, token.value.isEof = true) ∨
    (∃ eof, history.source.eof? = some eof ∧ eof.value.isEof = true) ∨
    (history.source.eof? = none ∧
      ∃ request creation, history.source.runOut.eofRequest = .ok request ∧
        history.source.factory.value.create request = .ok creation ∧
        creation.product.token.isEof = true)
  recording_iff :
    (∃ limit, Source.pullWithin limit history.source now ≠ none) ↔ history.source.Halts
  pass_iff :
    (∃ limit, (⟨history.source, false⟩ : Pass).collectWithin limit now ≠ none) ↔
      history.source.Halts
  endsAt : history.source.Halts → ∃ index, history.source.EndsAt now index
  /-- A pass that does not end hands out the rest of the list and then one token for ever. -/
  endless : ¬history.source.Halts →
    ∃ eof : Shared Token, eof.value.isEof = false ∧
      ∀ count, (history.source.take count now).outcome =
        .ok (((tokens.drop history.source.cursor ++ List.replicate count eof).take count).map some)
  /-- The first call behind the list settles it, for all operations and all factories to come. -/
  settled : ¬history.source.Halts → ∀ more later, Turn.factories more = [] →
    (ofSource history.source).run? more = some later →
    ∀ pull ∈ later.pulls, pull.source.cursor = tokens.length →
    ∀ eof, pull.token? = some eof →
      eof.value.isEof = false ∧ later.source.eof? = some eof ∧
      ∀ further last, (ofSource later.source).run? further = some last →
        last.source.Endless eof ∧ ∀ other ∈ last.pulls, other.token? = some eof

/-- **Ending or never ending.** In every state that can be reached, passes and recordings in which
no call fails end if and only if the source halts, and then with the first token of end type from
the cursor on, or with the first call behind the list. If the source does not halt, a pass hands out
the rest of the list and one token of another type for ever. Calls that are made one way or another
before the factory is changed give no other token behind the list than the one that is there from
then on, and after that no operation and no factory brings the source to an end. -/
theorem halts_or_endless (tokens : List (Shared Token)) (name : String) (factory : Shared Factory)
    (session now : Session) {turns : List Turn} {history : History}
    (hrun : (ofSource (Source.withFactory tokens name factory session).1).run? turns = some history)
    (hgood : history.source.Unfailing now) : history.EndsOrNever tokens now := by
  have htokens : history.source.tokens = tokens := tokens_eq_of_run? hrun
  have hlist : history.source.rest.toList = tokens.drop history.source.cursor := by
    rw [Source.toList_rest_eq_drop, htokens]
  refine ⟨?_, ?_, ?_, fun hhalts ↦ ⟨_, hhalts.endsAt hgood⟩, fun hnever ↦ ?_, fun hnever ↦ ?_⟩
  · rw [Source.halts_iff, hlist]
  · simp only [hgood.pullWithin_iff]
    exact ⟨fun ⟨_, hhalts, _⟩ ↦ hhalts, fun hhalts ↦ ⟨_, hhalts, Nat.lt_succ_self _⟩⟩
  · simp only [hgood.collectWithin_iff]
    exact ⟨fun ⟨_, hhalts, _⟩ ↦ hhalts, fun hhalts ↦ ⟨_, hhalts, Nat.lt_succ_self _⟩⟩
  · rw [← hlist]
    exact Source.exists_take_of_not_halts hnever hgood
  · intro more later hsame hmore pull hmem hcursor eof htoken
    have hsize : pull.source.size = tokens.length := by
      rw [← htokens, ← Source.length_tokens]
      exact congrArg List.length ((forall_pulls
        (P := fun source ↦ source.tokens = history.source.tokens) hmore (fun _ _ _ h ↦ h)
        (fun source session h ↦ by rw [Source.tokens_next, h]) rfl
        (fun _ hmem ↦ absurd hmem List.not_mem_nil)).2 pull hmem)
    have hsome := eof?_of_mem_pulls hmore pull hmem (hcursor.trans hsize.symm) eof htoken
    have hstill : ¬later.source.Halts := not_halts_of_run? hnever hsame hmore
    rw [Source.halts_iff_of_ended (Source.eof?_eq_some_iff.mp hsome), Bool.not_eq_true] at hstill
    exact ⟨hstill, hsome, fun further last hlast ↦ endless_of_run? hsome hstill hlast⟩

/-- A source by a factory that puts a token of another type behind the list, ahead of its one token.
Once that token was handed out, a common factory comes too late. -/
theorem halts_or_endless_late :
    let now : Session := { nextSerial := 10 }
    let stray : Shared Token := ⟨5, { type := ⟨7⟩ }⟩
    ∃ history later last,
      (ofSource (Source.withFactory [⟨1, { type := ⟨1⟩ }⟩] "unit" ⟨0, .common false⟩ {}).1).run?
        [⟨now, .setFactory ⟨3, .fixed stray⟩⟩] = some history ∧
      (ofSource history.source).run? [⟨now, .next⟩, ⟨now, .next⟩] = some later ∧
      (ofSource later.source).run? [⟨now, .setFactory ⟨6, .common false⟩⟩, ⟨now, .next⟩] =
        some last ∧
      ¬history.source.Halts ∧ last.source.Endless stray := by
  intro now stray
  let more : List Turn := [⟨now, .next⟩, ⟨now, .next⟩]
  let further : List Turn := [⟨now, .setFactory ⟨6, .common false⟩⟩, ⟨now, .next⟩]
  obtain ⟨history, later, last, items, hrun, hmore, hfurther, htake, hdrain, hbehind⟩ :
      ∃ history later last items,
        (ofSource (Source.withFactory [⟨1, { type := ⟨1⟩ }⟩] "unit" ⟨0, .common false⟩ {}).1).run?
          [⟨now, .setFactory ⟨3, .fixed stray⟩⟩] = some history ∧
        (ofSource history.source).run? more = some later ∧
        (ofSource later.source).run? further = some last ∧
        (history.source.take (history.source.rest.toList.length + 1) now).outcome = .ok items ∧
        history.source.drain now = none ∧
        ∃ pull ∈ later.pulls, pull.source.cursor = 1 ∧ pull.token? = some stray :=
    ⟨_, _, _, _, rfl, rfl, rfl, rfl, rfl, _, List.mem_cons_of_mem _ List.mem_cons_self, rfl, rfl⟩
  have hends := halts_or_endless [⟨1, { type := ⟨1⟩ }⟩] "unit"
    ⟨0, .common false⟩ {} now hrun (Source.unfailing_of_take htake)
  have hstuck : ¬history.source.Halts := by
    intro hhalts
    obtain ⟨index, hindex⟩ := hends.endsAt hhalts
    obtain ⟨step, list, hstep, -, -⟩ := hindex.drain_eq
    rw [hdrain] at hstep
    cases hstep
  obtain ⟨pull, hmem, hcursor, htoken⟩ := hbehind
  obtain ⟨-, -, hlater⟩ := hends.settled hstuck more later rfl hmore pull hmem hcursor stray htoken
  exact ⟨history, later, last, hrun, hmore, hfurther, hstuck, (hlater further last hfurther).1⟩

end History

end TokenReplay
