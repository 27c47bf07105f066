import TokenReplay.Proofs.Twin

/-!
# Recordings replay what they recorded

A recording is a source of its own, with another cursor, another factory and another identity, and
yet nobody who calls it for tokens could tell it from the source it was made of: call by call it
hands out the same tokens, at the same places. `Source.IsCopy` is what this comes to, and
`isCopy_of_record` that a recording is a copy.

A new recording and the source that it was made of are twins, as the source was before. What has to
be known beside that is that the calls succeed, and when. A recording that was made without logging
has never looked at the texts of its tokens, so a copy may fail where texts are looked at. What was
handed out once can be handed out again as long as logging is on only if it was on before
(`CanRepeat`).
-/

namespace TokenReplay.Source

variable {source : Source} {session : Session}

/-! ## Copies -/

theorem getElem?_tokens_cursor_add (source : Source) (i : Nat) :
    source.tokens[source.cursor + i]? = source.rest.toList[i]? := by
  rw [toList_rest_eq_drop, List.getElem?_drop]

/-- `copy` hands out what `source` has still to hand out, one token for each call, and then a token
that looks like `eof`. It can be relied on for that as long as logging is on only if `logging` is
set; where a call fails, the same call would have failed before. -/
structure IsCopy (source copy : Source) (eof : Shared Token) (logging : Bool) : Prop where
  cursor_eq : copy.cursor = 0
  eof?_eq : copy.eof? = none
  size_eq : copy.size = source.size - source.cursor
  /-- After the same number of calls, the two are at the same place. -/
  place_eq : ∀ there here, SameLogging there here →
    (source.after there).line = (copy.after here).line ∧
      (source.after there).column = (copy.after here).column ∧
      (source.after there).stream? = (copy.after here).stream?
  /-- The next call does the same to the two. -/
  sameOutcome : ∀ there here a b, SameLogging there here → a.logging = b.logging →
    SameOutcome copy.id.key ((source.after there).next a).outcome
      ((copy.after here).next b).outcome
  listed : ∀ here now token, (∀ other ∈ now :: here, other.logging = true → logging = true) →
    source.tokens[source.cursor + here.length]? = some token →
    ((copy.after here).next now).outcome = .ok token
  /-- The token behind the list is one of its own, if sessions do not give out serials twice. -/
  behind : ∀ here now, (∀ other ∈ now :: here, other.logging = true → logging = true) →
    source.size ≤ source.cursor + here.length →
    ∃ made, ((copy.after here).next now).outcome = .ok made ∧
      made.value = eof.value.withSource copy.id.key ∧
      ((∀ other ∈ now :: here, eof.serial < other.nextSerial) → made.serial ≠ eof.serial)

/-- The rest of the source can be handed out once more: its tokens can be shown, if `logging` is
set, and behind them the source has `request` to send. -/
structure CanRepeat (source : Source) (logging : Bool) (request : CreateRequest) : Prop where
  common : ∃ copyText, source.factory.value = .common copyText
  eof?_eq : source.eof? = none
  isEof_eq_false : ∀ token ∈ source.rest.toList, token.value.isEof = false
  readable : logging = true → ∀ token ∈ source.rest.toList, ¬token.value.Unreadable
  eofRequest_eq : (source.past source.rest.toList .spent).eofRequest = .ok request

variable {logging : Bool} {request : CreateRequest}

/-- **A haul that came to its end** handed out the whole rest and made an end of stream token. -/
theorem haul_eq_of_outcome {limit : Nat}
    (hcommon : ∃ copyText, source.factory.value = .common copyText)
    (hnone : source.eof? = none) (hplain : ∀ token ∈ source.rest.toList, token.value.isEof = false)
    (hok : (haul limit source session).outcome = .ok true) :
    ∃ request eof, source.CanRepeat session.logging request ∧
      eof.value = request.tokenWith request.text ∧
      eof.serial < (haul limit source session).session.nextSerial ∧
      (haul limit source session).tokens = source.rest.toList ++ [eof] ∧
      (haul limit source session).state = source.past source.rest.toList (.ended eof) := by
  have hnever : (haul limit source session).outcome ≠ .ok false := by simp [hok]
  obtain ⟨front, rest, now, h⟩ := exists_lastCall hnever
  obtain ⟨last, hnext, hend, htokens⟩ := h.exists_last_of_ok hok
  obtain ⟨hlist, heof, -, hreadable, -, hstate, hsession, -⟩ := h
  rcases state_next_of_ok hnext with ⟨later, hrest, -⟩ | ⟨hnil, -⟩
  -- Within the list there is no token of end type to stop at.
  · rw [rest_past] at hrest
    have hmem : last ∈ source.rest.toList := by
      rw [hlist, hrest]
      exact List.mem_append_right _ List.mem_cons_self
    rw [hplain last hmem] at hend
    cases hend
  · rw [rest_past] at hnil
    rw [hnil, List.append_nil] at hlist
    subst hlist
    obtain rfl : rest = .spent := by
      rw [← Rest.ofList_toList (heof.symm.trans hnone), hnil]
      rfl
    obtain ⟨copyText, hcommon'⟩ := hcommon
    cases hrequest : (source.past source.rest.toList .spent).eofRequest with
    | error e =>
      rw [next_of_unplaced rfl hrequest] at hnext
      cases hnext
    | ok request =>
      obtain ⟨after, hserial, hmade⟩ :=
        next_of_spent_of_common (rest_past _ _ _) hcommon' hrequest now
      rw [hmade] at hnext hstate hsession
      cases hnext
      rw [past_past, List.append_nil] at hstate
      refine ⟨request, _, ⟨⟨copyText, hcommon'⟩, hnone, hplain, hreadable, hrequest⟩, rfl, ?_,
        htokens, hstate⟩
      rw [hsession, hserial]
      exact Nat.lt_succ_self _

theorem CanRepeat.outcome_haul (h : source.CanRepeat logging request)
    (hlogging : session.logging = true → logging = true) :
    (haul (source.rest.toList.length + 1) source session).outcome = .ok true := by
  obtain ⟨⟨copyText, hcommon⟩, hnone, hplain, hreadable, hrequest⟩ := h
  have hended : source.WellEnded := by
    refine wellEnded_of_eof?_eq_none ?_ hnone
    rw [hcommon]
    exact Factory.makesEof_common copyText
  have hnever : (haul (source.rest.toList.length + 1) source session).outcome ≠ .ok false :=
    hended.outcome_haul_ne_false (Nat.lt_succ_self _)
  obtain ⟨front, rest, now, h⟩ := exists_lastCall hnever
  obtain ⟨hlist, heof, -, -, hnow, -, -, hlast⟩ := h
  rcases hlast with ⟨e, hnext, -, -⟩ | ⟨last, -, -, hok, -⟩
  · cases rest with
    | tokens token later =>
      have hshown : now.logging = true → ¬token.value.Unreadable := by
        intro hnowlogging
        rw [hnow] at hnowlogging
        refine hreadable (hlogging hnowlogging) token ?_
        rw [hlist]
        exact List.mem_append_right _ List.mem_cons_self
      rw [(next_of_readable rfl hshown).1] at hnext
      cases hnext
    | spent =>
      rw [Rest.toList_spent, List.append_nil] at hlist
      subst hlist
      obtain ⟨after, -, hmade⟩ := next_of_spent_of_common (rest_past _ _ _) hcommon hrequest now
      rw [hmade] at hnext
      cases hnext
    | ended eof =>
      rw [hnone] at heof
      cases heof
  · exact hok

/-! ## Recordings are copies -/

/-- A source that was just made from the rest of another one. -/
structure IsFresh (source copy : Source) : Prop where
  common : copy.factory.value = .common false
  passed_eq : copy.passed = []
  rest_eq : copy.rest = .ofList source.rest.toList

namespace IsFresh

variable {copy : Source}

theorem isTwin (h : source.IsFresh copy) (hrepeat : source.CanRepeat logging request)
    (hcursor : source.cursor < source.size) : source.Twin copy := by
  have hback : Rest.ofList source.rest.toList = source.rest := Rest.ofList_toList hrepeat.eof?_eq
  refine ⟨hrepeat.common, ⟨false, h.common⟩, ?_, ?_⟩
  · rw [h.rest_eq, ← hback, Rest.toList_ofList]
    exact .ofList _ _
  · intro hnil
    rw [cursor, size, hnil, List.length_nil, Nat.add_zero] at hcursor
    exact absurd hcursor (Nat.lt_irrefl _)

/-- Behind the list too, as the last token of the list is the last of both. -/
theorem isTwin_past (h : source.IsFresh copy) (hrepeat : source.CanRepeat logging request)
    (hcursor : source.cursor < source.size) :
    (source.past source.rest.toList .spent).Twin (copy.past source.rest.toList .spent) := by
  refine ⟨hrepeat.common, ⟨false, h.common⟩, .spent, fun _ ↦ ?_⟩
  have hne : source.rest.toList.reverse ≠ [] := by
    intro hnil
    rw [cursor, size, List.reverse_eq_nil_iff.mp hnil] at hcursor
    exact absurd hcursor (Nat.lt_irrefl _)
  rw [past, past, h.passed_eq, List.append_nil, List.head?_append, List.head?_eq_some_head hne,
    Option.some_or]

theorem eof?_eq (h : source.IsFresh copy) : copy.eof? = none := by
  rw [eof?, h.rest_eq, Rest.eof?_ofList]

theorem toList_rest (h : source.IsFresh copy) : copy.rest.toList = source.rest.toList := by
  rw [h.rest_eq, Rest.toList_ofList]

theorem eofRequest_eq (h : source.IsFresh copy) (hrepeat : source.CanRepeat logging request)
    (hcursor : source.cursor < source.size) :
    (copy.past source.rest.toList .spent).eofRequest = .ok (request.withSource copy.id.key) := by
  rw [(h.isTwin_past hrepeat hcursor).eofRequest_eq (rest_past _ _ _), hrepeat.eofRequest_eq]
  rfl

theorem canRepeat (h : source.IsFresh copy) (hrepeat : source.CanRepeat logging request)
    (hcursor : source.cursor < source.size) :
    copy.CanRepeat logging (request.withSource copy.id.key) := by
  refine ⟨⟨false, h.common⟩, h.eof?_eq, ?_, ?_, ?_⟩
  · rw [h.toList_rest]
    exact hrepeat.isEof_eq_false
  · rw [h.toList_rest]
    exact hrepeat.readable
  · rw [h.toList_rest]
    exact h.eofRequest_eq hrepeat hcursor

theorem after_eq (h : source.IsFresh copy) (hrepeat : source.CanRepeat logging request)
    {front later : List (Shared Token)} (hlist : source.rest.toList = front ++ later)
    {here : List Session} (hlength : here.length = front.length)
    (hquiet : ∀ other ∈ here, other.logging = true → logging = true) :
    copy.after here = copy.past front (.ofList later) := by
  refine after_of_readable h.eof?_eq (h.toList_rest.trans hlist) hlength ?_
  intro other hmem hlogging token hfront
  refine hrepeat.readable (hquiet other hmem hlogging) token ?_
  rw [hlist]
  exact List.mem_append_left _ hfront

theorem listed (h : source.IsFresh copy) (hrepeat : source.CanRepeat logging request)
    {here : List Session} {now : Session} {token : Shared Token}
    (hquiet : ∀ other ∈ now :: here, other.logging = true → logging = true)
    (htoken : source.tokens[source.cursor + here.length]? = some token) :
    ((copy.after here).next now).outcome = .ok token := by
  obtain ⟨hnow, hhere⟩ := List.forall_mem_cons.mp hquiet
  rw [getElem?_tokens_cursor_add] at htoken
  obtain ⟨hlt, hget⟩ := List.getElem?_eq_some_iff.mp htoken
  have hlist : source.rest.toList = source.rest.toList.take here.length ++
      token :: source.rest.toList.drop (here.length + 1) := by
    rw [← hget, ← List.drop_eq_getElem_cons, List.take_append_drop]
  have hlength : here.length = (source.rest.toList.take here.length).length := by
    rw [List.length_take, Nat.min_eq_left (Nat.le_of_lt hlt)]
  rw [h.after_eq hrepeat hlist hlength hhere]
  refine (next_of_readable (rest_past _ _ _) fun hlogging ↦ ?_).1
  refine hrepeat.readable (hnow hlogging) token ?_
  rw [hlist]
  exact List.mem_append_right _ List.mem_cons_self

theorem behind (h : source.IsFresh copy) (hrepeat : source.CanRepeat logging request)
    (hcursor : source.cursor < source.size) {eof : Shared Token}
    (heof : eof.value = request.tokenWith request.text) {here : List Session} {now : Session}
    (hquiet : ∀ other ∈ now :: here, other.logging = true → logging = true)
    (hbehind : source.size ≤ source.cursor + here.length) :
    ∃ made, ((copy.after here).next now).outcome = .ok made ∧
      made.value = eof.value.withSource copy.id.key ∧
      ((∀ other ∈ now :: here, eof.serial < other.nextSerial) → made.serial ≠ eof.serial) := by
  obtain ⟨-, hhere⟩ := List.forall_mem_cons.mp hquiet
  -- The first call behind the list has the token made, in whichever session it takes place.
  have hmake := next_of_spent_of_common (rest_past _ _ _) h.common
    (h.eofRequest_eq hrepeat hcursor)
  have hle : source.rest.toList.length ≤ here.length := Nat.le_of_add_le_add_left hbehind
  have hfront : (here.take source.rest.toList.length).length = source.rest.toList.length := by
    rw [List.length_take, Nat.min_eq_left hle]
  have hlisted := h.after_eq hrepeat (List.append_nil _).symm hfront
    fun other hmem ↦ hhere other (List.mem_of_mem_take hmem)
  have hsplit := List.take_append_drop source.rest.toList.length here
  cases hmore : here.drop source.rest.toList.length with
  | nil =>
    rw [hmore, List.append_nil] at hsplit
    rw [hsplit] at hlisted
    obtain ⟨after, -, hnext⟩ := hmake now
    rw [hlisted, Rest.ofList, hnext]
    refine ⟨_, rfl, ?_, fun hlater ↦ ?_⟩
    · rw [heof]
      rfl
    · exact Nat.ne_of_gt (hlater now List.mem_cons_self)
  | cons first more =>
    rw [hmore] at hsplit
    obtain ⟨after, -, hnext⟩ := hmake first
    rw [← hsplit, after_append, hlisted, Rest.ofList, after_cons, hnext,
      after_of_ended (rest_past _ _ _), next_of_ended (rest_past _ _ _)]
    refine ⟨_, rfl, ?_, fun hlater ↦ ?_⟩
    · rw [heof]
      rfl
    · refine Nat.ne_of_gt (hlater first (List.mem_cons_of_mem _ ?_))
      exact List.mem_append_right _ List.mem_cons_self

/-- **Copies.** A source made from what can be repeated is a copy. -/
theorem isCopy (h : source.IsFresh copy) (hrepeat : source.CanRepeat logging request)
    (hcursor : source.cursor < source.size) {eof : Shared Token}
    (heof : eof.value = request.tokenWith request.text) : source.IsCopy copy eof logging := by
  have htwin := h.isTwin hrepeat hcursor
  refine ⟨?_, h.eof?_eq, ?_, ?_, ?_, ?_, ?_⟩
  · rw [cursor, h.passed_eq, List.length_nil]
  · rw [size, h.passed_eq, h.toList_rest, List.length_nil, Nat.zero_add, size, cursor,
      Nat.add_sub_cancel_left]
  · intro there here hsame
    exact (htwin.after hsame).place_eq
  · intro there here a b hsame hlogging
    have hnext := ((htwin.after hsame).next hlogging).1
    rwa [id_after] at hnext
  · intro here now token hquiet htoken
    exact h.listed hrepeat hquiet htoken
  · intro here now hquiet hbehind
    exact h.behind hrepeat hcursor heof hquiet hbehind

end IsFresh

theorem isFresh_ofTokens (source : Source) (name : String) (session : Session) :
    source.IsFresh (ofTokens source.rest.toList name session).1 := ⟨rfl, rfl, rfl⟩

theorem nextSerial_ofTokens (tokens : List (Shared Token)) (name : String) (session : Session) :
    (ofTokens tokens name session).2.nextSerial = session.nextSerial + 2 := rfl

theorem CanRepeat.record (h : source.CanRepeat logging request) (name : String)
    (hlogging : session.logging = true → logging = true) :
    ∃ step copy, source.record name session = some step ∧ step.outcome = .ok copy := by
  rw [record_eq_haul]
  dsimp only
  rw [h.outcome_haul hlogging]
  exact ⟨_, _, rfl, rfl⟩

/-- **What a recording comes to.** It is fresh, what was recorded can be repeated, and the source is
left behind its list. -/
theorem isFresh_of_record {name : String} {step : Step Source Source} {copy : Source}
    (hcommon : ∃ copyText, source.factory.value = .common copyText) (hnone : source.eof? = none)
    (hplain : ∀ token ∈ source.rest.toList, token.value.isEof = false)
    (hrecord : source.record name session = some step) (hok : step.outcome = .ok copy) :
    ∃ request eof, source.CanRepeat session.logging request ∧
      eof.value = request.tokenWith request.text ∧ eof.serial < step.session.nextSerial ∧
      step.state = source.past source.rest.toList (.ended eof) ∧
      copy.id.name = name ∧ source.IsFresh copy := by
  rw [record_eq_haul] at hrecord
  dsimp only at hrecord
  split at hrecord
  · cases hrecord
    cases hok
  · cases hrecord
  case h_3 houtcome =>
    cases hrecord
    cases hok
    obtain ⟨request, eof, hrepeat, heof, hserial, htokens, hstate⟩ :=
      haul_eq_of_outcome hcommon hnone hplain houtcome
    rw [htokens, List.dropLast_concat]
    refine ⟨request, eof, hrepeat, heof, ?_, hstate, rfl, source.isFresh_ofTokens _ _⟩
    dsimp only
    rw [nextSerial_ofTokens, Session.nextSerial_emit]
    exact Nat.lt_add_right 2 hserial

/-- **Recordings are copies.** If a source over a list without tokens of end type is recorded from
the middle of its list, then the recording hands out just what the source would have handed out. The
source is left behind its list, with an end of stream token of its own that was made before any of
the recording. Recordings of the recording are copies as well, and they can be made as long as
logging is on only if it was on the first time. -/
theorem isCopy_of_record {copyText : Bool} {name : String} {step : Step Source Source}
    {copy : Source} (hcommon : source.factory.value = .common copyText)
    (hplain : ∀ token ∈ source.tokens, token.value.isEof = false)
    (hcursor : source.cursor < source.size) (hrecord : source.record name session = some step)
    (hok : step.outcome = .ok copy) :
    ∃ eof, (step.state.isExhausted = true ∧ step.state.eof? = some eof ∧
        step.state.tokens = source.tokens ∧ step.state.id = source.id ∧
        eof.serial < step.session.nextSerial) ∧
      copy.id.name = name ∧ source.IsCopy copy eof session.logging ∧
      ∀ (other : String) (later : Session),
        ((later.logging = true → session.logging = true) →
          ∃ again copy', copy.record other later = some again ∧ again.outcome = .ok copy') ∧
        ∀ again copy', copy.record other later = some again → again.outcome = .ok copy' →
          copy'.id.name = other ∧ source.IsCopy copy' eof session.logging := by
  have hnone : source.eof? = none := by
    cases hsome : source.eof? with
    | none => rfl
    | some eof =>
      have hexhausted := source.isExhausted_iff.mp (source.isExhausted_of_eof? hsome)
      exact absurd hexhausted (Nat.ne_of_lt hcursor)
  have hrest : ∀ token ∈ source.rest.toList, token.value.isEof = false :=
    fun token hmem ↦ hplain token (List.mem_append_right _ hmem)
  obtain ⟨request, eof, hrepeat, heof, hserial, hstate, hname, hfresh⟩ :=
    isFresh_of_record ⟨copyText, hcommon⟩ hnone hrest hrecord hok
  have hagain := hfresh.canRepeat hrepeat hcursor
  rw [hstate]
  refine ⟨eof, ⟨rfl, rfl, ?_, rfl, hserial⟩, hname, hfresh.isCopy hrepeat hcursor heof,
    fun other later ↦ ⟨hagain.record other, ?_⟩⟩
  · exact tokens_past _ _ _ (List.append_nil _).symm
  · intro again copy' hrecord' hok'
    obtain ⟨-, -, -, -, -, -, hname', hfresh'⟩ :=
      isFresh_of_record hagain.common hagain.eof?_eq hagain.isEof_eq_false hrecord' hok'
    have hfrom : source.IsFresh copy' :=
      ⟨hfresh'.common, hfresh'.passed_eq, by rw [hfresh'.rest_eq, hfresh.toList_rest]⟩
    exact ⟨hname', hfrom.isCopy hrepeat hcursor heof⟩

/-- A source in the middle of a list, the last token of which goes on past a line feed and is given
the text of another part of the stream. -/
def middleSource : Source where
  id := ⟨⟨0⟩, "unit"⟩
  passed := [⟨3, { type := ⟨1⟩ }⟩]
  rest := .tokens ⟨4, { type := ⟨2⟩, ownText := some "b" }⟩
    [⟨5, { type := ⟨3⟩, ownText := some "c\nd", span := .inclusive 2 4, position := ⟨some 2, 4⟩,
           origin := { stream := some ⟨6, ⟨"in", "a\nb"⟩⟩ } }⟩]
  factory := ⟨1, .common true⟩

/-- The fourth call of the recording gives the same end of stream token as the third one. -/
theorem isCopy_of_record_middle :
    let now : Session := { nextSerial := 10 }
    let later : Session := { nextSerial := 20 }
    ∃ step copy made, middleSource.record "copy" now = some step ∧ step.outcome = .ok copy ∧
      ((copy.after [later, later, later]).next later).outcome = .ok made ∧
      made.value.position = ⟨some 3, 7⟩ ∧ made.value.origin.source = some copy.id.key ∧
      copy.id.name = "copy" ∧ copy.size = 2 := by
  intro now later
  obtain ⟨step, copy, found, hrecord, hok, hfound, hposition⟩ : ∃ step copy found,
      middleSource.record "copy" now = some step ∧ step.outcome = .ok copy ∧
      step.state.eof? = some found ∧ found.value.position = ⟨some 3, 7⟩ :=
    ⟨_, _, _, rfl, rfl, rfl, rfl⟩
  have hplain : ∀ token ∈ middleSource.tokens, token.value.isEof = false := by decide
  have hcursor : middleSource.cursor < middleSource.size := by decide
  obtain ⟨eof, ⟨-, heof, -⟩, hname, hcopy, -⟩ :=
    isCopy_of_record rfl hplain hcursor hrecord hok
  have hquiet : ∀ other ∈ [later, later, later, later],
      other.logging = true → now.logging = true := by decide
  obtain ⟨made, hmade, hvalue, -⟩ :=
    hcopy.behind [later, later, later] later hquiet (by decide)
  obtain rfl : found = eof := by rwa [hfound, Option.some.injEq] at heof
  refine ⟨step, copy, made, hrecord, hok, hmade, ?_, ?_, hname, hcopy.size_eq⟩
  · rw [hvalue]
    exact hposition
  · rw [hvalue]
    rfl

end TokenReplay.Source
