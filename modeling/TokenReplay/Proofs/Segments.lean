import TokenReplay.Proofs.Stretch
import TokenReplay.Proofs.History

/-!
# Segments of a list

Tokens of end type may stand anywhere in a list, and each of them ends a pass or a recording. So
passes and recordings take a list apart: the first goes up to the first such token, the next one
goes on behind it, and the last one goes up to the end of stream token. `segments` are the parts and
`marks` the tokens between them. Together they are the list, and no part contains a mark.

## Sweeps

A pass that is collected and a recording have the same effect on the source; they differ in what
becomes of the tokens. `Source.Sweep` is that effect: up to the next mark, or behind the list, or,
with an end of stream token in place, none at all. `Source.Gives` says that both make this sweep,
and what they make of it, and `gives_or_fails` that there is no other way, short of a failure.

`Source.Swept` puts sweeps together. Where a number of them leads to follows from the list alone
(`Swept.state_eq`), and so does what the next one hands out (`Swept.sweep_eq`).
-/

namespace TokenReplay

/-! ## Marks and segments -/

/-- The tokens of end type. -/
def marks (list : List (Shared Token)) : List (Shared Token) := list.filter (·.value.isEof)

/-- What stands between the tokens of end type. -/
def segments (list : List (Shared Token)) : List (List (Shared Token)) :=
  list.splitOnP (·.value.isEof)

/-- A list has no mark, or it has a first one. -/
theorem segment_induction {P : List (Shared Token) → Prop}
    (hplain : ∀ list, (∀ token ∈ list, token.value.isEof = false) → P list)
    (hmark : ∀ front mark later, (∀ token ∈ front, token.value.isEof = false) →
      mark.value.isEof = true → P later → P (front ++ mark :: later))
    (list : List (Shared Token)) : P list := by
  have key : ∀ front, (∀ token ∈ front, token.value.isEof = false) → P (front ++ list) := by
    induction list with
    | nil =>
      intro front hfront
      rw [List.append_nil]
      exact hplain front hfront
    | cons token list ih =>
      intro front hfront
      by_cases htoken : token.value.isEof = true
      · refine hmark front token list hfront htoken (ih [] ?_)
        simp
      · have hlonger := ih (front ++ [token]) ?_
        · rwa [List.append_assoc] at hlonger
        · rw [List.forall_mem_append, List.forall_mem_singleton]
          exact ⟨hfront, Bool.eq_false_iff.mpr htoken⟩
  exact key [] (by simp)

section

variable {front later : List (Shared Token)} {mark : Shared Token}

theorem marks_of_plain (h : ∀ token ∈ front, token.value.isEof = false) : marks front = [] := by
  refine List.filter_eq_nil_iff.mpr fun token hmem htoken ↦ ?_
  rw [h token hmem] at htoken
  cases htoken

theorem segments_of_plain (h : ∀ token ∈ front, token.value.isEof = false) :
    segments front = [front] := List.splitOnP_eq_singleton h

theorem marks_append_cons (h : ∀ token ∈ front, token.value.isEof = false)
    (hmark : mark.value.isEof = true) : marks (front ++ mark :: later) = mark :: marks later := by
  have hfront := marks_of_plain h
  rw [marks] at hfront
  simp [marks, hfront, hmark]

theorem segments_append_cons (h : ∀ token ∈ front, token.value.isEof = false)
    (hmark : mark.value.isEof = true) :
    segments (front ++ mark :: later) = front :: segments later :=
  List.splitOnP_append_cons_of_forall_mem h mark hmark later

end

theorem length_segments (list : List (Shared Token)) :
    (segments list).length = (marks list).length + 1 := by
  induction list using segment_induction with
  | hplain list h => rw [segments_of_plain h, marks_of_plain h]; rfl
  | hmark front mark later h hmark ih =>
    rw [segments_append_cons h hmark, marks_append_cons h hmark, List.length_cons, ih,
      List.length_cons]

theorem isEof_eq_false_of_mem_segments (list : List (Shared Token)) :
    ∀ segment ∈ segments list, ∀ token ∈ segment, token.value.isEof = false := by
  induction list using segment_induction with
  | hplain list h =>
    rw [segments_of_plain h]
    exact List.forall_mem_singleton.mpr h
  | hmark front mark later h hmark ih =>
    rw [segments_append_cons h hmark]
    exact List.forall_mem_cons.mpr ⟨h, ih⟩

/-- **Nothing is lost and nothing comes twice.** -/
theorem flatten_segments (list : List (Shared Token)) :
    (List.zipWith (· ++ ·) (segments list) ((marks list).map ([·]) ++ [[]])).flatten = list :=
  List.splitOnP_spec list

namespace Source

variable {source : Source} {session : Session}

/-! ## Sweeps -/

/-- The operations that lead up to the next token of end type. -/
inductive Op.IsSweep : Op → Prop
  | drain : IsSweep .drain
  | record (name : String) : IsSweep (.record name)

/-- Handing out `kept` and then `last`, which is of end type, leads to the third argument. -/
inductive Sweep (source : Source) : List (Shared Token) → Shared Token → Source → Prop
  /-- Up to the next mark of the list. -/
  | listed {front later : List (Shared Token)} {mark : Shared Token}
      (hnone : source.eof? = none) (hlist : source.rest.toList = front ++ mark :: later)
      (hfront : ∀ token ∈ front, token.value.isEof = false) (hmark : mark.value.isEof = true) :
      Sweep source front mark (source.past (front ++ [mark]) (.ofList later))
  /-- Up to the end of stream token, which was not there before. -/
  | built {eof : Shared Token} (hnone : source.eof? = none)
      (hlist : ∀ token ∈ source.rest.toList, token.value.isEof = false)
      (heof : eof.value.isEof = true) :
      Sweep source source.rest.toList eof (source.past source.rest.toList (.ended eof))
  /-- The end of stream token once more. -/
  | again {eof : Shared Token} (hrest : source.rest = .ended eof) (heof : eof.value.isEof = true) :
      Sweep source [] eof source

/-- So many sweeps lead from one source to the other. -/
inductive Swept : Source → Nat → Source → Prop
  | zero (source : Source) : Swept source 0 source
  | succ {source middle last : Source} {kept : List (Shared Token)} {mark : Shared Token}
      {count : Nat} (h : source.Sweep kept mark middle) (hmore : Swept middle count last) :
      Swept source (count + 1) last

theorem Sweep.isEof_last {kept : List (Shared Token)} {last : Shared Token} {state : Source}
    (h : source.Sweep kept last state) : last.value.isEof = true := by
  cases h with
  | listed hnone hlist hfront hmark => exact hmark
  | built hnone hlist heof => exact heof
  | again hrest heof => exact heof

theorem Sweep.eq_of_ended {kept : List (Shared Token)} {last eof : Shared Token} {state : Source}
    (h : source.Sweep kept last state) (hrest : source.rest = .ended eof) : state = source := by
  have hsome : source.eof? = some eof := eof?_eq_some_iff.mpr hrest
  cases h with
  | listed hnone hlist hfront hmark =>
    rw [hnone] at hsome
    cases hsome
  | built hnone hlist heof =>
    rw [hnone] at hsome
    cases hsome
  | again hrest' heof => rfl

theorem Swept.eq_of_ended {count : Nat} {last : Source} (h : Swept source count last)
    {eof : Shared Token} (hrest : source.rest = .ended eof) : last = source := by
  induction h with
  | zero source => rfl
  | succ h hmore ih =>
    have hmiddle := h.eq_of_ended hrest
    rw [← hmiddle] at hrest
    rw [ih hrest, hmiddle]

/-- **Where sweeps lead.** As long as there are marks, the source is just past the last mark that
was handed out. One more sweep has the end of stream token made, and there it stays. -/
theorem Swept.state_eq {count : Nat} {last : Source} (h : Swept source count last)
    (hnone : source.eof? = none) :
    (count ≤ (marks source.rest.toList).length ∧
      ∃ front later, source.rest.toList = front ++ later ∧
        marks front = (marks source.rest.toList).take count ∧
        front.getLast? = (marks front).getLast? ∧ last = source.past front (.ofList later)) ∨
    ((marks source.rest.toList).length < count ∧
      ∃ eof, eof.value.isEof = true ∧ last = source.past source.rest.toList (.ended eof)) := by
  induction h with
  | zero source =>
    refine .inl ⟨Nat.zero_le _, [], source.rest.toList, rfl, rfl, rfl, ?_⟩
    rw [past_nil_of_eof?_eq_none hnone]
  | @succ source middle last front mark count h hmore ih =>
    cases h with
    | @listed _ later _ hnone' hlist hfront hmark =>
      have hmarks : marks (front ++ mark :: later) = mark :: marks later :=
        marks_append_cons hfront hmark
      have hback : (source.past (front ++ [mark]) (.ofList later)).rest.toList = later :=
        Rest.toList_ofList later
      have ih := ih (Rest.eof?_ofList later)
      rw [hback] at ih
      rw [hlist, hmarks, List.length_cons]
      rcases ih with ⟨hle, more, rest, hmore', htake, hlast, rfl⟩ | ⟨hlt, eof, heof, rfl⟩
      · refine .inl ⟨Nat.succ_le_succ hle, front ++ mark :: more, rest, ?_, ?_, ?_, ?_⟩
        · rw [hmore', List.append_assoc, List.cons_append]
        · rw [marks_append_cons hfront hmark, htake, List.take_succ_cons]
        · rw [marks_append_cons hfront hmark, List.getLast?_append, List.getLast?_cons, hlast,
            List.getLast?_cons, Option.some_or]
        · rw [past_past, List.append_assoc, List.singleton_append]
      · refine .inr ⟨Nat.succ_lt_succ hlt, eof, heof, ?_⟩
        rw [past_past, List.append_assoc, List.singleton_append]
    | built hnone' hlist heof =>
      obtain rfl := hmore.eq_of_ended (rest_past _ _ _)
      refine .inr ⟨?_, _, heof, rfl⟩
      rw [marks_of_plain hlist]
      exact Nat.succ_pos _
    | again hrest heof =>
      rw [eof?_eq_some_iff.mpr hrest] at hnone
      cases hnone

/-- **What the next sweep hands out.** It is the segment whose turn it is, and the mark behind it,
or the end of stream token if there are no marks left. Then there are no segments left either, but
for the last one. -/
theorem Swept.sweep_eq {count : Nat} {state after : Source} {kept : List (Shared Token)}
    {last : Shared Token} (h : Swept source count state) (hsweep : state.Sweep kept last after) :
    kept = (segments source.rest.toList).getD count [] ∧
      ((marks source.rest.toList)[count]? = some last ∨
        (marks source.rest.toList).length ≤ count ∧ after.eof? = some last) := by
  induction h with
  | zero source =>
    cases hsweep with
    | listed hnone hlist hfront hmark =>
      rw [hlist, segments_append_cons hfront hmark, marks_append_cons hfront hmark]
      exact ⟨rfl, .inl rfl⟩
    | built hnone hlist heof =>
      rw [segments_of_plain hlist, marks_of_plain hlist]
      exact ⟨rfl, .inr ⟨Nat.le_refl _, rfl⟩⟩
    | again hrest heof =>
      rw [hrest]
      exact ⟨rfl, .inr ⟨Nat.le_refl _, eof?_eq_some_iff.mpr hrest⟩⟩
  | @succ source middle state front mark count hfirst hmore ih =>
    -- With the end of stream token in place there is nothing to keep.
    have hended : ∀ eof, middle.rest = .ended eof →
        (∀ token ∈ source.rest.toList, token.value.isEof = false) →
        kept = (segments source.rest.toList).getD (count + 1) [] ∧
          ((marks source.rest.toList)[count + 1]? = some last ∨
            (marks source.rest.toList).length ≤ count + 1 ∧ after.eof? = some last) := by
      intro eof hrest hplain
      obtain ⟨hkept, hlast⟩ := ih hsweep
      rw [hrest] at hkept hlast
      rw [segments_of_plain hplain, marks_of_plain hplain]
      refine ⟨?_, .inr ⟨Nat.zero_le _, ?_⟩⟩
      · rw [hkept]
        cases count <;> rfl
      · rcases hlast with hlast | ⟨-, hlast⟩
        · cases hlast
        · exact hlast
    cases hfirst with
    | @listed _ later _ hnone hlist hfront hmark =>
      have hback : (source.past (front ++ [mark]) (.ofList later)).rest.toList = later :=
        Rest.toList_ofList later
      obtain ⟨hkept, hlast⟩ := ih hsweep
      rw [hback] at hkept hlast
      rw [hlist, segments_append_cons hfront hmark, marks_append_cons hfront hmark]
      refine ⟨by rw [hkept, List.getD_cons_succ], ?_⟩
      rw [List.getElem?_cons_succ, List.length_cons]
      exact hlast.imp_right fun ⟨hle, heof⟩ ↦ ⟨Nat.succ_le_succ hle, heof⟩
    | built hnone hlist heof => exact hended _ (rest_past _ _ _) hlist
    | again hrest heof =>
      refine hended _ hrest ?_
      rw [hrest]
      simp

/-! ## Passes and recordings are sweeps -/

/-- A recording keeps `kept`, and a pass gives `kept` and `last` and then nothing for ever. Both
leave the source as `state`. -/
structure Gives (source : Source) (session : Session) (kept : List (Shared Token))
    (last : Shared Token) (state : Source) : Prop where
  record_eq : ∀ name, ∃ step made, source.record name session = some step ∧
    step.outcome = .ok made ∧ step.state = state ∧ made.tokens = kept ∧ made.cursor = 0 ∧
    made.id.name = name
  pass_eq : ∃ later, source.drain session = some ⟨.ok (kept ++ [last]), state, later⟩ ∧
    ∀ extra, source.take (kept.length + 1 + extra) session =
      ⟨.ok ((kept ++ [last]).map some ++ List.replicate extra none), state, later⟩

/-- Neither a recording nor a pass gets to its end. -/
structure Fails (source : Source) (session : Session) : Prop where
  record_eq : ∀ name, ∃ step, source.record name session = some step ∧
    step.outcome = .error .addition
  drain_eq : ∃ step, source.drain session = some step ∧ step.outcome = .error .addition

theorem sweep_of_haul {limit : Nat}
    (hok : (haul limit source session).outcome = .ok true) :
    ∃ kept last, (haul limit source session).tokens = kept ++ [last] ∧
      source.Sweep kept last (haul limit source session).state := by
  have hnever : (haul limit source session).outcome ≠ .ok false := by simp [hok]
  obtain ⟨front, rest, now, h⟩ := exists_lastCall hnever
  obtain ⟨last, hnext, hend, htokens⟩ := h.exists_last_of_ok hok
  obtain ⟨hlist, heof, hfront, -, -, hstate, -, -⟩ := h
  refine ⟨front, last, htokens, ?_⟩
  rcases state_next_of_ok hnext with ⟨later, hrest, hthere, -, -⟩ | ⟨hnil, hthere⟩
  · rw [rest_past] at hrest
    subst hrest
    rw [hstate, hthere, past_past]
    exact .listed heof hlist hfront hend
  · rw [rest_past] at hnil
    rw [hnil, List.append_nil] at hlist
    subst hlist
    rw [hstate, hthere, past_past, List.append_nil]
    cases hnone : source.eof? with
    | none => exact .built hnone hfront hend
    | some eof =>
      -- The end of stream token was there before, and it is the one that was handed out.
      have hrest : source.rest = .ended eof := eof?_eq_some_iff.mp hnone
      have hsame : rest = .ended eof := by
        rw [hnone] at heof
        exact Rest.eof?_eq_some_iff.mp heof.symm
      rw [next_of_ended hsame] at hnext
      cases hnext
      have hback := source.past_nil
      rw [hrest] at hback ⊢
      rw [Rest.toList_ended, hback]
      exact .again hrest hend

theorem exists_failed_of_haul {limit : Nat} {e : Overflow}
    (h : (haul limit source session).outcome = .error e) :
    ∃ pull ∈ (haul limit source session).pulls, pull.token? = none := by
  fun_induction haul limit source session with
  | case1 source session => cases h
  | case2 limit source session e' hnext =>
    refine ⟨_, List.mem_singleton_self _, ?_⟩
    rw [Pull.token?, Pull.step, hnext]
    rfl
  | case3 limit source session token hnext heof => cases h
  | case4 limit source session token hnext heof ih =>
    obtain ⟨pull, hmem, hfailed⟩ := ih h
    exact ⟨pull, List.mem_cons_of_mem _ hmem, hfailed⟩

theorem haul_length_add {limit : Nat} (extra : Nat)
    (h : (haul limit source session).outcome = .ok true) :
    haul ((haul limit source session).tokens.length + extra) source session =
      haul limit source session := by
  fun_induction haul limit source session with
  | case1 source session => cases h
  | case2 limit source session e hnext => cases h
  | case3 limit source session token hnext heof =>
    rw [Haul.tokens_single hnext, List.length_singleton, Nat.add_comm,
      haul_succ_of_isEof hnext heof]
  | case4 limit source session token hnext heof ih =>
    rw [Haul.tokens_cons hnext, List.length_cons, Nat.succ_add,
      haul_succ hnext (Bool.eq_false_iff.mpr heof), ih h]

/-- **One sweep or a failure.** If end of stream tokens are of end type, recordings and passes come
to an end, and both to the same one. -/
theorem WellEnded.gives_or_fails (h : source.WellEnded) (session : Session) :
    source.Fails session ∨
      ∃ kept last state, source.Sweep kept last state ∧ source.Gives session kept last state := by
  have hnever : (haul (source.rest.toList.length + 1) source session).outcome ≠ .ok false :=
    h.outcome_haul_ne_false (Nat.lt_succ_self _)
  have hmore := haul_add 1 hnever
  cases houtcome : (haul (source.rest.toList.length + 1) source session).outcome with
  | error e =>
    cases e
    refine .inl ⟨fun name ↦ ?_, ?_⟩
    · rw [record_eq_haul]
      dsimp only
      rw [houtcome]
      exact ⟨_, rfl, rfl⟩
    · rw [drain_eq_haul, hmore, Haul.finish, houtcome]
      exact ⟨_, rfl, rfl⟩
  | ok ended =>
    obtain rfl : ended = true := by
      cases ended with
      | false => exact absurd houtcome hnever
      | true => rfl
    obtain ⟨kept, last, htokens, hsweep⟩ := sweep_of_haul houtcome
    refine .inr ⟨kept, last, _, hsweep, fun name ↦ ?_, ?_⟩
    · rw [record_eq_haul]
      dsimp only
      rw [houtcome, htokens, List.dropLast_concat]
      exact ⟨_, _, rfl, rfl, rfl, tokens_ofTokens _ _ _, rfl, rfl⟩
    · refine ⟨(haul (source.rest.toList.length + 1) source session).session, ?_, fun extra ↦ ?_⟩
      · rw [drain_eq_haul, hmore, Haul.finish, houtcome, htokens]
      · have hlength := haul_length_add extra houtcome
        rw [htokens, List.length_append, List.length_singleton] at hlength
        rw [take_eq_haul, hlength, houtcome, htokens, List.length_append, List.length_singleton,
          Nat.add_sub_cancel_left]
        rfl

theorem WellEnded.sweep_of_pulls (h : source.WellEnded) {limit : Nat}
    (hlimit : source.rest.toList.length < limit)
    (hgood : ∀ pull ∈ (haul limit source session).pulls, pull.token? ≠ none) :
    ∃ kept last, source.Sweep kept last (haul limit source session).state := by
  have hok : (haul limit source session).outcome = .ok true := by
    rcases houtcome : (haul limit source session).outcome with e | _ | _
    · obtain ⟨pull, hmem, hfailed⟩ := exists_failed_of_haul houtcome
      exact absurd hfailed (hgood pull hmem)
    · exact absurd houtcome (h.outcome_haul_ne_false hlimit)
    · rfl
  obtain ⟨kept, last, -, hsweep⟩ := sweep_of_haul hok
  exact ⟨kept, last, hsweep⟩

/-- **One operation.** A pass or a recording comes to an end, and it makes a sweep if no call
fails. -/
theorem WellEnded.perform_isSweep (h : source.WellEnded) {op : Op} (hop : op.IsSweep)
    (session : Session) :
    ∃ step, source.perform session op = some step ∧ step.state.WellEnded ∧
      ((∀ pull ∈ source.pulls session op, pull.token? ≠ none) →
        ∃ kept last, source.Sweep kept last step.state) := by
  obtain ⟨step, hstep⟩ := h.exists_perform session op
  refine ⟨step, hstep, h.perform hstep fun factory hset ↦ ?_, fun hgood ↦ ?_⟩
  · rw [hset] at hop
    cases hop
  · cases hop with
    | drain =>
      obtain ⟨drained, hdrained, rfl⟩ := Option.map_eq_some_iff.mp hstep
      rw [drain_eq_haul] at hdrained
      rw [Step.state_map, (Haul.state_of_finish_eq_some hdrained).1]
      exact h.sweep_of_pulls (by omega) hgood
    | record name =>
      obtain ⟨recorded, hrecorded, rfl⟩ := Option.map_eq_some_iff.mp hstep
      rw [Step.state_map, (state_of_record_eq_some hrecorded).1]
      exact h.sweep_of_pulls (Nat.lt_succ_self _) hgood

end Source

namespace History

/-- **Operations in a row** come to an end, and they make as many sweeps if no call fails. -/
theorem exists_run?_of_isSweep {history : History} {turns : List Turn}
    (h : history.source.WellEnded) (hsweeps : ∀ turn ∈ turns, turn.op.IsSweep) :
    ∃ later, history.run? turns = some later ∧ later.source.WellEnded ∧
      history.pulls <+: later.pulls ∧
      ((∀ pull ∈ later.pulls, pull.token? ≠ none) →
        history.source.Swept turns.length later.source) := by
  induction turns generalizing history with
  | nil => exact ⟨history, rfl, h, List.prefix_refl _, fun _ ↦ .zero _⟩
  | cons turn turns ih =>
    obtain ⟨hop, hrest⟩ := List.forall_mem_cons.mp hsweeps
    obtain ⟨step, hstep, hstill, hfirst⟩ := h.perform_isSweep hop turn.session
    let middle : History :=
      { source := step.state
        pulls := history.pulls ++ history.source.pulls turn.session turn.op
        calls := history.calls ++ step.session.callsSince turn.session }
    have hturn : history.turn? turn = some middle := by rw [turn?, hstep, Option.map_some]
    have hmiddle : middle.source.WellEnded := hstill
    obtain ⟨later, hrun, hlater, hpulls, hmore⟩ := ih hmiddle hrest
    refine ⟨later, ?_, hlater, (List.prefix_append _ _).trans hpulls, fun hgood ↦ ?_⟩
    · rw [run?, List.foldlM_cons, hturn]
      exact hrun
    · obtain ⟨kept, last, hsweep⟩ := hfirst fun pull hmem ↦
        hgood pull (hpulls.subset (List.mem_append_right _ hmem))
      exact .succ hsweep (hmore hgood)

/-- Where `count` sweeps in a row have led the source, and what the next one will give. -/
structure SweptTo (source : Source) (count : Nat) (swept : Source) : Prop where
  /-- The source is just past as many marks, or behind the list if there are not as many. -/
  state_eq :
    (count ≤ (marks source.rest.toList).length ∧
      ∃ front later, source.rest.toList = front ++ later ∧
        marks front = (marks source.rest.toList).take count ∧
        front.getLast? = (marks front).getLast? ∧ swept = source.past front (.ofList later)) ∨
    ((marks source.rest.toList).length < count ∧
      ∃ eof, eof.value.isEof = true ∧ swept = source.past source.rest.toList (.ended eof))
  /-- Unless a call fails, the next sweep gives the next segment and ends with the next mark. Once
  there are no more of them it gives nothing and changes nothing. -/
  next : ∀ session, swept.Fails session ∨
    ∃ last state, swept.Gives session ((segments source.rest.toList).getD count []) last state ∧
      last.value.isEof = true ∧
      ((marks source.rest.toList)[count]? = some last ∨
        (marks source.rest.toList).length ≤ count ∧ state.eof? = some last) ∧
      ((marks source.rest.toList).length < count → state = swept)

/-- What is left of the list of the source is segments and marks in turn, and that is how the turns
take it apart. -/
structure TakenApart (source : Source) (turns : List Turn) : Prop where
  length_segments : (segments source.rest.toList).length = (marks source.rest.toList).length + 1
  flatten_segments : (List.zipWith (· ++ ·) (segments source.rest.toList)
    ((marks source.rest.toList).map ([·]) ++ [[]])).flatten = source.rest.toList
  isEof_eq_false : ∀ segment ∈ segments source.rest.toList, ∀ token ∈ segment,
    token.value.isEof = false
  sweptTo : ∃ history, (ofSource source).run? turns = some history ∧
    ((∀ pull ∈ history.pulls, pull.token? ≠ none) →
      SweptTo source turns.length history.source)

/-- **Segments.** A source without an end of stream token, whose factory makes such tokens of end
type, is taken apart along the marks of its list by passes and recordings, in any order. Each of
them comes to an end. If none fails, so many of them take the source just past as many marks, and
the next one gives the segment whose turn it is; behind the last segment come empty ones. -/
theorem segments_of_sweeps (source : Source) (hnone : source.eof? = none)
    (hmakes : source.factory.value.MakesEof) {turns : List Turn}
    (hsweeps : ∀ turn ∈ turns, turn.op.IsSweep) : TakenApart source turns := by
  refine ⟨length_segments _, flatten_segments _, isEof_eq_false_of_mem_segments _, ?_⟩
  have hstart : (ofSource source).source.WellEnded :=
    Source.wellEnded_of_eof?_eq_none hmakes hnone
  obtain ⟨history, hrun, hlater, -, hswept⟩ := exists_run?_of_isSweep hstart hsweeps
  refine ⟨history, hrun, fun hgood ↦ ⟨(hswept hgood).state_eq hnone, fun session ↦ ?_⟩⟩
  rcases hlater.gives_or_fails session with hfails | ⟨kept, last, state, hsweep, hgives⟩
  · exact .inl hfails
  · obtain ⟨hkept, hlast⟩ := (hswept hgood).sweep_eq hsweep
    rw [hkept] at hgives
    refine .inr ⟨last, state, hgives, hsweep.isEof_last, hlast, fun hlt ↦ ?_⟩
    rcases (hswept hgood).state_eq hnone with ⟨hle, -⟩ | ⟨-, eof, -, hthere⟩
    · exact absurd hlt (Nat.not_lt.mpr hle)
    · have hrest : history.source.rest = .ended eof := by rw [hthere, Source.rest_past]
      exact hsweep.eq_of_ended hrest

/-- A source in a list with two marks, which stand next to each other. -/
def markedSource : Source where
  id := ⟨⟨0⟩, "unit"⟩
  passed := [⟨3, { type := ⟨1⟩ }⟩]
  rest := .tokens ⟨4, { type := ⟨2⟩, ownText := some "a" }⟩
    [⟨5, { type := .eof }⟩, ⟨6, { type := .eof, ownText := some "b" }⟩, ⟨4, { type := ⟨2⟩ }⟩]
  factory := ⟨1, .common true⟩

/-- A recording and a pass, and the source is just past the second mark. -/
theorem segments_of_sweeps_marked :
    let session : Session := { nextSerial := 10 }
    ∃ history last state,
      (ofSource markedSource).run? [⟨session, .record "first"⟩, ⟨session, .drain⟩] = some history ∧
      history.source.cursor = 4 ∧ history.source.eof? = none ∧
      history.source.Gives session [⟨4, { type := ⟨2⟩ }⟩] last state ∧ state.eof? = some last := by
  intro session
  let turns : List Turn := [⟨session, .record "first"⟩, ⟨session, .drain⟩]
  have hsweeps : ∀ turn ∈ turns, turn.op.IsSweep :=
    List.forall_mem_cons.mpr ⟨.record "first", List.forall_mem_singleton.mpr .drain⟩
  obtain ⟨history, hrun, h⟩ :=
    (segments_of_sweeps markedSource rfl (Factory.makesEof_common true) hsweeps).sweptTo
  obtain ⟨found, tokens, hfound, hgood, hcursor, hnone, hdrain⟩ : ∃ found tokens,
      (ofSource markedSource).run? turns = some found ∧
      (∀ pull ∈ found.pulls, pull.token? ≠ none) ∧ found.source.cursor = 4 ∧
      found.source.eof? = none ∧
      (found.source.drain session).map Step.outcome = some (.ok tokens) :=
    ⟨_, _, rfl, by decide, rfl, rfl, rfl⟩
  obtain rfl : history = found := Option.some.inj (hrun.symm.trans hfound)
  rcases (h hgood).next session with ⟨-, step, hstep, herror⟩ | ⟨last, state, hgives, -, hlast, -⟩
  · rw [hstep, Option.map_some, herror] at hdrain
    cases hdrain
  · refine ⟨history, last, state, hrun, hcursor, hnone, hgives, ?_⟩
    rcases hlast with hlast | ⟨-, hlast⟩
    · cases hlast
    · exact hlast

end History

end TokenReplay
