import TokenReplay.Proofs.History

/-!
# Replay

Whatever is done to a source, and in whatever order, the tokens that leave it are those of its list,
one after the other, and then one token for ever. `replay` says so for every history, including
those in which calls fail on the way: a failed call hands out nothing and loses nothing.

## Counting

A source needs no more than a counter. From the number of tokens handed out so far one can tell
where the cursor is, whether the list has run out, and whether the end of stream token is there. The
two ways of looking at the source come apart only behind the list, where the counter goes on and the
cursor does not.

## The invariant

`Source.Follows` compares what was handed out with the two halves of the source. As long as there is
no end of stream token, what was handed out is the first half, token by token. From then on it is
the whole list with that token behind it, at least once. Calls move between the two in one direction
only, and a change of the factory touches neither.
-/

namespace TokenReplay

namespace Source

/-- The source over `tokens` is where it has to be when `handedOut` was handed out. -/
structure Follows (tokens handedOut : List (Shared Token)) (source : Source) : Prop where
  tokens_eq : source.tokens = tokens
  /-- Before there is an end of stream token, nothing but the list was handed out. -/
  inside : source.eof? = none → handedOut = source.passed.reverse
  /-- The end of stream token is there because it was handed out. -/
  behind : ∀ eof, source.eof? = some eof →
    ∃ again, handedOut = tokens ++ List.replicate (again + 1) eof

namespace Follows

variable {tokens handedOut : List (Shared Token)} {source : Source}

theorem of_listed (h : source.Follows tokens handedOut) {token : Shared Token}
    {later : List (Shared Token)} (hrest : source.rest = .tokens token later) :
    Follows tokens (handedOut ++ [token])
      { source with passed := token :: source.passed, rest := .ofList later } := by
  have hnone : source.eof? = none := by
    rw [eof?, hrest]
    rfl
  refine ⟨?_, ?_, ?_⟩
  · rw [← h.tokens_eq, Source.tokens, Source.tokens, hrest, Rest.toList_ofList, List.reverse_cons,
      List.append_assoc, List.singleton_append, Rest.toList_tokens]
  · intro _
    rw [h.inside hnone, List.reverse_cons]
  · intro eof heof
    rw [eof?, Rest.eof?_ofList] at heof
    cases heof

theorem of_again (h : source.Follows tokens handedOut) {eof : Shared Token}
    (hsome : source.eof? = some eof) : source.Follows tokens (handedOut ++ [eof]) := by
  refine ⟨h.tokens_eq, ?_, ?_⟩
  · intro hnone
    rw [hsome] at hnone
    cases hnone
  · intro other hother
    rw [hsome] at hother
    cases hother
    obtain ⟨again, hagain⟩ := h.behind eof hsome
    refine ⟨again + 1, ?_⟩
    rw [hagain, List.append_assoc, List.replicate_succ' (n := again + 1)]

theorem of_built (h : source.Follows tokens handedOut) (hrest : source.rest = .spent)
    (eof : Shared Token) :
    Follows tokens (handedOut ++ [eof]) { source with rest := .ended eof } := by
  have hnone : source.eof? = none := by
    rw [eof?, hrest]
    rfl
  have hlist : source.passed.reverse = tokens := by
    rw [← h.tokens_eq, Source.tokens, hrest, Rest.toList_spent, List.append_nil]
  refine ⟨?_, ?_, ?_⟩
  · rw [← hlist, Source.tokens, Rest.toList_ended, List.append_nil]
  · intro hended
    cases hended
  · intro other hother
    cases hother
    refine ⟨0, ?_⟩
    rw [h.inside hnone, hlist]
    rfl

/-- **One call.** What the call gives goes to the end of what was handed out. -/
theorem advance (h : source.Follows tokens handedOut) {session : Session}
    {step : Step Source (Shared Token)} (hstep : source.Advance session step) :
    step.state.Follows tokens (handedOut ++ step.outcome.toOption.toList) := by
  -- A call that fails gives nothing and leaves the source as it was.
  have failed : ∀ e : Overflow, source.Follows tokens
      (handedOut ++ (Except.error e : Except Overflow (Shared Token)).toOption.toList) := by
    intro e
    rwa [Except.toOption, Option.toList_none, List.append_nil]
  cases hstep with
  | listed hrest hlog => exact h.of_listed hrest
  | unshown hrest hlog => exact failed _
  | again hrest => exact h.of_again (eof?_eq_some_iff.mpr hrest)
  | unplaced hrest hrequest => exact failed _
  | refused hrest hrequest hcreate hcalls => exact failed _
  | built hrest hrequest hcreate heof hcalls => exact h.of_built hrest _

theorem size_eq (h : source.Follows tokens handedOut) : source.size = tokens.length := by
  rw [← h.tokens_eq, length_tokens]

theorem cursor_eq_of_eof?_eq_none (h : source.Follows tokens handedOut)
    (hnone : source.eof? = none) :
    source.cursor = handedOut.length ∧ handedOut.length ≤ tokens.length := by
  have hcursor : source.cursor = handedOut.length := by
    rw [h.inside hnone, List.length_reverse, cursor]
  refine ⟨hcursor, ?_⟩
  rw [← hcursor, ← h.size_eq]
  exact source.cursor_le_size

theorem cursor_eq_of_eof? (h : source.Follows tokens handedOut) {eof : Shared Token}
    (hsome : source.eof? = some eof) :
    source.cursor = tokens.length ∧ tokens.length < handedOut.length := by
  obtain ⟨again, hagain⟩ := h.behind eof hsome
  constructor
  · rw [source.isExhausted_iff.mp (source.isExhausted_of_eof? hsome), h.size_eq]
  · rw [hagain, List.length_append, List.length_replicate]
    omega

end Follows

end Source

namespace History

/-- The history is one of a source by the name of `name` that reads its tokens off the list and then
off an endless row of `eof`, as far as can be seen from outside. -/
structure Replays (tokens : List (Shared Token)) (name : String) (eof : Shared Token)
    (history : History) : Prop where
  handedOut_prefix :
    history.handedOut <+: tokens ++ List.replicate history.handedOut.length eof
  cursor_eq : history.source.cursor = min history.handedOut.length tokens.length
  isExhausted_iff : history.source.isExhausted = true ↔ history.source.cursor = tokens.length
  eof?_eq : history.source.eof? =
    if tokens.length < history.handedOut.length then some eof else none
  tokens_eq : history.source.tokens = tokens
  size_eq : history.source.size = tokens.length
  isEmpty_eq : history.source.isEmpty = tokens.isEmpty
  name_eq : history.source.id.name = name
  /-- What is handed out in a further turn is what the answer to it tells of. -/
  tells : ∀ turn step answer, history.source.perform turn.session turn.op = some step →
    step.outcome = .ok answer → ∃ later given, history.turn? turn = some later ∧
      later.handedOut = history.handedOut ++ given ∧ answer.Tells given

section

variable {tokens : List (Shared Token)} {history later : History} {turns : List Turn}

theorem follows_of_run? (hrun : history.run? turns = some later)
    (h : history.source.Follows tokens history.handedOut) :
    later.source.Follows tokens later.handedOut := by
  refine History.induction (P := fun history ↦ history.source.Follows tokens history.handedOut)
    hrun ?_ ?_ h
  · intro history factory _ h
    exact ⟨h.tokens_eq, h.inside, h.behind⟩
  · intro history session h
    rw [handedOut_pull]
    exact h.advance (history.source.advance_next session)

theorem eof?_eq_of_run? {past other : List Turn} {middle : History} {eof₁ eof₂ : Shared Token}
    (hpre : past <+: other) (hrun : history.run? past = some middle)
    (hother : history.run? other = some later) (h₁ : middle.source.eof? = some eof₁)
    (h₂ : later.source.eof? = some eof₂) : eof₁ = eof₂ := by
  obtain ⟨more, rfl⟩ := hpre
  rw [run?_append, hrun, Option.bind_some] at hother
  rw [eof?_of_run? hother h₁] at h₂
  exact Option.some.inj h₂

theorem eof?_unique {past other : List Turn} {middle : History} {eof₁ eof₂ : Shared Token}
    (hpast : past <+: turns) (hother : other <+: turns) (hrun : history.run? past = some middle)
    (hotherrun : history.run? other = some later) (h₁ : middle.source.eof? = some eof₁)
    (h₂ : later.source.eof? = some eof₂) : eof₁ = eof₂ := by
  rcases List.prefix_or_prefix_of_prefix hpast hother with h | h
  · exact eof?_eq_of_run? h hrun hotherrun h₁ h₂
  · exact (eof?_eq_of_run? h hotherrun hrun h₂ h₁).symm

theorem follows_ofSource (tokens : List (Shared Token)) (name : String) (factory : Shared Factory)
    (session : Session) :
    (Source.withFactory tokens name factory session).1.Follows tokens
      (ofSource (Source.withFactory tokens name factory session).1).handedOut := by
  refine ⟨?_, ?_, ?_⟩
  · exact Source.tokens_withFactory tokens name factory session
  · intro _
    rfl
  · intro eof heof
    rw [Source.withFactory, Source.eof?, Rest.eof?_ofList] at heof
    cases heof

theorem replays_of_follows {name : String} {eof : Shared Token}
    (h : history.source.Follows tokens history.handedOut) (hname : history.source.id.name = name)
    (heof : ∀ other, history.source.eof? = some other → other = eof) :
    history.Replays tokens name eof := by
  have hempty : history.source.isEmpty = tokens.isEmpty := by
    rw [Source.isEmpty, h.size_eq]
    cases tokens <;> rfl
  have hexhausted : history.source.isExhausted = true ↔ history.source.cursor = tokens.length := by
    rw [Source.isExhausted_iff, h.size_eq]
  cases hcached : history.source.eof? with
  | none =>
    obtain ⟨hcursor, hle⟩ := h.cursor_eq_of_eof?_eq_none hcached
    refine ⟨?_, ?_, hexhausted, ?_, h.tokens_eq, h.size_eq, hempty, hname,
      fun _ _ _ ↦ tells_of_turn⟩
    · refine List.IsPrefix.trans ?_ (List.prefix_append _ _)
      rw [h.inside hcached, ← h.tokens_eq]
      exact List.prefix_append _ _
    · rw [hcursor, Nat.min_eq_left hle]
    · rw [hcached, if_neg (Nat.not_lt.mpr hle)]
  | some other =>
    obtain rfl := heof other hcached
    obtain ⟨hcursor, hlt⟩ := h.cursor_eq_of_eof? hcached
    refine ⟨?_, ?_, hexhausted, ?_, h.tokens_eq, h.size_eq, hempty, hname,
      fun _ _ _ ↦ tells_of_turn⟩
    · obtain ⟨again, hagain⟩ := h.behind other hcached
      rw [hagain, List.prefix_append_right_inj, List.prefix_replicate_iff, List.length_append,
        List.length_replicate]
      exact ⟨Nat.le_add_left _ _, rfl⟩
    · rw [hcursor, Nat.min_eq_right (Nat.le_of_lt hlt)]
    · rw [hcached, if_pos hlt]

end

/-- **Replay.** One token `eof` will do for the whole of any series of turns: at each point up to
which they have come to an end, tokens were handed out as from the list and an endless row of `eof`.
-/
theorem replay (tokens : List (Shared Token)) (name : String) (factory : Shared Factory)
    (session : Session) (turns : List Turn) :
    ∃ eof, ∀ past history, past <+: turns →
      (ofSource (Source.withFactory tokens name factory session).1).run? past = some history →
      history.Replays tokens name eof := by
  by_cases hever : ∃ past history eof, past <+: turns ∧
      (ofSource (Source.withFactory tokens name factory session).1).run? past = some history ∧
      history.source.eof? = some eof
  · obtain ⟨past, history, eof, hpast, hrun, heof⟩ := hever
    refine ⟨eof, fun other later hother hlater ↦ ?_⟩
    refine replays_of_follows (follows_of_run? hlater (follows_ofSource _ _ _ _)) ?_ ?_
    · rw [id_of_run? hlater]
      rfl
    · intro found hfound
      exact eof?_unique hother hpast hlater hrun hfound heof
  -- Any token will do if none is ever made.
  · refine ⟨⟨0, { type := .eof }⟩, fun past history hpast hrun ↦ ?_⟩
    refine replays_of_follows (follows_of_run? hrun (follows_ofSource _ _ _ _)) ?_ ?_
    · rw [id_of_run? hrun]
      rfl
    · intro found hfound
      exact absurd ⟨past, history, found, hpast, hrun, hfound⟩ hever

/-- A word twice, a token of end type between, and a token whose text is out of reach. -/
def unevenTokens : List (Shared Token) :=
  let word : Shared Token := ⟨1, { type := ⟨1⟩, ownText := some "a" }⟩
  let astray : Token :=
    { type := ⟨2⟩, span := .inclusive 0 maxSize, origin := { stream := some ⟨2, ⟨"in", "a"⟩⟩ } }
  [word, ⟨3, { type := .eof }⟩, ⟨4, astray⟩, word]

/-- A recording and a call fail while logging is on. -/
def unevenTurns : List Turn :=
  let quiet : Session := { nextSerial := 10 }
  let logging : Session := { logging := true, nextSerial := 10 }
  [⟨quiet, .next⟩, ⟨quiet, .skip⟩, ⟨quiet, .take 3⟩, ⟨logging, .record "copy"⟩, ⟨logging, .next⟩,
    ⟨quiet, .next⟩, ⟨quiet, .record "copy"⟩, ⟨quiet, .setFactory ⟨5, .common true⟩⟩,
    ⟨quiet, .ask .line⟩, ⟨quiet, .drain⟩]

theorem replay_uneven : ∃ eof history,
    (ofSource (Source.withFactory unevenTokens "unit" ⟨0, .common false⟩ {}).1).run? unevenTurns =
      some history ∧
    history.Replays unevenTokens "unit" eof ∧ history.pulls.length = 8 ∧
    history.handedOut = unevenTokens ++ [eof, eof] := by
  obtain ⟨eof, h⟩ := replay unevenTokens "unit" ⟨0, .common false⟩ {} unevenTurns
  obtain ⟨history, hrun, hpulls, hlength⟩ : ∃ history,
      (ofSource (Source.withFactory unevenTokens "unit" ⟨0, .common false⟩ {}).1).run? unevenTurns =
        some history ∧ history.pulls.length = 8 ∧ history.handedOut.length = 6 := ⟨_, rfl, rfl, rfl⟩
  have hreplays := h unevenTurns history (List.prefix_refl _) hrun
  refine ⟨eof, history, hrun, hreplays, hpulls, ?_⟩
  have htake := List.prefix_iff_eq_take.mp hreplays.handedOut_prefix
  rwa [hlength] at htake

end History

end TokenReplay
