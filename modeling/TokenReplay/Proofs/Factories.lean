import TokenReplay.Factory

/-!
# What factories can be relied on for

A factory is a function of requests, and nothing more is asked of it in general. Here are the three
properties that statements about sources ask for, and the factories of this library that have them.

The first is that requests are answered at all. No factory that reads streams can do so for every
request, since reading overflows behind the last offset, so only spans that end before it count
(`Factory.Answers`). That is enough for sources, which never ask for another span. The second is
that the answer is at the place that was asked for, with the origin that was asked for, whatever
else has been changed about it (`Factory.KeepsPlace`). The third is that a token of end type is what
comes back if one was asked for (`Factory.MakesEof`).

A common factory overflows for no other reason than the one above. With `commonCreate_eq_error_iff`
one can tell from the request when it does.
-/

namespace TokenReplay.Factory

/-! ## The common factory -/

theorem exists_tokenWith_of_commonCreate {copyText : Bool} {request : CreateRequest}
    {creation : Creation} (h : commonCreate copyText request = .ok creation) :
    ∃ text, creation.product = .fresh (request.tokenWith text) := by
  rw [commonCreate.eq_def] at h
  split at h
  · cases h
    exact ⟨_, rfl⟩
  · cases h
    exact ⟨_, rfl⟩
  · split at h
    · split at h
      · cases h
      · cases h
        exact ⟨_, rfl⟩
      · cases h
        exact ⟨_, rfl⟩
    · cases h
      exact ⟨_, rfl⟩

/-- **Copying overflows** exactly where the text of the wanted token is out of reach. -/
theorem commonCreate_eq_error_iff {copyText : Bool} {request : CreateRequest} {e : Overflow} :
    commonCreate copyText request = .error e ↔
      copyText = true ∧ (request.tokenWith request.text).Unreadable := by
  rw [Token.Unreadable, CreateRequest.tokenWith]
  cases htext : request.text with
  | some text =>
    rw [commonCreate_of_text copyText htext]
    simp
  | none =>
    cases hstream : request.origin.stream with
    | none =>
      rw [commonCreate_of_no_stream copyText hstream]
      simp
    | some stream =>
      cases copyText with
      | false =>
        rw [commonCreate_false]
        simp
      | true =>
        have hread := @Stream.text_eq_error_iff stream.value request.span e
        rw [commonCreate.eq_def, htext, hstream]
        dsimp only
        rw [if_pos rfl]
        rcases hcase : stream.value.text request.span with e' | e' | text
        all_goals
          rw [hcase] at hread
          simpa using hread

/-- A span that the stream has no text for is no reason not to make the token. -/
theorem commonCreate_of_text_eq_error {request : CreateRequest} {stream : Shared Stream}
    {error : StreamError} (htext : request.text = none)
    (hstream : request.origin.stream = some stream)
    (hread : stream.value.text request.span = .ok (.error error)) :
    commonCreate true request =
      .ok { product := .fresh (request.tokenWith none),
            copyFailure := some ⟨stream.value.name, error⟩ } := by
  rw [commonCreate.eq_def, htext, hstream]
  dsimp only
  rw [if_pos rfl, hread]

/-- **The warning** of a common factory: it copies text, it was given none, and the stream has none
for the span either. -/
theorem copyFailure_of_commonCreate {copyText : Bool} {request : CreateRequest}
    {creation : Creation} (h : commonCreate copyText request = .ok creation)
    {failure : CopyFailure} :
    creation.copyFailure = some failure ↔
      copyText = true ∧ request.text = none ∧ ∃ stream, request.origin.stream = some stream ∧
        stream.value.name = failure.stream ∧
        stream.value.text request.span = .ok (.error failure.error) := by
  rw [commonCreate.eq_def] at h
  cases htext : request.text with
  | some text =>
    rw [htext] at h
    cases h
    simp
  | none =>
    cases hstream : request.origin.stream with
    | none =>
      rw [htext, hstream] at h
      cases h
      simp
    | some stream =>
      rw [htext, hstream] at h
      dsimp only at h
      split at h
      case isFalse hcopy =>
        cases h
        simp [hcopy]
      case isTrue hcopy =>
        split at h
        · cases h
        case h_2 hread =>
          cases h
          simp [hread]
        case h_3 error hread =>
          cases h
          obtain ⟨name, found⟩ := failure
          simp [hread, hcopy]

/-! ## Answers -/

/-- The factory answers every request for a span that ends before the last offset, if it ends. -/
def Answers (factory : Factory) : Prop :=
  ∀ request : CreateRequest, (∀ stop, request.span.stop? = some stop → stop < maxSize) →
    ∃ creation, factory.create request = .ok creation

theorem exists_commonCreate_eq_ok (copyText : Bool) {request : CreateRequest}
    (h : ∀ stop, request.span.stop? = some stop → stop < maxSize) :
    ∃ creation, commonCreate copyText request = .ok creation := by
  cases hcreate : commonCreate copyText request with
  | ok creation => exact ⟨creation, rfl⟩
  | error e =>
    obtain ⟨-, -, -, stop, hstop, hle⟩ := commonCreate_eq_error_iff.mp hcreate
    have hlt := h stop hstop
    omega

theorem answers_common (copyText : Bool) : (common copyText).Answers :=
  fun _ h ↦ exists_commonCreate_eq_ok copyText h

theorem answers_forwarding (copyText dropText : Bool) : (forwarding copyText dropText).Answers :=
  fun _ h ↦ exists_commonCreate_eq_ok copyText h

theorem answers_fixed (token : Shared Token) : (fixed token).Answers :=
  fun _ _ ↦ ⟨_, rfl⟩

/-! ## Places -/

/-- The tokens of the factory are at the position, and have the origin, that was asked for. -/
def KeepsPlace (factory : Factory) : Prop :=
  ∀ (request : CreateRequest) (creation : Creation), factory.create request = .ok creation →
    creation.product.token.position = request.position ∧
      creation.product.token.origin = request.origin

theorem place_of_commonCreate {copyText : Bool} {request : CreateRequest} {creation : Creation}
    (h : commonCreate copyText request = .ok creation) :
    creation.product.token.position = request.position ∧
      creation.product.token.origin = request.origin := by
  obtain ⟨text, hproduct⟩ := exists_tokenWith_of_commonCreate h
  rw [hproduct]
  exact ⟨rfl, rfl⟩

theorem keepsPlace_common (copyText : Bool) : (common copyText).KeepsPlace :=
  fun _ _ h ↦ place_of_commonCreate h

theorem keepsPlace_forwarding (copyText dropText : Bool) :
    (forwarding copyText dropText).KeepsPlace := by
  intro request creation h
  have hcommon : commonCreate copyText
      { request with text := if dropText then none else request.text } = .ok creation := h
  have hplace := place_of_commonCreate hcommon
  exact hplace

/-! ## End types -/

/-- Tokens that are asked for with the end type are made with it. -/
def MakesEof (factory : Factory) : Prop :=
  ∀ (request : CreateRequest) (creation : Creation), request.type = .eof →
    factory.create request = .ok creation → creation.product.token.isEof = true

theorem makesEof_common (copyText : Bool) : (common copyText).MakesEof := by
  intro request creation htype h
  obtain ⟨text, hproduct⟩ := exists_tokenWith_of_commonCreate h
  rw [hproduct, Token.isEof_iff]
  exact htype

theorem makesEof_forwarding (copyText dropText : Bool) : (forwarding copyText dropText).MakesEof :=
  fun request _ htype h ↦ makesEof_common copyText
    { request with text := if dropText then none else request.text } _ htype h

/-! ## Common factories, directly or not -/

/-- The factory is a common one, or it passes requests on to one. That one copies text if `copyText`
is set, and `dropText` says whether requests reach it without their text. -/
inductive PassesOn : Factory → Bool → Bool → Prop
  | common (copyText : Bool) : PassesOn (.common copyText) copyText false
  | forwarding (copyText dropText : Bool) :
    PassesOn (.forwarding copyText dropText) copyText dropText

namespace PassesOn

variable {factory : Factory} {copyText dropText : Bool}

theorem create_eq (h : factory.PassesOn copyText dropText) (request : CreateRequest) :
    factory.create request =
      commonCreate copyText
        { request with text := if dropText then none else request.text } := by
  cases h <;> rfl

theorem answers (h : factory.PassesOn copyText dropText) : factory.Answers := by
  cases h with
  | common => exact answers_common copyText
  | forwarding => exact answers_forwarding copyText dropText

theorem makesEof (h : factory.PassesOn copyText dropText) : factory.MakesEof := by
  cases h with
  | common => exact makesEof_common copyText
  | forwarding => exact makesEof_forwarding copyText dropText

end PassesOn

end TokenReplay.Factory
