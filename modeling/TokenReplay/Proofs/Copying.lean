import TokenReplay.Proofs.Commands
import TokenReplay.Proofs.Factories
import TokenReplay.Proofs.Log

/-!
# Copied text

A common factory that copies text and one that does not are asked for the same token. There is no
way to tell the two tokens apart by looking at them: what one has copied, the other reads whenever
it is asked, and where there is nothing to copy there is nothing to read either.

They differ in what they depend on. A token can be moved to another span or to another origin, and
then a copied text stays while any other text is looked for at the new place. So only tokens whose
text was in fact copied can ever be told apart, and only after a move (`CreateRequest.Fills`).
Moves never look at the text of a token, so they can be done ahead of the copying as well as behind
it (`Token.moved_withText`).

What can be seen of copying at once is in the log, where a failed attempt leaves a warning, just one
for each request.
-/

namespace TokenReplay

/-! ## Moving tokens -/

namespace Token

/-- What sets the place of a token. -/
inductive Move where
  | span (span : ByteSpan)
  | origin (origin : Origin)

def move (token : Token) : Move → Token
  | .span span => { token with span := span }
  | .origin origin => { token with origin := origin }

/-- The token after some moves. -/
def moved (token : Token) (moves : List Move) : Token := moves.foldl move token

@[simp] theorem moved_nil (token : Token) : token.moved [] = token := rfl

@[simp] theorem moved_cons (token : Token) (step : Move) (moves : List Move) :
    token.moved (step :: moves) = (token.move step).moved moves := rfl

/-- The token with its own text replaced. -/
def withText (token : Token) (text : Option String) : Token := { token with ownText := text }

theorem moved_withText (token : Token) (text : Option String) (moves : List Move) :
    (token.withText text).moved moves = (token.moved moves).withText text := by
  induction moves generalizing token with
  | nil => rfl
  | cons step moves ih =>
    rw [moved_cons, moved_cons, ← ih]
    rcases step with span | origin
    · rfl
    · rfl

theorem ownText_moved (token : Token) (moves : List Move) :
    (token.moved moves).ownText = token.ownText := by
  have hsame : token.withText token.ownText = token := rfl
  have hmoved := token.moved_withText token.ownText moves
  rw [hsame] at hmoved
  rw [hmoved, withText]

end Token

/-- A changed copy of a token in which nothing but span and origin was set is a moved one. -/
theorem Workspace.exists_moves_of_change {changes : TokenChanges} {token changed : Token}
    {workspace left : Workspace} (hchannel : changes.channel = none)
    (hposition : changes.position = none) (hindex : changes.index = none)
    (h : (change changes token).on workspace = (.ok changed, left)) :
    ∃ moves, changed = token.moved moves := by
  have hresolve : ∃ resolve : Action Origin, change changes token = resolve >>= fun origin ↦
      pure (token.moved [.span (changes.span.getD token.span), .origin origin]) := by
    rw [change, hchannel, hposition, hindex]
    rcases changes.origin with _ | spec
    · exact ⟨pure token.origin, rfl⟩
    · exact ⟨resolveOrigin spec, rfl⟩
  obtain ⟨resolve, hchange⟩ := hresolve
  rw [hchange, on_bind] at h
  generalize resolve.on workspace = resolved at h
  obtain ⟨fault | origin, after⟩ := resolved
  · cases h
  · cases h
    exact ⟨_, rfl⟩

/-! ## Tokens that look alike -/

/-- The text of a span in the stream, if there is a stream and it has one. -/
def Origin.read (origin : Origin) (span : ByteSpan) : Except Overflow (Option String) :=
  match origin.stream with
  | none => .ok none
  | some stream => (stream.value.text span).map Except.toOption

namespace Token

theorem text_of_ownText_eq_none {token : Token} (h : token.ownText = none) :
    token.text = token.origin.read token.span := by
  rw [text, h, Origin.read]
  dsimp only
  rcases token.origin.stream with _ | stream
  · rfl
  · dsimp only
    rcases stream.value.text token.span with e | read
    · rfl
    · rfl

/-- Two tokens that answer all questions alike. -/
structure Alike (token other : Token) : Prop where
  type_eq : token.type = other.type
  channel_eq : token.channel = other.channel
  text_eq : token.text = other.text
  span_eq : token.span = other.span
  position_eq : token.position = other.position
  index_eq : token.index = other.index
  origin_eq : token.origin = other.origin
  display_eq : token.display = other.display

theorem Alike.refl (token : Token) : token.Alike token := ⟨rfl, rfl, rfl, rfl, rfl, rfl, rfl, rfl⟩

theorem alike_of_text_eq {token : Token} {text : Option String}
    (h : (token.withText text).text = token.text) : (token.withText text).Alike token where
  type_eq := rfl
  channel_eq := rfl
  text_eq := h
  span_eq := rfl
  position_eq := rfl
  index_eq := rfl
  origin_eq := rfl
  display_eq := by
    rw [display, display, h]
    rfl

end Token

/-! ## What there is to copy -/

namespace CreateRequest

/-- The request has no text, but the stream has `text` for it. -/
def Fills (request : CreateRequest) (text : String) : Prop :=
  request.text = none ∧ ∃ stream, request.origin.stream = some stream ∧
    stream.value.text request.span = .ok (.ok text)

/-- The request has no text, and the stream has none for it either. -/
def Lacks (request : CreateRequest) (failure : CopyFailure) : Prop :=
  request.text = none ∧ ∃ stream, request.origin.stream = some stream ∧
    stream.value.name = failure.stream ∧
      stream.value.text request.span = .ok (.error failure.error)

theorem fills_iff {request : CreateRequest} (hnone : request.text = none) {stream : Shared Stream}
    (hstream : request.origin.stream = some stream) {text : String} :
    request.Fills text ↔ stream.value.text request.span = .ok (.ok text) := by
  constructor
  · rintro ⟨-, _, hthere, hread⟩
    rw [hstream] at hthere
    cases hthere
    exact hread
  · intro hread
    exact ⟨hnone, stream, hstream, hread⟩

end CreateRequest

/-- Copying makes a difference where there is something to copy. -/
theorem Factory.product_of_copying {request : CreateRequest} {creation : Creation}
    (h : (Factory.common true).create request = .ok creation) :
    (∃ text, request.Fills text ∧
      creation.product = .fresh ((request.tokenWith request.text).withText (some text))) ∨
    ((∀ text, ¬request.Fills text) ∧
      creation.product = .fresh (request.tokenWith request.text)) := by
  rw [create] at h
  rcases htext : request.text with _ | given
  · rcases hstream : request.origin.stream with _ | stream
    · rw [commonCreate_of_no_stream true hstream] at h
      cases h
      refine .inr ⟨?_, by rw [htext]⟩
      rintro text ⟨-, stream, hthere, -⟩
      rw [hstream] at hthere
      cases hthere
    · rw [commonCreate.eq_def, htext, hstream] at h
      dsimp only at h
      rw [if_pos rfl] at h
      rcases hread : stream.value.text request.span with e | error | text
      · rw [hread] at h
        cases h
      · rw [hread] at h
        cases h
        refine .inr ⟨?_, rfl⟩
        intro text hfills
        rw [CreateRequest.fills_iff htext hstream, hread] at hfills
        cases hfills
      · rw [hread] at h
        cases h
        exact .inl ⟨text, (CreateRequest.fills_iff htext hstream).mpr hread, rfl⟩
  · rw [commonCreate_of_text true htext] at h
    cases h
    refine .inr ⟨?_, rfl⟩
    rintro text ⟨hnone, -⟩
    rw [htext] at hnone
    cases hnone

/-! ## The two tokens of a request -/

/-- A token whose text was copied if there was one to copy, beside one for the same request whose
text was left where it is. -/
structure CreateRequest.Copies (request : CreateRequest) (copied plain : Token) : Prop where
  alike : copied.Alike plain
  /-- A copied text stays. -/
  text_moved : ∀ text, request.Fills text → ∀ moves : List Token.Move,
    (copied.moved moves).text = .ok (some text)
  /-- Any other text is looked for in the new place. -/
  text_plain_moved : ∀ text, request.Fills text → ∀ moves : List Token.Move,
    (plain.moved moves).text = (plain.moved moves).origin.read (plain.moved moves).span
  moved_eq : ∀ text, request.Fills text → ∀ moves : List Token.Move,
    copied.moved moves = (plain.moved moves).withText (some text)
  alike_moved : (∀ text, ¬request.Fills text) → ∀ moves : List Token.Move,
    (copied.moved moves).Alike (plain.moved moves)

namespace CreateRequest

variable {request : CreateRequest}

theorem Fills.eq {text text' : String} (h : request.Fills text) (h' : request.Fills text') :
    text = text' := by
  obtain ⟨hnone, stream, hstream, hread⟩ := h
  rw [fills_iff hnone hstream, hread] at h'
  cases h'
  rfl

theorem Fills.text_eq {text : String} (h : request.Fills text) :
    (request.tokenWith request.text).text = .ok (some text) := by
  obtain ⟨hnone, stream, hstream, hread⟩ := h
  have hplain : (request.tokenWith request.text).ownText = none := hnone
  have hthere : (request.tokenWith request.text).origin.stream = some stream := hstream
  have hspan : stream.value.text (request.tokenWith request.text).span = .ok (.ok text) := hread
  rw [Token.text_of_ownText_eq_none hplain, Origin.read, hthere]
  dsimp only
  rw [hspan]
  rfl

theorem copies_of_create {creation : Creation}
    (h : (Factory.common true).create request = .ok creation) :
    request.Copies creation.product.token (request.tokenWith request.text) := by
  rcases Factory.product_of_copying h with ⟨text, hfills, hproduct⟩ | ⟨hnone, hproduct⟩
  · rw [hproduct]
    have hcopied : ∀ text', request.Fills text' → ∀ moves : List Token.Move,
        ((request.tokenWith request.text).withText (some text)).moved moves =
          ((request.tokenWith request.text).moved moves).withText (some text') := by
      intro text' hfills' moves
      rw [Token.moved_withText, hfills.eq hfills']
    exact
      { alike := Token.alike_of_text_eq hfills.text_eq.symm
        text_moved := by
          intro text' hfills' moves
          rw [Product.token, hcopied text' hfills' moves]
          exact Token.text_of_ownText rfl
        text_plain_moved := by
          intro text' hfills' moves
          apply Token.text_of_ownText_eq_none
          rw [Token.ownText_moved]
          exact hfills'.1
        moved_eq := hcopied
        alike_moved := fun hno ↦ absurd hfills (hno text) }
  · rw [hproduct]
    exact
      { alike := .refl _
        text_moved := fun text hfills ↦ absurd hfills (hnone text)
        text_plain_moved := fun text hfills ↦ absurd hfills (hnone text)
        moved_eq := fun text hfills ↦ absurd hfills (hnone text)
        alike_moved := fun _ moves ↦ .refl _ }

end CreateRequest

/-! ## Warnings -/

namespace Session

/-- The events that were logged since `earlier`. -/
def eventsSince (session earlier : Session) : List Event :=
  session.log.toList.drop earlier.log.size

theorem eventsSince_of_toList_log_eq {session earlier : Session} {events : List Event}
    (h : session.log.toList = earlier.log.toList ++ events) :
    session.eventsSince earlier = events := by
  rw [eventsSince, h, ← Array.length_toList, List.drop_left]

/-- The warnings that were logged since `earlier`. -/
def warningsSince (session earlier : Session) : List Event :=
  (session.eventsSince earlier).filter (·.level = .warn)

variable {session : Session} {factory : Shared Factory} {source : Option String}
  {during : Option Building} {request : CreateRequest} {creation : Creation}

theorem warningsSince_create (hlogging : session.logging = true)
    (h : factory.value.create request = .ok creation) :
    (session.create factory source during request).2.warningsSince session =
      (creation.copyFailure.map (.copyFailed during)).toList := by
  obtain ⟨-, hlog⟩ := @log_create _ _ source during _ _ hlogging h
  rw [warningsSince, eventsSince_of_toList_log_eq hlog]
  rcases creation.copyFailure with _ | failure
  · rfl
  · rfl

theorem warningsSince_create_of_none (h : factory.value.create request = .ok creation)
    (hnone : creation.copyFailure = none) :
    (session.create factory source during request).2.warningsSince session = [] := by
  have hlog : (session.create factory source during request).2.log = session.log := by
    rw [create, h]
    dsimp only
    rw [hnone, log_realize]
    rfl
  rw [warningsSince, eventsSince_of_toList_log_eq (by rw [hlog, List.append_nil]), List.filter_nil]

/-- A factory that copies warns of requests that lack a text, and of no others. -/
theorem warnings_of_copying (hlogging : session.logging = true)
    (hfactory : factory.value = .common true) (h : factory.value.create request = .ok creation) :
    (∀ failure, (session.create factory source during request).2.warningsSince session =
        [.copyFailed during failure] ↔ request.Lacks failure) ∧
      ((session.create factory source during request).2.warningsSince session = [] ↔
        ∀ failure, ¬request.Lacks failure) := by
  have hlacks : ∀ failure, creation.copyFailure = some failure ↔ request.Lacks failure := by
    rw [hfactory] at h
    intro failure
    rw [Factory.copyFailure_of_commonCreate h, CreateRequest.Lacks, eq_self, true_and]
  rw [warningsSince_create hlogging h]
  constructor
  · intro failure
    rw [← hlacks]
    rcases creation.copyFailure with _ | found
    · simp
    · simp
  · rw [← forall_congr' fun failure ↦ not_congr (hlacks failure)]
    rcases creation.copyFailure with _ | found
    · simp
    · simp

/-- **Copying.** Let a factory that copies texts answer a request. Then one that does not answers it
as well, with a token that cannot be told from the first until it is moved, and afterwards only if
there was a text to copy. With logging, the first warns once if the request had no text and the
stream had none for it; the second never does. -/
theorem copied_until_moved {serial : Nat} {copied : Shared Token}
    (h : (session.create ⟨serial, .common true⟩ source during request).1 = .ok copied)
    (other : Session) (serial' : Nat) (source' : Option String) (during' : Option Building) :
    ∃ plain, (other.create ⟨serial', .common false⟩ source' during' request).1 = .ok plain ∧
      request.Copies copied.value plain.value ∧
      (session.logging = true →
        (∀ failure, (session.create ⟨serial, .common true⟩ source during request).2.warningsSince
            session = [.copyFailed during failure] ↔ request.Lacks failure) ∧
        ((session.create ⟨serial, .common true⟩ source during request).2.warningsSince session =
            [] ↔ ∀ failure, ¬request.Lacks failure)) ∧
      (other.create ⟨serial', .common false⟩ source' during' request).2.warningsSince other =
        [] := by
  rw [fst_create] at h
  rcases hcreate : (Factory.common true).create request with e | creation
  · rw [hcreate] at h
    cases h
  · rw [hcreate] at h
    cases h
    have hplain : (Factory.common false).create request =
        .ok { product := .fresh (request.tokenWith request.text) } :=
      Factory.commonCreate_false request
    refine ⟨(other.realize (.fresh (request.tokenWith request.text))).1, ?_, ?_, ?_, ?_⟩
    · rw [fst_create, hplain]
      rfl
    · rw [value_realize, value_realize]
      exact CreateRequest.copies_of_create hcreate
    · intro hlogging
      exact warnings_of_copying hlogging rfl hcreate
    · exact warningsSince_create_of_none hplain rfl

/-- A request for the letter in the middle of a stream. -/
def letterRequest : CreateRequest where
  origin := { stream := some ⟨2, ⟨"in", "aéb"⟩⟩ }
  type := ⟨1⟩
  text := none
  channel := .default
  span := .inclusive 1 2
  position := ⟨some 1, 1⟩

/-- Moved on by one byte, the token has a new text unless the letter was copied. -/
theorem copied_until_moved_letter : ∃ copied plain,
    (Session.create {} ⟨0, .common true⟩ none none letterRequest).1 = .ok copied ∧
    (Session.create {} ⟨1, .common false⟩ none none letterRequest).1 = .ok plain ∧
    copied.value.text = .ok (some "é") ∧ plain.value.text = .ok (some "é") ∧
    (copied.value.moved [.span (.inclusive 3 3)]).text = .ok (some "é") ∧
    (plain.value.moved [.span (.inclusive 3 3)]).text = .ok (some "b") := by
  obtain ⟨copied, hcopied⟩ : ∃ copied,
      (Session.create {} ⟨0, .common true⟩ none none letterRequest).1 = .ok copied := ⟨_, rfl⟩
  have hfills : letterRequest.Fills "é" := ⟨rfl, _, rfl, rfl⟩
  obtain ⟨plain, hplain, hcopies, -, -⟩ := copied_until_moved hcopied {} 1 none none
  have hstays := hcopies.text_moved "é" hfills
  refine ⟨copied, plain, hcopied, hplain, hstays [], ?_, hstays _, ?_⟩
  · rw [← hcopies.alike.text_eq]
    exact hstays []
  · rw [hcopies.text_plain_moved "é" hfills]
    cases hplain
    rfl

end Session

end TokenReplay
