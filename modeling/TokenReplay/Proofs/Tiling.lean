import TokenReplay.Proofs.Overflow
import TokenReplay.Proofs.Stretch

/-!
# Tokens that tile a stream

A scanner cuts a stream into tokens, each of which begins where the one before it ended. Nothing is
lost in this: one after the other, the texts of the tokens are the text of the stretch of the stream
that they cover. It makes no difference whether the text of a token was copied when it was made or
is read from the stream on demand.

`Stream.Tiled` is the chain of spans. Adjacent spans meet at an offset, and what holds the two
readings together is that it is one and the same cut of the stream, on a boundary between
characters (`text_inclusive_append`). Empty spans are allowed anywhere behind the first byte, and
the span of an end of stream token is one: it stands behind the last token, so it can be put at the
end of the chain.
-/

namespace TokenReplay

namespace Stream

/-! ## Chains of spans -/

/-- The spans can be read and follow one another without gaps, from the offset `start` to the offset
`stop`, both included. -/
inductive Tiled (stream : Stream) : Nat → Nat → List ByteSpan → Prop
  | single {start stop : Nat} {text : String}
      (hread : stream.text (.inclusive start stop) = .ok (.ok text)) :
      Tiled stream start stop [.inclusive start stop]
  | cons {start stop last : Nat} {text : String} {spans : List ByteSpan}
      (hread : stream.text (.inclusive start stop) = .ok (.ok text))
      (hmore : Tiled stream (stop + 1) last spans) :
      Tiled stream start last (.inclusive start stop :: spans)

variable {stream : Stream}

/-- **Joined spans.** Two adjacent spans read as one give their texts as one. -/
theorem text_inclusive_append {start stop last : Nat} {text more : String}
    (h : stream.text (.inclusive start stop) = .ok (.ok text))
    (hmore : stream.text (.inclusive (stop + 1) last) = .ok (.ok more)) :
    stream.text (.inclusive start last) = .ok (.ok (text ++ more)) := by
  obtain ⟨-, front, back, hdata, hfront, hlength⟩ := text_inclusive_eq_ok_iff.mp h
  obtain ⟨hlast, front', back', hdata', hfront', hlength'⟩ := text_inclusive_eq_ok_iff.mp hmore
  -- The second reading begins at the cut where the first one ends.
  have hcut : front ++ text.toList = front' ∧ back = more.toList ++ back' := by
    refine append_inj_of_byteLength_eq ?_ ?_
    · rw [List.append_assoc, ← hdata, hdata']
    · rw [byteLength_append, hfront, hlength, hfront']
  refine text_inclusive_eq_ok_iff.mpr ⟨hlast, front, back', ?_, hfront, ?_⟩
  · rw [hdata, hcut.2, String.toList_append, List.append_assoc]
  · rw [String.toList_append, byteLength_append]
    omega

theorem text_emptyAfter {start stop : Nat} {text : String}
    (h : stream.text (.inclusive start stop) = .ok (.ok text)) :
    stream.text (.inclusive (stop + 1) stop) = .ok (.ok "") := by
  obtain ⟨hstop, front, back, hdata, hfront, hlength⟩ := text_inclusive_eq_ok_iff.mp h
  refine text_inclusive_eq_ok_iff.mpr ⟨hstop, front ++ text.toList, back, ?_, ?_, ?_⟩
  · rw [hdata, String.toList_empty, List.nil_append, List.append_assoc]
  · rw [byteLength_append, hfront, hlength]
  · rw [String.toList_empty, byteLength_nil, Nat.add_zero]

theorem eq_data_of_text {stop : Nat} {text : String}
    (h : stream.text (.inclusive 0 stop) = .ok (.ok text)) (hstop : stop + 1 = stream.length) :
    text = stream.data := by
  obtain ⟨-, front, back, hdata, hfront, hlength⟩ := text_inclusive_eq_ok_iff.mp h
  obtain rfl := byteLength_eq_zero_iff.mp hfront
  have hback : byteLength back = 0 := by
    rw [length, ← byteLength_toList, hdata, List.nil_append, byteLength_append] at hstop
    omega
  obtain rfl := byteLength_eq_zero_iff.mp hback
  rw [List.nil_append, List.append_nil] at hdata
  exact String.toList_inj.mp hdata.symm

namespace Tiled

variable {start stop : Nat} {spans : List ByteSpan}

/-- Every span of a chain has a text, and read as one, the chain gives all of them. -/
theorem exists_texts (h : stream.Tiled start stop spans) :
    ∃ texts : List String, spans.map stream.text = texts.map (fun text ↦ .ok (.ok text)) ∧
      stream.text (.inclusive start stop) = .ok (.ok (String.join texts)) := by
  induction h with
  | @single start stop text hread =>
    refine ⟨[text], by rw [List.map_singleton, List.map_singleton, hread], ?_⟩
    rw [hread, String.join_cons, String.join_nil, String.append_empty]
  | @cons start stop last text spans hread hmore ih =>
    obtain ⟨texts, htexts, hjoined⟩ := ih
    refine ⟨text :: texts, by rw [List.map_cons, List.map_cons, hread, htexts], ?_⟩
    rw [String.join_cons]
    exact text_inclusive_append hread hjoined

theorem getLast?_eq (h : stream.Tiled start stop spans) :
    ∃ first text, spans.getLast? = some (.inclusive first stop) ∧
      stream.text (.inclusive first stop) = .ok (.ok text) := by
  induction h with
  | single hread => exact ⟨_, _, rfl, hread⟩
  | cons hread hmore ih =>
    obtain ⟨first, text, hlast, hread'⟩ := ih
    refine ⟨first, text, ?_, hread'⟩
    rw [List.getLast?_cons, hlast, Option.getD_some]

theorem concat (h : stream.Tiled start stop spans) :
    stream.Tiled start stop (spans ++ [.inclusive (stop + 1) stop]) := by
  induction h with
  | single hread => exact .cons hread (.single (text_emptyAfter hread))
  | cons hread hmore ih => exact .cons hread ih

end Tiled

end Stream

/-! ## Tokens made from a stream -/

/-- A common factory made the token when it was asked for one from `stream`, without text. -/
def Token.MadeFrom (token : Token) (stream : Shared Stream) : Prop :=
  ∃ copyText request creation, (Factory.common copyText).create request = .ok creation ∧
    creation.product.token = token ∧ request.text = none ∧ request.origin.stream = some stream

namespace Token.MadeFrom

variable {token : Token} {stream : Shared Stream}

theorem stream_eq (h : token.MadeFrom stream) : token.origin.stream = some stream := by
  obtain ⟨copyText, request, creation, hcreate, rfl, -, hstream⟩ := h
  rw [(Factory.place_of_commonCreate hcreate).2, hstream]

theorem text_eq (h : token.MadeFrom stream) {text : String}
    (hread : stream.value.text token.span = .ok (.ok text)) : token.text = .ok (some text) := by
  obtain ⟨copyText, request, creation, hcreate, rfl, htext, hstream⟩ := h
  cases copyText with
  | false =>
    rw [Factory.create, Factory.commonCreate_false] at hcreate
    cases hcreate
    have hread' : stream.value.text request.span = .ok (.ok text) := hread
    have hnone : (request.tokenWith request.text).ownText = none := htext
    have hthere : (request.tokenWith request.text).origin.stream = some stream := hstream
    rw [Product.token, Token.text, hnone, hthere]
    dsimp only
    rw [CreateRequest.tokenWith, hread']
    rfl
  | true =>
    obtain ⟨given, hproduct⟩ := Factory.exists_tokenWith_of_commonCreate hcreate
    have hread' : stream.value.text request.span = .ok (.ok text) := by
      rw [hproduct] at hread
      exact hread
    rw [Factory.create, Factory.commonCreate, htext, hstream] at hcreate
    dsimp only at hcreate
    rw [if_pos rfl, hread'] at hcreate
    cases hcreate
    exact Token.text_of_ownText rfl

end Token.MadeFrom

section

variable {stream : Shared Stream} {tokens : List (Shared Token)} {start stop : Nat}

theorem exists_texts_of_tiled (hmade : ∀ token ∈ tokens, token.value.MadeFrom stream)
    (htiled : stream.value.Tiled start stop (tokens.map (·.value.span))) :
    ∃ texts : List String,
      tokens.map (·.value.text) = texts.map (fun text ↦ .ok (some text)) ∧
        stream.value.text (.inclusive start stop) = .ok (.ok (String.join texts)) := by
  obtain ⟨texts, htexts, hjoined⟩ := htiled.exists_texts
  refine ⟨texts, ?_, hjoined⟩
  clear htiled hjoined
  induction tokens generalizing texts with
  | nil =>
    obtain rfl := List.map_eq_nil_iff.mp htexts.symm
    rfl
  | cons token tokens ih =>
    obtain ⟨text, texts, rfl, hread, hrest⟩ := List.map_eq_cons_iff.mp htexts.symm
    obtain ⟨hfirst, hmore⟩ := List.forall_mem_cons.mp hmade
    rw [List.map_cons, List.map_cons, hfirst.text_eq hread.symm, ih hmore texts hrest.symm]

theorem not_unreadable_of_tiled (hmade : ∀ token ∈ tokens, token.value.MadeFrom stream)
    (htiled : stream.value.Tiled start stop (tokens.map (·.value.span))) :
    ∀ token ∈ tokens, ¬token.value.Unreadable := by
  obtain ⟨texts, htexts, -⟩ := exists_texts_of_tiled hmade htiled
  intro token hmem hunreadable
  have hfailed : token.value.text = .error .addition := Token.text_eq_error_iff.mpr hunreadable
  have hmapped : token.value.text ∈ tokens.map (·.value.text) :=
    List.mem_map_of_mem (f := fun token : Shared Token ↦ token.value.text) hmem
  rw [htexts, hfailed] at hmapped
  obtain ⟨text, -, htext⟩ := List.mem_map.mp hmapped
  cases htext

/-- Behind such tokens, the end of stream token of a source with a common factory stands at the end
of the stretch, with an empty span in the same stream. -/
theorem Source.endsTiling_of_next {source : Source} {session : Session} {eof : Shared Token}
    {copyText : Bool} (hmade : ∀ token ∈ tokens, token.value.MadeFrom stream)
    (htiled : stream.value.Tiled start stop (tokens.map (·.value.span)))
    (hcommon : source.factory.value = .common copyText) (hrest : source.rest = .spent)
    (htokens : source.tokens = tokens) (hnext : (source.next session).outcome = .ok eof) :
    eof.value.origin.stream = some stream ∧ eof.value.span = .inclusive (stop + 1) stop := by
  obtain ⟨first, text, hlast, hread⟩ := htiled.getLast?_eq
  have hstop : stop < maxSize := (Stream.text_inclusive_eq_ok_iff.mp hread).1
  rw [List.getLast?_map] at hlast
  obtain ⟨last, htail, hspan⟩ := Option.map_eq_some_iff.mp hlast
  have hhead : source.passed.head? = some last := by
    rw [← Source.getLast?_tokens_of_spent hrest, htokens, htail]
  cases hrequest : source.eofRequest with
  | error e =>
    rw [Source.next_of_unplaced hrest hrequest] at hnext
    cases hnext
  | ok request =>
    obtain ⟨after, -, heq⟩ := Source.next_of_spent_of_common hrest hcommon hrequest session
    rw [heq] at hnext
    cases hnext
    obtain ⟨-, -, hwhole⟩ := Source.eofRequest_eq_ok_iff.mp hrequest
    rw [hwhole]
    constructor
    · have hstream := (hmade last (List.mem_of_getLast? htail)).stream_eq
      rw [← hstream]
      dsimp only [CreateRequest.tokenWith]
      rw [Source.stream?_of_spent hrest, hhead, Option.bind_some]
    · dsimp only [CreateRequest.tokenWith]
      rw [Source.eofSpan_eq, hhead, Option.map_some, Option.getD_some, Token.spanAfter, hspan,
        ByteSpan.stop?_inclusive]
      exact ByteSpan.emptyAfter_of_lt hstop

/-- **Tilings.** Let common factories have made tokens without text from one stream, and let their
spans tile a stretch of it. Then their texts, one after the other, are what is read from that
stretch, and all of the stream if the stretch is. As many calls to a source over these tokens hand
out just them. If one more call succeeds, the token that it gives has an empty span in the stream,
right behind the others, so that the spans together still tile the stretch. -/
theorem texts_of_tiled {copyText : Bool} (hmade : ∀ token ∈ tokens, token.value.MadeFrom stream)
    (htiled : stream.value.Tiled start stop (tokens.map (·.value.span))) (name : String)
    (factory : Shared Factory) (hcommon : factory.value = .common copyText) (session : Session) :
    ∃ texts : List String,
      tokens.map (·.value.text) = texts.map (fun text ↦ .ok (some text)) ∧
      stream.value.text (.inclusive start stop) = .ok (.ok (String.join texts)) ∧
      (start = 0 → stop + 1 = stream.value.length → String.join texts = stream.value.data) ∧
      ∀ sessions : List Session, sessions.length = tokens.length →
        ∃ history,
          (History.ofSource (Source.withFactory tokens name factory session).1).run?
            (Turn.calls sessions) = some history ∧
          history.handedOut = tokens ∧
          ∀ now eof, (history.source.next now).outcome = .ok eof →
            eof.value.origin.stream = some stream ∧
            stream.value.text eof.value.span = .ok (.ok "") ∧
            stream.value.Tiled start stop
              (tokens.map (·.value.span) ++ [eof.value.span]) := by
  obtain ⟨texts, htexts, hjoined⟩ := exists_texts_of_tiled hmade htiled
  refine ⟨texts, htexts, hjoined, ?_, fun sessions hlength ↦ ?_⟩
  · rintro rfl hstop
    exact Stream.eq_data_of_text hjoined hstop
  · let source := (Source.withFactory tokens name factory session).1
    have hlist : source.rest.toList = tokens ++ [] := by
      rw [List.append_nil]
      exact Rest.toList_ofList tokens
    obtain ⟨history, hrun, hthere, hhanded⟩ :=
      @History.exists_run?_calls (.ofSource source) tokens [] sessions (Rest.eof?_ofList tokens)
        hlist hlength fun other _ _ ↦ not_unreadable_of_tiled hmade htiled
    refine ⟨history, hrun, hhanded, fun now eof hnext ↦ ?_⟩
    have hreached : history.source.tokens = tokens := History.tokens_eq_of_run? hrun
    have hfactory : history.source.factory.value = .common copyText := by
      rw [hthere]
      exact hcommon
    have hspent : history.source.rest = .spent := by
      rw [hthere, Source.rest_past, Rest.ofList]
    obtain ⟨hstream, hspan⟩ :=
      Source.endsTiling_of_next hmade htiled hfactory hspent hreached hnext
    obtain ⟨first, text, -, hread⟩ := htiled.getLast?_eq
    rw [hspan]
    exact ⟨hstream, Stream.text_emptyAfter hread, htiled.concat⟩

end

/-- Two letters of two bytes each, with a line feed between them. -/
def lettersStream : Shared Stream := ⟨1, ⟨"in", "é\nß"⟩⟩

/-- The first token brings its text along, the other two have to read theirs, one of them
nothing. -/
def letterTokens : List (Shared Token) :=
  let covering (text : Option String) (start stop : Nat) : Token :=
    { type := ⟨1⟩, ownText := text, span := .inclusive start stop,
      origin := { stream := some lettersStream } }
  [⟨2, covering (some "é") 0 1⟩, ⟨3, covering none 2 1⟩, ⟨4, covering none 2 4⟩]

theorem texts_of_tiled_letters :
    let sessions : List Session := [{}, { logging := true }, {}]
    ∃ texts history eof, letterTokens.map (·.value.text) = texts.map (fun text ↦ .ok (some text)) ∧
      String.join texts = "é\nß" ∧
      (History.ofSource (Source.withFactory letterTokens "unit" ⟨0, .common true⟩ {}).1).run?
        (Turn.calls sessions) = some history ∧
      history.handedOut = letterTokens ∧ (history.source.next {}).outcome = .ok eof ∧
      eof.value.span = .inclusive 5 4 ∧
      lettersStream.value.text eof.value.span = .ok (.ok "") := by
  intro sessions
  have hmade : ∀ token ∈ letterTokens, token.value.MadeFrom lettersStream := by
    let asked (start stop : Nat) : CreateRequest :=
      { origin := { stream := some lettersStream }, type := ⟨1⟩, text := none,
        channel := .default, span := .inclusive start stop, position := {} }
    refine List.forall_mem_cons.mpr ⟨⟨true, asked 0 1, _, rfl, rfl, rfl, rfl⟩, ?_⟩
    refine List.forall_mem_cons.mpr ⟨⟨false, asked 2 1, _, rfl, rfl, rfl, rfl⟩, ?_⟩
    exact List.forall_mem_singleton.mpr ⟨false, asked 2 4, _, rfl, rfl, rfl, rfl⟩
  have hfirst : lettersStream.value.text (.inclusive 0 1) = .ok (.ok "é") := rfl
  have hnothing : lettersStream.value.text (.inclusive 2 1) = .ok (.ok "") := rfl
  have hlast : lettersStream.value.text (.inclusive 2 4) = .ok (.ok "\nß") := rfl
  have htiled : lettersStream.value.Tiled 0 4 (letterTokens.map (·.value.span)) :=
    .cons hfirst (.cons hnothing (.single hlast))
  obtain ⟨texts, htexts, -, hwhole, hcalls⟩ :=
    texts_of_tiled hmade htiled "unit" ⟨0, .common true⟩ rfl {}
  obtain ⟨history, hrun, hhanded, hend⟩ := hcalls sessions rfl
  obtain ⟨found, eof, hfound, hnext, hspan⟩ : ∃ found eof,
      (History.ofSource (Source.withFactory letterTokens "unit" ⟨0, .common true⟩ {}).1).run?
        (Turn.calls sessions) = some found ∧ (found.source.next {}).outcome = .ok eof ∧
      eof.value.span = .inclusive 5 4 := ⟨_, _, rfl, rfl, rfl⟩
  obtain rfl : history = found := Option.some.inj (hrun.symm.trans hfound)
  obtain ⟨-, hempty, -⟩ := hend {} eof hnext
  exact ⟨texts, history, eof, htexts, hwhole rfl rfl, hrun, hhanded, hnext, hspan, hempty⟩

end TokenReplay
