import TokenReplay.Proofs.Failure

/-!
# Two sources in step

Sources with different cursors, over different lists, may still do the same from now on. While there
are tokens of the list to come, it is enough that both have the same ones. Behind the list both work
out the place of the end from the last token, whatever was handed out before it. So `Source.Twin`
compares what is still to come, and the last token once there is nothing: a call does the same to
two twins and leaves twins (`Twin.next`), and so do calls in a row (`Twin.after`).

The end of stream tokens are made at different times, by different factories, and they are different
tokens. But both factories are common ones and neither changes what is asked for, so the tokens look
alike up to the source that they come from, as `Token.withSource` says.
-/

namespace TokenReplay

/-- The same token, if it had come from another source. -/
def Token.withSource (token : Token) (key : SourceKey) : Token :=
  { token with origin := { token.origin with source := some key } }

/-- The same request, if another source had sent it. -/
def CreateRequest.withSource (request : CreateRequest) (key : SourceKey) : CreateRequest :=
  { request with origin := { request.origin with source := some key } }

/-- The same is to come, if the second source is the one by the key `key`. -/
inductive Rest.Agrees (key : SourceKey) : Rest → Rest → Prop
  | tokens (next : Shared Token) (later : List (Shared Token)) :
    Agrees key (.tokens next later) (.tokens next later)
  | spent : Agrees key .spent .spent
  | ended {eof copy : Shared Token} (h : copy.value = eof.value.withSource key) :
    Agrees key (.ended eof) (.ended copy)

theorem Rest.Agrees.ofList (key : SourceKey) (list : List (Shared Token)) :
    Agrees key (.ofList list) (.ofList list) := by
  cases list with
  | nil => exact .spent
  | cons next later => exact .tokens next later

/-- Sessions that are logging or not in the same places. -/
def SameLogging (there here : List Session) : Prop :=
  there.map Session.logging = here.map Session.logging

namespace Source

variable {source twin : Source}

/-- The sources differ in nothing that a call depends on. -/
structure Twin (source twin : Source) : Prop where
  common : ∃ copyText, source.factory.value = .common copyText
  common_twin : ∃ copyText, twin.factory.value = .common copyText
  agrees : Rest.Agrees twin.id.key source.rest twin.rest
  /-- Behind the list, the last token decides. -/
  head?_eq : source.rest.toList = [] → source.passed.head? = twin.passed.head?

theorem Twin.place_eq (h : source.Twin twin) :
    source.line = twin.line ∧ source.column = twin.column ∧ source.stream? = twin.stream? := by
  obtain ⟨-, -, hagrees, hhead⟩ := h
  generalize hsource : source.rest = rest at hagrees hhead
  generalize htwin : twin.rest = other at hagrees
  cases hagrees with
  | tokens next later => simp [line, column, stream?, hsource, htwin]
  | spent =>
    have hhead := hhead rfl
    simp [line_of_spent, column_of_spent, stream?_of_spent, hsource, htwin, hhead]
  | ended h => simp [line, column, stream?, hsource, htwin, h, Token.withSource]

theorem Twin.eofRequest_eq (h : source.Twin twin) (hrest : source.rest = .spent) :
    twin.eofRequest = source.eofRequest.map (·.withSource twin.id.key) := by
  obtain ⟨hline, hcolumn, hstream⟩ := h.place_eq
  have hhead : source.passed.head? = twin.passed.head? := h.head?_eq (by rw [hrest]; rfl)
  rw [eofRequest, eofRequest, ← hline, ← hcolumn, ← hstream, eofSpan_eq, eofSpan_eq, ← hhead]
  cases source.line with
  | error e => rfl
  | ok line =>
    cases source.column with
    | error e => rfl
    | ok column => rfl

/-- What two calls came to is the same, if the second was one of the source by the key `key`. -/
inductive SameOutcome (key : SourceKey) :
    Except Overflow (Shared Token) → Except Overflow (Shared Token) → Prop
  | failed (e : Overflow) : SameOutcome key (.error e) (.error e)
  | listed (token : Shared Token) : SameOutcome key (.ok token) (.ok token)
  | ended {eof copy : Shared Token} (h : copy.value = eof.value.withSource key) :
    SameOutcome key (.ok eof) (.ok copy)

theorem Twin.next_of_tokens (h : source.Twin twin) {a b : Session}
    (hlogging : a.logging = b.logging) {token : Shared Token} {later : List (Shared Token)}
    (hrest : source.rest = .tokens token later) (htwin : twin.rest = .tokens token later) :
    SameOutcome twin.id.key (source.next a).outcome (twin.next b).outcome ∧
      (source.next a).state.Twin (twin.next b).state := by
  by_cases hunshown : a.logging = true ∧ token.value.Unreadable
  · have hsource : source.Blocked a.logging := by
      refine .inr ⟨hunshown.1, token, ?_, hunshown.2⟩
      rw [getElem?_tokens_cursor, hrest]
      rfl
    have hother : twin.Blocked b.logging := by
      refine .inr ⟨hlogging.symm.trans hunshown.1, token, ?_, hunshown.2⟩
      rw [getElem?_tokens_cursor, htwin]
      rfl
    rw [hsource.next, hother.next]
    exact ⟨.failed _, h⟩
  · rw [not_and] at hunshown
    obtain ⟨hgiven, hstate⟩ := next_of_readable hrest hunshown
    rw [hlogging] at hunshown
    obtain ⟨hgiven', hstate'⟩ := next_of_readable htwin hunshown
    rw [hgiven, hstate, hgiven', hstate']
    exact ⟨.listed token, h.common, h.common_twin, .ofList _ later, fun _ ↦ rfl⟩

theorem Twin.next_of_spent (h : source.Twin twin) (a b : Session) (hrest : source.rest = .spent)
    (htwin : twin.rest = .spent) :
    SameOutcome twin.id.key (source.next a).outcome (twin.next b).outcome ∧
      (source.next a).state.Twin (twin.next b).state := by
  have hsame := h.eofRequest_eq hrest
  cases hrequest : source.eofRequest with
  | error e =>
    rw [hrequest] at hsame
    have hother : twin.eofRequest = .error e := hsame
    rw [next_of_unplaced hrest hrequest, next_of_unplaced htwin hother]
    exact ⟨.failed e, h⟩
  | ok request =>
    obtain ⟨copyText, hcommon⟩ := h.common
    obtain ⟨copyText', hcommon'⟩ := h.common_twin
    rw [hrequest] at hsame
    obtain ⟨after, -, hnext⟩ := next_of_spent_of_common hrest hcommon hrequest a
    obtain ⟨after', -, hnext'⟩ := next_of_spent_of_common htwin hcommon' hsame b
    rw [hnext, hnext']
    exact ⟨.ended rfl, h.common, h.common_twin, .ended rfl, fun _ ↦ h.head?_eq (by rw [hrest]; rfl)⟩

/-- **In step.** A call does the same to two twins, and leaves twins. -/
theorem Twin.next (h : source.Twin twin) {a b : Session} (hlogging : a.logging = b.logging) :
    SameOutcome twin.id.key (source.next a).outcome (twin.next b).outcome ∧
      (source.next a).state.Twin (twin.next b).state := by
  have hagrees := h.agrees
  generalize hrest : source.rest = rest at hagrees
  generalize htwin : twin.rest = other at hagrees
  cases hagrees with
  | tokens token later => exact h.next_of_tokens hlogging hrest htwin
  | spent => exact h.next_of_spent a b hrest htwin
  | ended heof =>
    rw [next_of_ended hrest, next_of_ended htwin]
    exact ⟨.ended heof, h⟩

theorem Twin.after (h : source.Twin twin) {there here : List Session}
    (hsame : SameLogging there here) : (source.after there).Twin (twin.after here) := by
  induction there generalizing source twin here with
  | nil =>
    obtain rfl := List.map_eq_nil_iff.mp (Eq.symm hsame)
    exact h
  | cons a there ih =>
    obtain ⟨b, here, rfl, hlogging, hrest⟩ := List.map_eq_cons_iff.mp (Eq.symm hsame)
    exact ih (h.next hlogging.symm).2 hrest.symm

end Source

end TokenReplay
