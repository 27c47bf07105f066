import TokenReplay.Step
import TokenReplay.Token.Ending

/-!
# Token sources

A source hands out the tokens of a list one by one, and behind the last of them an end of stream
token, the same one for ever. That token is not in the list. It is made by the factory of the source
the first time somebody asks for it, out of what the last token says about its end.

A source is kept as its two halves: the tokens that were handed out, the latest first, and what is
still to come. So the list can always be put together again (`tokens`), handing out a token moves it
from one half to the other, and the end of stream token is kept in a place that exists only once no
tokens are left.

At any point a source can be asked where it is. It answers for the token that it would hand out
next, even if that is an end of stream token that nobody has built yet.
-/

namespace TokenReplay

/-- What a source still has to hand out. -/
inductive Rest where
  /-- Tokens of the list. -/
  | tokens (next : Shared Token) (later : List (Shared Token))
  /-- The list has run out, and there is no end of stream token yet. -/
  | spent
  /-- The list has run out, and this token stands at its end. -/
  | ended (eof : Shared Token)
deriving DecidableEq, Repr

namespace Rest

def ofList : List (Shared Token) → Rest
  | [] => spent
  | next :: later => tokens next later

def toList : Rest → List (Shared Token)
  | tokens next later => next :: later
  | spent => []
  | ended _ => []

def eof? : Rest → Option (Shared Token)
  | ended eof => some eof
  | _ => none

@[simp] theorem toList_ofList (list : List (Shared Token)) : (ofList list).toList = list := by
  cases list <;> rfl

@[simp] theorem eof?_ofList (list : List (Shared Token)) : (ofList list).eof? = none := by
  cases list <;> rfl

theorem eof?_eq_some_iff {rest : Rest} {eof : Shared Token} :
    rest.eof? = some eof ↔ rest = ended eof := by
  cases rest <;> simp [eof?]

theorem toList_eq_cons_iff {rest : Rest} {next : Shared Token} {later : List (Shared Token)} :
    rest.toList = next :: later ↔ rest = tokens next later := by
  cases rest <;> simp [toList]

theorem ofList_toList {rest : Rest} (h : rest.eof? = none) : ofList rest.toList = rest := by
  cases rest with
  | tokens next later => rfl
  | spent => rfl
  | ended eof => cases h

@[simp] theorem toList_tokens (next : Shared Token) (later : List (Shared Token)) :
    (tokens next later).toList = next :: later := rfl

@[simp] theorem toList_spent : spent.toList = [] := rfl

@[simp] theorem toList_ended (eof : Shared Token) : (ended eof).toList = [] := rfl

end Rest

/-- A source that replays a list of tokens. -/
structure Source where
  id : SourceId
  /-- The tokens of the list that were handed out, the latest first. -/
  passed : List (Shared Token)
  rest : Rest
  factory : Shared Factory

namespace Source

/-! ## Making sources -/

/-- A source over `tokens` that has not handed out anything. -/
def withFactory (tokens : List (Shared Token)) (name : String) (factory : Shared Factory)
    (session : Session) : Source × Session :=
  let (serial, issued) := session.issue
  (⟨⟨⟨serial⟩, name⟩, [], .ofList tokens, factory⟩, issued)

/-- A source with a factory of its own, a common one that copies no text. -/
def ofTokens (tokens : List (Shared Token)) (name : String) (session : Session) :
    Source × Session :=
  let (factory, shared) := session.share (Factory.common false)
  withFactory tokens name factory shared

/-! ## What a source is made of -/

variable (source : Source)

/-- The list, whatever was handed out of it. -/
def tokens : List (Shared Token) := source.passed.reverse ++ source.rest.toList

def size : Nat := source.passed.length + source.rest.toList.length

def isEmpty : Bool := source.size == 0

/-- The index of the token that is handed out next, or the size if there is none. -/
def cursor : Nat := source.passed.length

def isExhausted : Bool := source.rest.toList.isEmpty

/-- The end of stream token, if there is one yet. -/
def eof? : Option (Shared Token) := source.rest.eof?

@[simp] theorem length_tokens : source.tokens.length = source.size := by
  simp [tokens, size]

/-- What is still to come is the list from the cursor on. -/
theorem toList_rest_eq_drop : source.rest.toList = source.tokens.drop source.cursor := by
  rw [tokens, cursor, ← List.length_reverse, List.drop_left]

@[simp] theorem tokens_withFactory (tokens : List (Shared Token)) (name : String)
    (factory : Shared Factory) (session : Session) :
    (withFactory tokens name factory session).1.tokens = tokens := by
  simp [Source.tokens, withFactory]

theorem cursor_le_size : source.cursor ≤ source.size := Nat.le_add_right _ _

theorem isExhausted_iff : source.isExhausted = true ↔ source.cursor = source.size := by
  rw [isExhausted, List.isEmpty_iff, cursor, size, Nat.left_eq_add, List.length_eq_zero_iff]

theorem cursor_ne_size_of_tokens {source : Source} {token : Shared Token}
    {later : List (Shared Token)} (hrest : source.rest = .tokens token later) :
    source.cursor ≠ source.size := by
  intro hcursor
  have hempty := source.isExhausted_iff.mpr hcursor
  rw [isExhausted, hrest] at hempty
  cases hempty

theorem cursor_eq_size_of_spent {source : Source} (hrest : source.rest = .spent) :
    source.cursor = source.size := by
  rw [← source.isExhausted_iff, isExhausted, hrest]
  rfl

theorem eof?_eq_some_iff {source : Source} {eof : Shared Token} :
    source.eof? = some eof ↔ source.rest = .ended eof := Rest.eof?_eq_some_iff

/-- An end of stream token is there only behind the list. -/
theorem isExhausted_of_eof? {eof : Shared Token} (h : source.eof? = some eof) :
    source.isExhausted = true := by
  unfold eof? at h
  unfold isExhausted
  cases hrest : source.rest <;> simp_all [Rest.eof?]

/-! ## Where a source is -/

/-- The line of the token that is handed out next. -/
def line : Except Overflow (Option Nat) :=
  match source.rest, source.passed with
  | .tokens next _, _ => .ok next.value.position.line
  | .ended eof, _ => .ok eof.value.position.line
  | .spent, [] => .ok none
  | .spent, last :: _ => last.value.lineAfter

/-- The column of the token that is handed out next. -/
def column : Except Overflow Nat :=
  match source.rest, source.passed with
  | .tokens next _, _ => .ok next.value.position.column
  | .ended eof, _ => .ok eof.value.position.column
  | .spent, [] => .ok 0
  | .spent, last :: _ => last.value.columnAfter

/-- The stream of the token that is handed out next. A token without one is not passed over. -/
def stream? : Option (Shared Stream) :=
  match source.rest, source.passed with
  | .tokens next _, _ => next.value.origin.stream
  | .ended eof, _ => eof.value.origin.stream
  | .spent, [] => none
  | .spent, last :: _ => last.value.origin.stream

/-! ## Handing out tokens -/

/-- The span of an end of stream token: behind the token that was handed out last. -/
def eofSpan : ByteSpan :=
  match source.passed with
  | [] => .unknown
  | last :: _ => last.value.spanAfter

/-- What the factory is asked for at the end of the list. -/
def eofRequest : Except Overflow CreateRequest :=
  match source.line, source.column with
  | .error e, _ => .error e
  | .ok _, .error e => .error e
  | .ok line, .ok column =>
    .ok { origin := ⟨some source.id.key, source.stream?⟩
          type := .eof
          text := some "EOF"
          channel := .default
          span := source.eofSpan
          position := ⟨line, column⟩ }

/-- Has the end of stream token made. -/
def buildEof (session : Session) : Except Overflow (Shared Token) × Session :=
  match source.eofRequest with
  | .error e => (.error e, session)
  | .ok request =>
    match session.create source.factory (some source.id.name) (some ⟨source.id.name⟩) request with
    | (.error e, after) => (.error e, after)
    | (.ok eof, after) =>
      (.ok eof, after.emit (.builtEof source.id.name request.span request.position))

/-- Hands out a token. If that fails, the source stays where it is. -/
def next (session : Session) : Step Source (Shared Token) :=
  match source.rest with
  | .tokens token later =>
    match session.logHandedOut source.id.name source.cursor token.value with
    | .error e => ⟨.error e, source, session⟩
    | .ok logged =>
      ⟨.ok token, { source with passed := token :: source.passed, rest := .ofList later }, logged⟩
  | .ended eof => ⟨.ok eof, source, session⟩
  | .spent =>
    match source.buildEof session with
    | (.error e, after) => ⟨.error e, source, after⟩
    | (.ok eof, after) => ⟨.ok eof, { source with rest := .ended eof }, after⟩

/-- From now on, the end of stream token is asked of `factory`. One that was made already stays. -/
def setFactory (factory : Shared Factory) : Source := { source with factory := factory }

variable {source}

theorem next_of_tokens {token : Shared Token} {later : List (Shared Token)}
    {session logged : Session}
    (hrest : source.rest = .tokens token later)
    (hlog : session.logHandedOut source.id.name source.cursor token.value = .ok logged) :
    source.next session =
      ⟨.ok token, { source with passed := token :: source.passed, rest := .ofList later },
        logged⟩ := by
  unfold next
  rw [hrest]
  simp [hlog]

theorem next_of_unshown {token : Shared Token} {later : List (Shared Token)} {session : Session}
    {e : Overflow} (hrest : source.rest = .tokens token later)
    (hlog : session.logHandedOut source.id.name source.cursor token.value = .error e) :
    source.next session = ⟨.error e, source, session⟩ := by
  unfold next
  rw [hrest]
  simp [hlog]

theorem next_of_ended {eof : Shared Token} (hrest : source.rest = .ended eof) (session : Session) :
    source.next session = ⟨.ok eof, source, session⟩ := by
  unfold next
  rw [hrest]

theorem next_of_eof? {eof : Shared Token} (h : source.eof? = some eof) (session : Session) :
    source.next session = ⟨.ok eof, source, session⟩ :=
  next_of_ended (eof?_eq_some_iff.1 h) session

theorem next_of_spent (hrest : source.rest = .spent) (session : Session) :
    source.next session =
      match source.buildEof session with
      | (.error e, after) => ⟨.error e, source, after⟩
      | (.ok eof, after) => ⟨.ok eof, { source with rest := .ended eof }, after⟩ := by
  unfold next
  rw [hrest]

theorem next_of_unplaced {e : Overflow} (hrest : source.rest = .spent)
    (hrequest : source.eofRequest = .error e) (session : Session) :
    source.next session = ⟨.error e, source, session⟩ := by
  rw [next_of_spent hrest, buildEof, hrequest]

theorem next_of_refused {session after : Session} {request : CreateRequest} {e : Overflow}
    (hrest : source.rest = .spent) (hrequest : source.eofRequest = .ok request)
    (hcreate : session.create source.factory (some source.id.name) (some ⟨source.id.name⟩) request =
      (.error e, after)) : source.next session = ⟨.error e, source, after⟩ := by
  rw [next_of_spent hrest, buildEof, hrequest]
  dsimp only
  rw [hcreate]

theorem next_of_built {session after : Session} {request : CreateRequest} {eof : Shared Token}
    (hrest : source.rest = .spent) (hrequest : source.eofRequest = .ok request)
    (hcreate : session.create source.factory (some source.id.name) (some ⟨source.id.name⟩) request =
      (.ok eof, after)) :
    source.next session =
      ⟨.ok eof, { source with rest := .ended eof },
        after.emit (.builtEof source.id.name request.span request.position)⟩ := by
  rw [next_of_spent hrest, buildEof, hrequest]
  dsimp only
  rw [hcreate]

theorem state_next_of_error {session : Session} {e : Overflow}
    (h : (source.next session).outcome = .error e) : (source.next session).state = source := by
  unfold next at h ⊢
  split at h
  · split at h <;> simp_all
  · simp at h
  · split at h <;> simp_all

@[simp] theorem id_next (session : Session) : (source.next session).state.id = source.id := by
  unfold next
  split
  · split <;> rfl
  · rfl
  · split <;> rfl

@[simp] theorem factory_next (session : Session) :
    (source.next session).state.factory = source.factory := by
  unfold next
  split
  · split <;> rfl
  · rfl
  · split <;> rfl

@[simp] theorem tokens_next (session : Session) :
    (source.next session).state.tokens = source.tokens := by
  unfold next
  cases hrest : source.rest with
  | tokens token later =>
    dsimp only
    split
    · rfl
    · simp [tokens, hrest]
  | ended eof => rfl
  | spent =>
    dsimp only
    split
    · rfl
    · simp [tokens, hrest]

end Source

end TokenReplay
