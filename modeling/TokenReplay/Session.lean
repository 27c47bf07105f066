import TokenReplay.Event
import TokenReplay.Token.Display

/-!
# Sessions

What sources and factories have in common over time: the supply of serials, the log, and the list of
requests that factories were sent. All three only grow. The log is kept only while logging is on,
but requests are always noted, and a request is noted before the factory answers it, so one that
makes the factory overflow is on the list as well.

Logging is not free of effects. The line for a token of a list shows that token, so it has to read
its text, and that can overflow where nothing else would have looked at the text at all.
-/

namespace TokenReplay

/-- A request that was sent to a factory, with the name its source had at that time. -/
structure Call where
  /-- The serial of the factory. -/
  factory : Nat
  source : Option String
  request : CreateRequest
deriving DecidableEq, Repr

/-- What happened so far. -/
structure Session where
  logging : Bool := false
  /-- The next serial to be given out. -/
  nextSerial : Nat := 0
  log : Array Event := #[]
  calls : Array Call := #[]

namespace Session

/-- A serial that was not given out before. -/
def issue (session : Session) : Nat × Session :=
  (session.nextSerial, { session with nextSerial := session.nextSerial + 1 })

/-- The value with an identity of its own. -/
def share {α : Type} (session : Session) (value : α) : Shared α × Session :=
  (⟨session.nextSerial, value⟩, { session with nextSerial := session.nextSerial + 1 })

/-- The session in which `event` happened last. -/
def emit (session : Session) (event : Event) : Session :=
  if session.logging then { session with log := session.log.push event } else session

def note (session : Session) (call : Call) : Session :=
  { session with calls := session.calls.push call }

/-- The requests that were sent since `earlier`. -/
def callsSince (session earlier : Session) : List Call :=
  session.calls.toList.drop earlier.calls.size

/-- Logs that a token of a list is handed out, if it can be shown. -/
def logHandedOut (session : Session) (source : String) (index : Nat) (token : Token) :
    Except Overflow Session :=
  if session.logging then
    match token.display with
    | .error e => .error e
    | .ok display => .ok (session.emit (.handedOut source index display))
  else .ok session

/-- The token of a product. A fresh one gets its identity here. -/
def realize (session : Session) : Product → Shared Token × Session
  | .fresh token => session.share token
  | .existing token => (token, session)

/-- Sends a request to a factory. `source` is the name of the source that the request is made for,
and `during` is the building that it is part of. -/
def create (session : Session) (factory : Shared Factory) (source : Option String)
    (during : Option Building) (request : CreateRequest) :
    Except Overflow (Shared Token) × Session :=
  let noted := session.note ⟨factory.serial, source, request⟩
  match factory.value.create request with
  | .error e => (.error e, noted)
  | .ok creation =>
    let warned := match creation.copyFailure with
      | none => noted
      | some failure => noted.emit (.copyFailed during failure)
    let (token, realized) := warned.realize creation.product
    (.ok token, realized)

theorem emit_of_logging {session : Session} (h : session.logging = true) (event : Event) :
    session.emit event = { session with log := session.log.push event } := if_pos h

theorem emit_of_not_logging {session : Session} (h : session.logging = false) (event : Event) :
    session.emit event = session := by
  simp [emit, h]

@[simp] theorem calls_emit (session : Session) (event : Event) :
    (session.emit event).calls = session.calls := by
  unfold emit
  split <;> rfl

@[simp] theorem logging_emit (session : Session) (event : Event) :
    (session.emit event).logging = session.logging := by
  unfold emit
  split <;> rfl

@[simp] theorem nextSerial_emit (session : Session) (event : Event) :
    (session.emit event).nextSerial = session.nextSerial := by
  unfold emit
  split <;> rfl

@[simp] theorem value_realize (session : Session) (product : Product) :
    (session.realize product).1.value = product.token := by
  cases product <;> rfl

@[simp] theorem calls_realize (session : Session) (product : Product) :
    (session.realize product).2.calls = session.calls := by
  cases product <;> rfl

@[simp] theorem calls_create (session : Session) (factory : Shared Factory) (source : Option String)
    (during : Option Building) (request : CreateRequest) :
    (session.create factory source during request).2.calls =
      session.calls.push ⟨factory.serial, source, request⟩ := by
  unfold create
  cases factory.value.create request with
  | error e => rfl
  | ok creation =>
    dsimp only
    rw [calls_realize]
    cases creation.copyFailure with
    | none => rfl
    | some failure => exact calls_emit _ _

/-- The answer to a request is what the factory makes of it. Fresh tokens get their identity from
the session as it is, since neither noting a call nor logging uses up a serial. -/
theorem fst_create (session : Session) (factory : Shared Factory) (source : Option String)
    (during : Option Building) (request : CreateRequest) :
    (session.create factory source during request).1 =
      (factory.value.create request).map fun creation ↦ (session.realize creation.product).1 := by
  unfold create
  cases factory.value.create request with
  | error e => rfl
  | ok creation =>
    have hrealize : ∀ warned : Session, warned.nextSerial = session.nextSerial →
        (warned.realize creation.product).1 = (session.realize creation.product).1 := by
      intro warned hserial
      cases creation.product with
      | fresh token => exact congrArg (Shared.mk · token) hserial
      | existing token => rfl
    refine congrArg Except.ok (hrealize _ ?_)
    cases creation.copyFailure with
    | none => rfl
    | some failure => exact nextSerial_emit _ _

theorem callsSince_of_toList_calls_eq {session earlier : Session} {sent : List Call}
    (h : session.calls.toList = earlier.calls.toList ++ sent) :
    session.callsSince earlier = sent := by
  rw [callsSince, h, ← Array.length_toList, List.drop_left]

theorem callsSince_of_calls_eq {session earlier : Session} (h : session.calls = earlier.calls) :
    session.callsSince earlier = [] :=
  callsSince_of_toList_calls_eq (by rw [h, List.append_nil])

theorem callsSince_of_calls_push {session earlier : Session} {call : Call}
    (h : session.calls = earlier.calls.push call) : session.callsSince earlier = [call] :=
  callsSince_of_toList_calls_eq (by rw [h, Array.toList_push])

theorem logHandedOut_of_not_logging {session : Session} (h : session.logging = false)
    (source : String) (index : Nat) (token : Token) :
    session.logHandedOut source index token = .ok session := by
  simp [logHandedOut, h]

theorem calls_of_logHandedOut {session logged : Session} {source : String} {index : Nat}
    {token : Token} (h : session.logHandedOut source index token = .ok logged) :
    logged.calls = session.calls := by
  unfold logHandedOut at h
  split at h
  · split at h
    · cases h
    · cases h
      exact calls_emit _ _
  · cases h
    rfl

theorem logHandedOut_eq_error_iff {session : Session} {source : String} {index : Nat}
    {token : Token} {e : Overflow} :
    session.logHandedOut source index token = .error e ↔
      session.logging = true ∧ token.Unreadable := by
  rw [← Token.display_eq_error_iff (e := e), logHandedOut]
  cases session.logging with
  | false => simp
  | true => cases token.display <;> simp

end Session

end TokenReplay
