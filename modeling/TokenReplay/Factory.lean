import TokenReplay.Token

/-!
# Token factories

Sources do not make tokens on their own account, they ask a factory. What a factory answers depends
on the request and on nothing else, so a factory is a function of it; what it hands over is a token
nobody has seen before, or one that is around already.

The common factory makes what it is asked for. It can be told to copy the text of tokens that come
without any, so that they no longer need their stream. Where there is no such text the token is made
all the same, and the reason goes with it as a `CopyFailure` for whoever keeps the log.

Two further factories are made to be watched. One passes each request on to a common factory, with
or without its text; the other hands over one and the same token whatever it is asked for.
-/

namespace TokenReplay

/-- What a factory is told about the token that is wanted. -/
structure CreateRequest where
  origin : Origin
  type : TokenType
  text : Option String
  channel : Channel
  span : ByteSpan
  position : Position
deriving DecidableEq, Repr

/-- The token that was asked for, with its text replaced. -/
def CreateRequest.tokenWith (request : CreateRequest) (text : Option String) : Token where
  type := request.type
  ownText := text
  channel := request.channel
  span := request.span
  position := request.position
  origin := request.origin

/-- The token that a factory hands over. -/
inductive Product where
  | fresh (token : Token)
  | existing (token : Shared Token)
deriving DecidableEq, Repr

/-- What the token of a product looks like. -/
def Product.token : Product → Token
  | fresh token => token
  | existing token => token.value

/-- Why the text of a token was not copied from the stream of this name. -/
structure CopyFailure where
  stream : String
  error : StreamError
deriving DecidableEq, Repr

/-- A factory's answer. -/
structure Creation where
  product : Product
  copyFailure : Option CopyFailure := none
deriving DecidableEq, Repr

/-- A way to make tokens. -/
inductive Factory where
  | common (copyText : Bool)
  | custom (create : CreateRequest → Except Overflow Creation)

namespace Factory

/-- The common factory. It looks into the stream only to copy text that was not given. -/
def commonCreate (copyText : Bool) (request : CreateRequest) : Except Overflow Creation :=
  match request.text, request.origin.stream with
  | some text, _ => .ok { product := .fresh (request.tokenWith (some text)) }
  | none, none => .ok { product := .fresh (request.tokenWith none) }
  | none, some stream =>
    if copyText then
      match stream.value.text request.span with
      | .error e => .error e
      | .ok (.ok copied) => .ok { product := .fresh (request.tokenWith (some copied)) }
      | .ok (.error error) =>
        .ok { product := .fresh (request.tokenWith none),
              copyFailure := some ⟨stream.value.name, error⟩ }
    else .ok { product := .fresh (request.tokenWith none) }

def create : Factory → CreateRequest → Except Overflow Creation
  | common copyText => commonCreate copyText
  | custom create => create

/-- Whether a common factory copies text; nothing for other factories. -/
def copyText? : Factory → Option Bool
  | common copyText => some copyText
  | custom _ => none

/-- The factory that passes requests on to a common one, less their text if `dropText` is set. -/
def forwarding (copyText dropText : Bool) : Factory :=
  custom fun request ↦
    commonCreate copyText { request with text := if dropText then none else request.text }

/-- The factory that always hands over `token`. -/
def fixed (token : Shared Token) : Factory :=
  custom fun _ ↦ .ok { product := .existing token }

theorem commonCreate_false (request : CreateRequest) :
    commonCreate false request = .ok { product := .fresh (request.tokenWith request.text) } := by
  unfold commonCreate
  cases request.text with
  | some text => rfl
  | none => cases request.origin.stream <;> rfl

theorem commonCreate_of_text (copyText : Bool) {request : CreateRequest} {text : String}
    (h : request.text = some text) :
    commonCreate copyText request =
      .ok { product := .fresh (request.tokenWith (some text)) } := by
  unfold commonCreate
  rw [h]

theorem commonCreate_of_no_stream (copyText : Bool) {request : CreateRequest}
    (h : request.origin.stream = none) :
    commonCreate copyText request = .ok { product := .fresh (request.tokenWith request.text) } := by
  unfold commonCreate
  rw [h]
  cases request.text <;> rfl

end Factory

end TokenReplay
