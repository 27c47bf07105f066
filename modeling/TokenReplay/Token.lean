import TokenReplay.Origin
import TokenReplay.Position

/-!
# Tokens

A token is a type and a place. Its text may be given outright, in `ownText`, and otherwise it is
read from the stream it came from every time somebody asks. Given text wins, whatever the span says.
A span without text in the stream is no error here, the token then has no text. What does come
through is an overflow while reading, and `text_eq_error_iff` says which tokens have one.
-/

namespace TokenReplay

/-- The type tag of a token. Grammars number their own types from one up. -/
structure TokenType where
  code : Int
deriving DecidableEq, Repr

namespace TokenType

/-- The type of end of stream tokens. -/
def eof : TokenType := ⟨-1⟩

def invalid : TokenType := ⟨0⟩

def render (type : TokenType) : String := type.code.repr

end TokenType

/-- The lane a token travels on. -/
structure Channel where
  number : Nat
deriving DecidableEq, Repr

namespace Channel

/-- The lane that parsers look at. -/
protected def default : Channel := ⟨0⟩

def hidden : Channel := ⟨1⟩

instance : Inhabited Channel := ⟨Channel.default⟩

def render (channel : Channel) : String := channel.number.repr

end Channel

/-- A lexical unit. -/
structure Token where
  type : TokenType
  /-- The text, where it was given outright. -/
  ownText : Option String := none
  channel : Channel := Channel.default
  span : ByteSpan := .unknown
  position : Position := {}
  /-- The place in a buffer of tokens, once it has one. -/
  index : Option Nat := none
  origin : Origin := {}
deriving DecidableEq, Repr

namespace Token

/-- Whether this token ends a stream. Nothing keeps one with that type out of the middle of a list.
-/
def isEof (token : Token) : Bool := token.type = .eof

@[simp] theorem isEof_iff {token : Token} : token.isEof = true ↔ token.type = .eof := by
  simp [isEof]

/-- The given text, or else the text of the span in the stream. -/
def text (token : Token) : Except Overflow (Option String) :=
  match token.ownText with
  | some given => .ok (some given)
  | none =>
    match token.origin.stream with
    | none => .ok none
    | some stream =>
      match stream.value.text token.span with
      | .error e => .error e
      | .ok read => .ok read.toOption

theorem text_of_ownText {token : Token} {given : String} (h : token.ownText = some given) :
    token.text = .ok (some given) := by
  rw [text, h]

/-- A token whose text cannot even be looked for: it has to be read from a stream, and the span ends
at the last offset there is. -/
def Unreadable (token : Token) : Prop :=
  token.ownText = none ∧ token.origin.stream ≠ none ∧
    ∃ stop, token.span.stop? = some stop ∧ maxSize ≤ stop

theorem text_eq_error_iff {token : Token} {e : Overflow} :
    token.text = .error e ↔ token.Unreadable := by
  unfold text Unreadable
  cases token.ownText with
  | some given => simp
  | none =>
    cases token.origin.stream with
    | none => simp
    | some stream =>
      rw [← @Stream.text_eq_error_iff stream.value token.span e]
      cases hread : stream.value.text token.span <;> simp [hread]

end Token

end TokenReplay
