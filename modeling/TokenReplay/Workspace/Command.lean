import TokenReplay.Workspace

/-!
# Commands and replies

The language of a workspace. Everything a command works on is given by name; what it gives is a
reply that holds the values themselves, so that whoever reads it can ask them anything. A reply says
nothing about how it is written.
-/

namespace TokenReplay

/-- Where a new token is said to come from. -/
inductive OriginSpec where
  | nowhere
  /-- From where the token of this name came. -/
  | sameAs (token : String)
  /-- From the source with this id, and from this stream. -/
  | given (source stream : Option String)
deriving DecidableEq, Repr

/-- What is set in a token. What is not mentioned stays. -/
structure TokenChanges where
  channel : Option Channel := none
  span : Option ByteSpan := none
  position : Option Position := none
  index : Option Nat := none
  origin : Option OriginSpec := none
deriving DecidableEq, Repr

/-- What a factory is told, with the origin given by name. -/
structure RequestSpec where
  type : TokenType
  text : Option String := none
  channel : Channel := .default
  span : ByteSpan := .unknown
  position : Position := {}
  origin : OriginSpec := .nowhere
deriving DecidableEq, Repr

/-- The kinds of factory there are to choose from. -/
inductive FactorySpec where
  | common (copyText : Bool)
  | forwarding (copyText dropText : Bool)
  | fixed (token : String)
deriving DecidableEq, Repr

/-- Whose factory is meant. -/
inductive FactoryRef where
  | named (factory : String)
  | ofSource (source : String)
deriving DecidableEq, Repr

/-- A part of a workspace that can be dumped. -/
inductive Exhibit where
  | token (token : String)
  | origin (token : String)
  | sourceId (id : String)
  | stream (stream : String)
  | text (stream : String) (span : ByteSpan)
  | factory (factory : String)
  | source (source : String)
  /-- A pass over the source that has not begun. -/
  | pass (source : String)
deriving DecidableEq, Repr

/-- Something to be done to a workspace. -/
inductive Command where
  /-- Opens the stream `stream`. -/
  | openStream (stream name data : String)
  | readText (stream : String) (span : ByteSpan)
  /-- Whether two spans of two streams read the same, be it text or the reason for having none. -/
  | sameText (stream₁ : String) (span₁ : ByteSpan) (stream₂ : String) (span₂ : ByteSpan)
  /-- Makes a source id that the name `id` holds. -/
  | openSourceId (id name : String)
  /-- Makes a token, and puts it under the name `keep`. -/
  | makeToken (keep : Option String) (type : TokenType) (text : Option String)
      (changes : TokenChanges)
  /-- Makes a changed copy of a token. -/
  | deriveToken (keep : Option String) (base : String) (changes : TokenChanges)
  | showToken (token : String)
  /-- Takes hold of the id of the source that a token came from, if it is still alive. -/
  | upgrade (id token : String)
  | makeFactory (factory : String) (spec : FactorySpec)
  /-- The calls that a factory other than a common one got. -/
  | listCalls (factory : String)
  | create (keep : Option String) (factory : FactoryRef) (request : RequestSpec)
  /-- Opens the source `source` over tokens, or over copies of them. -/
  | openSource (source name : String) (tokens : List String) (factory : Option String)
      (copies : Bool)
  /-- Records `base` as `source`. -/
  | record (source base name : String)
  | next (source : String) (keep : Option String)
  | take (source : String) (count : Nat)
  | drain (source : String)
  /-- The end of stream token, if there is one yet. -/
  | eof (source : String) (keep : Option String)
  | skip (source : String)
  | more (source : String)
  | setFactory (source factory : String)
  /-- Does nothing to the source but being asked for it. -/
  | look (source : String)
  | dropToken (token : String)
  | dropSourceId (id : String)
  | dropSource (source : String)
  | dump (exhibit : Exhibit)
deriving DecidableEq, Repr

/-- What a command gives. -/
inductive Reply where
  | done
  | flag (flag : Bool)
  | name (name : Option String)
  | stream (stream : Shared Stream)
  | text (text : Except StreamError String)
  | token (token : Option (Shared Token))
  | factory (factory : Shared Factory)
  | calls (calls : Option (List Call))
  | items (items : List (Option (Shared Token)))
  | tokens (tokens : List (Shared Token))
  /-- A source as it was when the reply was given. -/
  | source (source : Source)
  | dump (dump : String)

end TokenReplay
