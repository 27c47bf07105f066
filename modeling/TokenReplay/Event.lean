import TokenReplay.Factory

/-!
# Events

What is worth a line in the log: a token of a list handed out, an end of stream token built, a
source recorded, and text that could not be copied. The events keep the values they are about, and
the words are put together only when somebody wants to read them (`Event.line`).

Building an end of stream token is an activity of some length, in which other things may happen.
Events that belong to it say so; the activity is named after the source that is at its end.
-/

namespace TokenReplay

/-- How important an event is. -/
inductive Level where
  | trace
  | debug
  | info
  | warn
deriving DecidableEq, Repr

def Level.render : Level → String
  | .trace => "TRACE"
  | .debug => "DEBUG"
  | .info => "INFO"
  | .warn => "WARN"

/-- An activity of some length, as the lines that belong to it tell of it. -/
structure Activity where
  name : String
  level : String
  fields : List (String × String)
deriving DecidableEq, Repr

/-- A line of the log. -/
structure Line where
  level : String
  message : String
  /-- What is reported beside the message, by name. -/
  fields : List (String × String) := []
  /-- The activity that the line belongs to. -/
  during : Option Activity := none
deriving DecidableEq, Repr

/-- The building of an end of stream token for the source of this name. -/
structure Building where
  source : String
deriving DecidableEq, Repr

namespace Building

def name (_ : Building) : String := "make_eof"

def level (_ : Building) : Level := .info

def fields (building : Building) : List (String × String) := [("source", building.source)]

def activity (building : Building) : Activity :=
  ⟨building.name, building.level.render, building.fields⟩

end Building

/-- Something that happened to a source or in a factory. -/
inductive Event where
  /-- The token `index` of the list was handed out. -/
  | handedOut (source : String) (index : Nat) (display : String)
  /-- An end of stream token was built, from this span and position. -/
  | builtEof (source : String) (span : ByteSpan) (position : Position)
  /-- So many tokens were recorded from the source. -/
  | recorded (count : Nat) (source : String)
  /-- A common factory found no text to copy. -/
  | copyFailed (during : Option Building) (failure : CopyFailure)
deriving DecidableEq, Repr

namespace Event

def level : Event → Level
  | handedOut .. => .trace
  | builtEof .. => .debug
  | recorded .. => .debug
  | copyFailed .. => .warn

def message : Event → String
  | handedOut source index display => source ++ ": token " ++ index.repr ++ " is " ++ display
  | builtEof .. => "built end of stream token"
  | recorded count source => "recorded " ++ count.repr ++ " tokens from `" ++ source ++ "`"
  | copyFailed _ failure =>
    "could not copy token text from `" ++ failure.stream ++ "`: " ++ failure.error.message

/-- What is reported beside the message, by name. -/
def fields : Event → List (String × String)
  | builtEof _ span position => [("span", span.render), ("position", position.render)]
  | _ => []

/-- The activity that the event belongs to. -/
def building? : Event → Option Building
  | builtEof source _ _ => some ⟨source⟩
  | copyFailed during _ => during
  | _ => none

/-- The event in words. -/
def line (event : Event) : Line where
  level := event.level.render
  message := event.message
  fields := event.fields
  during := event.building?.map Building.activity

end Event

end TokenReplay
