import TokenReplay.Source.Pass
import TokenReplay.Source.Record

/-!
# Operations on a source

Everything that can be done to a source, as data, so that a history of a source is a list of
operations. Skipping and asking for more mean something to a source that scans its tokens; here they
do nothing. Neither do the questions that a source answers, and only two of the answers, line and
column, may overflow.
-/

namespace TokenReplay.Source

/-- What a source can be asked. -/
inductive Query where
  | line
  | column
  | stream
  | name
  | factory
  | size
  | isEmpty
  | cursor
  | isExhausted
  | eof
deriving DecidableEq, Repr

/-- What can be done to a source. -/
inductive Op where
  | next
  | skip
  | more
  | ask (query : Query)
  | setFactory (factory : Shared Factory)
  /-- Asks a new pass for so many items and gives it up. -/
  | take (count : Nat)
  | drain
  | record (name : String)

/-- What an operation gives. -/
inductive Answer where
  | done
  | flag (flag : Bool)
  | number (number : Nat)
  | name (name : String)
  | line (line : Option Nat)
  | stream (stream : Option (Shared Stream))
  | factory (factory : Shared Factory)
  | eof (eof : Option (Shared Token))
  | token (token : Shared Token)
  | items (items : List (Option (Shared Token)))
  | tokens (tokens : List (Shared Token))
  | recording (recording : Source)

/-- The answer to a question. -/
def answer (source : Source) : Query → Except Overflow Answer
  | .line => source.line.map .line
  | .column => source.column.map .number
  | .stream => .ok (.stream source.stream?)
  | .name => .ok (.name source.id.name)
  | .factory => .ok (.factory source.factory)
  | .size => .ok (.number source.size)
  | .isEmpty => .ok (.flag source.isEmpty)
  | .cursor => .ok (.number source.cursor)
  | .isExhausted => .ok (.flag source.isExhausted)
  | .eof => .ok (.eof source.eof?)

/-- Does an operation; nothing if it would never end. -/
def perform (source : Source) (session : Session) : Op → Option (Step Source Answer)
  | .next => some ((source.next session).map .token)
  | .skip => some ⟨.ok .done, source, session⟩
  | .more => some ⟨.ok .done, source, session⟩
  | .ask query => some ⟨source.answer query, source, session⟩
  | .setFactory factory => some ⟨.ok .done, source.setFactory factory, session⟩
  | .take count => some ((source.take count session).map .items)
  | .drain => (source.drain session).map fun step ↦ step.map .tokens
  | .record name => (source.record name session).map fun step ↦ step.map .recording

end TokenReplay.Source
