import TokenReplay.Source.Pass
import TokenReplay.Text.Escape

/-!
# Dumps

A dump shows a value with all its parts, on one line, as nested names. Three shapes cover
everything: a name with labelled fields in braces, a name with one argument in parentheses, and a
list in square brackets. Text is quoted, and what is not worth showing is left out as two dots: the
stream of an origin, and of the source behind it only that it is not held.

A source is dumped the way it is asked about, as the whole list and the index of the next token.
-/

namespace TokenReplay

namespace Dump

/-- A name with fields. -/
def record (name : String) (fields : List (String × String)) : String :=
  name ++ " \x7b " ++ ", ".intercalate (fields.map fun (label, value) ↦ label ++ ": " ++ value) ++
    " \x7d"

/-- A name with an argument. -/
def tagged (name argument : String) : String := name ++ "(" ++ argument ++ ")"

def option {α : Type} (dump : α → String) : Option α → String
  | none => "None"
  | some value => tagged "Some" (dump value)

def list {α : Type} (dump : α → String) (values : List α) : String :=
  "[" ++ ", ".intercalate (values.map dump) ++ "]"

def bool (b : Bool) : String := if b then "true" else "false"

end Dump

def ByteSpan.dump (span : ByteSpan) : String :=
  Dump.record "ByteSpan"
    [("start", Dump.option Nat.repr span.start?), ("stop", Dump.option Nat.repr span.stop?)]

def Position.dump (position : Position) : String :=
  Dump.record "Position"
    [("line", Dump.option Nat.repr position.line), ("column", position.column.repr)]

def TokenType.dump (type : TokenType) : String := Dump.tagged "TokenType" type.render

def Channel.dump (channel : Channel) : String := Dump.tagged "Channel" channel.render

def SourceId.dump (id : SourceId) : String := Dump.record "SourceId" [("name", quote id.name)]

def Stream.dump (stream : Stream) : String :=
  Dump.record "InputStream" [("name", quote stream.name), ("data", quote stream.data)]

def Origin.dump (_ : Origin) : String := "TokenOrigin \x7b source: (Weak), .. \x7d"

def Token.dump (token : Token) : String :=
  Dump.record "Token"
    [("token_type", token.type.dump), ("channel", token.channel.dump),
      ("text", Dump.option quote token.ownText), ("span", token.span.dump),
      ("position", token.position.dump), ("index", Dump.option Nat.repr token.index),
      ("origin", token.origin.dump)]

def Factory.dump : Factory → String
  | .common copyText => Dump.record "CommonTokenFactory" [("copy_text", Dump.bool copyText)]
  | .custom _ => "CustomTokenFactory"

def StreamError.dump : StreamError → String
  | .unknownSpan => "UnknownSpan"
  | .outOfBounds start stop length =>
    Dump.record "OutOfBounds" [("start", start.repr), ("stop", stop.repr), ("len", length.repr)]
  | .notCharBoundary offset => Dump.record "NotCharBoundary" [("offset", offset.repr)]

/-- The dump of the text of a span, or of the reason why there is none. -/
def StreamError.dumpReading : Except StreamError String → String
  | .ok text => Dump.tagged "Ok" (quote text)
  | .error error => Dump.tagged "Err" error.dump

def Source.dump (source : Source) : String :=
  let token (shared : Shared Token) : String := shared.value.dump
  Dump.record "ListTokenSource"
    [("tokens", Dump.list token source.tokens), ("idx", source.cursor.repr),
      ("eof", Dump.option token source.eof?), ("id", source.id.dump),
      ("factory", source.factory.value.dump)]

def Pass.dump (pass : Pass) : String :=
  Dump.record "Tokens" [("source", pass.source.dump), ("done", Dump.bool pass.finished)]

end TokenReplay
