import TokenReplay.Text.Escape
import TokenReplay.Token

/-!
# How a token is shown

A token is shown on a single line, with its index, span, text, type and position, in square
brackets. The default channel goes without saying; any other stands between type and position.
-/

namespace TokenReplay.Token

/-- The text of a token as it is shown. -/
def shownText : Option String → String
  | some text => escapeLines text
  | none => "<no text>"

/-- The channel of a token as it is shown, with the comma that leads it. -/
def shownChannel (channel : Channel) : String :=
  if channel = .default then "" else ",channel=" ++ channel.render

/-- The line for a token whose text is known. -/
def displayWith (token : Token) (text : Option String) : String :=
  "[@" ++ sizeText token.index ++ "," ++ token.span.render ++ "='" ++ shownText text ++ "',<" ++
    token.type.render ++ ">" ++ shownChannel token.channel ++ "," ++ token.position.render ++ "]"

/-- The line for a token. It has to read the text. -/
def display (token : Token) : Except Overflow String :=
  match token.text with
  | .error e => .error e
  | .ok text => .ok (token.displayWith text)

theorem display_of_text {token : Token} {text : Option String} (h : token.text = .ok text) :
    token.display = .ok (token.displayWith text) := by
  rw [display, h]

theorem display_eq_error_iff {token : Token} {e : Overflow} :
    token.display = .error e ↔ token.Unreadable := by
  rw [← text_eq_error_iff (e := e), display]
  cases token.text <;> simp

end TokenReplay.Token
