/-!
# Characters written as escapes

Text is shown inside of single lines, so some characters are written as a backslash and a letter.
There are two ways to do it. `escapeLines` is for readers: it escapes what would break or shift a
line and nothing else, so it cannot always be undone. `quote` is for looking at a value: it also
escapes the backslash and the double quote, and puts the text between double quotes.

`escapeLines` goes over the text once for each character that it replaces. As no replacement brings
in a character that a later pass looks for, that is the same as going over it once
(`toList_escapeLines`).
-/

namespace TokenReplay

/-- The list with `new` in place of every `old`. -/
def replaceChar (old : Char) (new : List Char) (cs : List Char) : List Char :=
  cs.flatMap fun c ↦ if c = old then new else [c]

@[simp] theorem replaceChar_nil (old : Char) (new : List Char) : replaceChar old new [] = [] := rfl

@[simp] theorem replaceChar_cons (old : Char) (new : List Char) (c : Char) (cs : List Char) :
    replaceChar old new (c :: cs) = (if c = old then new else [c]) ++ replaceChar old new cs := rfl

@[simp] theorem replaceChar_append (old : Char) (new xs ys : List Char) :
    replaceChar old new (xs ++ ys) = replaceChar old new xs ++ replaceChar old new ys := by
  simp [replaceChar]

/-- The text with line feeds, carriage returns and tabs written as escapes. -/
def escapeLines (s : String) : String :=
  String.ofList <| replaceChar '\t' ['\\', 't'] <| replaceChar '\r' ['\\', 'r'] <|
    replaceChar '\n' ['\\', 'n'] s.toList

/-- What stands for one character in an escaped line. -/
def escapeLineChar (c : Char) : List Char :=
  if c = '\n' then ['\\', 'n'] else if c = '\r' then ['\\', 'r'] else if c = '\t' then ['\\', 't']
  else [c]

/-- The three passes escape each character once. -/
theorem toList_escapeLines (s : String) :
    (escapeLines s).toList = s.toList.flatMap escapeLineChar := by
  rw [escapeLines, String.toList_ofList]
  induction s.toList with
  | nil => rfl
  | cons c cs ih =>
    rw [List.flatMap_cons, ← ih, replaceChar_cons, replaceChar_append, replaceChar_append]
    congr 1
    unfold escapeLineChar
    by_cases hn : c = '\n'
    · subst hn
      decide
    · by_cases hr : c = '\r'
      · subst hr
        decide
      · simp [hn, hr]

/-- What stands for one character between double quotes. -/
def quoteChar : Char → List Char
  | '\n' => ['\\', 'n']
  | '\r' => ['\\', 'r']
  | '\t' => ['\\', 't']
  | '"' => ['\\', '"']
  | '\\' => ['\\', '\\']
  | c => [c]

/-- The text between double quotes. -/
def quote (s : String) : String :=
  "\"" ++ String.ofList (s.toList.flatMap quoteChar) ++ "\""

end TokenReplay
