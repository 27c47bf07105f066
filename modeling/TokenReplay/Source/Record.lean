import TokenReplay.Source

/-!
# Recordings

A recording is a source over the tokens that another source handed out up to a token of end type.
That token itself is left out: the recording gets an end of stream token of its own when it needs
one, from a factory of its own.

As with passes, there may never be a token of end type, and the tokens are pulled with a limit. A
failure on the way makes no recording, but the tokens pulled before it are gone from the source.
-/

namespace TokenReplay.Source

/-- The tokens that are handed out ahead of the next one of end type, if that comes within `limit`
tokens. -/
def pullWithin : Nat → Source → Session → Option (Step Source (List (Shared Token)))
  | 0, _, _ => none
  | limit + 1, source, session =>
    match source.next session with
    | ⟨.error e, source, session⟩ => some ⟨.error e, source, session⟩
    | ⟨.ok token, source, session⟩ =>
      if token.value.isEof then some ⟨.ok [], source, session⟩
      else (pullWithin limit source session).map fun step ↦ step.map (token :: ·)

/-- Records the rest of the source under a new name, if the source comes to an end. The limit is
enough for each token of the list and one behind it. -/
def record (source : Source) (name : String) (session : Session) : Option (Step Source Source) :=
  match source.pullWithin (source.rest.toList.length + 1) session with
  | none => none
  | some ⟨.error e, source, session⟩ => some ⟨.error e, source, session⟩
  | some ⟨.ok tokens, source, session⟩ =>
    let (recording, after) :=
      ofTokens tokens name (session.emit (.recorded tokens.length source.id.name))
    some ⟨.ok recording, source, after⟩

end TokenReplay.Source
