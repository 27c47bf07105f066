import TokenReplay.Source

/-!
# Passes

A pass goes over what a source still has to hand out. It ends with the first token of end type,
which it gives as its last item, and after that it gives nothing and leaves the source alone. Such a
token need not be the end of the list: one in the middle of it ends the pass just as well, and the
next pass goes on behind it.

A pass need not end at all. A factory may put a token of another type at the end of the stream, and
the source then hands out that token for ever. So collecting a pass is done with a limit on the
number of items asked for, and gives nothing if the limit is too low. `Source.drain` has a limit
that is never too low unless every limit is: each token of the list, one token behind it, and one
more item to see the end.
-/

namespace TokenReplay

/-- A pass over a source. -/
structure Pass where
  source : Source
  finished : Bool := false

namespace Pass

/-- The next item, or nothing once the pass has ended. -/
def next? (pass : Pass) (session : Session) : Step Pass (Option (Shared Token)) :=
  if pass.finished then ⟨.ok none, pass, session⟩
  else
    match pass.source.next session with
    | ⟨.error e, source, after⟩ => ⟨.error e, { pass with source := source }, after⟩
    | ⟨.ok token, source, after⟩ => ⟨.ok (some token), ⟨source, token.value.isEof⟩, after⟩

/-- So many items, whether or not the pass ends before. -/
def take : Nat → Pass → Session → Step Pass (List (Option (Shared Token)))
  | 0, pass, session => ⟨.ok [], pass, session⟩
  | count + 1, pass, session =>
    match pass.next? session with
    | ⟨.error e, pass, session⟩ => ⟨.error e, pass, session⟩
    | ⟨.ok item, pass, session⟩ => (take count pass session).map (item :: ·)

/-- All items up to the end of the pass, if it ends within `limit` items. -/
def collectWithin : Nat → Pass → Session → Option (Step Pass (List (Shared Token)))
  | 0, _, _ => none
  | limit + 1, pass, session =>
    match pass.next? session with
    | ⟨.error e, pass, session⟩ => some ⟨.error e, pass, session⟩
    | ⟨.ok none, pass, session⟩ => some ⟨.ok [], pass, session⟩
    | ⟨.ok (some token), pass, session⟩ =>
      (collectWithin limit pass session).map fun step ↦ step.map (token :: ·)

theorem next?_of_finished {pass : Pass} (h : pass.finished = true) (session : Session) :
    pass.next? session = ⟨.ok none, pass, session⟩ := if_pos h

end Pass

namespace Source

/-- The first `count` items of a pass. -/
def take (source : Source) (count : Nat) (session : Session) :
    Step Source (List (Option (Shared Token))) :=
  ((⟨source, false⟩ : Pass).take count session).embed Pass.source

/-- All items of a pass, if it ends. -/
def drain (source : Source) (session : Session) : Option (Step Source (List (Shared Token))) :=
  ((⟨source, false⟩ : Pass).collectWithin (source.rest.toList.length + 2) session).map fun step ↦
    step.embed Pass.source

end Source

end TokenReplay
