import TokenReplay.Shared
import TokenReplay.Stream

/-!
# Where tokens come from

A token remembers the source that made it and the stream it points into, and it holds them in
different ways. The stream is kept for good, since the text may have to be read from it. The source
is only referred to by its key: whoever wants its name has to find a `SourceId` with that key that
somebody still holds. A token never holds one itself, so no token keeps a source alive.
-/

namespace TokenReplay

/-- What identifies a source. Two sources of one name have different keys. -/
structure SourceKey where
  serial : Nat
deriving DecidableEq, Repr

/-- The identity of a source, as the source itself holds it. -/
structure SourceId where
  key : SourceKey
  name : String
deriving DecidableEq, Repr

/-- Where a token came from. Made-up tokens may have neither source nor stream. -/
structure Origin where
  source : Option SourceKey := none
  stream : Option (Shared Stream) := none
deriving DecidableEq, Repr, Inhabited

end TokenReplay
