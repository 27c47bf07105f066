/-!
# Values with an identity

Tokens, streams and factories are handed around without being copied, and it matters whether two
places hold the same one or two that look alike. A `Shared` value therefore carries a serial number.
Serials are taken from one supply and never given out twice, so the serial is the identity and the
value is what it stands for: values that share a serial are equal, and equal values need not share
one.
-/

namespace TokenReplay

/-- A value together with the serial that identifies it. -/
structure Shared (α : Type) where
  serial : Nat
  value : α
deriving DecidableEq, Repr

end TokenReplay
