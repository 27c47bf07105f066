import TokenReplay.Size

/-!
# Byte spans

A span says which bytes of a stream a token covers: from `start` to `stop`, both included. Stops
that are one less than their start denote empty spans, and nothing forbids a stop further down; such
a span is empty as well, but no stream has text for it.

The two ends are known together or not at all. Tokens that were made up rather than scanned have no
span, and nothing produces a span with one end, so there is no value for it.
-/

namespace TokenReplay

/-- An inclusive range of bytes of a stream. -/
inductive ByteSpan where
  | unknown
  | inclusive (start stop : Nat)
deriving DecidableEq, Repr

namespace ByteSpan

instance : Inhabited ByteSpan := ⟨unknown⟩

def start? : ByteSpan → Option Nat
  | unknown => none
  | inclusive start _ => some start

def stop? : ByteSpan → Option Nat
  | unknown => none
  | inclusive _ stop => some stop

@[simp] theorem start?_unknown : unknown.start? = none := rfl

@[simp] theorem start?_inclusive (start stop : Nat) : (inclusive start stop).start? = some start :=
  rfl

@[simp] theorem stop?_unknown : unknown.stop? = none := rfl

@[simp] theorem stop?_inclusive (start stop : Nat) : (inclusive start stop).stop? = some stop := rfl

/-- The empty span just behind a token that ends at `stop`. Behind the last offset there is no room
for one, and it is unknown. -/
def emptyAfter (stop : Nat) : ByteSpan :=
  if stop < maxSize then inclusive (stop + 1) stop else unknown

theorem emptyAfter_of_lt {stop : Nat} (h : stop < maxSize) :
    emptyAfter stop = inclusive (stop + 1) stop := if_pos h

theorem emptyAfter_of_le {stop : Nat} (h : maxSize ≤ stop) : emptyAfter stop = unknown :=
  if_neg (by omega)

theorem stop?_emptyAfter_eq_some_iff {offset stop : Nat} :
    (emptyAfter offset).stop? = some stop ↔ offset = stop ∧ stop < maxSize := by
  by_cases hlt : offset < maxSize
  · rw [emptyAfter_of_lt hlt, stop?_inclusive, Option.some.injEq]
    exact ⟨fun h ↦ ⟨h, h ▸ hlt⟩, And.left⟩
  · rw [emptyAfter_of_le (Nat.le_of_not_lt hlt), stop?_unknown]
    simp only [reduceCtorEq, false_iff, not_and]
    rintro rfl
    exact hlt

/-- The number of bytes covered, if the ends are known. The offset past `stop` is computed first,
even where a start beyond it makes the length zero. -/
def length? : ByteSpan → Except Overflow (Option Nat)
  | unknown => .ok none
  | inclusive start stop =>
    match addSize stop 1 with
    | .error e => .error e
    | .ok past => .ok (some (past - start))

theorem length?_inclusive_of_lt (start : Nat) {stop : Nat} (h : stop < maxSize) :
    (inclusive start stop).length? = .ok (some (stop + 1 - start)) := by
  have : addSize stop 1 = .ok (stop + 1) := addSize_eq_ok_iff.2 ⟨rfl, h⟩
  simp [length?, this]

/-- How a span is written: its ends with a colon between them. -/
def render (span : ByteSpan) : String :=
  sizeText span.start? ++ ":" ++ sizeText span.stop?

end ByteSpan

end TokenReplay
