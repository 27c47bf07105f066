/-!
# Text measured in bytes

Offsets into a stream count the bytes of its UTF-8 form, while its text is a list of characters.
This module joins the two without ever building the bytes: `byteLength` adds up the widths of the
characters, and `splitAtByte?` cuts a list after so many bytes.

An offset that falls inside a character is no place to cut, and neither is one beyond the end. Every
other offset is: `splitAtByte?_eq_some_iff` says that the cuts found are all the ways there are to
write the list as two.
-/

namespace TokenReplay

/-- The number of bytes that the characters take in UTF-8. -/
def byteLength : List Char → Nat
  | [] => 0
  | c :: cs => c.utf8Size + byteLength cs

@[simp] theorem byteLength_nil : byteLength [] = 0 := rfl

@[simp] theorem byteLength_cons (c : Char) (cs : List Char) :
    byteLength (c :: cs) = c.utf8Size + byteLength cs := rfl

@[simp] theorem byteLength_append (xs ys : List Char) :
    byteLength (xs ++ ys) = byteLength xs + byteLength ys := by
  induction xs with
  | nil => simp
  | cons c cs ih => simp [ih, Nat.add_assoc]

@[simp] theorem byteLength_eq_zero_iff {cs : List Char} : byteLength cs = 0 ↔ cs = [] := by
  cases cs with
  | nil => simp
  | cons c cs =>
    have := c.utf8Size_pos
    simp only [byteLength_cons, reduceCtorEq, iff_false]
    omega

theorem byteLength_toList (s : String) : byteLength s.toList = s.utf8ByteSize := by
  have ofList : ∀ cs : List Char, byteLength cs = (String.ofList cs).utf8ByteSize := by
    intro cs
    induction cs with
    | nil => simp
    | cons c cs ih =>
      have hsplit : String.ofList (c :: cs) = String.singleton c ++ String.ofList cs := by
        rw [String.singleton_eq_ofList, ← String.ofList_append, List.singleton_append]
      rw [byteLength_cons, ih, hsplit, String.utf8ByteSize_append, String.utf8ByteSize_singleton]
  rw [ofList, String.ofList_toList]

/-- The characters before and after the first `n` bytes. -/
def splitAtByte? : Nat → List Char → Option (List Char × List Char)
  | 0, cs => some ([], cs)
  | _ + 1, [] => none
  | n + 1, c :: cs =>
    if c.utf8Size ≤ n + 1 then
      (splitAtByte? (n + 1 - c.utf8Size) cs).map fun (front, back) ↦ (c :: front, back)
    else none

@[simp] theorem splitAtByte?_zero (cs : List Char) : splitAtByte? 0 cs = some ([], cs) := by
  cases cs <;> rfl

theorem splitAtByte?_append (front back : List Char) :
    splitAtByte? (byteLength front) (front ++ back) = some (front, back) := by
  induction front with
  | nil => simp
  | cons c cs ih =>
    have hc := c.utf8Size_pos
    obtain ⟨n, hn⟩ : ∃ n, byteLength (c :: cs) = n + 1 :=
      ⟨byteLength (c :: cs) - 1, by rw [byteLength_cons]; omega⟩
    have hrest : n + 1 - c.utf8Size = byteLength cs := by
      rw [byteLength_cons] at hn
      omega
    rw [hn, List.cons_append, splitAtByte?, if_pos (by rw [byteLength_cons] at hn; omega), hrest,
      ih]
    rfl

theorem of_splitAtByte?_eq_some {n : Nat} {cs front back : List Char}
    (h : splitAtByte? n cs = some (front, back)) : front ++ back = cs ∧ byteLength front = n := by
  induction cs generalizing n front back with
  | nil =>
    cases n with
    | zero =>
      rw [splitAtByte?_zero, Option.some.injEq, Prod.mk.injEq] at h
      obtain ⟨rfl, rfl⟩ := h
      exact ⟨rfl, rfl⟩
    | succ n => simp [splitAtByte?] at h
  | cons c cs ih =>
    cases n with
    | zero =>
      rw [splitAtByte?_zero, Option.some.injEq, Prod.mk.injEq] at h
      obtain ⟨rfl, rfl⟩ := h
      exact ⟨rfl, rfl⟩
    | succ n =>
      rw [splitAtByte?] at h
      split at h
      · obtain ⟨⟨rest, back'⟩, hcut, heq⟩ := Option.map_eq_some_iff.1 h
        rw [Prod.mk.injEq] at heq
        obtain ⟨rfl, rfl⟩ := heq
        obtain ⟨rfl, hlength⟩ := ih hcut
        refine ⟨rfl, ?_⟩
        rw [byteLength_cons]
        omega
      · simp at h

/-- **Cuts.** A cut after `n` bytes is a way to write the list as two, the first of `n` bytes. -/
theorem splitAtByte?_eq_some_iff {n : Nat} {cs front back : List Char} :
    splitAtByte? n cs = some (front, back) ↔ front ++ back = cs ∧ byteLength front = n := by
  refine ⟨of_splitAtByte?_eq_some, ?_⟩
  rintro ⟨rfl, rfl⟩
  exact splitAtByte?_append front back

theorem append_inj_of_byteLength_eq {front₁ back₁ front₂ back₂ : List Char}
    (h : front₁ ++ back₁ = front₂ ++ back₂) (hlength : byteLength front₁ = byteLength front₂) :
    front₁ = front₂ ∧ back₁ = back₂ := by
  have hcut := splitAtByte?_append front₁ back₁
  rw [h, hlength, splitAtByte?_append, Option.some.injEq, Prod.mk.injEq] at hcut
  exact ⟨hcut.1.symm, hcut.2.symm⟩

end TokenReplay
