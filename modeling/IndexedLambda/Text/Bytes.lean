/-!
# Cutting a text at a byte

Positions in a name count the bytes of its UTF-8 form. A cut exists only where a character begins or
the text ends.
-/

namespace IndexedLambda.Text

/-- Number of bytes of the UTF-8 form. -/
def byteLength : List Char → Nat
  | [] => 0
  | c :: chars => c.utf8Size + byteLength chars

/-- The characters before and after the first `n` bytes, if a character ends there. -/
def splitAtByte (n : Nat) : List Char → Option (List Char × List Char)
  | [] => if n = 0 then some ([], []) else none
  | c :: chars =>
    if n = 0 then some ([], c :: chars)
    else if c.utf8Size ≤ n then
      (splitAtByte (n - c.utf8Size) chars).map fun (before, after) => (c :: before, after)
    else none

/-- A cut loses nothing, and the first part has as many bytes as were asked for. -/
theorem splitAtByte_eq_some {n : Nat} {chars before after : List Char}
    (h : splitAtByte n chars = some (before, after)) :
    before ++ after = chars ∧ byteLength before = n := by
  induction chars generalizing n before with
  | nil =>
    by_cases hn : n = 0
    · simp [splitAtByte, hn] at h
      simp [h, hn, byteLength]
    · simp [splitAtByte, hn] at h
  | cons c chars ih =>
    by_cases hn : n = 0
    · simp [splitAtByte, hn] at h
      obtain ⟨rfl, rfl⟩ := h
      simp [hn, byteLength]
    · by_cases hc : c.utf8Size ≤ n
      · simp only [splitAtByte, hn, hc, if_false, if_true, Option.map_eq_some_iff] at h
        obtain ⟨⟨first, rest⟩, hrest, heq⟩ := h
        simp only [Prod.mk.injEq] at heq
        obtain ⟨rfl, rfl⟩ := heq
        have ⟨happend, hsum⟩ := ih hrest
        refine ⟨by simp [happend], ?_⟩
        simp only [byteLength, hsum]
        omega
      · simp [splitAtByte, hn, hc] at h

end IndexedLambda.Text
