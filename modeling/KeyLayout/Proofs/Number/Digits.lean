import KeyLayout.Number.Digits

/-! Numbers that are read stay below their limits. -/
namespace KeyLayout.Number

variable {radix limit n : Nat} {cs : List Char}

theorem natural?_lt (h : natural? radix limit cs = some n) : n < limit := by
  unfold natural? at h
  split at h
  · simp at h
  · simpa using (Option.filter_eq_some_iff.1 h).2

theorem unsigned?_lt (h : unsigned? radix limit cs = some n) : n < limit := by
  unfold unsigned? at h
  split at h <;> exact natural?_lt h

end KeyLayout.Number
