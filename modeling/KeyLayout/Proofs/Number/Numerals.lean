import KeyLayout.Number.Digits
import Mathlib.Data.List.Induction
import Mathlib.Tactic.IntervalCases
import Mathlib.Tactic.SplitIfs

/-! Numerals, and that these are what is read as a number: each as the one it spells. -/
namespace KeyLayout.Number

/-- A digit and its value; letters of either case stand for the values from 10 on. -/
def IsDigit (radix : Nat) (c : Char) (d : Nat) : Prop :=
  d < radix ∧ (c = Nat.digitChar d ∨ c = (Nat.digitChar d).toUpper)

inductive Numeral (radix : Nat) : List Char → Nat → Prop where
  | one {c : Char} {d : Nat} (hc : IsDigit radix c d) : Numeral radix [c] d
  | more {cs : List Char} {c : Char} {n d : Nat} (hcs : Numeral radix cs n)
      (hc : IsDigit radix c d) :
      Numeral radix (cs ++ [c]) (n * radix + d)

variable {radix limit n d : Nat} {c : Char} {cs : List Char}

theorem digit?_of_isDigit (hr : radix ≤ 16) (h : IsDigit radix c d) : digit? radix c = some d := by
  obtain ⟨hd, hc⟩ := h
  have hlt : d < 16 := Nat.lt_of_lt_of_le hd hr
  unfold digit?
  rcases hc with rfl | rfl
  · interval_cases d <;> simp [Nat.digitChar, hd]
  · interval_cases d <;> simp [Nat.digitChar, hd]

theorem isDigit_of_digit? (hr : radix ≤ 16) (h : digit? radix c = some d) : IsDigit radix c d := by
  obtain ⟨hvalue, hd⟩ := Option.filter_eq_some_iff.1 h
  have hd : d < radix := by simpa using hd
  have hlt : d < 16 := Nat.lt_of_lt_of_le hd hr
  simp only [Char.le_def, UInt32.le_iff_toNat_le] at hvalue
  change (if 48 ≤ c.toNat ∧ c.toNat ≤ 57 then some (c.toNat - 48)
    else if 97 ≤ c.toNat ∧ c.toNat ≤ 122 then some (c.toNat - 97 + 10)
    else if 65 ≤ c.toNat ∧ c.toNat ≤ 90 then some (c.toNat - 65 + 10) else none) = some d at hvalue
  have hc : d < 10 ∧ c.toNat = d + 48 ∨ 10 ≤ d ∧ (c.toNat = d + 87 ∨ c.toNat = d + 55) := by
    split_ifs at hvalue <;> simp only [Option.some.injEq] at hvalue <;> omega
  refine ⟨hd, ?_⟩
  rw [← Char.ofNat_toNat c]
  rcases hc with ⟨hten, hc⟩ | ⟨hten, hc | hc⟩
  all_goals
    rw [hc]
    interval_cases d <;> decide

/-- Digits are ASCII letters and digits; up to ten values there are no letters. -/
theorem toNat_of_isAlphanum {c : Char} (h : c.isAlphanum = true) :
    (48 ≤ c.toNat ∧ c.toNat ≤ 57) ∨ (65 ≤ c.toNat ∧ c.toNat ≤ 90) ∨
      (97 ≤ c.toNat ∧ c.toNat ≤ 122) := by
  delta Char.isAlphanum Char.isAlpha Char.isUpper Char.isLower Char.isDigit at h
  simp only [Bool.or_eq_true, Bool.and_eq_true, decide_eq_true_eq, UInt32.le_iff_toNat_le,
    ge_iff_le] at h
  change ((65 ≤ c.toNat ∧ c.toNat ≤ 90) ∨ (97 ≤ c.toNat ∧ c.toNat ≤ 122)) ∨
    (48 ≤ c.toNat ∧ c.toNat ≤ 57) at h
  omega

theorem isAlphanum_of_isDigit (hr : radix ≤ 16) (h : IsDigit radix c d) : c.isAlphanum = true := by
  obtain ⟨hd, hc⟩ := h
  have hlt : d < 16 := Nat.lt_of_lt_of_le hd hr
  rcases hc with rfl | rfl
  · interval_cases d <;> decide
  · interval_cases d <;> decide

theorem isDigit_of_isDigit (h : IsDigit 10 c d) : c.isDigit = true := by
  obtain ⟨hd, hc⟩ := h
  rcases hc with rfl | rfl
  · interval_cases d <;> decide
  · interval_cases d <;> decide

theorem digitsFrom_append_singleton (radix n : Nat) (cs : List Char) (c : Char) :
    digitsFrom radix n (cs ++ [c]) =
      (digitsFrom radix n cs).bind fun m => (digit? radix c).map fun d => m * radix + d := by
  induction cs generalizing n with
  | nil => cases h : digit? radix c <;> simp [digitsFrom, h]
  | cons first cs ih => cases h : digit? radix first <;> simp [digitsFrom, h, ih]

namespace Numeral

theorem ne_nil (h : Numeral radix cs n) : cs ≠ [] := by
  cases h <;> simp

theorem digitsFrom_eq (hr : radix ≤ 16) (h : Numeral radix cs n) :
    digitsFrom radix 0 cs = some n := by
  induction h with
  | one hc => simp [digitsFrom, digit?_of_isDigit hr hc]
  | more _ hc ih => simp [digitsFrom_append_singleton, ih, digit?_of_isDigit hr hc]

/-- What holds of every digit holds of the characters of a numeral. -/
theorem forall_mem {P : Char → Prop} (hP : ∀ {c d}, IsDigit radix c d → P c)
    (h : Numeral radix cs n) :
    ∀ c ∈ cs, P c := by
  induction h with
  | one hc => simpa using hP hc
  | more _ hc ih =>
    intro c hmem
    rcases List.mem_append.1 hmem with hmem | hmem
    · exact ih c hmem
    · exact List.mem_singleton.1 hmem ▸ hP hc

theorem of_digitsFrom (hr : radix ≤ 16) (hne : cs ≠ []) (h : digitsFrom radix 0 cs = some n) :
    Numeral radix cs n := by
  induction cs using List.reverseRecOn generalizing n with
  | nil => exact absurd rfl hne
  | append_singleton cs c ih =>
    rw [digitsFrom_append_singleton] at h
    obtain ⟨m, hm, h⟩ := Option.bind_eq_some_iff.1 h
    obtain ⟨d, hd, rfl⟩ := Option.map_eq_some_iff.1 h
    by_cases hnil : cs = []
    · subst hnil
      obtain rfl : 0 = m := by simpa [digitsFrom] using hm
      simpa using Numeral.one (isDigit_of_digit? hr hd)
    · exact .more (ih hnil hm) (isDigit_of_digit? hr hd)

end Numeral

theorem natural?_eq_some (hr : radix ≤ 16) :
    natural? radix limit cs = some n ↔ Numeral radix cs n ∧ n < limit := by
  unfold natural?
  constructor
  · intro h
    split at h
    · simp at h
    next hne =>
      obtain ⟨hdigits, hlt⟩ := Option.filter_eq_some_iff.1 h
      exact ⟨.of_digitsFrom hr (by simpa using hne) hdigits, by simpa using hlt⟩
  · rintro ⟨hn, hlt⟩
    simp [hn.ne_nil, hn.digitsFrom_eq hr, hlt]

theorem unsigned?_eq_some (hr : radix ≤ 16) : unsigned? radix limit cs = some n ↔
    (Numeral radix cs n ∨ ∃ digits, cs = '+' :: digits ∧ Numeral radix digits n) ∧ n < limit := by
  have hplus : ∀ {more}, ¬Numeral radix ('+' :: more) n := by
    intro more hn
    exact absurd (hn.forall_mem (isAlphanum_of_isDigit hr) '+' List.mem_cons_self) (by decide)
  unfold unsigned?
  split
  next more =>
    rw [natural?_eq_some hr]
    simp [hplus]
  next hcs =>
    have hsigned : ¬∃ digits, cs = '+' :: digits ∧ Numeral radix digits n := by
      rintro ⟨digits, rfl, -⟩
      exact hcs digits rfl
    rw [natural?_eq_some hr]
    simp only [hsigned, or_false]

theorem Numeral.unsigned?_eq (hr : radix ≤ 16) (h : Numeral radix cs n) (hn : n < limit) :
    unsigned? radix limit cs = some n :=
  (unsigned?_eq_some hr).2 ⟨.inl h, hn⟩

end KeyLayout.Number
