import KeyLayout.Markup.Reference
import KeyLayout.Proofs.Markup.Rendering
import KeyLayout.Proofs.Outcome
import KeyLayout.Proofs.Text.Utf8

/-! Escaped text is expanded to the text that it stands for. -/
namespace KeyLayout.Markup
open Number

variable {c special : Char} {name t written : List Char}

/-- References are written with letters, digits and the number sign. -/
theorem Reference.forall_mem (h : Reference c name) :
    ∀ d ∈ name, d = '#' ∨ d.isAlphanum = true := by
  have hdigits : ∀ {radix n : Nat} {digits : List Char}, radix ≤ 16 → Numeral radix digits n →
      ∀ d ∈ digits, d = '#' ∨ d.isAlphanum = true := by
    intro radix n digits hr hn d hd
    exact .inr (hn.forall_mem (isAlphanum_of_isDigit hr) d hd)
  cases h with
  | lt | gt | amp | quot | apos =>
    intro d hd
    exact .inr (List.all_eq_true.1 (by decide) d hd)
  | decimal hn => exact List.forall_mem_cons.2 ⟨.inl rfl, hdigits (by decide) hn⟩
  | hexadecimal hx hn =>
    refine List.forall_mem_cons.2 ⟨.inl rfl,
      List.forall_mem_cons.2 ⟨.inr ?_, hdigits (by decide) hn⟩⟩
    rcases hx with rfl | rfl <;> decide

theorem Reference.not_mem (h : Reference c name) {d : Char} (hd : d ≠ '#' ∧ d.isAlphanum = false) :
    d ∉ name := by
  intro hmem
  rcases h.forall_mem d hmem with hsharp | halnum
  · exact hd.1 hsharp
  · simp [hd.2] at halnum

theorem toNat_lt_word32 (c : Char) : c.toNat < 1 <<< 32 :=
  Nat.lt_trans (Utf8.toNat_lt c) (by decide)

theorem characterNumber?_decimal {digits : List Char} {n : Nat} (h : Numeral 10 digits n)
    (hn : n < 1 <<< 32) : characterNumber? digits = some n := by
  have hx : ∀ x ∈ digits, x.isDigit = true := h.forall_mem isDigit_of_isDigit
  unfold characterNumber?
  split
  next => exact absurd (hx 'x' (by simp)) (by decide)
  next => exact absurd (hx 'X' (by simp)) (by decide)
  next => exact h.unsigned?_eq (by decide) hn

theorem resolve_number {cs : List Char} (h : characterNumber? cs = some c.toNat) :
    resolve ('#' :: cs) = .ok c := by
  have hlookup : entities.lookup ('#' :: cs) = none := by
    simp [entities, List.lookup_cons]
  have hscalar : scalar? c.toNat = some c := by
    have hvalid : c.toNat.isValidChar := c.valid
    rw [scalar?, if_pos hvalid, Char.ofNat_toNat]
  simp only [resolve, hlookup, h, Option.bind_some, hscalar]

theorem resolve_eq (h : Reference c name) : resolve name = .ok c := by
  cases h with
  | lt | gt | amp | quot | apos => decide
  | decimal hn => exact resolve_number (characterNumber?_decimal hn (toNat_lt_word32 c))
  | hexadecimal hx hn =>
    apply resolve_number
    have hnumber := hn.unsigned?_eq (by decide) (toNat_lt_word32 c)
    rcases hx with rfl | rfl <;> exact hnumber

theorem expandChars_plain (hc : c ≠ '&') (cs : List Char) :
    expandChars (c :: cs) = (expandChars cs).map (c :: ·) := by
  rw [expandChars, if_neg hc]
  cases expandChars cs <;> rfl

theorem not_ends (hname : ';' ∉ name) : ∀ d ∈ name, decide (d ≠ ';') = true := by
  intro d hd
  exact decide_eq_true fun heq => hname (heq ▸ hd)

theorem takeWhile_name (hname : ';' ∉ name) (cs : List Char) :
    (name ++ ';' :: cs).takeWhile (· ≠ ';') = name := by
  rw [List.takeWhile_append_of_pos (not_ends hname)]
  simp

theorem dropWhile_name (hname : ';' ∉ name) (cs : List Char) :
    (name ++ ';' :: cs).dropWhile (· ≠ ';') = ';' :: cs := by
  rw [List.dropWhile_append_of_pos (not_ends hname)]
  rfl

/-- What stands between `&` and the next `;` is taken for a name. -/
theorem expandChars_named (hname : ';' ∉ name) (cs : List Char) :
    expandChars ('&' :: (name ++ ';' :: cs)) = resolve name >>= fun c =>
      (expandChars cs).map (c :: ·) := by
  rw [expandChars, if_pos rfl]
  split
  next hnil => exact absurd ((dropWhile_name hname cs).symm.trans hnil) (by simp)
  next hcons =>
    obtain ⟨-, rfl⟩ := List.cons.inj ((dropWhile_name hname cs).symm.trans hcons)
    rw [takeWhile_name hname]
    cases resolve name with
    | error fault => rfl
    | ok c => cases expandChars cs <;> rfl

theorem expandChars_reference (h : Reference c name) (cs : List Char) :
    expandChars ('&' :: (name ++ ';' :: cs)) = (expandChars cs).map (c :: ·) := by
  rw [expandChars_named (h.not_mem ⟨by decide, by decide⟩), resolve_eq h, ok_bind]

theorem expandChars_escaped (h : Escaped special t written) : expandChars written = .ok t := by
  induction h with
  | nil => simp [expandChars]
  | plain hamp _ _ ih => rw [expandChars_plain hamp, ih]; rfl
  | reference hc _ ih => rw [expandChars_reference hc, ih]; rfl

/-- The character that must not stand for itself does not occur, unless
references are written with it. -/
theorem Escaped.not_mem (h : Escaped special t written) (hs : special ≠ '&' ∧ special ≠ ';')
    (hr : special ≠ '#' ∧ special.isAlphanum = false) : special ∉ written := by
  induction h with
  | nil => simp
  | plain _ hspecial _ ih => simp [Ne.symm hspecial, ih]
  | reference hc _ ih => simp [hs, hc.not_mem hr, ih]

end KeyLayout.Markup
