import KeyLayout.Text.Utf8
import Mathlib.Data.List.Infix
import Mathlib.Tactic.SplitIfs

/-! Decoding gives back the text whose bytes it reads. -/
namespace KeyLayout.Utf8

theorem scalar?_toNat {least : Nat} {c : Char} (h : least ≤ c.toNat) (rest : List UInt8) :
    scalar? least c.toNat rest = some (c, rest) := by
  rw [scalar?, if_pos ⟨h, c.valid⟩, Char.ofNat_toNat]

theorem toNat_lt (c : Char) : c.toNat < 0x110000 := by
  have := c.valid
  simp only [UInt32.isValidChar, Nat.isValidChar] at this
  simp only [Char.toNat]
  omega

theorem ofNat_lt {n : Nat} (h : n < 256) (b : UInt8) : UInt8.ofNat n < b ↔ n < b.toNat := by
  rw [UInt8.lt_iff_toNat_lt, UInt8.toNat_ofNat', Nat.mod_eq_of_lt h]

section sequence
variable {n m k l : Nat} (rest : List UInt8)

theorem isContinuation_ofNat (h : m < 64) : isContinuation (UInt8.ofNat (m + 128)) = true := by
  have hlow : ¬UInt8.ofNat (m + 128) < 0x80 := by
    rw [ofNat_lt (by omega)]
    exact Nat.not_lt.2 (Nat.le_add_left 128 m)
  have hhigh : UInt8.ofNat (m + 128) < 0xC0 := by
    rw [ofNat_lt (by omega)]
    exact Nat.add_lt_add_right h 128
  rw [isContinuation, Bool.and_eq_true, decide_eq_true_eq, decide_eq_true_eq]
  exact ⟨UInt8.not_lt.1 hlow, hhigh⟩

theorem shiftIn_ofNat (h : m < 64) : shiftIn n (UInt8.ofNat (m + 128)) = n * 64 + m := by
  have hlt : m + 128 < 256 := by omega
  have hm : (UInt8.ofNat (m + 128)).toNat = m + 128 := by
    rw [UInt8.toNat_ofNat', Nat.mod_eq_of_lt hlt]
  unfold shiftIn
  rw [hm]
  exact congrArg (n * 64 + ·) (Nat.add_sub_cancel m 128)

/-- A leading byte says how many bytes the sequence has. -/
theorem lead_lt (h : n < 256) {b : UInt8} (hb : n < b.toNat) : UInt8.ofNat n < b :=
  (ofNat_lt h b).2 hb

theorem not_lead_lt (h : n < 256) {b : UInt8} (hb : b.toNat ≤ n) : ¬UInt8.ofNat n < b := by
  rw [ofNat_lt h]
  exact Nat.not_lt.2 hb

theorem toNat_lead_sub (h : n + k < 256) : (UInt8.ofNat (n + k)).toNat - k = n := by
  rw [UInt8.toNat_ofNat', Nat.mod_eq_of_lt h, Nat.add_sub_cancel]

theorem decodeChar?_one (h : n < 128) :
    decodeChar? (UInt8.ofNat n :: rest) = some (Char.ofNat n, rest) := by
  simp only [decodeChar?]
  rw [if_pos (lead_lt (by omega) h), UInt8.toNat_ofNat', Nat.mod_eq_of_lt (by omega)]

theorem decodeChar?_two (hn : n < 32) (hm : m < 64) :
    decodeChar? (UInt8.ofNat (n + 192) :: UInt8.ofNat (m + 128) :: rest) =
      scalar? 0x80 (n * 64 + m) rest := by
  have hlead : n + 192 < 256 := by omega
  simp only [decodeChar?]
  rw [if_neg (not_lead_lt hlead (by change 128 ≤ _; omega)),
    if_neg (not_lead_lt hlead (by change 192 ≤ _; omega)),
    if_pos (lead_lt hlead (by change _ < 224; omega))]
  simp only [isContinuation_ofNat hm, if_true, shiftIn_ofNat hm, toNat_lead_sub hlead]

theorem decodeChar?_three (hn : n < 16) (hm : m < 64) (hk : k < 64) :
    decodeChar? (UInt8.ofNat (n + 224) :: UInt8.ofNat (m + 128) :: UInt8.ofNat (k + 128) :: rest) =
      scalar? 0x800 ((n * 64 + m) * 64 + k) rest := by
  have hlead : n + 224 < 256 := by omega
  simp only [decodeChar?]
  rw [if_neg (not_lead_lt hlead (by change 128 ≤ _; omega)),
    if_neg (not_lead_lt hlead (by change 192 ≤ _; omega)),
    if_neg (not_lead_lt hlead (by change 224 ≤ _; omega)),
    if_pos (lead_lt hlead (by change _ < 240; omega))]
  simp only [isContinuation_ofNat hm, isContinuation_ofNat hk, Bool.and_self, if_true,
    shiftIn_ofNat hm, shiftIn_ofNat hk, toNat_lead_sub hlead]

theorem decodeChar?_four (hn : n < 8) (hm : m < 64) (hk : k < 64) (hl : l < 64) :
    decodeChar? (UInt8.ofNat (n + 240) :: UInt8.ofNat (m + 128) :: UInt8.ofNat (k + 128) ::
      UInt8.ofNat (l + 128) ::
      rest) = scalar? 0x10000 (((n * 64 + m) * 64 + k) * 64 + l) rest := by
  have hlead : n + 240 < 256 := by omega
  simp only [decodeChar?]
  rw [if_neg (not_lead_lt hlead (by change 128 ≤ _; omega)),
    if_neg (not_lead_lt hlead (by change 192 ≤ _; omega)),
    if_neg (not_lead_lt hlead (by change 224 ≤ _; omega)),
    if_neg (not_lead_lt hlead (by change 240 ≤ _; omega)),
    if_pos (lead_lt hlead (by change _ < 248; omega))]
  simp only [isContinuation_ofNat hm, isContinuation_ofNat hk, isContinuation_ofNat hl,
    Bool.and_self, if_true, shiftIn_ofNat hm, shiftIn_ofNat hk, shiftIn_ofNat hl,
    toNat_lead_sub hlead]

end sequence

/-- The bytes of a character are read as that character, whatever follows them. -/
theorem decodeChar?_encodeChar (c : Char) (rest : List UInt8) :
    decodeChar? (String.utf8EncodeChar c ++ rest) = some (c, rest) := by
  have hlt := toNat_lt c
  have hv : c.val.toNat = c.toNat := rfl
  have hmod : ∀ n, n % 64 < 64 := fun n => Nat.mod_lt n (by decide)
  unfold String.utf8EncodeChar
  simp only [hv]
  split_ifs with h₁ h₂ h₃
  · exact (decodeChar?_one rest (by omega)).trans (by rw [Char.ofNat_toNat])
  · refine (decodeChar?_two rest (Nat.mod_lt _ (by decide)) (hmod _)).trans ?_
    rw [show c.toNat / 64 % 32 * 64 + c.toNat % 64 = c.toNat by omega]
    exact scalar?_toNat (by omega) rest
  · refine (decodeChar?_three rest (Nat.mod_lt _ (by decide)) (hmod _) (hmod _)).trans ?_
    rw [show (c.toNat / 4096 % 16 * 64 + c.toNat / 64 % 64) * 64 + c.toNat % 64 = c.toNat by omega]
    exact scalar?_toNat (by omega) rest
  · refine (decodeChar?_four rest (Nat.mod_lt _ (by decide)) (hmod _) (hmod _) (hmod _)).trans ?_
    rw [show ((c.toNat / 262144 % 8 * 64 + c.toNat / 4096 % 64) * 64 + c.toNat / 64 % 64) * 64 +
      c.toNat % 64 =
      c.toNat by omega]
    exact scalar?_toNat (by omega) rest

theorem decodeFrom_eq {offset : Nat} {bytes rest : List UInt8} {c : Char}
    (h : decodeChar? bytes = some (c, rest)) :
    decodeFrom offset bytes =
      match decodeFrom (offset + c.utf8Size) rest with
      | .ok cs => .ok (c :: cs)
      | .error o => .error o := by
  cases bytes with
  | nil => simp [decodeChar?] at h
  | cons b more =>
    rw [decodeFrom]
    split
    · simp_all
    next c' rest' h' =>
      obtain ⟨rfl, rfl⟩ : c = c' ∧ rest = rest' := by simpa [h] using h'
      rfl

def encodeChars (cs : List Char) : List UInt8 := cs.flatMap String.utf8EncodeChar

@[simp] theorem encodeChars_nil : encodeChars [] = [] := rfl

@[simp] theorem encodeChars_cons (c : Char) (cs : List Char) :
    encodeChars (c :: cs) = String.utf8EncodeChar c ++ encodeChars cs := List.flatMap_cons

@[simp] theorem encodeChars_append (front back : List Char) :
    encodeChars (front ++ back) = encodeChars front ++ encodeChars back := List.flatMap_append

theorem decodeFrom_encodeChars (offset : Nat) (cs : List Char) :
    decodeFrom offset (encodeChars cs) = .ok cs := by
  induction cs generalizing offset with
  | nil => simp [decodeFrom]
  | cons c cs ih => rw [encodeChars_cons, decodeFrom_eq (decodeChar?_encodeChar c _), ih]

theorem decode_encodeChars (cs : List Char) : decode (encodeChars cs) = .ok (String.ofList cs) := by
  rw [decode, decodeFrom_encodeChars]

theorem toNat_ofNat {n : Nat} (h : n.isValidChar) : (Char.ofNat n).toNat = n := by
  rw [Char.ofNat, dif_pos h]
  rfl

section encodeChars
variable {c : Char} {cs : List Char} {b : UInt8}

theorem utf8EncodeChar_ascii (h : c.toNat < 128) : String.utf8EncodeChar c = [c.toNat.toUInt8] := by
  have hle : c.val.toNat ≤ 127 := Nat.le_of_lt_succ h
  simp only [String.utf8EncodeChar, hle, if_true]
  rfl

theorem encodeChars_cons_ascii (h : c.toNat < 128) (cs : List Char) :
    encodeChars (c :: cs) = c.toNat.toUInt8 :: encodeChars cs := by
  rw [encodeChars_cons, utf8EncodeChar_ascii h, List.singleton_append]

theorem encodeChars_cons_byte (h : c.toNat < 128 ∧ c.toNat.toUInt8 = b) (cs : List Char) :
    encodeChars (c :: cs) = b :: encodeChars cs :=
  h.2 ▸ encodeChars_cons_ascii h.1 cs

theorem toNat_toUInt8 {n : Nat} (h : n < 256) : n.toUInt8.toNat = n := by
  rw [UInt8.toNat_ofNat', Nat.mod_eq_of_lt h]

/-- Every byte of a character beyond ASCII has its high bit set. -/
theorem mem_utf8EncodeChar (hb : b ∈ String.utf8EncodeChar c) :
    (c.toNat < 128 ∧ b.toNat = c.toNat) ∨ (128 ≤ c.toNat ∧ 128 ≤ b.toNat) := by
  by_cases hc : c.toNat < 128
  · rw [utf8EncodeChar_ascii hc, List.mem_singleton] at hb
    exact .inl ⟨hc, hb ▸ toNat_toUInt8 (by omega)⟩
  · refine .inr ⟨Nat.le_of_not_lt hc, ?_⟩
    have hle : ¬c.val.toNat ≤ 127 := fun hle => hc (Nat.lt_succ_of_le hle)
    have hhigh : ∀ {n k : Nat}, n + k < 256 → 128 ≤ k → 128 ≤ (UInt8.ofNat (n + k)).toNat := by
      intro n k hlt hk
      rw [UInt8.toNat_ofNat', Nat.mod_eq_of_lt hlt]
      exact Nat.le_trans hk (Nat.le_add_left k n)
    simp only [String.utf8EncodeChar, hle, if_false] at hb
    split_ifs at hb
    all_goals
      simp only [List.mem_cons, List.not_mem_nil, or_false] at hb
      rcases hb with rfl | rfl | rfl | rfl <;> exact hhigh (by omega) (by decide)

/-- ASCII text is where its bytes are. -/
theorem prefix_of_encodeChars {k v : List Char} (hk : ∀ c ∈ k, c.toNat < 128)
    (h : encodeChars k <+: encodeChars v) : k <+: v := by
  induction k generalizing v with
  | nil => exact List.nil_prefix
  | cons c k ih =>
    obtain ⟨hc, hk⟩ := List.forall_mem_cons.1 hk
    rw [encodeChars_cons_ascii hc] at h
    cases v with
    | nil => simp at h
    | cons d v =>
      by_cases hd : d.toNat < 128
      · rw [encodeChars_cons_ascii hd, List.cons_prefix_cons] at h
        have hsame : c.toNat = d.toNat := by
          have := congrArg UInt8.toNat h.1
          rwa [toNat_toUInt8 (by omega), toNat_toUInt8 (by omega)] at this
        exact List.cons_prefix_cons.2 ⟨Char.toNat_inj.1 hsame, ih hk h.2⟩
      · obtain ⟨b, bs, hb⟩ := List.exists_cons_of_ne_nil (l := String.utf8EncodeChar d) (by simp)
        rw [encodeChars_cons, hb, List.cons_append, List.cons_prefix_cons] at h
        have hlow : c.toNat.toUInt8.toNat = c.toNat := toNat_toUInt8 (by omega)
        rcases mem_utf8EncodeChar (c := d) (b := b) (by simp [hb]) with ⟨hlt, -⟩ | ⟨-, hhigh⟩
        · exact absurd hlt hd
        · rw [← h.1] at hhigh
          omega

theorem infix_of_infix_append {a : UInt8} {l bs rest : List UInt8} (hbs : ∀ b ∈ bs, a ≠ b)
    (h : a :: l <:+: bs ++ rest) : a :: l <:+: rest := by
  induction bs with
  | nil => exact h
  | cons b bs ih =>
    obtain ⟨hb, hbs⟩ := List.forall_mem_cons.1 hbs
    rcases List.infix_cons_iff.1 h with hp | hi
    · exact absurd (List.cons_prefix_cons.1 hp).1 hb
    · exact ih hbs hi

theorem infix_of_encodeChars {k v : List Char} (hk : ∀ c ∈ k, c.toNat < 128)
    (h : encodeChars k <:+: encodeChars v) : k <:+: v := by
  induction v with
  | nil =>
    obtain rfl : k = [] := by
      cases k with
      | nil => rfl
      | cons c k => simp [utf8EncodeChar_ascii (hk c (by simp))] at h
    exact List.nil_infix
  | cons d v ih =>
    by_cases hd : d.toNat < 128
    · rw [encodeChars_cons_ascii hd] at h
      rcases List.infix_cons_iff.1 h with hp | hi
      · rw [← encodeChars_cons_ascii hd] at hp
        exact (prefix_of_encodeChars hk hp).isInfix
      · exact List.infix_cons (ih hi)
    · cases k with
      | nil => exact List.nil_infix
      | cons c k =>
        have hc := hk c (by simp)
        rw [encodeChars_cons d, encodeChars_cons_ascii hc] at h
        have hlow : c.toNat.toUInt8.toNat = c.toNat := toNat_toUInt8 (by omega)
        have hne : ∀ b ∈ String.utf8EncodeChar d, c.toNat.toUInt8 ≠ b := by
          rintro b hb rfl
          rcases mem_utf8EncodeChar hb with ⟨hlt, -⟩ | ⟨-, hhigh⟩
          · exact hd hlt
          · omega
        refine List.infix_cons (ih ?_)
        rw [encodeChars_cons_ascii hc]
        exact infix_of_infix_append hne h

end encodeChars

end KeyLayout.Utf8
