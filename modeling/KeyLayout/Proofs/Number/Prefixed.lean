import KeyLayout.Proofs.Number.Numerals
import Mathlib.Data.List.TakeWhile

/-! Numbers with a prefix for their radix: exactly those texts are read that are written so, and
what is written is read back. -/
namespace KeyLayout.Text

theorem isBlank_of_isAlphanum {c : Char} (h : c.isAlphanum = true) : isBlank c = false := by
  have hrange := Number.toNat_of_isAlphanum h
  simp only [isBlank, Bool.or_eq_false_iff, Bool.and_eq_false_iff, decide_eq_false_iff_not,
    beq_eq_false_iff_ne]
  omega

/-- The text is `core` with blanks around it, or with none. -/
def Padded (core text : List Char) : Prop :=
  ∃ front back, text = front ++ (core ++ back) ∧ (∀ c ∈ front, isBlank c = true) ∧
    ∀ c ∈ back, isBlank c = true

theorem padded_trimChars (text : List Char) : Padded (trimChars text) text := by
  let kept := text.dropWhile isBlank
  refine ⟨text.takeWhile isBlank, (kept.reverse.takeWhile isBlank).reverse, ?_,
    fun c => List.mem_takeWhile_imp, ?_⟩
  · have hkept : trimChars text ++ (kept.reverse.takeWhile isBlank).reverse = kept := by
      rw [trimChars, ← List.reverse_append, List.takeWhile_append_dropWhile, List.reverse_reverse]
    rw [hkept, List.takeWhile_append_dropWhile]
  · intro c hc
    exact List.mem_takeWhile_imp (List.mem_reverse.1 hc)

theorem dropWhile_blanks {front core : List Char} (hfront : ∀ c ∈ front, isBlank c = true)
    (hcore : ∀ c ∈ core.head?, isBlank c = false) : (front ++ core).dropWhile isBlank = core := by
  rw [List.dropWhile_append_of_pos hfront]
  cases core with
  | nil => rfl
  | cons c cs => exact List.dropWhile_cons_of_neg (by simp [hcore c rfl])

/-- What holds no blank is what remains when the blanks around it are left out. -/
theorem Padded.trimChars_eq {core text : List Char} (h : Padded core text) (hne : core ≠ [])
    (hcore : ∀ c ∈ core, isBlank c = false) : trimChars text = core := by
  obtain ⟨front, back, rfl, hfront, hback⟩ := h
  have hhead : ∀ c ∈ (core ++ back).head?, isBlank c = false := by
    intro c hc
    cases core with
    | nil => exact absurd rfl hne
    | cons first more => exact hcore c (Option.some.inj hc ▸ List.mem_cons_self)
  have hlast : ∀ c ∈ core.reverse.head?, isBlank c = false := by
    intro c hc
    exact hcore c (List.mem_reverse.1 (List.mem_of_head? hc))
  have hreverse :
      ∀ c ∈ back.reverse, isBlank c = true := fun c hc => hback c (List.mem_reverse.1 hc)
  rw [trimChars, dropWhile_blanks hfront hhead, List.reverse_append,
    dropWhile_blanks hreverse hlast, List.reverse_reverse]

end KeyLayout.Text

namespace KeyLayout.Number
open Text

/-- A number as it is written with a prefix for its radix: hexadecimal behind `0x` or `0X`, octal
behind `0`, and else decimal, where the digit `0` stands alone or not in front. -/
inductive Prefixed : List Char → Nat → Prop where
  | hexadecimal {x : Char} {digits : List Char} {n : Nat} (hx : x = 'x' ∨ x = 'X')
      (h : Numeral 16 digits n) :
      Prefixed ('0' :: x :: digits) n
  | octal {digits : List Char} {n : Nat} (h : Numeral 8 digits n) : Prefixed ('0' :: digits) n
  | decimal {digits : List Char} {n : Nat} (hzero : ∀ more, digits = '0' :: more → more = [])
      (h : Numeral 10 digits n) :
      Prefixed digits n

variable {radix limit n d : Nat} {c : Char} {cs core : List Char} {text : String}

theorem Numeral.natural?_eq (hr : radix ≤ 16) (h : Numeral radix cs n) :
    natural? radix limit cs = if n < limit then some n else none := by
  by_cases hn : n < limit
  · rw [if_pos hn, natural?_eq_some hr]
    exact ⟨h, hn⟩
  · simp [natural?, h.ne_nil, h.digitsFrom_eq hr, hn, Nat.le_of_not_lt hn]

theorem IsDigit.isDigit (hr : radix ≤ 10) (h : IsDigit radix c d) : c.isDigit = true :=
  isDigit_of_isDigit ⟨Nat.lt_of_lt_of_le h.1 hr, h.2⟩

namespace Prefixed

theorem ne_nil (h : Prefixed core n) : core ≠ [] := by
  cases h with
  | hexadecimal => simp
  | octal => simp
  | decimal _ h => exact h.ne_nil

/-- No sign and no blank belongs to a number. -/
theorem isAlphanum (h : Prefixed core n) : ∀ c ∈ core, c.isAlphanum = true := by
  cases h with
  | hexadecimal hx h =>
    refine List.forall_mem_cons.2 ⟨by decide,
      List.forall_mem_cons.2 ⟨?_, h.forall_mem (isAlphanum_of_isDigit (by decide))⟩⟩
    rcases hx with rfl | rfl <;> decide
  | octal h =>
    exact List.forall_mem_cons.2 ⟨by decide, h.forall_mem (isAlphanum_of_isDigit (by decide))⟩
  | decimal _ h => exact h.forall_mem (isAlphanum_of_isDigit (by decide))

theorem trimChars_eq (h : Prefixed core n) (hp : Padded core text.toList) :
    trimChars text.toList = core :=
  hp.trimChars_eq h.ne_nil fun c hc => isBlank_of_isAlphanum (h.isAlphanum c hc)

/-- A number with blanks around it consists of letters, digits and blanks. -/
theorem isBlank_or_isAlphanum {cs : List Char} (h : Prefixed core n) (hp : Padded core cs) :
    ∀ c ∈ cs, isBlank c = true ∨ c.isAlphanum = true := by
  obtain ⟨front, back, rfl, hfront, hback⟩ := hp
  intro c hc
  rcases List.mem_append.1 hc with hc | hc
  · exact .inl (hfront c hc)
  · rcases List.mem_append.1 hc with hc | hc
    · exact .inr (h.isAlphanum c hc)
    · exact .inl (hback c hc)

/-- What is written with a prefix is read as its number, unless that is too great. -/
theorem prefixed?_eq (h : Prefixed core n) (ht : trimChars text.toList = core) :
    prefixed? text = if n < 1 <<< 32 then some n else none := by
  unfold prefixed?
  rw [ht]
  cases h with
  | hexadecimal hx h => rcases hx with rfl | rfl <;> exact h.natural?_eq (by decide)
  | @octal digits n h =>
    have hdigits := h.forall_mem (P := fun c => c.isDigit = true) (IsDigit.isDigit (by decide))
    split
    next heq =>
      cases heq
      exact absurd (hdigits 'x' (by simp)) (by decide)
    next heq =>
      cases heq
      exact absurd (hdigits 'X' (by simp)) (by decide)
    next heq =>
      cases heq
      exact h.natural?_eq (by decide)
    next hx hX hmore =>
      cases digits with
      | nil => exact absurd rfl h.ne_nil
      | cons c more => exact absurd rfl (hmore c more)
  | decimal hzero h =>
    split
    next => simpa using hzero _ rfl
    next => simpa using hzero _ rfl
    next => simpa using hzero _ rfl
    next => exact h.natural?_eq (by decide)

end Prefixed

theorem prefixed_of_prefixed? (h : prefixed? text = some n) :
    Prefixed (trimChars text.toList) n ∧ n < 1 <<< 32 := by
  unfold prefixed? at h
  split at h
  next cs heq =>
    obtain ⟨hn, hlt⟩ := (natural?_eq_some (by decide)).1 h
    exact ⟨heq ▸ .hexadecimal (.inl rfl) hn, hlt⟩
  next cs heq =>
    obtain ⟨hn, hlt⟩ := (natural?_eq_some (by decide)).1 h
    exact ⟨heq ▸ .hexadecimal (.inr rfl) hn, hlt⟩
  next c cs _ _ heq =>
    obtain ⟨hn, hlt⟩ := (natural?_eq_some (by decide)).1 h
    exact ⟨heq ▸ .octal hn, hlt⟩
  next hx hX hmore =>
    obtain ⟨hn, hlt⟩ := (natural?_eq_some (by decide)).1 h
    refine ⟨.decimal (fun more heq => ?_) hn, hlt⟩
    cases more with
    | nil => rfl
    | cons c more => exact absurd heq (hmore c more)

namespace Numeral

theorem toDigits (h1 : 1 < radix) (n : Nat) : Numeral radix (Nat.toDigits radix n) n := by
  induction n using Nat.strongRecOn with
  | ind n ih =>
    rw [Nat.toDigits_eq_if h1]
    split
    next hn => exact .one ⟨hn, .inl rfl⟩
    next hn =>
      have hlt : n / radix < n := Nat.div_lt_self (by omega) h1
      have hmore := Numeral.more (ih _ hlt) ⟨Nat.mod_lt n (by omega), .inl rfl⟩
      rwa [Nat.div_add_mod'] at hmore

theorem map_toUpper (hr : radix ≤ 16) (h : Numeral radix cs n) :
    Numeral radix (cs.map Char.toUpper) n := by
  have hupper : ∀ {c d}, IsDigit radix c d → IsDigit radix c.toUpper d := by
    rintro c d ⟨hd, hc⟩
    have hlt : d < 16 := Nat.lt_of_lt_of_le hd hr
    refine ⟨hd, .inr ?_⟩
    rcases hc with rfl | rfl
    · rfl
    · interval_cases d <;> decide
  induction h with
  | one hc => exact .one (hupper hc)
  | more _ hc ih =>
    rw [List.map_append]
    exact .more ih (hupper hc)

theorem zero_cons (hr : 0 < radix) (h : Numeral radix cs n) : Numeral radix ('0' :: cs) n := by
  have hzero : Numeral radix ['0'] 0 := .one ⟨hr, .inl rfl⟩
  induction h with
  | one hc => simpa using Numeral.more hzero hc
  | more _ hc ih => exact .more ih hc

theorem zeros_append (hr : 0 < radix) (h : Numeral radix cs n) (zeros : Nat) :
    Numeral radix (List.replicate zeros '0' ++ cs) n := by
  induction zeros with
  | zero => exact h
  | succ zeros ih => exact ih.zero_cons hr

end Numeral

/-- A number that is written without zeros in front begins with one only if it is zero. -/
theorem toDigits_ne_zero_cons {n : Nat} (hn : 0 < n) (more : List Char) :
    Nat.toDigits 10 n ≠ '0' :: more := by
  induction n using Nat.strongRecOn generalizing more with
  | ind n ih =>
    rw [Nat.toDigits_eq_if (by decide)]
    split
    next => simp; omega
    next hten =>
      have hlt : n / 10 < n := Nat.div_lt_self hn (by decide)
      cases hfront : Nat.toDigits 10 (n / 10) with
      | nil => exact absurd hfront (Numeral.toDigits (by decide) _).ne_nil
      | cons c front =>
        intro heq
        obtain rfl : c = '0' := (List.cons.inj heq).1
        exact ih _ hlt (by omega) front hfront

theorem prefixed_toDigits (n : Nat) : Prefixed (Nat.toDigits 10 n) n := by
  refine .decimal (fun more heq => ?_) (.toDigits (by decide) n)
  rcases Nat.eq_zero_or_pos n with rfl | hn
  · simpa using heq
  · exact absurd heq (toDigits_ne_zero_cons hn more)

theorem padded_self (core : List Char) : Padded core core := ⟨[], [], by simp⟩

/-- A text is read as a number below `2 ^ 32` if, and only if, without the blanks around it it is
that number with a prefix for its radix. A greater number is not read, nor is anything in which
there is a sign. What is written in one of the three ways, with any zeros behind the prefix and with
digits of either case, is read back. -/
theorem prefixed_exact :
    (∀ text n, prefixed? text = some n ↔
      n < 2 ^ 32 ∧ ∃ core, Padded core text.toList ∧ Prefixed core n) ∧
    (∀ text : String, prefixed? text = none ↔
      ∀ core n, Padded core text.toList → Prefixed core n → 2 ^ 32 ≤ n) ∧
    (∀ text : String, '+' ∈ text.toList ∨ '-' ∈ text.toList → prefixed? text = none) ∧
    ∀ n < 2 ^ 32, prefixed? (toString n) = some n ∧
      ∀ zeros,
        prefixed? (String.ofList ('0' :: (List.replicate zeros '0' ++ Nat.toDigits 8 n))) = some n ∧
        ∀ x digits, x = 'x' ∨ x = 'X' → digits = Nat.toDigits 16 n ∨
          digits = (Nat.toDigits 16 n).map Char.toUpper →
          prefixed? (String.ofList ('0' :: x :: (List.replicate zeros '0' ++ digits))) =
            some n := by
  have hread : ∀ {text core n}, Padded core text.toList → Prefixed core n → n < 2 ^ 32 →
      prefixed? text = some n := by
    intro text core n hpadded hcore hn
    rw [hcore.prefixed?_eq (hcore.trimChars_eq hpadded)]
    exact if_pos hn
  have hwritten :
      ∀ {core n}, Prefixed core n → n < 2 ^ 32 → prefixed? (String.ofList core) = some n := by
    intro core n hcore hn
    have hpadded : Padded core (String.ofList core).toList := by
      rw [String.toList_ofList]
      exact padded_self core
    exact hread hpadded hcore hn
  refine ⟨fun text n => ⟨fun h => ?_, fun ⟨hn, core, hpadded, hcore⟩ => hread hpadded hcore hn⟩, ?_,
    ?_, fun n hn => ?_⟩
  · obtain ⟨hcore, hn⟩ := prefixed_of_prefixed? h
    exact ⟨hn, _, padded_trimChars _, hcore⟩
  · intro text
    refine ⟨fun hnone core n hpadded hcore => ?_, fun hgreat => ?_⟩
    · by_contra hn
      simp [hread hpadded hcore (Nat.lt_of_not_le hn)] at hnone
    · by_contra hsome
      obtain ⟨n, hn⟩ := Option.ne_none_iff_exists'.1 hsome
      obtain ⟨hcore, hlt⟩ := prefixed_of_prefixed? hn
      exact absurd hlt (Nat.not_lt.2 (hgreat _ n (padded_trimChars _) hcore))
  · intro text hsign
    by_contra hsome
    obtain ⟨n, hn⟩ := Option.ne_none_iff_exists'.1 hsome
    have hplain := (prefixed_of_prefixed? hn).1.isBlank_or_isAlphanum (padded_trimChars _)
    rcases hsign with hsign | hsign
    · exact absurd (hplain _ hsign) (by decide)
    · exact absurd (hplain _ hsign) (by decide)
  · refine ⟨hwritten (prefixed_toDigits n) hn, fun zeros => ⟨?_, fun x digits hx hdigits => ?_⟩⟩
    · exact hwritten (.octal (.zeros_append (by decide) (.toDigits (by decide) n) zeros)) hn
    · have hnumeral : Numeral 16 digits n := by
        rcases hdigits with rfl | rfl
        · exact .toDigits (by decide) n
        · exact (Numeral.toDigits (by decide) n).map_toUpper (by decide)
      exact hwritten (.hexadecimal hx (hnumeral.zeros_append (by decide) zeros)) hn

/-- Hexadecimal digits of both cases between blanks, a sign behind a prefix, the greatest number
that is read, and a number written with zeros in front. -/
theorem paddedDigits_read : prefixed? "\u2003 0X00fB\n" = some 0xfb ∧ prefixed? "0x-1" = none ∧
    prefixed? "4294967295" = some 4294967295 ∧ prefixed? "0x00FB" = some 0xfb := by
  obtain ⟨hsome, -, hsign, hwritten⟩ := prefixed_exact
  have hdigits : Numeral 16 ['0', '0', 'f', 'B'] 0xfb :=
    .more (d := 11)
      (.more (d := 15) (.zero_cons (by decide) (.one (d := 0) ⟨by decide, .inl rfl⟩))
        ⟨by decide, .inl rfl⟩)
      ⟨by decide, .inr (by decide)⟩
  have hpadded : Padded ['0', 'X', '0', '0', 'f', 'B'] "\u2003 0X00fB\n".toList :=
    ⟨['\u2003', ' '], ['\n'], by decide, by simp [isBlank], by simp [isBlank]⟩
  obtain ⟨hgreatest, -⟩ := hwritten 4294967295 (by decide)
  obtain ⟨-, hzeros⟩ := hwritten 0xfb (by decide)
  refine ⟨(hsome _ _).2 ⟨by decide, _, hpadded, .hexadecimal (.inr rfl) hdigits⟩,
    hsign _ (.inr (by decide)), hgreatest, ?_⟩
  exact (hzeros 2).2 'x' _ (.inl rfl) (.inr rfl)

end KeyLayout.Number
