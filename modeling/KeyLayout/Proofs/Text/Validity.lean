import KeyLayout.Proofs.Text.Utf8

/-! Decoding accepts the bytes of a text and no others. Such bytes can be
cut beside every ASCII byte. -/
namespace KeyLayout.Utf8

variable {bytes rest : List UInt8} {c : Char}

theorem scalar?_eq_some {least n : Nat} {r : List UInt8} (h : scalar? least n r = some (c, rest)) :
    c.toNat = n ∧ least ≤ n ∧ r = rest := by
  unfold scalar? at h
  split at h
  next hn =>
    obtain ⟨rfl, rfl⟩ : Char.ofNat n = c ∧ r = rest := by simpa using h
    exact ⟨toNat_ofNat hn.2, hn.1, rfl⟩
  next => simp at h

section sequence
variable {a b d e : UInt8}

theorem isContinuation_iff : isContinuation b = true ↔ 128 ≤ b.toNat ∧ b.toNat < 192 := by
  rw [isContinuation, Bool.and_eq_true, decide_eq_true_eq, decide_eq_true_eq, UInt8.le_iff_toNat_le,
    UInt8.lt_iff_toNat_lt]
  exact Iff.rfl

theorem ofNat_eq {n : Nat} (h : n = b.toNat) : UInt8.ofNat n = b := by
  rw [h, UInt8.ofNat_toNat]

theorem encodeChar_two (ha : 192 ≤ a.toNat) (ha' : a.toNat < 224) (hb : isContinuation b = true)
    (hc : c.toNat = shiftIn (a.toNat - 0xC0) b) (hleast : 0x80 ≤ c.toNat) :
    String.utf8EncodeChar c = [a, b] := by
  have hb := isContinuation_iff.1 hb
  unfold shiftIn at hc
  simp only [String.utf8EncodeChar, show c.val.toNat = c.toNat from rfl]
  rw [if_neg (by omega), if_pos (by omega), ofNat_eq (b := a) (by omega),
    ofNat_eq (b := b) (by omega)]

theorem encodeChar_three (ha : 224 ≤ a.toNat) (ha' : a.toNat < 240) (hb : isContinuation b = true)
    (hd : isContinuation d = true) (hc : c.toNat = shiftIn (shiftIn (a.toNat - 0xE0) b) d)
    (hleast : 0x800 ≤ c.toNat) : String.utf8EncodeChar c = [a, b, d] := by
  have hb := isContinuation_iff.1 hb
  have hd := isContinuation_iff.1 hd
  unfold shiftIn at hc
  simp only [String.utf8EncodeChar, show c.val.toNat = c.toNat from rfl]
  rw [if_neg (by omega), if_neg (by omega), if_pos (by omega), ofNat_eq (b := a) (by omega),
    ofNat_eq (b := b) (by omega), ofNat_eq (b := d) (by omega)]

theorem encodeChar_four (ha : 240 ≤ a.toNat) (ha' : a.toNat < 248) (hb : isContinuation b = true)
    (hd : isContinuation d = true) (he : isContinuation e = true)
    (hc : c.toNat = shiftIn (shiftIn (shiftIn (a.toNat - 0xF0) b) d) e)
    (hleast : 0x10000 ≤ c.toNat) : String.utf8EncodeChar c = [a, b, d, e] := by
  have hb := isContinuation_iff.1 hb
  have hd := isContinuation_iff.1 hd
  have he := isContinuation_iff.1 he
  unfold shiftIn at hc
  simp only [String.utf8EncodeChar, show c.val.toNat = c.toNat from rfl]
  rw [if_neg (by omega), if_neg (by omega), if_neg (by omega), ofNat_eq (b := a) (by omega),
    ofNat_eq (b := b) (by omega), ofNat_eq (b := d) (by omega), ofNat_eq (b := e) (by omega)]

end sequence

/-- A character is read from its own bytes only. -/
theorem eq_encodeChar_of_decodeChar? (h : decodeChar? bytes = some (c, rest)) :
    bytes = String.utf8EncodeChar c ++ rest := by
  cases bytes with
  | nil => simp [decodeChar?] at h
  | cons a more =>
    simp only [decodeChar?, UInt8.lt_iff_toNat_lt] at h
    split at h
    next ha =>
      obtain ⟨rfl, rfl⟩ : Char.ofNat a.toNat = c ∧ more = rest := by simpa using h
      have hlow : a.toNat < 128 := ha
      have hnat : (Char.ofNat a.toNat).toNat = a.toNat := toNat_ofNat (.inl (by omega))
      rw [utf8EncodeChar_ascii (by omega), hnat]
      simp
    next =>
      split at h
      · simp at h
      next ha =>
        split at h
        next ha' =>
          split at h
          next b r =>
            split at h
            next hb =>
              obtain ⟨hc, hleast, rfl⟩ := scalar?_eq_some h
              rw [encodeChar_two (Nat.le_of_not_lt ha) ha' hb hc (hc ▸ hleast)]
              rfl
            · simp at h
          · simp at h
        next ha =>
          split at h
          next ha' =>
            split at h
            next b d r =>
              split at h
              next hbd =>
                obtain ⟨hc, hleast, rfl⟩ := scalar?_eq_some h
                obtain ⟨hb, hd⟩ := Bool.and_eq_true_iff.1 hbd
                rw [encodeChar_three (Nat.le_of_not_lt ha) ha' hb hd hc (hc ▸ hleast)]
                rfl
              · simp at h
            · simp at h
          next ha =>
            split at h
            next ha' =>
              split at h
              next b d e r =>
                split at h
                next hbde =>
                  obtain ⟨hc, hleast, rfl⟩ := scalar?_eq_some h
                  obtain ⟨hbd, he⟩ := Bool.and_eq_true_iff.1 hbde
                  obtain ⟨hb, hd⟩ := Bool.and_eq_true_iff.1 hbd
                  rw [encodeChar_four (Nat.le_of_not_lt ha) ha' hb hd he hc (hc ▸ hleast)]
                  rfl
                · simp at h
              · simp at h
            · simp at h

theorem encodeChars_of_decodeFrom {offset : Nat} {cs : List Char}
    (h : decodeFrom offset bytes = .ok cs) : encodeChars cs = bytes := by
  induction hn : bytes.length using Nat.strongRecOn generalizing offset bytes cs with
  | _ n ih =>
    subst hn
    cases bytes with
    | nil =>
      obtain rfl : [] = cs := by simpa [decodeFrom] using h
      rfl
    | cons a more =>
      cases hd : decodeChar? (a :: more) with
      | none =>
        rw [decodeFrom] at h
        split at h <;> simp_all
      | some told =>
        obtain ⟨c, rest⟩ := told
        rw [decodeFrom_eq hd] at h
        split at h
        next ds hds =>
          obtain rfl : c :: ds = cs := by simpa using h
          rw [encodeChars_cons, ih rest.length (length_lt_of_decodeChar? hd) hds rfl,
            ← eq_encodeChar_of_decodeChar? hd]
        next => simp at h

theorem decode_eq_ok {text : String} : decode bytes = .ok text ↔ encode text = bytes := by
  constructor
  · intro h
    unfold decode at h
    split at h
    next cs hcs =>
      obtain rfl : String.ofList cs = text := by simpa using h
      have hbytes : encodeChars (String.ofList cs).toList = bytes := by
        simpa using encodeChars_of_decodeFrom hcs
      exact hbytes
    next => simp at h
  · rintro rfl
    have := decode_encodeChars text.toList
    rwa [String.ofList_toList] at this

def IsText (bytes : List UInt8) : Prop := ∃ text : String, encode text = bytes

theorem isText_iff : IsText bytes ↔ ∃ cs, encodeChars cs = bytes := by
  constructor
  · rintro ⟨text, h⟩
    exact ⟨text.toList, h⟩
  · rintro ⟨cs, rfl⟩
    exact ⟨String.ofList cs, by simp [encode, encodeChars]⟩

instance : DecidablePred IsText := fun bytes =>
  match h : decode bytes with
  | .ok text => isTrue ⟨text, decode_eq_ok.1 h⟩
  | .error _ => isFalse fun ⟨text, ht⟩ => by simp [decode_eq_ok.2 ht] at h

theorem isText_nil : IsText [] := ⟨"", by decide⟩

/-- What is no text has a front that is one, behind which no character begins; its
length is that of the error. -/
theorem exists_of_decodeFrom_error {offset place : Nat}
    (h : decodeFrom offset bytes = .error place) :
    ∃ good bad, bytes = good ++ bad ∧ place = offset + good.length ∧ IsText good ∧ bad ≠ [] ∧
      decodeChar? bad = none := by
  induction hn : bytes.length using Nat.strongRecOn generalizing offset bytes with
  | _ n ih =>
    subst hn
    cases bytes with
    | nil => simp [decodeFrom] at h
    | cons a more =>
      cases hd : decodeChar? (a :: more) with
      | none =>
        have hplace : offset = place := by
          rw [decodeFrom] at h
          split at h <;> simp_all
        exact ⟨[], a :: more, rfl, hplace.symm, isText_nil, by simp, hd⟩
      | some told =>
        obtain ⟨c, rest⟩ := told
        have hlt := length_lt_of_decodeChar? hd
        have hbytes := eq_encodeChar_of_decodeChar? hd
        rw [decodeFrom_eq hd] at h
        split at h
        next => simp at h
        next place' hrest =>
          obtain rfl : place' = place := by simpa using h
          obtain ⟨good, bad, rfl, hplace, hgood, hbad⟩ := ih rest.length hlt hrest rfl
          obtain ⟨cs, hcs⟩ := isText_iff.1 hgood
          refine ⟨String.utf8EncodeChar c ++ good, bad,
            by rw [hbytes, List.append_assoc], ?_, ?_, hbad⟩
          · rw [hplace, List.length_append, String.length_utf8EncodeChar, Nat.add_assoc]
          · exact isText_iff.2 ⟨c :: cs, by rw [encodeChars_cons, hcs]⟩

theorem exists_of_decode_error {place : Nat} (h : decode bytes = .error place) :
    ∃ good bad, bytes = good ++ bad ∧ good.length = place ∧ IsText good ∧ bad ≠ [] ∧
      decodeChar? bad = none := by
  unfold decode at h
  split at h
  next => simp at h
  next place' hfrom =>
    obtain rfl : place' = place := by simpa using h
    obtain ⟨good, bad, hbytes, hplace, hbad⟩ := exists_of_decodeFrom_error hfrom
    exact ⟨good, bad, hbytes, by omega, hbad⟩

theorem isText_ascii {b : UInt8} (hb : b.toNat < 128) : IsText [b] := by
  have hc : (Char.ofNat b.toNat).toNat = b.toNat := toNat_ofNat (.inl (by omega))
  refine isText_iff.2 ⟨[Char.ofNat b.toNat], ?_⟩
  rw [encodeChars_cons_ascii (by omega), hc, encodeChars_nil, Nat.toUInt8, UInt8.ofNat_toNat]

def AllAscii (bytes : List UInt8) : Prop := ∀ b ∈ bytes, b.toNat < 128

instance : DecidablePred AllAscii := fun bytes => List.decidableBAll _ bytes

namespace IsText
variable {front back : List UInt8} {b : UInt8}

theorem append (hf : IsText front) (hb : IsText back) : IsText (front ++ back) := by
  obtain ⟨cs, rfl⟩ := isText_iff.1 hf
  obtain ⟨ds, rfl⟩ := isText_iff.1 hb
  exact isText_iff.2 ⟨cs ++ ds, encodeChars_append cs ds⟩

theorem flatMap {α : Type} {f : α → List UInt8} {parts : List α}
    (h : ∀ part ∈ parts, IsText (f part)) : IsText (parts.flatMap f) := by
  induction parts with
  | nil => exact isText_nil
  | cons part parts ih =>
    obtain ⟨hpart, h⟩ := List.forall_mem_cons.1 h
    exact hpart.append (ih h)

theorem of_allAscii (h : AllAscii bytes) : IsText bytes := by
  simpa using flatMap (f := fun b => [b]) fun b hb => isText_ascii (h b hb)

/-- An ASCII byte is a character of its own, so what stands on either side of it is text too. -/
theorem split (h : IsText (front ++ b :: back)) (hb : b.toNat < 128) :
    IsText front ∧ IsText back := by
  obtain ⟨cs, hcs⟩ := isText_iff.1 h
  clear h
  induction cs generalizing front with
  | nil => simp at hcs
  | cons c cs ih =>
    rw [encodeChars_cons, List.append_eq_append_iff] at hcs
    rcases hcs with ⟨more, rfl, hmore⟩ | ⟨tail, hchar, htail⟩
    · obtain ⟨hfront, hback⟩ := ih hmore
      exact ⟨(isText_iff.2 ⟨[c], by simp⟩).append hfront, hback⟩
    · cases tail with
      | nil =>
        have hrest : encodeChars cs = [] ++ b :: back := htail.symm
        exact ⟨isText_iff.2 ⟨[c], by simpa using hchar⟩, (ih hrest).2⟩
      | cons x tail =>
        obtain ⟨rfl, rfl⟩ := List.cons.inj htail
        rcases mem_utf8EncodeChar (c := c) (b := b) (by simp [hchar]) with ⟨hlow, -⟩ | ⟨-, hhigh⟩
        · rw [utf8EncodeChar_ascii hlow] at hchar
          cases front with
          | nil =>
            obtain rfl : [] = tail := (List.cons.inj hchar).2
            exact ⟨isText_nil, isText_iff.2 ⟨cs, rfl⟩⟩
          | cons x front => simp at hchar
        · omega

end IsText
end KeyLayout.Utf8
