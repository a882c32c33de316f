import KeyLayout.Proofs.Markup.References
import Mathlib.Data.List.Basic
import Mathlib.Data.List.TakeWhile

/-! Which references are expanded. They are those that are documented, and
numbers that bear a plus sign. -/
namespace KeyLayout.Markup
open Number

/-- A number behind a plus sign, which is read like the number alone. -/
inductive SignedReference : Char → List Char → Prop where
  | decimal {c : Char} {digits : List Char} (h : Numeral 10 digits c.toNat) :
      SignedReference c ('#' :: '+' :: digits)
  | hexadecimal {c x : Char} {digits : List Char} (hx : x = 'x' ∨ x = 'X')
      (h : Numeral 16 digits c.toNat) :
      SignedReference c ('#' :: x :: '+' :: digits)

def ReadReference (c : Char) (name : List Char) : Prop := Reference c name ∨ SignedReference c name

/-- Every `&` begins such a reference, which ends with `;`. -/
def AllReferences (reference : Char → List Char → Prop) (written : List Char) : Prop :=
  ∀ before after, written = before ++ '&' :: after →
    ∃ c name rest, after = name ++ ';' :: rest ∧ reference c name

/-- Written text, and the text for which it stands: each reference is its
character, and all else is itself. -/
inductive StandsFor : List Char → List Char → Prop where
  | nil : StandsFor [] []
  | plain {c : Char} {written t : List Char} (hc : c ≠ '&') (h : StandsFor written t) :
      StandsFor (c :: written) (c :: t)
  | reference {c : Char} {name written t : List Char} (hc : ReadReference c name)
      (h : StandsFor written t) :
      StandsFor ('&' :: (name ++ ';' :: written)) (c :: t)

variable {c : Char} {n : Nat} {cs name written t : List Char}

theorem scalar?_eq_some : scalar? n = some c ↔ c.toNat = n := by
  unfold scalar?
  constructor
  · intro h
    split at h
    next hn =>
      obtain rfl : Char.ofNat n = c := by simpa using h
      exact Utf8.toNat_ofNat hn
    next => simp at h
  · rintro rfl
    have hvalid : c.toNat.isValidChar := c.valid
    rw [if_pos hvalid, Char.ofNat_toNat]

/-- The number behind `#` is spelled by digits, behind an `x` or not, and
behind a plus sign or not. -/
theorem readReference_of_characterNumber? (h : characterNumber? cs = some c.toNat) :
    ReadReference c ('#' :: cs) := by
  have hhex : ∀ {x digits}, x = 'x' ∨ x = 'X' → unsigned? 16 (1 <<< 32) digits = some c.toNat →
      ReadReference c ('#' :: x :: digits) := by
    intro x digits hx hdigits
    obtain ⟨hn | ⟨digits, rfl, hn⟩, -⟩ := (unsigned?_eq_some (by decide)).1 hdigits
    · exact .inl (.hexadecimal hx hn)
    · exact .inr (.hexadecimal hx hn)
  unfold characterNumber? at h
  split at h
  · exact hhex (.inl rfl) h
  · exact hhex (.inr rfl) h
  · obtain ⟨hn | ⟨digits, rfl, hn⟩, -⟩ := (unsigned?_eq_some (by decide)).1 h
    · exact .inl (.decimal hn)
    · exact .inr (.decimal hn)

theorem readReference_of_resolve (h : resolve name = .ok c) : ReadReference c name := by
  unfold resolve at h
  split at h
  next d hlookup =>
    obtain rfl : d = c := by simpa using h
    obtain ⟨front, back, hentities, -⟩ := List.lookup_eq_some_iff.1 hlookup
    have hmem : (name, d) ∈ entities := by simp [hentities]
    simp only [entities, List.mem_cons, Prod.mk.injEq, List.not_mem_nil, or_false] at hmem
    left
    rcases hmem with ⟨rfl, rfl⟩ | ⟨rfl, rfl⟩ | ⟨rfl, rfl⟩ | ⟨rfl, rfl⟩ | ⟨rfl, rfl⟩
    · exact .lt
    · exact .gt
    · exact .amp
    · exact .quot
    · exact .apos
  next =>
    split at h
    next digits =>
      split at h
      next d hnumber =>
        obtain rfl : d = c := by simpa using h
        obtain ⟨n, hn, hscalar⟩ := Option.bind_eq_some_iff.1 hnumber
        obtain rfl := scalar?_eq_some.1 hscalar
        exact readReference_of_characterNumber? hn
      next => simp at h
    next => simp at h

theorem resolve_of_signedReference (h : SignedReference c name) : resolve name = .ok c := by
  cases h with
  | decimal hn =>
    exact resolve_number ((unsigned?_eq_some (by decide)).2 ⟨.inr ⟨_, rfl, hn⟩, toNat_lt_word32 c⟩)
  | @hexadecimal _ digits hx hn =>
    apply resolve_number
    have hnumber : unsigned? 16 (1 <<< 32) ('+' :: digits) = some c.toNat :=
      (unsigned?_eq_some (by decide)).2 ⟨.inr ⟨digits, rfl, hn⟩, toNat_lt_word32 c⟩
    rcases hx with rfl | rfl <;> exact hnumber

theorem resolve_eq_ok : resolve name = .ok c ↔ ReadReference c name :=
  ⟨readReference_of_resolve, fun h => h.elim resolve_eq resolve_of_signedReference⟩

/-- References are written without the characters that begin and end them. -/
theorem ReadReference.not_mem (h : ReadReference c name) {d : Char} (hd : d = '&' ∨ d = ';') :
    d ∉ name := by
  have hplain : d ≠ '#' ∧ d ≠ '+' ∧ d.isAlphanum = false := by rcases hd with rfl | rfl <;> decide
  have hdigits :
      ∀ {radix m : Nat} {digits : List Char}, radix ≤ 16 → Numeral radix digits m → d ∉ digits := by
    intro radix m digits hr hm hmem
    have := hm.forall_mem (isAlphanum_of_isDigit hr) d hmem
    simp [hplain.2.2] at this
  rcases h with h | h
  · exact h.not_mem ⟨hplain.1, hplain.2.2⟩
  · cases h with
    | decimal hn => simp [hplain, hdigits (by decide) hn]
    | hexadecimal hx hn =>
      have hne : ∀ x, x = 'x' ∨ x = 'X' → d ≠ x := by
        rcases hd with rfl | rfl <;> rintro x (rfl | rfl) <;> decide
      simp [hplain, hne _ hx, hdigits (by decide) hn]

/-- A name ends where the first `;` comes. -/
theorem name_inj {other rest rest' : List Char} (hname : ';' ∉ name) (hother : ';' ∉ other)
    (h : name ++ ';' :: rest = other ++ ';' :: rest') : name = other ∧ rest = rest' := by
  have heq : name = other := by rw [← takeWhile_name hname rest, h, takeWhile_name hother]
  subst heq
  simpa using h

theorem expandChars_unterminated (h : ';' ∉ cs) :
    expandChars ('&' :: cs) = .error .unterminated := by
  have hdrop : cs.dropWhile (· ≠ ';') = [] := by
    rw [List.dropWhile_eq_nil_iff]
    intro d hd
    exact decide_eq_true fun heq => h (heq ▸ hd)
  rw [expandChars, if_pos rfl]
  split
  next => rfl
  next hcons => exact absurd (hdrop.symm.trans hcons) (by simp)

/-- Characters are taken one by one, and names together with what encloses them. -/
theorem expandChars_induction {P : List Char → Prop} (hnil : P [])
    (hplain : ∀ {c cs}, c ≠ '&' → P cs → P (c :: cs)) (hopen : ∀ {cs}, ';' ∉ cs → P ('&' :: cs))
    (hname : ∀ {name cs}, ';' ∉ name → P cs → P ('&' :: (name ++ ';' :: cs)))
    (cs : List Char) : P cs := by
  induction hn : cs.length using Nat.strongRecOn generalizing cs with
  | _ n ih =>
    subst hn
    cases cs with
    | nil => exact hnil
    | cons c cs =>
      by_cases hc : c = '&'
      · subst hc
        by_cases hends : ';' ∈ cs
        · obtain ⟨name, rest, rfl, hfree⟩ := List.eq_append_cons_of_mem hends
          exact hname hfree (ih rest.length (by simp; omega) rest rfl)
        · exact hopen hends
      · exact hplain hc (ih cs.length (by simp) cs rfl)

theorem expandChars_eq_ok : expandChars written = .ok t ↔ StandsFor written t := by
  constructor
  · intro h
    induction written using expandChars_induction generalizing t with
    | hnil =>
      obtain rfl : [] = t := by simpa [expandChars] using h
      exact .nil
    | hplain hc ih =>
      rw [expandChars_plain hc] at h
      obtain ⟨t, ht, rfl⟩ := map_eq_ok.1 h
      exact .plain hc (ih ht)
    | hopen hends => simp [expandChars_unterminated hends] at h
    | hname hfree ih =>
      rw [expandChars_named hfree] at h
      obtain ⟨c, hc, h⟩ := bind_eq_ok.1 h
      obtain ⟨t, ht, rfl⟩ := map_eq_ok.1 h
      exact .reference (resolve_eq_ok.1 hc) (ih ht)
  · intro h
    induction h with
    | nil => simp [expandChars]
    | plain hc _ ih => rw [expandChars_plain hc, ih]; rfl
    | reference hc _ ih =>
      rw [expandChars_named (hc.not_mem (.inr rfl)), resolve_eq_ok.2 hc, ih]; rfl

theorem StandsFor.expandChars_append (h : StandsFor written t) (more : List Char) :
    expandChars (written ++ more) = (expandChars more).map (t ++ ·) := by
  induction h with
  | nil =>
    rw [List.nil_append]
    cases expandChars more <;> rfl
  | plain hc _ ih =>
    rw [List.cons_append, expandChars_plain hc, ih]
    cases expandChars more <;> rfl
  | reference hc _ ih =>
    rw [List.cons_append, List.append_assoc, List.cons_append,
      expandChars_named (hc.not_mem (.inr rfl)),
      resolve_eq_ok.2 hc, ih]
    cases expandChars more <;> rfl

theorem StandsFor.allReferences (h : StandsFor written t) :
    AllReferences ReadReference written := by
  induction h with
  | nil => simp [AllReferences]
  | @plain c written _ hc _ ih =>
    intro before after heq
    obtain ⟨-, hwritten⟩ | ⟨more, -, hwritten⟩ := List.cons_eq_append_iff.1 heq
    · exact absurd (List.cons.inj hwritten).1.symm hc
    · exact ih more after hwritten
  | @reference c name written _ hc _ ih =>
    intro before after heq
    obtain ⟨-, hwritten⟩ | ⟨more, -, hwritten⟩ := List.cons_eq_append_iff.1 heq
    · exact ⟨c, name, written, (List.cons.inj hwritten).2, hc⟩
    -- no name holds the second of two `&`
    · obtain ⟨inner, -, hbehind⟩ | ⟨inner, hinside, hends⟩ := List.append_eq_append_iff.1 hwritten
      · obtain ⟨-, hends⟩ | ⟨inner, -, hbehind⟩ := List.cons_eq_append_iff.1 hbehind
        · simp at hends
        · exact ih inner after hbehind
      · obtain ⟨-, hends⟩ | ⟨inner, rfl, -⟩ := List.cons_eq_append_iff.1 hends
        · simp at hends
        · exact absurd (by simp [hinside]) (hc.not_mem (.inl rfl))

theorem AllReferences.of_append {reference : Char → List Char → Prop} (front : List Char)
    (h : AllReferences reference (front ++ written)) : AllReferences reference written := by
  intro before after heq
  exact h (front ++ before) after (by rw [heq, List.append_assoc])

theorem exists_standsFor (h : AllReferences ReadReference written) : ∃ t, StandsFor written t := by
  induction written using expandChars_induction with
  | hnil => exact ⟨[], .nil⟩
  | @hplain c cs hc ih =>
    obtain ⟨t, ht⟩ := ih (AllReferences.of_append [c] h)
    exact ⟨c :: t, .plain hc ht⟩
  | hopen hends =>
    obtain ⟨c, name, rest, rfl, -⟩ := h [] _ rfl
    exact absurd (List.mem_append_right _ List.mem_cons_self) hends
  | @hname name cs hfree ih =>
    obtain ⟨c, name', rest, heq, hc⟩ := h [] _ rfl
    obtain ⟨rfl, -⟩ := name_inj hfree (hc.not_mem (.inr rfl)) heq
    obtain ⟨t, ht⟩ := ih (AllReferences.of_append ('&' :: (name ++ [';'])) (by simpa using h))
    exact ⟨c :: t, .reference hc ht⟩

theorem exists_standsFor_iff : (∃ t, StandsFor written t) ↔ AllReferences ReadReference written :=
  ⟨fun ⟨_, h⟩ => h.allReferences, exists_standsFor⟩

theorem expand_eq_ok {text t : String} : expand text = .ok t ↔ StandsFor text.toList t.toList := by
  rw [expand, map_eq_ok]
  constructor
  · rintro ⟨cs, hcs, rfl⟩
    simpa using expandChars_eq_ok.1 hcs
  · intro h
    exact ⟨t.toList, expandChars_eq_ok.2 h, by simp⟩

/-- Some `&` begins a number behind a plus sign. -/
def HasSigned (written : List Char) : Prop :=
  ∃ before c name rest, SignedReference c name ∧ written = before ++ '&' :: (name ++ ';' :: rest)

theorem allReferences_read_iff (h : ¬HasSigned written) :
    AllReferences ReadReference written ↔ AllReferences Reference written := by
  constructor
  · intro hall before after heq
    obtain ⟨c, name, rest, rfl, hc | hc⟩ := hall before after heq
    · exact ⟨c, name, rest, rfl, hc⟩
    · exact absurd ⟨before, c, name, rest, hc, heq⟩ h
  · intro hall before after heq
    obtain ⟨c, name, rest, hafter, hc⟩ := hall before after heq
    exact ⟨c, name, rest, hafter, .inl hc⟩

/-- Text is expanded if every `&` begins a documented reference, or a number behind a plus sign, and
to that for which it stands; behind text that is expanded, text is expanded as it is alone. -/
theorem expand_exact (text : String) :
    ((∃ t, expand text = .ok t) ↔ AllReferences ReadReference text.toList) ∧
    (¬HasSigned text.toList → ((∃ t, expand text = .ok t) ↔ AllReferences Reference text.toList)) ∧
    (∀ t, expand text = .ok t ↔ StandsFor text.toList t.toList) ∧
    ∀ t more, expand text = .ok t → expand (text ++ more) = (expand more).map (t ++ ·) := by
  have hread : (∃ t, expand text = .ok t) ↔ AllReferences ReadReference text.toList := by
    rw [← exists_standsFor_iff]
    constructor
    · rintro ⟨t, ht⟩
      exact ⟨t.toList, expand_eq_ok.1 ht⟩
    · rintro ⟨t, ht⟩
      exact ⟨String.ofList t, expand_eq_ok.2 (by simpa using ht)⟩
  refine ⟨hread, fun hsigned => hread.trans (allReferences_read_iff hsigned),
    fun t => expand_eq_ok, ?_⟩
  intro t more h
  have happend := (expand_eq_ok.1 h).expandChars_append more.toList
  rw [expand, String.toList_append, happend, expand]
  cases expandChars more.toList with
  | error fault => rfl
  | ok cs => simp [Except.map]

theorem HasSigned.mem (h : HasSigned written) : '#' ∈ written := by
  obtain ⟨before, c, name, rest, hc, rfl⟩ := h
  cases hc <;> simp

/-- A number behind a plus sign is expanded, though it is no documented reference. What is expanded
is not expanded again, on its own and behind such a number. -/
theorem plusSign_expanded : expand "&#+65;" = .ok "A" ∧ ¬AllReferences Reference "&#+65;".toList ∧
    AllReferences Reference "&amp;lt;".toList ∧
    expand ("&#+65;" ++ "&amp;lt;") = .ok ("A" ++ "&lt;") := by
  have hdigits : Numeral 10 ['6', '5'] 'A'.toNat :=
    .more (.one (d := 6) ⟨by decide, .inl rfl⟩) (d := 5) ⟨by decide, .inl rfl⟩
  have hstands : StandsFor "&#+65;".toList ['A'] := .reference (.inr (.decimal hdigits)) .nil
  have hplus : expand "&#+65;" = .ok "A" := ((expand_exact "&#+65;").2.2.1 "A").2 hstands
  have hlt : expand "&amp;lt;" = .ok "&lt;" := by decide +kernel
  have hunsigned : ¬HasSigned "&amp;lt;".toList := fun h => absurd h.mem (by decide)
  refine ⟨hplus, ?_, ((expand_exact "&amp;lt;").2.1 hunsigned).1 ⟨_, hlt⟩, ?_⟩
  · intro h
    obtain ⟨c, name, rest, heq, hc⟩ := h [] ['#', '+', '6', '5', ';'] rfl
    have heq : ['#', '+', '6', '5'] ++ ';' :: [] = name ++ ';' :: rest := heq
    have hfree : ';' ∉ name := ReadReference.not_mem (.inl hc) (.inr rfl)
    obtain ⟨rfl, -⟩ := name_inj (by decide) hfree heq
    exact absurd (hc.forall_mem '+' (by simp)) (by decide)
  · rw [(expand_exact "&#+65;").2.2.2 "A" "&amp;lt;" hplus, hlt]
    rfl

end KeyLayout.Markup
