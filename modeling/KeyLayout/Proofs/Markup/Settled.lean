import KeyLayout.Markup.Token
import Mathlib.Tactic.SplitIfs

/-! What a scanner has told of the front of the bytes is not revised when more bytes
arrive, or when they end. -/
namespace KeyLayout.Markup

def Piece.extend {α : Type} (more : Bytes) : Piece α → Piece α
  | .found value rest => .found value (rest ++ more)
  | .absent => .absent
  | .broken construct => .broken construct
  | .cutOff => .cutOff

/-- A scanner that is not asking for more bytes says the same whatever bytes follow, and whether
others follow them. -/
def Settles {α : Type} (scan : Supply → Bytes → Piece α) : Prop :=
  ∀ s input more, scan .arriving input ≠ .cutOff →
    scan s (input ++ more) = (scan .arriving input).extend more

section combinators
variable {α β : Type}

theorem Piece.extend_nil (piece : Piece α) : piece.extend [] = piece := by
  cases piece <;> simp [Piece.extend]

/-- What has been decided is not changed by the end of the bytes. -/
theorem Settles.ended_eq {f : Supply → Bytes → Piece α} (hf : Settles f) {input : Bytes}
    {piece : Piece α}
    (h : f .arriving input = piece) (hp : piece ≠ .cutOff) : f .ended input = piece := by
  have he := hf .ended input [] (h ▸ hp)
  rwa [List.append_nil, Piece.extend_nil, h] at he

theorem settles_found (value : α) : Settles fun _ input => .found value input := fun _ _ _ _ => rfl

theorem Settles.andThen {f : Supply → Bytes → Piece α} {next : α → Supply → Bytes → Piece β}
    (hf : Settles f) (hn : ∀ value, Settles (next value)) :
    Settles fun s input => (f s input).andThen fun value rest => next value s rest := by
  intro s input more h
  cases hi : f .arriving input with
  | found value rest =>
    have hv : next value .arriving rest ≠ .cutOff := by simpa only [hi, Piece.andThen] using h
    have he := hf s input more (by simp [hi])
    simp only [he, hi, Piece.extend, Piece.andThen]
    exact hn value s rest more hv
  | absent =>
    have he := hf s input more (by simp [hi])
    simp only [he, hi, Piece.extend, Piece.andThen]
  | broken construct =>
    have he := hf s input more (by simp [hi])
    simp only [he, hi, Piece.extend, Piece.andThen]
  | cutOff => simp [hi, Piece.andThen] at h

theorem Settles.map {f : Supply → Bytes → Piece α} (hf : Settles f) (g : α → β) :
    Settles fun s input => (f s input).map g :=
  hf.andThen fun value => settles_found (g value)

theorem Settles.orElse {f g : Supply → Bytes → Piece α} (hf : Settles f) (hg : Settles g) :
    Settles fun s input => (f s input).orElse (g s input) := by
  intro s input more h
  cases hi : f .arriving input with
  | found value rest =>
    have he := hf s input more (by simp [hi])
    simp only [he, hi, Piece.extend, Piece.orElse]
  | absent =>
    have he := hf s input more (by simp [hi])
    simp only [hi, Piece.orElse] at h
    simp only [he, hi, Piece.extend, Piece.orElse]
    exact hg s input more h
  | broken construct =>
    have he := hf s input more (by simp [hi])
    simp only [he, hi, Piece.extend, Piece.orElse]
  | cutOff => simp [hi, Piece.orElse] at h

theorem Settles.orBroken {f : Supply → Bytes → Piece α} (hf : Settles f) (construct : Construct) :
    Settles fun s input => (f s input).orBroken construct := by
  intro s input more h
  have hi : f .arriving input ≠ .cutOff := fun hc => h (Piece.orBroken_eq_cutOff.2 hc)
  simp only [hf s input more hi]
  cases f .arriving input <;> rfl

end combinators

theorem settles_literal (bs : Bytes) : Settles (literal · bs) := by
  intro s input more h
  induction bs generalizing input with
  | nil => rfl
  | cons b bs ih =>
    cases input with
    | nil => simp [literal] at h
    | cons c input =>
      simp only [List.cons_append, literal] at h ⊢
      split_ifs with hbc
      · rw [if_pos hbc] at h
        exact ih input h
      · rfl

theorem settles_run (p : UInt8 → Bool) : Settles (run · p) := by
  intro s input more h
  induction input with
  | nil => simp [run] at h
  | cons b input ih =>
    simp only [List.cons_append, run] at h ⊢
    split_ifs with hb
    · rw [if_pos hb] at h
      have hi : run .arriving p input ≠ .cutOff := fun hc => h (Piece.map_eq_cutOff.2 hc)
      have he : run s p (input ++ more) = (run .arriving p input).extend more := ih hi
      rw [he]
      cases run .arriving p input <;> rfl
    · rfl

theorem settles_run1 (p : UInt8 → Bool) : Settles (run1 · p) := by
  intro s input more h
  cases input with
  | nil => simp [run1] at h
  | cons b input =>
    simp only [List.cons_append, run1] at h ⊢
    split_ifs with hb
    · rw [if_pos hb] at h
      exact (settles_run p).map (b :: ·) s input more h
    · rfl

/-- The closing lies within the bytes, so it takes no byte that follows them. -/
theorem length_le_of_upTo {s : Supply} {closing input value rest : Bytes}
    (h : upTo s closing input = .found value rest) : closing.length ≤ input.length := by
  induction input generalizing value with
  | nil => simp [upTo, Supply.atEnd_eq_found] at h
  | cons b input ih =>
    simp only [upTo] at h
    split_ifs at h with hp
    · exact (List.isPrefixOf_iff_prefix.1 hp).length_le
    · obtain ⟨_, h, _⟩ := Piece.map_eq_found.1 h
      exact Nat.le_succ_of_le (ih h)

/-- A closing that is not there can still arrive. -/
theorem upTo_cases (closing input : Bytes) :
    upTo .arriving closing input = .cutOff ∨ ∃ value rest,
      upTo .arriving closing input = .found value rest := by
  induction input with
  | nil => exact .inl rfl
  | cons b input ih =>
    simp only [upTo]
    split_ifs
    · exact .inr ⟨_, _, rfl⟩
    · rcases ih with h | ⟨value, rest, h⟩
      · exact .inl (Piece.map_eq_cutOff.2 h)
      · exact .inr ⟨b :: value, rest, by simp [h, Piece.map, Piece.andThen]⟩

/-- Bytes behind a long enough front decide nothing about the front. -/
theorem isPrefixOf_append {closing input : Bytes} (more : Bytes)
    (h : closing.length ≤ input.length) :
    closing.isPrefixOf (input ++ more) = closing.isPrefixOf input := by
  rw [Bool.eq_iff_iff, List.isPrefixOf_iff_prefix, List.isPrefixOf_iff_prefix]
  refine ⟨fun hp => ?_, fun hp => hp.trans (List.prefix_append _ _)⟩
  exact List.prefix_of_prefix_length_le hp (List.prefix_append _ _) h

theorem settles_upTo (closing : Bytes) : Settles (upTo · closing) := by
  intro s input more h
  induction input with
  | nil => simp [upTo] at h
  | cons b input ih =>
    rcases upTo_cases closing (b :: input) with hi | ⟨value, rest, hi⟩
    · exact absurd hi h
    · have hl : closing.length ≤ (b :: input).length := length_le_of_upTo hi
      have hp := isPrefixOf_append more hl
      simp only [List.cons_append] at hp
      simp only [hi]
      simp only [upTo] at hi
      simp only [List.cons_append, upTo, hp]
      split_ifs at hi ⊢ with hc
      · simp only [Piece.found.injEq] at hi
        obtain ⟨rfl, rfl⟩ := hi
        rw [← List.cons_append, List.drop_append_of_le_length hl]
        rfl
      · obtain ⟨tail, ht, rfl⟩ := Piece.map_eq_found.1 hi
        have he : upTo s closing (input ++ more) = (upTo .arriving closing input).extend more :=
          ih (by simp [ht])
        rw [he, ht]
        rfl

theorem settles_enclosure (e : Enclosure) : Settles fun s => e.scan s :=
  (settles_literal _).andThen fun _ => ((settles_upTo _).map _).orBroken _

theorem settles_quoted : Settles quoted :=
  ((settles_literal _).andThen fun _ => settles_upTo _).orElse
    ((settles_literal _).andThen fun _ => settles_upTo _)

theorem settles_oneAttribute : Settles oneAttribute :=
  (settles_run1 _).andThen fun _ =>
    (settles_run1 _).andThen fun _ => (settles_run _).andThen fun _ =>
    (settles_literal _).andThen fun _ => (settles_run _).andThen fun _ => settles_quoted.map _

theorem attributes_eq (s : Supply) (input : Bytes) :
    attributes s input =
      match oneAttribute s input with
      | .found value rest => (attributes s rest).map (value :: ·)
      | .absent => .found [] input
      | .broken construct => .broken construct
      | .cutOff => .cutOff := by
  rw [attributes]
  split <;> simp_all

theorem settles_attributes : Settles attributes := by
  intro s input
  induction hn : input.length using Nat.strongRecOn generalizing input with
  | _ n ih =>
    intro more h
    subst hn
    have hs := settles_oneAttribute s input more
    rw [attributes_eq] at h
    rw [attributes_eq s, attributes_eq .arriving input]
    cases ho : oneAttribute .arriving input with
    | found value rest =>
      rw [ho] at hs h
      have hr : attributes .arriving rest ≠ .cutOff := fun hc => h (Piece.map_eq_cutOff.2 hc)
      simp only [hs (by simp), Piece.extend]
      rw [ih rest.length (advances_oneAttribute _ ho) rest rfl more hr]
      cases attributes .arriving rest <;> rfl
    | absent =>
      rw [ho] at hs
      simp only [hs (by simp), Piece.extend]
    | broken construct =>
      rw [ho] at hs
      simp only [hs (by simp), Piece.extend]
    | cutOff => simp [ho] at h

theorem settles_startTagRest (name : Bytes) : Settles (startTagRest · name) :=
  settles_attributes.andThen fun _ => (settles_run _).andThen fun _ =>
    ((settles_literal _).map _).orElse ((settles_literal _).map _)

theorem settles_startTagName : Settles startTagName :=
  (settles_literal _).andThen fun _ => settles_run1 _

theorem settles_startTag : Settles startTag :=
  settles_startTagName.andThen fun name => (settles_startTagRest name).orBroken _

theorem settles_endTagRest : Settles endTagRest :=
  (settles_run1 _).andThen fun _ => (settles_run _).andThen fun _ => (settles_literal _).map _

theorem settles_endTag : Settles endTag :=
  (settles_literal _).andThen fun _ => settles_endTagRest.orBroken _

theorem settles_enclosed : Settles enclosed :=
  (((settles_enclosure _).orElse (settles_enclosure _)).orElse (settles_enclosure _)).orElse
    (settles_enclosure _)

theorem settles_angled : Settles angled :=
  (settles_enclosed.orElse settles_endTag).orElse settles_startTag

theorem settles_plainText : Settles plainText := (settles_run1 _).map _

def Scan.extend (more : Bytes) : Scan → Scan
  | .token t rest => .token t (rest ++ more)
  | .cutOff => .cutOff
  | .malformed construct => .malformed construct

/-- A token decision is final: bytes that follow only lengthen what stands behind the
token, and so does their end. -/
theorem Supply.scan_append (s : Supply) (input more : Bytes) (h : arriving.scan input ≠ .cutOff) :
    s.scan (input ++ more) = (arriving.scan input).extend more := by
  have hc : (angled arriving input).orElse (plainText arriving input) ≠ .cutOff := by
    intro hc
    simp [Supply.scan, hc, Piece.toScan] at h
  have hsettled := (settles_angled.orElse settles_plainText) s input more hc
  simp only [Supply.scan, hsettled]
  cases (angled arriving input).orElse (plainText arriving input) <;> rfl

theorem scan_append (input more : Bytes) (h : scan input ≠ .cutOff) :
    scan (input ++ more) = (scan input).extend more :=
  Supply.arriving.scan_append input more h

end KeyLayout.Markup
