import KeyLayout.Markup.Reader
import KeyLayout.Proofs.Markup.Settled

/-! The events of a document do not depend on where its bytes are cut. -/
namespace KeyLayout.Markup

/-- Reads on where a batch ended, unless it ended in a failure. -/
def Batch.andThen (b : Batch) (next : Reader → Batch) : Batch :=
  match b.outcome with
  | .ok r => { next r with events := b.events ++ (next r).events }
  | .error _ => b

@[simp] theorem Batch.ok_andThen (events : List Event) (r : Reader) (next : Reader → Batch) :
    (⟨events, .ok r⟩ : Batch).andThen next =
      { next r with events := events ++ (next r).events } := rfl

@[simp] theorem Batch.error_andThen (events : List Event) (failure : Failure)
    (next : Reader → Batch) :
    (⟨events, .error failure⟩ : Batch).andThen next = ⟨events, .error failure⟩ := rfl

theorem Batch.andThen_assoc (b : Batch) (f g : Reader → Batch) :
    (b.andThen f).andThen g = b.andThen fun r => (f r).andThen g := by
  obtain ⟨events, outcome⟩ := b
  cases outcome with
  | error failure => rfl
  | ok r =>
    simp only [Batch.ok_andThen]
    cases hf : f r with
    | mk more outcome =>
      cases outcome with
      | error failure => rfl
      | ok r => simp only [Batch.ok_andThen, List.append_assoc]

theorem Batch.andThen_congr {b : Batch} {f g : Reader → Batch}
    (h : ∀ r, b.outcome = .ok r → f r = g r) : b.andThen f = b.andThen g := by
  obtain ⟨events, outcome⟩ := b
  cases outcome with
  | error failure => rfl
  | ok r => simp only [Batch.ok_andThen, h r rfl]

theorem Batch.andThen_eq_ok {b : Batch} {next : Reader → Batch} {events : List Event}
    {last : Reader} :
    b.andThen next = ⟨events, .ok last⟩ ↔
    ∃ first mid more, b = ⟨first, .ok mid⟩ ∧ next mid = ⟨more, .ok last⟩ ∧
      first ++ more = events := by
  obtain ⟨told, outcome⟩ := b
  cases outcome with
  | error failure => simp
  | ok mid =>
    rw [Batch.ok_andThen]
    constructor
    · intro h
      obtain ⟨hevents, houtcome⟩ := Batch.mk.inj h
      exact ⟨told, mid, (next mid).events, rfl, by rw [← houtcome], hevents⟩
    · rintro ⟨first, mid', more, hfirst, hmore, rfl⟩
      obtain ⟨rfl, hmid⟩ := Batch.mk.inj hfirst
      obtain rfl : mid = mid' := Except.ok.inj hmid
      rw [hmore]

theorem scan_nil : scan [] = .cutOff := by decide

def Reader.behind (r : Reader) (rest : Bytes) (nesting : Nesting) : Reader :=
  { pending := rest, offset := r.offset + (r.pending.length - rest.length), nesting }

theorem Reader.offset_behind {r : Reader} {lexeme rest : Bytes} (h : r.pending = lexeme ++ rest)
    (nesting : Nesting) : (r.behind rest nesting).offset = r.offset + lexeme.length := by
  simp [Reader.behind, h]

section drain
variable {s : Supply} {r : Reader} {token : Token} {rest : Bytes}

theorem Reader.drainAs_eq (s : Supply) (r : Reader) :
    r.drainAs s =
      if r.pending = [] then ⟨[], .ok r⟩
      else
        match s.scan r.pending with
        | .cutOff => ⟨[], .ok r⟩
        | .malformed construct => ⟨[], .error ⟨r.offset, s.fault construct r.pending⟩⟩
        | .token token rest =>
          match r.nesting.interpret r.offset token with
          | .error failure => ⟨[], .error failure⟩
          | .ok (events, nesting) =>
            (⟨events, .ok (r.behind rest nesting)⟩ : Batch).andThen (Reader.drainAs s) := by
  rw [Reader.drainAs]
  simp only [List.isEmpty_iff]
  split_ifs with h
  · rfl
  · split
    next hs => rw [hs]
    next hs => rw [hs]
    next token rest hs =>
      simp only [hs]
      cases hi : r.nesting.interpret r.offset token with
      | error failure => rfl
      | ok result =>
        obtain ⟨events, nesting⟩ := result
        rfl

theorem Reader.drainAs_nil (h : r.pending = []) : r.drainAs s = ⟨[], .ok r⟩ := by
  rw [Reader.drainAs_eq, if_pos h]

theorem Reader.drainAs_cutOff (h : s.scan r.pending = .cutOff) : r.drainAs s = ⟨[], .ok r⟩ := by
  rw [Reader.drainAs_eq, h, ite_self]

theorem Reader.drainAs_malformed {construct : Option Construct} (hp : r.pending ≠ [])
    (h : s.scan r.pending = .malformed construct) :
    r.drainAs s = ⟨[], .error ⟨r.offset, s.fault construct r.pending⟩⟩ := by
  rw [Reader.drainAs_eq, if_neg hp, h]

theorem Supply.ne_nil_of_scan {input : Bytes} (h : s.scan input = .token token rest) : input ≠ [] :=
  List.length_pos_iff.1 (Nat.zero_lt_of_lt (Supply.length_lt_of_scan h))

theorem Reader.drainAs_refused {failure : Failure} (h : s.scan r.pending = .token token rest)
    (hi : r.nesting.interpret r.offset token = .error failure) :
    r.drainAs s = ⟨[], .error failure⟩ := by
  simp only [Reader.drainAs_eq s r, if_neg (Supply.ne_nil_of_scan h), h, hi]

theorem Reader.drainAs_token {events : List Event} {nesting : Nesting}
    (h : s.scan r.pending = .token token rest)
    (hi : r.nesting.interpret r.offset token = .ok (events, nesting)) :
    r.drainAs s = (⟨events, .ok (r.behind rest nesting)⟩ : Batch).andThen (Reader.drainAs s) := by
  simp only [Reader.drainAs_eq s r, if_neg (Supply.ne_nil_of_scan h), h, hi]

/-- What holds of readers that stay where they are and of those that fail there, and of any other if
it does behind the token, holds of all. -/
theorem Reader.drainAs_induction (s : Supply) {motive : Reader → Batch → Prop}
    (stays : ∀ r : Reader, r.pending = [] ∨ s.scan r.pending = .cutOff → motive r ⟨[], .ok r⟩)
    (malformed : ∀ (r : Reader) construct, s.scan r.pending = .malformed construct →
      motive r ⟨[], .error ⟨r.offset, s.fault construct r.pending⟩⟩)
    (refused : ∀ (r : Reader) token rest failure, s.scan r.pending = .token token rest →
      r.nesting.interpret r.offset token = .error failure → motive r ⟨[], .error failure⟩)
    (token : ∀ (r : Reader) token rest events nesting, s.scan r.pending = .token token rest →
      r.nesting.interpret r.offset token = .ok (events, nesting) →
      motive (r.behind rest nesting) ((r.behind rest nesting).drainAs s) →
      motive r ((⟨events, .ok (r.behind rest nesting)⟩ : Batch).andThen (Reader.drainAs s)))
      (r : Reader) :
    motive r (r.drainAs s) := by
  induction hn : r.pending.length using Nat.strongRecOn generalizing r with
  | _ n ih =>
    subst hn
    by_cases hp : r.pending = []
    · exact Reader.drainAs_nil hp ▸ stays r (.inl hp)
    · cases hs : s.scan r.pending with
      | cutOff => exact Reader.drainAs_cutOff hs ▸ stays r (.inr hs)
      | malformed construct => exact Reader.drainAs_malformed hp hs ▸ malformed r construct hs
      | token found rest =>
        cases hi : r.nesting.interpret r.offset found with
        | error failure => exact Reader.drainAs_refused hs hi ▸ refused r found rest failure hs hi
        | ok told =>
          obtain ⟨events, nesting⟩ := told
          rw [Reader.drainAs_token hs hi]
          exact token r found rest events nesting hs hi
            (ih rest.length (Supply.length_lt_of_scan hs) _ rfl)

theorem Reader.drain_cutOff (h : scan r.pending = .cutOff) : r.drain = ⟨[], .ok r⟩ :=
  Reader.drainAs_cutOff h

theorem Reader.drain_malformed {construct : Option Construct}
    (h : scan r.pending = .malformed construct) :
    r.drain = ⟨[], .error ⟨r.offset, .malformed construct⟩⟩ := by
  have hp : r.pending ≠ [] := by
    intro hp
    rw [hp, scan_nil] at h
    simp at h
  exact Reader.drainAs_malformed hp h

theorem Reader.drain_refused {failure : Failure} (h : scan r.pending = .token token rest)
    (hi : r.nesting.interpret r.offset token = .error failure) : r.drain = ⟨[], .error failure⟩ :=
  Reader.drainAs_refused h hi

theorem Reader.drain_token {events : List Event} {nesting : Nesting}
    (h : scan r.pending = .token token rest)
    (hi : r.nesting.interpret r.offset token = .ok (events, nesting)) :
    r.drain = (⟨events, .ok (r.behind rest nesting)⟩ : Batch).andThen Reader.drain :=
  Reader.drainAs_token h hi

end drain

/-- Bytes that arrive later find the tokens in front of them already read. -/
theorem Reader.drain_append (r : Reader) (more : Bytes) :
    { r with pending := r.pending ++ more }.drain = r.drain.andThen fun r => r.feed more := by
  induction hn : r.pending.length using Nat.strongRecOn generalizing r with
  | _ n ih =>
    subst hn
    have hs := scan_append r.pending more
    cases h : scan r.pending with
    | cutOff =>
      rw [Reader.drain_cutOff h]
      rfl
    | malformed construct =>
      rw [h] at hs
      have ht : scan (r.pending ++ more) = .malformed construct := hs (by simp)
      rw [Reader.drain_malformed h, Reader.drain_malformed (by exact ht)]
      rfl
    | token token rest =>
      rw [h] at hs
      have ht : scan (r.pending ++ more) = .token token (rest ++ more) := hs (by simp)
      cases hi : r.nesting.interpret r.offset token with
      | error failure =>
        rw [Reader.drain_refused h hi, Reader.drain_refused (by exact ht) (by exact hi)]
        rfl
      | ok told =>
        obtain ⟨events, nesting⟩ := told
        have hb : ({ r with pending := r.pending ++ more } : Reader).behind (rest ++ more) nesting =
            { r.behind rest nesting with pending := rest ++ more } := by
          simp [Reader.behind, Nat.add_sub_add_right]
        have hl : ({ r.behind rest nesting with pending := rest ++ more } : Reader).drain =
            (r.behind rest nesting).drain.andThen fun r => r.feed more :=
          ih _ (length_lt_of_scan h) (r.behind rest nesting) rfl
        rw [Reader.drain_token h hi, Reader.drain_token (by exact ht) (by exact hi),
          Batch.andThen_assoc, hb]
        simp only [Batch.ok_andThen, hl]

theorem Reader.feed_append (r : Reader) (a b : Bytes) :
    r.feed (a ++ b) = (r.feed a).andThen fun r => r.feed b := by
  unfold Reader.feed
  rw [← List.append_assoc]
  exact Reader.drain_append { r with pending := r.pending ++ a } b

/-- The reader waits for more bytes: those pending begin no complete token. -/
def Reader.Waits (r : Reader) : Prop := scan r.pending = .cutOff

theorem Reader.waits_start : ({} : Reader).Waits := scan_nil

theorem Reader.waits_of_drain {r last : Reader} (h : r.drain.outcome = .ok last) : last.Waits := by
  unfold Reader.drain at h
  induction r using Reader.drainAs_induction .arriving with
  | stays r hr =>
    obtain rfl : r = last := Except.ok.inj h
    rcases hr with hp | hs
    · rw [Reader.Waits, hp, scan_nil]
    · exact hs
  | malformed r construct _ => simp at h
  | refused r token rest failure _ _ => simp at h
  | token r token rest events nesting _ _ ih => exact ih h

theorem Reader.Waits.feed_nil {r : Reader} (h : r.Waits) : r.feed [] = ⟨[], .ok r⟩ := by
  rw [Reader.feed, List.append_nil, Reader.drain_cutOff h]

/-- A reader that finishes has read all that was pending, and all elements are closed. -/
theorem Reader.finish_eq_ok {r last : Reader} {events : List Event} :
    r.finish = ⟨events, .ok last⟩ ↔
    r.drainLast = ⟨events, .ok last⟩ ∧ last.nesting.path = [] ∧ last.nesting.rootSeen = true := by
  unfold Reader.finish
  cases r.drainLast with
  | mk told outcome =>
    cases outcome with
    | error failure => simp
    | ok read => cases hpath : read.nesting.path <;> cases hroot : read.nesting.rootSeen <;> grind

def Reader.readPieces (r : Reader) : List Bytes → Batch
  | [] => r.finish
  | piece :: more => (r.feed piece).andThen (Reader.readPieces · more)

theorem Reader.readPieces_singleton (r : Reader) (bytes : Bytes) :
    r.readPieces [bytes] = (r.feed bytes).andThen Reader.finish := rfl

/-- Only the bytes count, not the pieces. -/
theorem Reader.Waits.readPieces_flatten {r : Reader} (h : r.Waits) (pieces : List Bytes) :
    r.readPieces pieces = (r.feed pieces.flatten).andThen Reader.finish := by
  induction pieces generalizing r with
  | nil =>
    rw [List.flatten_nil, h.feed_nil]
    rfl
  | cons piece more ih =>
    calc (r.feed piece).andThen (Reader.readPieces · more)
        = (r.feed piece).andThen fun r => (r.feed more.flatten).andThen Reader.finish :=
          Batch.andThen_congr fun _ hr => ih (Reader.waits_of_drain hr)
      _ = (r.feed (piece ++ more.flatten)).andThen Reader.finish := by
          rw [Reader.feed_append, Batch.andThen_assoc]

end KeyLayout.Markup
