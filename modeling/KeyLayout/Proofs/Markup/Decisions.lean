import KeyLayout.Proofs.Markup.Lexemes

/-! What is decided about the bytes that have arrived stays decided when more arrive, so that a
reader takes every byte once. -/
namespace KeyLayout.Markup

section scan
variable {input more rest : Bytes} {token : Token} {construct : Option Construct}

/-- What has been decided is what is said of more bytes, and of bytes that end. -/
theorem scan_append_of_decided (s : Supply) (more : Bytes) {decided : Scan}
    (h : scan input = decided)
    (hd : decided ≠ .cutOff) : s.scan (input ++ more) = decided.extend more := by
  subst h
  exact s.scan_append input more hd

/-- Fewer bytes tell no more than many do. -/
theorem scan_cutOff_of_append (h : scan (input ++ more) = .cutOff) : scan input = .cutOff := by
  by_contra hdecided
  rw [scan_append input more hdecided] at h
  cases hs : scan input with
  | token token rest => simp [hs, Scan.extend] at h
  | malformed construct => simp [hs, Scan.extend] at h
  | cutOff => exact hdecided hs

/-- Bytes that are malformed before all have arrived are not said to be
unterminated at their end. -/
theorem fault_of_malformed (s : Supply) (h : scan input = .malformed construct) :
    s.fault construct input = .malformed construct := by
  cases s with
  | arriving => rfl
  | ended =>
    have hdecided : Supply.arriving.scan input ≠ .cutOff := by
      change scan input ≠ .cutOff
      simp [h]
    simp [Supply.fault, hdecided]

theorem exists_lexeme_ne_nil {s : Supply} (h : s.scan input = .token token rest) :
    ∃ lexeme, lexeme ≠ [] ∧ input = lexeme ++ rest := by
  obtain ⟨lexeme, hlexeme⟩ := exists_lexeme h
  refine ⟨lexeme, ?_, hlexeme⟩
  rintro rfl
  have hlt := Supply.length_lt_of_scan h
  rw [hlexeme] at hlt
  exact Nat.lt_irrefl _ hlt

end scan

/-- The reader takes these tokens, each with its bytes, and is then this reader. -/
inductive Reader.Takes (s : Supply) : Reader → List Lexeme → Reader → Prop where
  | nothing (r : Reader) : Takes s r [] r
  | token {r last : Reader} {l : Lexeme} {more : List Lexeme} {rest : Bytes} {events : List Event}
      {nesting : Nesting} (hbytes : r.pending = l.bytes ++ rest) (hne : l.bytes ≠ [])
      (hscan : s.scan r.pending = .token l.token rest)
      (htold : r.nesting.interpret r.offset l.token = .ok (events, nesting))
      (hmore : Takes s (r.behind rest nesting) more last) : Takes s r (l :: more) last

/-- No token is taken: none is complete, the bytes are malformed, or the token is refused. -/
inductive Reader.Stays (s : Supply) (r : Reader) : Except Failure Reader → Prop where
  | waits (h : r.pending = [] ∨ s.scan r.pending = .cutOff) : Stays s r (.ok r)
  | malformed {construct : Option Construct} (h : s.scan r.pending = .malformed construct) :
      Stays s r (.error ⟨r.offset, s.fault construct r.pending⟩)
  | refused {token : Token} {rest : Bytes} {failure : Failure}
      (h : s.scan r.pending = .token token rest)
      (htold : r.nesting.interpret r.offset token = .error failure) : Stays s r (.error failure)

namespace Reader
variable {s : Supply} {r mid last : Reader} {taken others : List Lexeme}

/-- Reading is to take tokens until there is a reason not to. -/
theorem takes_drainAs (s : Supply) (r : Reader) :
    ∃ taken last, r.Takes s taken last ∧ last.Stays s (r.drainAs s).outcome := by
  induction r using Reader.drainAs_induction s with
  | stays r hr => exact ⟨[], r, .nothing r, .waits hr⟩
  | malformed r construct hs => exact ⟨[], r, .nothing r, .malformed hs⟩
  | refused r token rest failure hs hi => exact ⟨[], r, .nothing r, .refused hs hi⟩
  | token r token rest events nesting hs hi ih =>
    obtain ⟨taken, last, htaken, hlast⟩ := ih
    obtain ⟨lexeme, hne, hlexeme⟩ := exists_lexeme_ne_nil hs
    exact ⟨⟨lexeme, token⟩ :: taken, last, .token hlexeme hne hs hi htaken, hlast⟩

theorem Takes.tiles (h : r.Takes s taken last) :
    r.pending = taken.flatMap Lexeme.bytes ++ last.pending ∧
      last.offset = r.offset + (taken.flatMap Lexeme.bytes).length := by
  induction h with
  | nothing r => exact ⟨rfl, rfl⟩
  | @token r last l more rest events nesting hbytes hne hscan htold hmore ih =>
    obtain ⟨hrest, hoffset⟩ := ih
    rw [offset_behind hbytes] at hoffset
    have hrest : rest = more.flatMap Lexeme.bytes ++ last.pending := hrest
    refine ⟨by rw [hbytes, hrest, List.flatMap_cons, List.append_assoc], ?_⟩
    rw [hoffset, List.flatMap_cons, List.length_append, Nat.add_assoc]

theorem Takes.ne_nil (h : r.Takes s taken last) : ∀ l ∈ taken, l.bytes ≠ [] := by
  induction h with
  | nothing r => simp
  | token hbytes hne hscan htold hmore ih => exact List.forall_mem_cons.2 ⟨hne, ih⟩

theorem Takes.length_le (h : r.Takes s taken last) : taken.length ≤ r.pending.length := by
  induction h with
  | nothing r => exact Nat.zero_le _
  | @token r last l more rest events nesting hbytes hne hscan htold hmore ih =>
    have hlt : rest.length < r.pending.length := Supply.length_lt_of_scan hscan
    have hle : more.length ≤ rest.length := ih
    rw [List.length_cons]
    omega

theorem Takes.scan_of_split {before after : List Lexeme} {l : Lexeme}
    (h : r.Takes s (before ++ l :: after) last) :
    s.scan (l.bytes ++ (after.flatMap Lexeme.bytes ++ last.pending)) =
      .token l.token (after.flatMap Lexeme.bytes ++ last.pending) := by
  induction before generalizing r with
  | nil =>
    cases h with
    | token hbytes hne hscan htold hmore =>
      have hrest := hmore.tiles.1
      rw [← hrest]
      exact hbytes ▸ hscan
  | cons first before ih =>
    cases h with
    | token hbytes hne hscan htold hmore => exact ih hmore

/-- The tokens are, one behind the other, all the bytes between the places of the two readers. -/
structure Tile (s : Supply) (r : Reader) (taken : List Lexeme) (last : Reader) : Prop where
  bytes : r.pending = taken.flatMap Lexeme.bytes ++ last.pending
  offset : last.offset = r.offset + (taken.flatMap Lexeme.bytes).length
  ne_nil : ∀ l ∈ taken, l.bytes ≠ []
  length_le : taken.length ≤ r.pending.length
  /-- Each is the token at the front of what stands behind those before it. -/
  scan (before : List Lexeme) (l : Lexeme) (after : List Lexeme) : taken = before ++ l :: after →
    s.scan (l.bytes ++ (after.flatMap Lexeme.bytes ++ last.pending)) =
      .token l.token (after.flatMap Lexeme.bytes ++ last.pending)

theorem Takes.tile (h : r.Takes s taken last) : r.Tile s taken last where
  bytes := h.tiles.1
  offset := h.tiles.2
  ne_nil := h.ne_nil
  length_le := h.length_le
  scan before l after hsplit := by
    rw [hsplit] at h
    exact h.scan_of_split

theorem Takes.trans (h : r.Takes s taken mid) (hothers : mid.Takes s others last) :
    r.Takes s (taken ++ others) last := by
  induction h with
  | nothing r => exact hothers
  | token hbytes hne hscan htold hmore ih => exact .token hbytes hne hscan htold (ih hothers)

def extend (r : Reader) (more : Bytes) : Reader := { r with pending := r.pending ++ more }

theorem extend_behind {rest : Bytes} (nesting : Nesting) (more : Bytes) :
    (r.extend more).behind (rest ++ more) nesting = (r.behind rest nesting).extend more := by
  simp [behind, extend, Nat.add_sub_add_right]

/-- The same tokens are taken when more bytes have arrived, and when there are none behind them. -/
theorem Takes.extend (h : r.Takes .arriving taken last) (s : Supply) (more : Bytes) :
    (r.extend more).Takes s taken (last.extend more) := by
  induction h with
  | nothing r => exact .nothing _
  | @token r last l others rest events nesting hbytes hne hscan htold hmore ih =>
    have hbytes' : (r.extend more).pending = l.bytes ++ (rest ++ more) := by
      rw [← List.append_assoc, ← hbytes]
      rfl
    have hmore' :
        ((r.extend more).behind (rest ++ more) nesting).Takes s others (last.extend more) := by
      rw [extend_behind]
      exact ih
    exact .token hbytes' hne (scan_append_of_decided s more hscan nofun) htold hmore'

end Reader

/-- A token that has been found, and bytes that have been found malformed, are not seen differently
when more bytes arrive or no more do. So reading takes tokens that stand one behind the other, up to
a place where it waits or fails, and what is taken from bytes that arrive later stands behind what
has been taken from those before them. -/
theorem decisions_final (p q : Bytes) :
    (∀ token rest, scan p = .token token rest →
      ∃ lexeme, lexeme ≠ [] ∧ p = lexeme ++ rest ∧
    ∀ s : Supply, s.scan (p ++ q) = .token token (rest ++ q)) ∧
    (∀ construct, scan p = .malformed construct →
      ∀ s : Supply, s.scan (p ++ q) = .malformed construct ∧
    s.fault construct (p ++ q) = .malformed construct) ∧
    (scan (p ++ q) = .cutOff → scan p = .cutOff) ∧
    (∀ (s : Supply) (r : Reader), ∃ taken last,
      r.Takes s taken last ∧ r.Tile s taken last ∧ last.Stays s (r.drainAs s).outcome) ∧
    ∀ (s : Supply) (r mid last : Reader) (taken others : List Lexeme), r.Takes .arriving taken mid →
      (mid.extend q).Takes s others last → (r.extend q).Takes s (taken ++ others) last := by
  refine ⟨fun token rest h => ?_, fun construct h s => ?_, scan_cutOff_of_append, fun s r => ?_,
    fun s r mid last taken others h hothers => (h.extend s q).trans hothers⟩
  · obtain ⟨lexeme, hne, hlexeme⟩ := exists_lexeme_ne_nil h
    exact ⟨lexeme, hne, hlexeme, fun s => scan_append_of_decided s q h nofun⟩
  · have happend : scan (p ++ q) = .malformed construct :=
      scan_append_of_decided .arriving q h nofun
    exact ⟨scan_append_of_decided s q h nofun, fault_of_malformed s happend⟩
  · obtain ⟨taken, last, htaken, hlast⟩ := Reader.takes_drainAs s r
    exact ⟨taken, last, htaken, htaken.tile, hlast⟩

theorem textThenTag_decided :
    scan (ascii "ab<") = .token (.text (ascii "ab")) (ascii "<") ∧
      (∀ s : Supply, s.scan (ascii "ab<" ++ ascii "/a>") =
        .token (.text (ascii "ab")) (ascii "<" ++ ascii "/a>")) ∧
      scan (ascii "<!a") = .malformed none ∧
      (∀ s : Supply, (s.fault none (ascii "<!a" ++ ascii "-->")).message = "malformed markup") ∧
      scan (ascii "<!") = .cutOff := by
  have htext : scan (ascii "ab<") = .token (.text (ascii "ab")) (ascii "<") := by decide
  have hbroken : scan (ascii "<!a") = .malformed none := by decide
  have hcut : scan (ascii "<!" ++ ascii "--") = .cutOff := by decide
  obtain ⟨hfinal, -⟩ := decisions_final (ascii "ab<") (ascii "/a>")
  obtain ⟨-, hmalformed, -⟩ := decisions_final (ascii "<!a") (ascii "-->")
  obtain ⟨-, -, hwaits, -⟩ := decisions_final (ascii "<!") (ascii "--")
  obtain ⟨lexeme, -, -, hscan⟩ := hfinal _ _ htext
  refine ⟨htext, hscan, hbroken, fun s => ?_, hwaits hcut⟩
  rw [(hmalformed none hbroken s).2]
  rfl

end KeyLayout.Markup
