import KeyLayout.Proofs.Markup.Expansion
import KeyLayout.Proofs.Markup.LastBytes
import KeyLayout.Proofs.Markup.ReadBack

/-! Text that is interrupted: by what is passed over, or by a section in which
some of it stands verbatim. -/
namespace KeyLayout.Markup
open Utf8

section offsets
variable {offset : Nat}

theorem decodeText_elsewhere {raw : Bytes} {text : String} (h : decodeText offset raw = .ok text)
    (other : Nat) : decodeText other raw = .ok text :=
  decodeText_eq_ok.2 (decodeText_eq_ok.1 h)

theorem expandText_elsewhere {text t : String} (h : expandText offset text = .ok t) (other : Nat) :
    expandText other text = .ok t :=
  expandText_eq_ok.2 (expandText_eq_ok.1 h)

theorem readAttributes_elsewhere {element : String} {known a : Attributes}
    {raw : List (Bytes × Bytes)}
    (h : readAttributes offset element known raw = .ok a) (other : Nat) :
    readAttributes other element known raw = .ok a := by
  induction raw generalizing known with
  | nil => exact h
  | cons first more ih =>
    obtain ⟨name, hname, h⟩ := bind_eq_ok.1 h
    obtain ⟨decoded, hdecoded, h⟩ := bind_eq_ok.1 h
    obtain ⟨value, hvalue, h⟩ := bind_eq_ok.1 h
    rw [readAttributes, decodeText_elsewhere hname, ok_bind, decodeText_elsewhere hdecoded, ok_bind,
      expandText_elsewhere hvalue, ok_bind]
    split at h
    next => exact ih h
    next => simp at h

/-- What a token says does not depend on its place. -/
theorem Nesting.interpret_elsewhere {n : Nesting} {token : Token} {told : List Event × Nesting}
    (h : n.interpret offset token = .ok told) (other : Nat) :
    n.interpret other token = .ok told := by
  obtain ⟨events, n'⟩ := told
  refine Means.interpret ?_
  cases means_of_interpret h with
  | startTag hroot hname ha =>
    exact .startTag hroot (decodeText_elsewhere hname _) (readAttributes_elsewhere ha _)
  | emptyTag hroot hname ha =>
    exact .emptyTag hroot (decodeText_elsewhere hname _) (readAttributes_elsewhere ha _)
  | endTag hpath hname => exact .endTag hpath (decodeText_elsewhere hname _)
  | blank hpath htext hblank => exact .blank hpath (decodeText_elsewhere htext _) hblank
  | text hpath hwritten htext =>
    exact .text hpath (decodeText_elsewhere hwritten _) (expandText_elsewhere htext _)
  | verbatim hpath htext => exact .verbatim hpath (decodeText_elsewhere htext _)
  | skipped => exact .skipped

end offsets

def Reader.close (r : Reader) : Batch := r.drain.andThen Reader.finish

namespace Reader
variable {r last : Reader} {events : List Event}

/-- What is read without a failure is read in the same way at any other place. -/
theorem drainAs_elsewhere {s : Supply} (h : r.drainAs s = ⟨events, .ok last⟩) (offset : Nat) :
    ∃ behind, { r with offset }.drainAs s = ⟨events, .ok { last with offset := behind }⟩ := by
  induction r using drainAs_induction s generalizing events offset with
  | stays r hr =>
    obtain ⟨rfl, rfl⟩ : [] = events ∧ r = last := by simpa using h
    refine ⟨offset, ?_⟩
    rcases hr with hp | hs
    · exact drainAs_nil hp
    · exact drainAs_cutOff hs
  | malformed r construct _ => simp at h
  | refused r token rest failure _ _ => simp at h
  | token r token rest first nesting hs hi ih =>
    rw [Batch.ok_andThen] at h
    obtain ⟨rfl, hlast⟩ := Batch.mk.inj h
    have hmore : (r.behind rest nesting).drainAs s =
        ⟨((r.behind rest nesting).drainAs s).events, .ok last⟩ := by
      rw [← hlast]
    obtain ⟨behind, hbehind⟩ := ih hmore (offset + (r.pending.length - rest.length))
    have hplace : ({ r with offset } : Reader).behind rest nesting =
        { r.behind rest nesting with offset := offset + (r.pending.length - rest.length) } := rfl
    refine ⟨behind, ?_⟩
    rw [drainAs_token (r := { r with offset }) hs (Nesting.interpret_elsewhere hi offset),
      Batch.ok_andThen, hplace, hbehind]

theorem drain_elsewhere (h : r.drain = ⟨events, .ok last⟩) (offset : Nat) :
    ∃ behind, { r with offset }.drain = ⟨events, .ok { last with offset := behind }⟩ :=
  drainAs_elsewhere h offset

theorem finish_elsewhere (h : r.finish = ⟨events, .ok last⟩) (offset : Nat) :
    ∃ behind, { r with offset }.finish = ⟨events, .ok { last with offset := behind }⟩ := by
  obtain ⟨hread, hclosed⟩ := finish_eq_ok.1 h
  obtain ⟨behind, hbehind⟩ := drainAs_elsewhere hread offset
  exact ⟨behind, finish_eq_ok.2 ⟨hbehind, hclosed⟩⟩

end Reader

/-- With the elements of `n` open, the bytes are read to the end of the
document, and tell these events. -/
def Accepts (n : Nesting) (bytes : Bytes) (events : List Event) : Prop :=
  ∀ offset, ∃ last, ({ pending := bytes, offset, nesting := n } : Reader).close = ⟨events, .ok last⟩

section accepts
variable {n n' : Nesting} {front rest : Bytes} {events first all : List Event} {r last : Reader}

/-- The place of the bytes in the document does not matter. -/
theorem accepts_of_close (h : r.close = ⟨events, .ok last⟩) :
    Accepts r.nesting r.pending events := by
  intro offset
  obtain ⟨first, mid, more, hdrain, hfinish, hevents⟩ := Batch.andThen_eq_ok.1 h
  obtain ⟨behind, hdrain⟩ := Reader.drain_elsewhere hdrain offset
  obtain ⟨_, hfinish⟩ := Reader.finish_elsewhere hfinish behind
  exact ⟨_, Batch.andThen_eq_ok.2 ⟨first, _, more, hdrain, hfinish, hevents⟩⟩

/-- What a reader that comes to another tells, and then the other to the end. -/
theorem accepts_iff_of_close (r r' : Reader)
    (h : r.close = (⟨first, .ok r'⟩ : Batch).andThen Reader.close) :
    Accepts r.nesting r.pending all ↔
      ∃ more, first ++ more = all ∧ Accepts r'.nesting r'.pending more := by
  constructor
  · intro hall
    obtain ⟨last, hlast⟩ := hall r.offset
    obtain ⟨_, mid, more, hmid, hmore, rfl⟩ := Batch.andThen_eq_ok.1 (h.symm.trans hlast)
    obtain ⟨rfl, rfl⟩ : first = _ ∧ r' = mid := by simpa using hmid
    exact ⟨more, rfl, accepts_of_close hmore⟩
  · rintro ⟨more, rfl, hmore⟩
    obtain ⟨last, hlast⟩ := hmore r'.offset
    exact accepts_of_close (h.trans (Batch.andThen_eq_ok.2 ⟨first, r', more, rfl, hlast, rfl⟩))

theorem ReadsAt.accepts_iff (h : ReadsAt n front rest first n') :
    Accepts n (front ++ rest) all ↔ ∃ more, first ++ more = all ∧ Accepts n' rest more := by
  refine accepts_iff_of_close { pending := front ++ rest, nesting := n }
    { pending := rest, offset := 0 + front.length, nesting := n' } ?_
  rw [Reader.close, h 0, Batch.andThen_assoc]
  rfl

/-- Behind bytes that have been read, what is accepted is accepted behind those
of them that are pending. -/
theorem accepts_behind (h : ({ nesting := n } : Reader).feed front = ⟨first, .ok r⟩) :
    Accepts n (front ++ rest) all ↔
      ∃ more, first ++ more = all ∧ Accepts r.nesting (r.pending ++ rest) more := by
  refine accepts_iff_of_close { pending := front ++ rest, nesting := n }
    { r with pending := r.pending ++ rest } ?_
  have hdrain := Reader.drain_append { pending := front, nesting := n } rest
  rw [Reader.close, hdrain, Batch.andThen_assoc]
  exact congrArg (Batch.andThen · _) h

end accepts

section text
variable {n : Nesting} {cs ds : List Char} {raw rest u : Bytes} {all : List Event}

/-- Where bytes of characters begin with those of others, the rest are bytes of characters too. -/
theorem exists_encodeChars (h : encodeChars cs = encodeChars ds ++ u) :
    ∃ es, cs = ds ++ es ∧ encodeChars es = u := by
  induction ds generalizing cs with
  | nil => exact ⟨cs, rfl, by simpa using h⟩
  | cons d ds ih =>
    cases cs with
    | nil => simp at h
    | cons c cs =>
      have hfirst := decodeChar?_encodeChar c (encodeChars cs)
      rw [← encodeChars_cons, h, encodeChars_cons, List.append_assoc,
        decodeChar?_encodeChar] at hfirst
      obtain ⟨rfl, hmore⟩ : d = c ∧ encodeChars ds ++ u = encodeChars cs := by simpa using hfirst
      obtain ⟨es, rfl, hes⟩ := ih hmore.symm
      exact ⟨es, rfl, hes⟩

theorem interpret_text_eq_ok (hpath : n.path ≠ []) {offset : Nat} {told : List Event × Nesting} :
    n.interpret offset (.text raw) = .ok told ↔
      ∃ written t, encodeChars written = raw ∧ expandChars written = .ok t ∧
        told = ([.text (String.ofList t) n.path], n) := by
  constructor
  · intro h
    obtain ⟨events, n'⟩ := told
    cases Nesting.means_of_interpret h with
    | blank hroot _ _ => exact absurd hroot hpath
    | @text _ written _ _ hwritten htext =>
      obtain ⟨t, ht, rfl⟩ := map_eq_ok.1 (expandText_eq_ok.1 htext)
      exact ⟨written.toList, t, decode_eq_ok.1 (decodeText_eq_ok.1 hwritten), ht, rfl⟩
  · rintro ⟨written, t, rfl, ht, rfl⟩
    exact (Nesting.Means.text hpath (decodeText_encodeChars _ _)
      (expandText_of_expandChars ht offset)).interpret

theorem opening_not_mem_encodeChars : 0x3C ∉ encodeChars cs ↔ '<' ∉ cs := by
  refine ⟨fun h hmem => h ?_, not_mem_encodeChars (c := '<') (by decide)⟩
  exact List.mem_flatMap.2 ⟨'<', hmem, by decide⟩

/-- Text without a tag behind it does not end a document. -/
theorem not_accepts_text (hpath : n.path ≠ []) (hraw : 0x3C ∉ raw) : ¬Accepts n raw all := by
  intro hall
  obtain ⟨last, hlast⟩ := hall 0
  obtain ⟨_, mid, more, hmid, hmore, -⟩ := Batch.andThen_eq_ok.1 hlast
  have hbytes := forall_isNotOpening_iff.2 hraw
  have hwaits : scan raw = .cutOff := by
    by_cases hne : raw = []
    · exact hne ▸ scan_nil
    · exact scan_text_cutOff hne hbytes
  rw [Reader.drain_cutOff (by exact hwaits)] at hmid
  obtain ⟨-, rfl⟩ : [] = _ ∧ _ = mid := by simpa using hmid
  obtain ⟨hread, hclosed, -⟩ := Reader.finish_eq_ok.1 hmore
  have hnesting : last.nesting = n := by
    by_cases hne : raw = []
    · rw [Reader.drainLast, Reader.drainAs_nil (by exact hne)] at hread
      obtain ⟨-, rfl⟩ : [] = more ∧ _ = last := by simpa using hread
      rfl
    · rw [Reader.drainLast_text (by exact hne) (by exact hraw)] at hread
      cases hi : n.interpret 0 (.text raw) with
      | error failure => simp [hi] at hread
      | ok told =>
        obtain ⟨_, _, -, -, rfl⟩ := (interpret_text_eq_ok hpath).1 hi
        obtain ⟨-, rfl⟩ : _ = more ∧ _ = last := by simpa [hi] using hread
        rfl
  exact hpath (hnesting ▸ hclosed)

/-- Up to a tag there are characters and references. -/
theorem exists_expanded (hpath : n.path ≠ []) (hraw : 0x3C ∉ raw) (hr : Stops isNotOpening rest)
    (h : Accepts n (raw ++ rest) all) :
    ∃ written t, encodeChars written = raw ∧ expandChars written = .ok t := by
  by_cases hne : raw = []
  · exact ⟨[], [], by simp [hne], by simp [expandChars]⟩
  · have hscan := scan_text hne (forall_isNotOpening_iff.2 hraw) hr
    obtain ⟨last, hlast⟩ := h 0
    obtain ⟨_, mid, more, hmid, -, -⟩ := Batch.andThen_eq_ok.1 hlast
    cases hi : n.interpret 0 (.text raw) with
    | error failure =>
      rw [Reader.drain_refused (by exact hscan) (by exact hi)] at hmid
      simp at hmid
    | ok told =>
      obtain ⟨written, t, hwritten, ht, -⟩ := (interpret_text_eq_ok hpath).1 hi
      exact ⟨written, t, hwritten, ht⟩

/-- Text goes on up to a tag, and is expanded as a whole. -/
theorem exists_stop (hpath : n.path ≠ []) (hcs : '<' ∉ cs) {after : Bytes}
    (h : Accepts n (encodeChars cs ++ after) all) :
    ∃ ds rest t, after = encodeChars ds ++ rest ∧ Stops isNotOpening rest ∧ '<' ∉ cs ++ ds ∧
      expandChars (cs ++ ds) = .ok t := by
  have hfront := opening_not_mem_encodeChars.2 hcs
  obtain ⟨u, rest, rfl, hu⟩ : ∃ u rest, after = u ++ 0x3C :: rest ∧ 0x3C ∉ u :=
    List.eq_append_cons_of_mem
      (by_contra fun hmem => not_accepts_text hpath (by simp [hfront, hmem]) h)
  have hraw : 0x3C ∉ encodeChars cs ++ u := by simp [hfront, hu]
  have hstop : Stops isNotOpening (0x3C :: rest) := stops_cons (by decide) rest
  rw [← List.append_assoc] at h
  obtain ⟨written, t, hwritten, ht⟩ := exists_expanded hpath hraw hstop h
  obtain ⟨ds, rfl, rfl⟩ := exists_encodeChars hwritten
  exact ⟨ds, 0x3C :: rest, t, rfl, hstop, opening_not_mem_encodeChars.1 (hwritten ▸ hraw), ht⟩

theorem standsFor_plain (h : '&' ∉ cs) : StandsFor cs cs := by
  induction cs with
  | nil => exact .nil
  | cons c cs ih =>
    rw [List.mem_cons, not_or] at h
    exact .plain (Ne.symm h.1) (ih h.2)

end text

/-- The bytes end in the content of an element, and not within a character
or a reference of its text. -/
def EndsInContent (before : Bytes) : Prop :=
  ∃ r written t, (({} : Reader).feed before).outcome = .ok r ∧ r.nesting.path ≠ [] ∧
    r.pending = encodeChars written ∧ '<' ∉ written ∧ expandChars written = .ok t

/-- The later bytes are the earlier ones with something put into the content of an element that is
passed over, or with a run of plain text put into a section of verbatim text. -/
inductive Interrupts : Bytes → Bytes → Prop where
  | aside {before aside after : Bytes} {e : Enclosure} (h : EndsInContent before)
      (he : e ∈ asideKinds)
      (ha : e.Encloses aside) : Interrupts (before ++ after) (before ++ (aside ++ after))
  | verbatim {before after : Bytes} {run : List Char} (h : EndsInContent before)
      (hrun : '<' ∉ run ∧ '&' ∉ run) (hclosing : ¬[']', ']', '>'] <:+: run) :
      Interrupts (before ++ (encodeChars run ++ after))
        (before ++ (encodeChars ("<![CDATA[".toList ++ (run ++ [']', ']', '>'])) ++ after))

section interrupts
variable {before after cut aside : Bytes} {all : List Event}

/-- What is read instead of a run of plain text, and tells it, leaves
the text around it as it is. -/
theorem accepts_cut (run : List Char) (texts : List String) (h : EndsInContent before)
    (hrun : '<' ∉ run ∧ '&' ∉ run) (hcut : ∀ {n : Nesting}, n.path ≠ [] → ∀ rest,
      Stops isNotOpening (cut ++ rest) ∧ ReadsAt n cut rest (textEvents n.path texts) n)
    (htexts : texts.flatMap String.toList = run)
    (hall : Accepts {} (before ++ (encodeChars run ++ after)) all) :
    ∃ first path whole parts last, all = first ++ (textEvents path whole ++ last) ∧
      whole.flatMap String.toList = parts.flatMap String.toList ∧
      Accepts {} (before ++ (cut ++ after)) (first ++ (textEvents path parts ++ last)) := by
  obtain ⟨r, written, t, houtcome, hpath, hpending, hwritten, ht⟩ := h
  have hfeed : ({} : Reader).feed before = ⟨(({} : Reader).feed before).events, .ok r⟩ := by
    rw [← houtcome]
  obtain ⟨inner, rfl, hinner⟩ := (accepts_behind hfeed).1 hall
  rw [hpending, ← List.append_assoc, ← encodeChars_append] at hinner
  obtain ⟨ds, rest, w, rfl, hstop, hopening, hw⟩ :=
    exists_stop hpath (by simp [hwritten, hrun.1]) hinner
  -- the whole text is that in front of the run, the run and that behind it
  have hsplit :
      expandChars (written ++ run ++ ds) = ((expandChars ds).map (run ++ ·)).map (t ++ ·) := by
    rw [List.append_assoc, (expandChars_eq_ok.1 ht).expandChars_append,
      (standsFor_plain hrun.2).expandChars_append]
  obtain ⟨v, hv, rfl⟩ := map_eq_ok.1 (hsplit.symm.trans hw)
  obtain ⟨u, hu, rfl⟩ := map_eq_ok.1 hv
  obtain ⟨whole, hwhole, hreads⟩ := readsAt_expanded hw hopening hpath hstop
  rw [← List.append_assoc, ← encodeChars_append] at hinner
  obtain ⟨last, rfl, hlast⟩ := hreads.accepts_iff.1 hinner
  obtain ⟨front, hfront, hreadFront⟩ :=
    readsAt_expanded ht hwritten hpath (hcut hpath (encodeChars ds ++ rest)).1
  obtain ⟨back, hback, hreadBack⟩ :=
    readsAt_expanded hu (fun hmem => hopening (by simp [hmem])) hpath hstop
  have hread := (hreadFront.append (hcut hpath _).2).append hreadBack
  refine ⟨_, r.nesting.path, whole, front ++ (texts ++ back), last, rfl, ?_, ?_⟩
  · simp [hwhole, hfront, hback, htexts]
  · refine (accepts_behind hfeed).2 ⟨_, rfl, ?_⟩
    have haccepts := hread.accepts_iff.2 ⟨last, rfl, hlast⟩
    simpa [hpending, textEvents] using haccepts

theorem scan_encloses {e : Enclosure} (he : e ∈ asideKinds) (ha : e.Encloses aside) (rest : Bytes) :
    scan (aside ++ rest) = .token .skipped rest := by
  obtain ⟨content, rfl, hcontent⟩ := ha
  simp only [List.append_assoc]
  simp only [asideKinds, List.mem_cons, List.not_mem_nil, or_false] at he
  rcases he with rfl | rfl | rfl
  · exact scan_comment hcontent rest
  · exact scan_typeDeclaration hcontent rest
  · exact scan_instruction hcontent rest

theorem stops_encloses {e : Enclosure} (he : e ∈ asideKinds) (ha : e.Encloses aside)
    (rest : Bytes) : Stops isNotOpening (aside ++ rest) := by
  obtain ⟨content, rfl, -⟩ := ha
  simp only [asideKinds, List.mem_cons, List.not_mem_nil, or_false] at he
  rcases he with rfl | rfl | rfl <;> exact stops_cons (b := 0x3C) (by decide) _

/-- A document of which the text is interrupted tells the same, but for where that text is cut. -/
theorem accepts_interrupted {document altered : Bytes} (h : Interrupts document altered)
    (hall : Accepts {} document all) :
    ∃ first path whole parts last, all = first ++ (textEvents path whole ++ last) ∧
      whole.flatMap String.toList = parts.flatMap String.toList ∧
      Accepts {} altered (first ++ (textEvents path parts ++ last)) := by
  cases h with
  | aside h he ha =>
    refine accepts_cut [] [] h (by simp) (fun _ rest => ⟨stops_encloses he ha rest, ?_⟩) rfl hall
    exact readsAt_token (scan_encloses he ha rest) fun _ => rfl
  | @verbatim before after run h hrun hclosing =>
    refine accepts_cut run [String.ofList run] h hrun (fun hpath rest => ⟨?_, ?_⟩) (by simp) hall
    · exact stops_cons (b := 0x3C) (by decide) _
    · exact readsAt_verbatim hclosing hpath rest

end interrupts

end KeyLayout.Markup
