import KeyLayout.Proofs.Markup.Settled
import KeyLayout.Proofs.Markup.Scanning

/-! A token that is cut off can be completed, so that a scanner asks for more bytes only where some
of them would do. -/
namespace KeyLayout.Markup

/-- Where the scanner asks for more bytes, some can arrive that complete its piece,
with the tail behind them. -/
def Completes {α : Type} (scan : Supply → Bytes → Piece α) (tail : Bytes) : Prop :=
  ∀ input, scan .arriving input = .cutOff →
    ∃ more value, scan .arriving (input ++ (more ++ tail)) = .found value tail

section combinators
variable {α β : Type} {f g : Supply → Bytes → Piece α} {tail : Bytes}

/-- If the first piece is cut off, it is completed with bytes behind it that the second accepts. -/
theorem Completes.andThen (between : Bytes) {next : α → Supply → Bytes → Piece β} (hs : Settles f)
    (hf : Completes f (between ++ tail))
    (hbetween : ∀ value, ∃ w, next value .arriving (between ++ tail) = .found w tail)
    (hn : ∀ value, Completes (next value) tail) :
    Completes (fun s input => (f s input).andThen fun value rest => next value s rest) tail := by
  intro input h
  cases hi : f .arriving input with
  | found value rest =>
    simp only [hi, Piece.andThen] at h
    obtain ⟨more, w, hw⟩ := hn value rest h
    have he := hs .arriving input (more ++ tail) (by simp [hi])
    refine ⟨more, w, ?_⟩
    simp only [he, hi, Piece.extend, Piece.andThen, hw]
  | absent => simp [hi, Piece.andThen] at h
  | broken construct => simp [hi, Piece.andThen] at h
  | cutOff =>
    obtain ⟨more, value, hv⟩ := hf input hi
    obtain ⟨w, hw⟩ := hbetween value
    refine ⟨more ++ between, w, ?_⟩
    rw [List.append_assoc]
    simp only [hv, Piece.andThen, hw]

theorem Completes.map (hf : Completes f tail) (k : α → β) :
    Completes (fun s input => (f s input).map k) tail := by
  intro input h
  obtain ⟨more, value, hv⟩ := hf input (Piece.map_eq_cutOff.1 h)
  exact ⟨more, k value, by simp only [hv, Piece.map, Piece.andThen]⟩

theorem Completes.orElse (hs : Settles f) (hf : Completes f tail) (hg : Completes g tail) :
    Completes (fun s input => (f s input).orElse (g s input)) tail := by
  intro input h
  cases hi : f .arriving input with
  | found value rest => simp [hi, Piece.orElse] at h
  | absent =>
    simp only [hi, Piece.orElse] at h
    obtain ⟨more, value, hv⟩ := hg input h
    have he := hs .arriving input (more ++ tail) (by simp [hi])
    exact ⟨more, value, by simp only [he, hi, Piece.extend, Piece.orElse, hv]⟩
  | broken construct => simp [hi, Piece.orElse] at h
  | cutOff =>
    obtain ⟨more, value, hv⟩ := hf input hi
    exact ⟨more, value, by simp only [hv, Piece.orElse]⟩

theorem Completes.orBroken (hf : Completes f tail) (construct : Construct) :
    Completes (fun s input => (f s input).orBroken construct) tail := by
  intro input h
  obtain ⟨more, value, hv⟩ := hf input (Piece.orBroken_eq_cutOff.1 h)
  exact ⟨more, value, by simp only [hv, Piece.orBroken]⟩

end combinators

section scanners
variable {p : UInt8 → Bool} {input tail : Bytes}

theorem completes_literal (bs tail : Bytes) : Completes (literal · bs) tail := by
  intro input h
  induction bs generalizing input with
  | nil => simp [literal] at h
  | cons b bs ih =>
    cases input with
    | nil => exact ⟨b :: bs, (), literal_append (b :: bs) tail⟩
    | cons c input =>
      simp only [List.cons_append, literal] at h ⊢
      split_ifs at h ⊢
      exact ih input h

/-- A run asks for more bytes if all that have arrived belong to it. -/
theorem forall_of_run_cutOff (h : run .arriving p input = .cutOff) : ∀ b ∈ input, p b = true := by
  induction input with
  | nil => simp
  | cons b input ih =>
    simp only [run] at h
    split_ifs at h with hb
    exact List.forall_mem_cons.2 ⟨hb, ih (Piece.map_eq_cutOff.1 h)⟩

theorem completes_run (ht : Stops p tail) : Completes (run · p) tail :=
  fun input h => ⟨[], input, run_append (forall_of_run_cutOff h) ht⟩

theorem forall_of_run1_cutOff (h : run1 .arriving p input = .cutOff) : ∀ b ∈ input, p b = true := by
  cases input with
  | nil => simp
  | cons b input =>
    simp only [run1] at h
    split_ifs at h with hb
    exact List.forall_mem_cons.2 ⟨hb, forall_of_run_cutOff (Piece.map_eq_cutOff.1 h)⟩

theorem completes_run1 {b : UInt8} (hb : p b = true) (ht : Stops p tail) :
    Completes (run1 · p) tail := by
  intro input h
  refine ⟨[b], input ++ [b], ?_⟩
  rw [← List.append_assoc]
  refine run1_append (by simp) ?_ ht
  rw [List.forall_mem_append]
  exact ⟨forall_of_run1_cutOff h, List.forall_mem_singleton.2 hb⟩

/-- Bytes in which the closing stands are not cut off. -/
theorem not_infix_of_upTo_cutOff {closing : Bytes} (hc : closing ≠ [])
    (h : upTo .arriving closing input = .cutOff) : ¬closing <:+: input := by
  induction input with
  | nil => simpa using hc
  | cons b input ih =>
    simp only [upTo] at h
    split_ifs at h with hp
    rw [List.infix_cons_iff, not_or]
    exact ⟨fun hprefix => hp (List.isPrefixOf_iff_prefix.2 hprefix), ih (Piece.map_eq_cutOff.1 h)⟩

theorem completes_upTo {k : Bytes} {z : UInt8} (hz : z ∉ k) (tail : Bytes) :
    Completes (upTo · (k ++ [z])) tail :=
  fun input h => ⟨k ++ [z], input, upTo_append hz (not_infix_of_upTo_cutOff (by simp) h) tail⟩

end scanners

section tokens
variable {tail : Bytes}

theorem completes_enclosure {e : Enclosure} {k : Bytes} {z : UInt8}
    (hc : e.closing = k ++ [z]) (hz : z ∉ k)
    (tail : Bytes) : Completes (fun s => e.scan s) tail := by
  have hbody :
      Completes
        (fun s input => ((upTo s e.closing input).map e.token).orBroken e.construct) tail := by
    rw [hc]
    exact ((completes_upTo hz tail).map e.token).orBroken _
  have hclosing : upTo .arriving e.closing (e.closing ++ tail) = .found [] tail := by
    have hnone : ¬k ++ [z] <:+: [] := by simp
    rw [hc]
    exact upTo_append hz hnone tail
  refine .andThen e.closing (settles_literal _) (completes_literal _ _) (fun _ => ?_) fun _ => hbody
  refine ⟨e.token [], ?_⟩
  show ((upTo .arriving e.closing (e.closing ++ tail)).map e.token).orBroken e.construct = _
  simp only [hclosing, Piece.map, Piece.andThen, Piece.orBroken]

theorem completes_inQuotes (q : UInt8) (tail : Bytes) :
    Completes (fun s input => (literal s [q] input).andThen fun _ input => upTo s [q] input) tail :=
  have hnone : q ∉ ([] : Bytes) := List.not_mem_nil
  .andThen [q] (settles_literal _) (completes_literal _ _)
    (fun _ => ⟨[], upTo_byte hnone tail⟩) fun _ =>
    completes_upTo hnone tail

theorem completes_quoted (tail : Bytes) : Completes quoted tail :=
  (completes_inQuotes 0x22 tail).orElse ((settles_literal _).andThen fun _ => settles_upTo _)
    (completes_inQuotes 0x27 tail)

theorem completes_oneAttribute (tail : Bytes) : Completes oneAttribute tail := by
  have hequals : ascii "=" = [0x3D] := by decide
  have hnone : (0x22 : UInt8) ∉ ([] : Bytes) := List.not_mem_nil
  have hquoted : quoted .arriving (0x22 :: 0x22 :: tail) = .found [] tail :=
    quoted_append (.inl rfl) hnone tail
  have hblank :
      isSpaceByte 0x3D = false ∧ isSpaceByte 0x22 = false ∧ isSpaceByte 0x61 = false := by decide
  have hname : isNameByte 0x3D = false ∧ isNameByte 0x61 = true := by decide
  refine .andThen [0x61, 0x3D, 0x22, 0x22] (settles_run1 _)
    (completes_run1 (b := 0x20) (by decide) (stops_cons (by decide) _)) (fun _ => ?_) fun _ => ?_
  · simp [run1, run, literal, hequals, hquoted, hblank, hname, Piece.map, Piece.andThen]
  refine .andThen [0x3D, 0x22, 0x22] (settles_run1 _)
    (completes_run1 (b := 0x61) (by decide) (stops_cons (by decide) _)) (fun _ => ?_) fun name => ?_
  · simp [run, literal, hequals, hquoted, hblank, Piece.map, Piece.andThen]
  refine .andThen [0x3D, 0x22, 0x22] (settles_run _)
    (completes_run (stops_cons (by decide) _)) (fun _ => ?_) fun _ => ?_
  · simp [run, literal, hequals, hquoted, hblank, Piece.map, Piece.andThen]
  refine .andThen [0x22, 0x22] (settles_literal _) (completes_literal _ _) (fun _ => ?_) fun _ => ?_
  · simp [run, hquoted, hblank, Piece.map, Piece.andThen]
  refine .andThen [0x22, 0x22] (settles_run _)
    (completes_run (stops_cons (by decide) _)) (fun _ => ?_)
    fun _ => (completes_quoted tail).map _
  simp [hquoted, Piece.map, Piece.andThen]

/-- Behind an attribute that is completed there can be no more of them. -/
theorem completes_attributes (ht : oneAttribute .arriving tail = .absent) :
    Completes attributes tail := by
  intro input
  induction hn : input.length using Nat.strongRecOn generalizing input with
  | _ n ih =>
    intro h
    subst hn
    rw [attributes_eq] at h
    cases ho : oneAttribute .arriving input with
    | found value rest =>
      simp only [ho] at h
      obtain ⟨more, values, hv⟩ :=
        ih rest.length (advances_oneAttribute _ ho) rest rfl (Piece.map_eq_cutOff.1 h)
      have he := settles_oneAttribute .arriving input (more ++ tail) (by simp [ho])
      refine ⟨more, value :: values, ?_⟩
      rw [attributes_eq, he, ho]
      simp only [Piece.extend, hv, Piece.map, Piece.andThen]
    | absent => simp [ho] at h
    | broken construct => simp [ho] at h
    | cutOff =>
      obtain ⟨more, value, hv⟩ := completes_oneAttribute tail input ho
      refine ⟨more, [value], ?_⟩
      rw [attributes_eq, hv]
      simp only [attributes_eq .arriving tail, ht, Piece.map, Piece.andThen]

theorem completes_startTagRest (name : Bytes) : Completes (startTagRest · name) [] := by
  have hangle : ascii ">" = [0x3E] := by decide
  have hslash : ascii "/>" = [0x2F, 0x3E] := by decide
  have habsent : oneAttribute .arriving [0x3E] = .absent := rfl
  have hblank : isSpaceByte 0x3E = false := by decide
  refine .andThen [0x3E] settles_attributes (completes_attributes habsent) (fun _ => ?_)
    fun entries => ?_
  · simp [run, literal, hangle, hslash, hblank, Piece.map, Piece.andThen, Piece.orElse]
  refine .andThen [0x3E] (settles_run _) (completes_run (stops_cons (by decide) _))
    (fun _ => ?_) fun _ => ?_
  · simp [literal, hangle, hslash, Piece.map, Piece.andThen, Piece.orElse]
  exact ((completes_literal _ _).map _).orElse ((settles_literal _).map _)
    ((completes_literal _ _).map _)

theorem completes_startTag : Completes startTag [] := by
  have hangle : ascii ">" = [0x3E] := by decide
  have hslash : ascii "/>" = [0x2F, 0x3E] := by decide
  have habsent : oneAttribute .arriving [0x3E] = .absent := rfl
  have hblank : isSpaceByte 0x3E = false := by decide
  have hname : Completes startTagName [0x3E] := by
    refine .andThen [0x61] (settles_literal _) (completes_literal _ _) (fun _ => ?_) fun _ =>
      completes_run1 (b := 0x61) (by decide) (stops_cons (by decide) _)
    exact ⟨[0x61],
      run1_append (List.cons_ne_nil 0x61 []) (List.forall_mem_singleton.2 (by decide))
        (stops_cons (by decide) _)⟩
  refine .andThen [0x3E] settles_startTagName hname (fun _ => ?_) fun name =>
    (completes_startTagRest name).orBroken _
  simp [startTagRest, attributes_eq, habsent, run, literal, hangle, hslash, hblank, Piece.map,
    Piece.andThen, Piece.orElse, Piece.orBroken]

theorem completes_endTag : Completes endTag [] := by
  have hangle : ascii ">" = [0x3E] := by decide
  have hblank : isSpaceByte 0x3E = false := by decide
  have hrest : Completes endTagRest [] := by
    refine .andThen [0x3E] (settles_run1 _)
      (completes_run1 (b := 0x61) (by decide) (stops_cons (by decide) _)) (fun _ => ?_) fun _ => ?_
    · simp [run, literal, hangle, hblank, Piece.map, Piece.andThen]
    refine .andThen [0x3E] (settles_run _) (completes_run (stops_cons (by decide) _)) (fun _ => ?_)
      fun _ => (completes_literal _ _).map _
    simp [literal, hangle, Piece.map, Piece.andThen]
  refine .andThen [0x61, 0x3E] (settles_literal _) (completes_literal _ _) (fun _ => ?_) fun _ =>
    hrest.orBroken _
  exact ⟨.endTag [0x61], rfl⟩

theorem completes_enclosed : Completes enclosed [] := by
  have hcomment : Completes (fun s => comment.scan s) [] :=
    completes_enclosure (k := [0x2D, 0x2D]) rfl (by decide) []
  have hverbatim : Completes (fun s => verbatimSection.scan s) [] :=
    completes_enclosure (k := [0x5D, 0x5D]) rfl (by decide) []
  have htype : Completes (fun s => typeDeclaration.scan s) [] :=
    completes_enclosure (k := []) rfl (by decide) []
  have hinstruction : Completes (fun s => instruction.scan s) [] :=
    completes_enclosure (k := [0x3F]) rfl (by decide) []
  have hfront := settles_enclosure comment
  exact ((hcomment.orElse hfront hverbatim).orElse
    (hfront.orElse (settles_enclosure _)) htype).orElse
    ((hfront.orElse (settles_enclosure _)).orElse (settles_enclosure _)) hinstruction

theorem completes_angled : Completes angled [] :=
  (completes_enclosed.orElse settles_enclosed completes_endTag).orElse
    (settles_enclosed.orElse settles_endTag)
    completes_startTag

end tokens

/-- What begins with `<` and is cut off is a proper beginning of a token that is all there. -/
theorem exists_completion {rest : Bytes} (h : scan (0x3C :: rest) = .cutOff) :
    ∃ more token, more ≠ [] ∧ scan (0x3C :: rest ++ more) = .token token [] := by
  have hangled : angled .arriving (0x3C :: rest) = .cutOff := angled_cutOff h
  obtain ⟨more, token, ht⟩ := completes_angled _ hangled
  rw [List.append_nil] at ht
  refine ⟨more, token, ?_, ?_⟩
  · rintro rfl
    rw [List.append_nil, hangled] at ht
    simp at ht
  · simp only [scan, Supply.scan, ht, Piece.orElse, Piece.toScan]

end KeyLayout.Markup
