import KeyLayout.Proofs.Markup.Lexemes
import KeyLayout.Proofs.Markup.Completion

/-! The end of a document completes no token but text: whatever else is cut
off there is unterminated. -/
namespace KeyLayout.Markup

/-- What is cut off is not there if no more bytes follow. -/
def Lacks {α : Type} (scan : Supply → Bytes → Piece α) : Prop :=
  ∀ input, scan .arriving input = .cutOff → scan .ended input = .absent

/-- What is cut off takes all the bytes, or it is not there, if no more of them follow. -/
def RunsOut {α : Type} (scan : Supply → Bytes → Piece α) : Prop :=
  ∀ input, scan .arriving input = .cutOff → scan .ended input = .absent ∨
    ∃ value, scan .ended input = .found value []

/-- What is cut off is broken if no more bytes follow, unless hardly any of them have arrived. -/
def Breaks {α : Type} (scan : Supply → Bytes → Piece α) (few : List Bytes) : Prop :=
  ∀ input, scan .arriving input = .cutOff →
    (∃ construct, scan .ended input = .broken construct) ∨ scan .ended input = .absent ∧ input ∈ few

section combinators
variable {α β : Type} {f g : Supply → Bytes → Piece α} {few others : List Bytes}

theorem Lacks.runsOut (h : Lacks f) : RunsOut f := fun input hi => .inl (h input hi)

theorem RunsOut.andThen {next : α → Supply → Bytes → Piece β} (hs : Settles f) (hf : RunsOut f)
    (hnil : ∀ value, next value .ended [] = .absent) (hn : ∀ value, Lacks (next value)) :
    Lacks fun s input => (f s input).andThen fun value rest => next value s rest := by
  intro input h
  cases hi : f .arriving input with
  | found value rest =>
    simp only [hi, Piece.andThen] at h
    simp only [hs.ended_eq hi (by simp), Piece.andThen, hn value rest h]
  | absent => simp [hi, Piece.andThen] at h
  | broken construct => simp [hi, Piece.andThen] at h
  | cutOff =>
    rcases hf input hi with he | ⟨value, he⟩
    · simp only [he, Piece.andThen]
    · simp only [he, Piece.andThen, hnil]

theorem Lacks.map (hf : Lacks f) (k : α → β) : Lacks fun s input => (f s input).map k := by
  intro input h
  simp only [hf input (Piece.map_eq_cutOff.1 h), Piece.map, Piece.andThen]

theorem Lacks.orElse (hs : Settles f) (hf : Lacks f) (hg : Lacks g)
    (hother : ∀ input, f .arriving input = .cutOff → g .ended input = .absent) :
    Lacks fun s input => (f s input).orElse (g s input) := by
  intro input h
  cases hi : f .arriving input with
  | found value rest => simp [hi, Piece.orElse] at h
  | absent =>
    simp only [hi, Piece.orElse] at h
    simp only [hs.ended_eq hi (by simp), Piece.orElse, hg input h]
  | broken construct => simp [hi, Piece.orElse] at h
  | cutOff => simp only [hf input hi, Piece.orElse, hother input hi]

/-- If nothing but the first piece tells the construct, few bytes do not tell it. -/
theorem breaks_andThen {next : α → Supply → Bytes → Piece β} {construct : Construct}
    (hs : Settles f)
    (hf : ∀ input, f .arriving input = .cutOff → f .ended input = .absent ∧ input ∈ few ∨
      ∃ value, f .ended input = .found value [])
    (hnil : ∀ value, next value .ended [] = .absent) (hn : ∀ value, Lacks (next value)) :
    Breaks (fun s input =>
      (f s input).andThen fun value rest => (next value s rest).orBroken construct) few := by
  intro input h
  cases hi : f .arriving input with
  | found value rest =>
    simp only [hi, Piece.andThen, Piece.orBroken_eq_cutOff] at h
    left
    simp only [hs.ended_eq hi (by simp), Piece.andThen, hn value rest h, Piece.orBroken]
    exact ⟨construct, rfl⟩
  | absent => simp [hi, Piece.andThen] at h
  | broken construct => simp [hi, Piece.andThen] at h
  | cutOff =>
    rcases hf input hi with ⟨he, hfew⟩ | ⟨value, he⟩
    · exact .inr ⟨by simp only [he, Piece.andThen], hfew⟩
    · exact .inl ⟨construct, by simp only [he, Piece.andThen, hnil, Piece.orBroken]⟩

theorem Breaks.orElse (hs : Settles f) (hf : Breaks f few) (hg : Breaks g others)
    (hother : ∀ input ∈ few, g .ended input = .absent) :
    Breaks (fun s input => (f s input).orElse (g s input)) (few ++ others) := by
  intro input h
  cases hi : f .arriving input with
  | found value rest => simp [hi, Piece.orElse] at h
  | absent =>
    simp only [hi, Piece.orElse] at h
    simp only [hs.ended_eq hi (by simp), Piece.orElse]
    exact (hg input h).imp_right fun hlast => ⟨hlast.1, List.mem_append_right _ hlast.2⟩
  | broken construct => simp [hi, Piece.orElse] at h
  | cutOff =>
    rcases hf input hi with ⟨construct, he⟩ | ⟨he, hfew⟩
    · exact .inl ⟨construct, by simp only [he, Piece.orElse]⟩
    · exact .inr ⟨by simp only [he, Piece.orElse, hother input hfew], List.mem_append_left _ hfew⟩

end combinators

section scanners
variable {p : UInt8 → Bool} {input : Bytes}

theorem literal_atEnd {bs : Bytes} (h : literal .arriving bs input = .cutOff) :
    literal .ended bs input = .absent ∧ input ∈ bs.inits := by
  induction bs generalizing input with
  | nil => simp [literal] at h
  | cons b bs ih =>
    cases input with
    | nil => exact ⟨rfl, by simp⟩
    | cons c input =>
      simp only [literal] at h ⊢
      split_ifs at h ⊢ with hbc
      obtain ⟨habsent, hmem⟩ := ih h
      refine ⟨habsent, ?_⟩
      rw [List.mem_inits] at hmem ⊢
      exact hbc ▸ List.cons_prefix_cons.2 ⟨rfl, hmem⟩

theorem lacks_literal (bs : Bytes) : Lacks (literal · bs) := fun _ h => (literal_atEnd h).1

theorem runsOut_run (p : UInt8 → Bool) : RunsOut (run · p) := fun input h =>
  .inr ⟨input, run_atEnd (forall_of_run_cutOff h) .ended⟩

theorem runsOut_run1 (p : UInt8 → Bool) : RunsOut (run1 · p) := by
  intro input h
  cases input with
  | nil => exact .inl rfl
  | cons b input =>
    obtain ⟨hb, hmore⟩ := List.forall_mem_cons.1 (forall_of_run1_cutOff h)
    exact .inr ⟨b :: input, by simp [run1, hb, run_atEnd hmore, Piece.map, Piece.andThen]⟩

theorem lacks_upTo (closing : Bytes) : Lacks (upTo · closing) := by
  intro input h
  induction input with
  | nil => rfl
  | cons b input ih =>
    simp only [upTo] at h ⊢
    split_ifs at h ⊢
    have he : upTo .ended closing input = .absent := ih (Piece.map_eq_cutOff.1 h)
    simp only [he, Piece.map, Piece.andThen]

end scanners

section attributes
variable {input : Bytes}

theorem settles_inQuotes (q : UInt8) :
    Settles fun s input => (literal s [q] input).andThen fun _ input => upTo s [q] input :=
  (settles_literal _).andThen fun _ => settles_upTo _

theorem lacks_inQuotes (q : UInt8) :
    Lacks fun s input => (literal s [q] input).andThen fun _ input => upTo s [q] input :=
  (lacks_literal _).runsOut.andThen (settles_literal _) (fun _ => rfl) fun _ => lacks_upTo _

theorem lacks_quoted : Lacks quoted := by
  refine (lacks_inQuotes 0x22).orElse (settles_inQuotes _) (lacks_inQuotes 0x27) fun input h => ?_
  have hdouble : ascii "\"" = [0x22] := by decide
  cases input with
  | nil => rfl
  | cons b input =>
    by_cases hb : 0x22 = b
    · subst hb
      rfl
    · simp [hdouble, literal, hb, Piece.andThen] at h

theorem lacks_oneAttribute : Lacks oneAttribute :=
  (runsOut_run1 _).andThen (settles_run1 _) (fun _ => rfl) fun _ =>
  (runsOut_run1 _).andThen (settles_run1 _) (fun _ => rfl) fun _ =>
  (runsOut_run _).andThen (settles_run _) (fun _ => rfl) fun _ =>
  (lacks_literal _).runsOut.andThen (settles_literal _) (fun _ => rfl) fun _ =>
  (runsOut_run _).andThen (settles_run _) (fun _ => rfl) fun _ => lacks_quoted.map _

/-- An attribute that is cut off is left behind those in front of it. -/
theorem attributes_atEnd (h : attributes .arriving input = .cutOff) :
    ∃ values rest, attributes .ended input = .found values rest ∧
      oneAttribute .arriving rest = .cutOff := by
  induction hn : input.length using Nat.strongRecOn generalizing input with
  | _ n ih =>
    subst hn
    rw [attributes_eq] at h
    cases ho : oneAttribute .arriving input with
    | found value rest =>
      simp only [ho] at h
      obtain ⟨values, behind, hvalues, hbehind⟩ :=
        ih rest.length (advances_oneAttribute _ ho) (Piece.map_eq_cutOff.1 h) rfl
      have he := settles_oneAttribute.ended_eq ho (by simp)
      refine ⟨value :: values, behind, ?_, hbehind⟩
      rw [attributes_eq, he]
      simp only [hvalues, Piece.map, Piece.andThen]
    | absent => simp [ho] at h
    | broken construct => simp [ho] at h
    | cutOff => exact ⟨[], input, by rw [attributes_eq, lacks_oneAttribute input ho], ho⟩

/-- Behind the blanks of an attribute that is cut off there is the
beginning of a name, if anything. -/
theorem exists_blanks (h : oneAttribute .arriving input = .cutOff) :
    ∃ space name, input = space ++ name ∧ (∀ b ∈ space, isSpaceByte b = true) ∧
      (name = [] ∨ ∃ b more, name = b :: more ∧ isNameByte b = true) := by
  cases hs : run1 .arriving isSpaceByte input with
  | found space rest =>
    simp only [oneAttribute, hs, Piece.andThen] at h
    refine ⟨space, rest, eq_of_run1 hs, forall_run1 hs, ?_⟩
    cases rest with
    | nil => exact .inl rfl
    | cons b more =>
      refine .inr ⟨b, more, rfl, ?_⟩
      by_contra hb
      have hn : isNameByte b = false := by simpa using hb
      simp [run1_absent (stops_cons hn more)] at h
  | absent => simp [oneAttribute, hs, Piece.andThen] at h
  | broken construct => simp [oneAttribute, hs, Piece.andThen] at h
  | cutOff => exact ⟨input, [], by simp, forall_of_run1_cutOff hs, .inl rfl⟩

end attributes

section tags

/-- No tag ends with the beginning of an attribute. -/
theorem tagEnd_absent {name : Bytes}
    (h : name = [] ∨ ∃ b more, name = b :: more ∧ isNameByte b = true) :
    literal .ended (ascii "/>") name = .absent ∧ literal .ended (ascii ">") name = .absent := by
  rcases h with rfl | ⟨b, more, rfl, hb⟩
  · exact ⟨rfl, rfl⟩
  · have hslash : ascii "/>" = [0x2F, 0x3E] := by decide
    have hangle : ascii ">" = [0x3E] := by decide
    have hne : 0x2F ≠ b ∧ 0x3E ≠ b := by
      constructor <;> rintro rfl <;> exact absurd hb (by decide)
    simp [hslash, hangle, literal, hne]

theorem lacks_tagEnd (name : Bytes) (entries : List (Bytes × Bytes)) :
    Lacks fun s input =>
      ((literal s (ascii "/>") input).map fun _ => Token.startTag name entries true).orElse
      ((literal s (ascii ">") input).map fun _ => Token.startTag name entries false) := by
  refine ((lacks_literal _).map _).orElse ((settles_literal _).map _) ((lacks_literal _).map _)
    fun input h => ?_
  have habsent :
      ∀ input ∈ (ascii "/>").inits, literal .ended (ascii ">") input = .absent := by decide
  simp only [habsent input (literal_atEnd (Piece.map_eq_cutOff.1 h)).2, Piece.map, Piece.andThen]

theorem lacks_startTagRest (name : Bytes) : Lacks (startTagRest · name) := by
  intro input h
  cases ha : attributes .arriving input with
  | found entries rest =>
    simp only [startTagRest, ha, Piece.andThen] at h
    have hrest := (runsOut_run isSpaceByte).andThen (settles_run _) (fun _ => rfl)
      (fun _ => lacks_tagEnd name entries) rest h
    simpa only [startTagRest, settles_attributes.ended_eq ha (by simp), Piece.andThen] using hrest
  | absent => simp [startTagRest, ha, Piece.andThen] at h
  | broken construct => simp [startTagRest, ha, Piece.andThen] at h
  | cutOff =>
    -- The attribute that is cut off is given up, and no tag ends where it begins.
    obtain ⟨entries, rest, hentries, hone⟩ := attributes_atEnd ha
    obtain ⟨space, more, rfl, hspace, hmore⟩ := exists_blanks hone
    have hrun : run .ended isSpaceByte (space ++ more) = .found space more := by
      rcases hmore with rfl | ⟨b, more, rfl, hb⟩
      · rw [List.append_nil, run_atEnd hspace, Supply.atEnd_ended]
      · exact (settles_run _).ended_eq
          (run_append hspace (stops_cons (not_isSpaceByte hb) more)) (by simp)
    simp only [startTagRest, hentries, hrun, tagEnd_absent hmore, Piece.map,
      Piece.andThen, Piece.orElse]

theorem startTagRest_nil (name : Bytes) : startTagRest .ended name [] = .absent := by
  rw [startTagRest, attributes_eq]
  rfl

theorem breaks_startTag : Breaks startTag (ascii "<").inits := by
  refine breaks_andThen settles_startTagName (fun input h => ?_) startTagRest_nil lacks_startTagRest
  cases input with
  | nil => exact .inl ⟨rfl, by decide⟩
  | cons b input =>
    have hangle : ascii "<" = [0x3C] := by decide
    by_cases hb : 0x3C = b
    · subst hb
      simp only [startTagName, hangle, literal, if_true, Piece.andThen] at h ⊢
      cases input with
      | nil => exact .inl ⟨rfl, by decide⟩
      | cons c input =>
        have hall := forall_of_run1_cutOff h
        obtain ⟨hc, hmore⟩ := List.forall_mem_cons.1 hall
        exact .inr ⟨c :: input, by simp [run1, hc, run_atEnd hmore, Piece.map, Piece.andThen]⟩
    · simp [startTagName, hangle, literal, hb, Piece.andThen] at h

theorem lacks_endTagRest : Lacks endTagRest :=
  (runsOut_run1 _).andThen (settles_run1 _) (fun _ => rfl) fun _ =>
  (runsOut_run _).andThen (settles_run _) (fun _ => rfl) fun _ => (lacks_literal _).map _

theorem breaks_endTag : Breaks endTag (ascii "</").inits :=
  breaks_andThen (settles_literal _) (fun _ h => .inl (literal_atEnd h)) (fun _ => rfl) fun _ =>
    lacks_endTagRest

theorem breaks_enclosure (e : Enclosure) : Breaks (fun s => e.scan s) e.opening.inits :=
  breaks_andThen (settles_literal _) (fun _ h => .inl (literal_atEnd h)) (fun _ => rfl) fun _ =>
    (lacks_upTo _).map _

theorem breaks_enclosed : Breaks enclosed (comment.opening.inits ++ verbatimSection.opening.inits ++
    typeDeclaration.opening.inits ++ instruction.opening.inits) := by
  have hfront := settles_enclosure comment
  exact ((breaks_enclosure comment).orElse hfront (breaks_enclosure verbatimSection)
    (by decide)).orElse
    (hfront.orElse (settles_enclosure _)) (breaks_enclosure typeDeclaration) (by decide) |>.orElse
    ((hfront.orElse (settles_enclosure _)).orElse (settles_enclosure _))
      (breaks_enclosure instruction) (by decide)

/-- What begins with `<` and is cut off is no token if no more bytes follow. -/
theorem angled_atEnd {input : Bytes} (h : angled .arriving input = .cutOff) :
    (∃ construct, angled .ended input = .broken construct) ∨ angled .ended input = .absent := by
  have hbreaks := (breaks_enclosed.orElse settles_enclosed breaks_endTag (by decide)).orElse
    (settles_enclosed.orElse settles_endTag) breaks_startTag (by decide) input h
  exact hbreaks.imp_right And.left

end tags

theorem scan_atEnd {rest : Bytes} (h : scan (0x3C :: rest) = .cutOff) :
    ∃ construct, Supply.ended.scan (0x3C :: rest) = .malformed construct := by
  rcases angled_atEnd (angled_cutOff h) with ⟨construct, hbroken⟩ | habsent
  · exact ⟨some construct, by simp only [Supply.scan, hbroken, Piece.orElse, Piece.toScan]⟩
  · exact ⟨none, by simp only [Supply.scan, habsent, plainText_absent, Piece.orElse, Piece.toScan]⟩

/-- Bytes that begin no complete token are none at all, or text, or they begin with `<`. -/
theorem cutOff_cases {input : Bytes} (h : scan input = .cutOff) :
    input = [] ∨ (input ≠ [] ∧ 0x3C ∉ input) ∨ ∃ rest, input = 0x3C :: rest := by
  by_cases hmem : 0x3C ∈ input
  · obtain ⟨front, rest, rfl, hfront⟩ := List.eq_append_cons_of_mem hmem
    cases front with
    | nil => exact .inr (.inr ⟨rest, rfl⟩)
    | cons b front =>
      rw [scan_text (by simp) (forall_isNotOpening_iff.2 hfront) (stops_cons (by decide) rest)] at h
      simp at h
  · by_cases hne : input = []
    · exact .inl hne
    · exact .inr (.inl ⟨hne, hmem⟩)

namespace Reader
variable {r : Reader}

/-- What waits for the end of markup is unterminated if no more bytes follow. -/
theorem Waits.drainLast_markup {rest : Bytes} (h : r.Waits) (hp : r.pending = 0x3C :: rest) :
    r.drainLast = ⟨[], .error ⟨r.offset, .unterminated⟩⟩ := by
  have hs : scan (0x3C :: rest) = .cutOff := hp ▸ h
  obtain ⟨construct, hc⟩ := scan_atEnd hs
  have hfault : Supply.ended.fault construct r.pending = .unterminated := by
    rw [hp]
    exact if_pos hs
  rw [drainLast, drainAs_malformed (by simp [hp]) (hp ▸ hc), hfault]

/-- Text is complete where the document ends, and it is the last that is read. -/
theorem drainLast_text (hne : r.pending ≠ []) (ht : 0x3C ∉ r.pending) :
    r.drainLast =
      match r.nesting.interpret r.offset (.text r.pending) with
      | .error failure => ⟨[], .error failure⟩
      | .ok (events, nesting) => ⟨events, .ok (r.behind [] nesting)⟩ := by
  have hs := scan_text_ended hne (forall_isNotOpening_iff.2 ht)
  cases hi : r.nesting.interpret r.offset (.text r.pending) with
  | error failure => exact drainAs_refused hs hi
  | ok told =>
    obtain ⟨events, nesting⟩ := told
    rw [drainLast, drainAs_token hs hi, Batch.ok_andThen, drainAs_nil rfl, List.append_nil]

end Reader

end KeyLayout.Markup
