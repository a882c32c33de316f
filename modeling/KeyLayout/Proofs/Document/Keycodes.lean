import KeyLayout.Proofs.Document.Arrangement

/-! Keycodes that two keys end with. They are found once the whole document has been read, so that
only the last word on a key counts; a keycode that no key may have is found where it is given. -/
namespace KeyLayout.Markup
open Document Model

/-- The attributes that an element of a geometry document needs are there, and those
that it knows can be read. -/
def Readable (name : String) (a : Attributes) : Prop :=
  match name with
  | "bounds" => (rectOf a).isSome
  | "section" => a.Optional Number.integer32? "angle"
  | "button" => (a.get? "name").isSome ∧ a.Optional Number.word32? "keycode" ∧
      ∀ code ∈ a.value? Number.word32? "keycode", firstKeycode ≤ code
  | "outline" => (a.get? "id").isSome ∧ a.Optional Number.real? "corner-radius"
  | "point" => (a.value? Number.real? "x").isSome ∧ (a.value? Number.real? "y").isSome
  | _ => True

def Event.Proper : Event → Prop
  | .start name a path => Kind.geometry.check name path = .ok () ∧ Readable name a
  | .stop _ _ => True
  | .text _ _ => True

end KeyLayout.Markup

namespace KeyLayout.Document
open Markup Model

namespace GeometryDraft
variable {d : GeometryDraft} {a : Attributes} {path : List String}

theorem exists_startBounds : (∃ d', d.startBounds a path = .ok d') ↔ Readable "bounds" a := by
  constructor
  · rintro ⟨d', h⟩
    obtain ⟨r, hr, -⟩ := startBounds_eq_ok h
    exact Option.isSome_iff_exists.2 ⟨r, hr⟩
  · intro h
    obtain ⟨r, hr⟩ := Option.isSome_iff_exists.1 h
    obtain ⟨x, hx, hr⟩ := Option.bind_eq_some_iff.1 hr
    obtain ⟨y, hy, hr⟩ := Option.bind_eq_some_iff.1 hr
    obtain ⟨width, hwidth, hr⟩ := Option.bind_eq_some_iff.1 hr
    obtain ⟨height, hheight, -⟩ := Option.bind_eq_some_iff.1 hr
    unfold startBounds
    simp only [read_eq_ok.2 hx, read_eq_ok.2 hy, read_eq_ok.2 hwidth, read_eq_ok.2 hheight, ok_bind]
    split
    · split <;> exact ⟨_, rfl⟩
    · exact ⟨_, rfl⟩

theorem exists_startSection : (∃ d', d.startSection a = .ok d') ↔ Readable "section" a := by
  unfold startSection
  simp [exists_bind_eq_ok, read?_eq_ok, Readable]

theorem exists_startOutline : (∃ d', d.startOutline a = .ok d') ↔ Readable "outline" a := by
  unfold startOutline
  simp [exists_bind_eq_ok, read?_eq_ok, Readable, required_eq_ok, Option.isSome_iff_exists]

theorem exists_startPoint : (∃ d', d.startPoint a = .ok d') ↔ Readable "point" a := by
  unfold startPoint
  simp [exists_bind_eq_ok, read_eq_ok, Readable, Option.isSome_iff_exists]

theorem exists_buttonKeycode : (∃ keycode, buttonKeycode a = .ok keycode) ↔
    a.Optional Number.word32? "keycode" ∧ ∀ code ∈ a.value? Number.word32? "keycode",
      firstKeycode ≤ code := by
  unfold buttonKeycode
  simp only [exists_bind_eq_ok, read?_eq_ok]
  cases a.value? Number.word32? "keycode" with
  | none => simp
  | some code =>
    by_cases hlow : code < firstKeycode
    · simp [hlow]
    · simp [hlow, Nat.le_of_not_lt hlow]

theorem exists_startButton : (∃ d', d.startButton a path = .ok d') ↔ Readable "button" a := by
  constructor
  · rintro ⟨d', h⟩
    obtain ⟨name, hname, h⟩ := bind_eq_ok.1 h
    obtain ⟨keycode, hkeycode, -⟩ := bind_eq_ok.1 h
    exact ⟨Option.isSome_iff_exists.2 ⟨name, required_eq_ok.1 hname⟩,
      exists_buttonKeycode.1 ⟨keycode, hkeycode⟩⟩
  · rintro ⟨hname, hvalid⟩
    obtain ⟨name, hname⟩ := Option.isSome_iff_exists.1 hname
    obtain ⟨keycode, hkeycode⟩ := exists_buttonKeycode.2 hvalid
    unfold startButton
    simp only [required_eq_ok.2 hname, hkeycode, ok_bind]
    split <;> exact ⟨_, rfl⟩

theorem exists_start (d : GeometryDraft) (name : String) (a : Attributes) (path : List String) :
    (∃ d', d.start name a path = .ok d') ↔ Readable name a := by
  unfold start
  split
  · exact exists_startBounds
  · exact exists_startSection
  · exact exists_startButton
  · exact exists_startOutline
  · exact exists_startPoint
  next hbounds hsection hbutton houtline hpoint => simp [Readable]

/-- Whether an event is refused does not depend on what has been read. -/
theorem step_taken_iff (d : GeometryDraft) (event : Event) :
    (step d event).2 = none ↔ event.Proper := by
  cases event with
  | start name a path =>
    simp only [step, Event.Proper]
    cases Kind.geometry.check name path with
    | error e => simp
    | ok _ =>
      rw [← exists_start (if path.head? = some "section" then d.readContent else d) name a path]
      simp only [true_and]
      cases (if path.head? = some "section" then d.readContent else d).start name a path <;> simp
  | stop name path => simp [step, Event.Proper]
  | text text path => simp [step, Event.Proper]

theorem taken_iff (d : GeometryDraft) (events : List Event) :
    (deliver step d events).2 = none ↔ ∀ event ∈ events, event.Proper := by
  refine deliver_taken_iff (P := fun _ => True) (fun _ _ => ?_) (fun _ => ?_) trivial events
  · trivial
  · exact step_taken_iff _ _

/-- A keycode below the first is refused where it is given. -/
theorem step_lowKeycode (d : GeometryDraft) (hplace : Kind.geometry.check "button" path = .ok ())
    (hname : (a.get? "name").isSome) {n : Nat} (hn : a.value? Number.word32? "keycode" = some n)
    (hlow : n < firstKeycode) :
    (step d (.start "button" a path)).2 =
      some (.invalidAttribute "button" "keycode" (toString n)) := by
  obtain ⟨name, hname⟩ := Option.isSome_iff_exists.1 hname
  have hread : a.read? Number.word32? "button" "keycode" = .ok (some n) :=
    read?_eq_ok.2 ⟨hn, fun _ => by simp [hn]⟩
  have hkeycode : buttonKeycode a = .error (.invalidAttribute "button" "keycode" (toString n)) := by
    unfold buttonKeycode
    simp [hread, hlow]
  have hstart : ∀ d : GeometryDraft,
      d.start "button" a path = .error (.invalidAttribute "button" "keycode" (toString n)) := by
    intro d
    unfold start startButton
    simp only [required_eq_ok.2 hname, hkeycode, ok_bind, error_bind]
  simp only [step, hplace, hstart]

end GeometryDraft

/-- The keys that mentions make, each with the keycode that it ends with. -/
def finalKeycodes (seen : List Mention) : List (String × Nat) :=
  (namesOf seen).mapIdx fun i name => (name, (lastSaid (·.keycode) seen name).getD (autoKeycode i))

theorem Keyed.finalKeycodes {seen : List Mention} {held : List String} {keys : List KeyDraft}
    (h : Keyed seen held keys) :
    keys.map (fun key => (key.name, key.keycode)) = Document.finalKeycodes seen := by
  unfold Document.finalKeycodes
  rw [← h.names]
  apply List.ext_getElem?
  intro i
  simp only [List.getElem?_map, List.getElem?_mapIdx, Option.map_map]
  cases hi : keys[i]? with
  | none => rfl
  | some key => simp [(h.told i key hi).keycode]

/-- The first key whose keycode an earlier key has, and that one key. -/
def FirstClash (keys : List (String × Nat)) (keycode : Nat) (key other : String) : Prop :=
  ∃ before after, keys = before ++ (key, keycode) :: after ∧ (before.map (·.2)).Nodup ∧
    (other, keycode) ∈ before ∧ ∀ entry ∈ before, entry.2 = keycode → entry = (other, keycode)

section duplicates
variable {earlier keys : List KeyDraft} {e : Error}

theorem split_of_duplicateKeycode? (he : (earlier.map (·.keycode)).Nodup)
    (h : duplicateKeycode? earlier keys = some e) :
    ∃ before key after other, keys = before ++ key :: after ∧
      ((earlier ++ before).map (·.keycode)).Nodup ∧
      other ∈ earlier ++ before ∧ other.keycode = key.keycode ∧
      e = .duplicateKeycode key.keycode key.name other.name := by
  induction keys generalizing earlier with
  | nil => simp [duplicateKeycode?] at h
  | cons key more ih =>
    unfold duplicateKeycode? at h
    split at h
    next other hfind =>
      cases h
      refine ⟨[], key, more, other, rfl, by simpa using he, ?_,
        by simpa using List.find?_some hfind, rfl⟩
      simpa using List.mem_of_find?_eq_some hfind
    next hfind =>
      obtain ⟨before, later, after, other, rfl, hnodup, hother, hsame, rfl⟩ :=
        ih (nodup_keycodes_concat he hfind) h
      rw [List.append_assoc, List.singleton_append] at hnodup hother
      exact ⟨key :: before, later, after, other, rfl, hnodup, hother, hsame, rfl⟩

theorem firstClash_of_duplicateKeycode? (h : duplicateKeycode? [] keys = some e) :
    ∃ keycode key other, e = .duplicateKeycode keycode key other ∧
      FirstClash (keys.map fun key => (key.name, key.keycode)) keycode key other := by
  obtain ⟨before, key, after, other, rfl, hnodup, hother, hsame, rfl⟩ :=
    split_of_duplicateKeycode? (by simp) h
  rw [List.nil_append] at hnodup hother
  refine ⟨_, _, _, rfl, before.map fun key => (key.name, key.keycode),
    after.map fun key => (key.name, key.keycode),
    by simp, by simpa [Function.comp_def] using hnodup,
    List.mem_map.2 ⟨other, hother, by rw [hsame]⟩, ?_⟩
  intro entry hentry hkeycode
  obtain ⟨found, hfound, rfl⟩ := List.mem_map.1 hentry
  obtain rfl : found = other :=
    List.inj_on_of_nodup_map hnodup hfound hother (hkeycode.trans hsame.symm)
  rw [hsame]

end duplicates

section clash
variable {keys : List (String × Nat)}

theorem FirstClash.exists_clash {keycode : Nat} {key other : String}
    (h : FirstClash keys keycode key other)
    (hn : (keys.map (·.1)).Nodup) : ∃ one ∈ keys, ∃ two ∈ keys, one.1 ≠ two.1 ∧ one.2 = two.2 := by
  obtain ⟨before, after, rfl, -, hother, -⟩ := h
  refine ⟨(other, keycode), by simp [hother], (key, keycode), by simp, ?_, rfl⟩
  rintro rfl
  rw [List.map_append, List.nodup_append] at hn
  exact hn.2.2 other (List.mem_map_of_mem hother) other (by simp) rfl

theorem not_nodup_of_clash (h : ∃ one ∈ keys, ∃ two ∈ keys, one.1 ≠ two.1 ∧ one.2 = two.2) :
    ¬(keys.map (·.2)).Nodup := by
  obtain ⟨one, hone, two, htwo, hne, hsame⟩ := h
  intro hnodup
  exact hne (congrArg Prod.fst (List.inj_on_of_nodup_map hnodup hone htwo hsame))

end clash

variable {source : Source}

theorem readGeometry_of_consume {d : GeometryDraft}
    (h : consume GeometryDraft.step {} source = (d, none)) :
    (readGeometry source).result =
      match duplicateKeycode? [] d.geometry.keys with
      | some e => .error e
      | none => .ok d.geometry := by
  unfold readGeometry
  rw [h]
  cases hdup : duplicateKeycode? [] d.geometry.keys <;> simp [hdup]

theorem readGeometry_refused {e : Error} (h : (consume GeometryDraft.step {} source).2 = some e) :
    (readGeometry source).result = .error e := by
  unfold readGeometry
  split
  next d e' hconsume =>
    obtain rfl : e' = e := by simpa [hconsume] using h
    rfl
  next d hconsume => simp [hconsume] at h

/-- What becomes of a document that is read to its end: its keys with their keycodes, unless two
keycodes are the same. -/
theorem result_of_consume {d : GeometryDraft} (h : consume GeometryDraft.step {} source = (d, none))
    {finals : List (String × Nat)}
    (hfinals : d.geometry.keys.map (fun key => (key.name, key.keycode)) = finals)
    (hnames : (finals.map (·.1)).Nodup) :
    ((∃ keycode key other,
      (readGeometry source).result = .error (.duplicateKeycode keycode key other)) ↔
      ∃ one ∈ finals, ∃ two ∈ finals, one.1 ≠ two.1 ∧ one.2 = two.2) ∧
    (∀ e, (readGeometry source).result = .error e →
      ∃ keycode key other, e = .duplicateKeycode keycode key other ∧
      FirstClash finals keycode key other) ∧
    ∀ g, (readGeometry source).result = .ok g →
      g.keys.map (fun key => (key.name, key.keycode)) = finals := by
  rw [readGeometry_of_consume h]
  cases hdup : duplicateKeycode? [] d.geometry.keys with
  | some e =>
    obtain ⟨keycode, key, other, rfl, hfirst⟩ := firstClash_of_duplicateKeycode? hdup
    rw [hfinals] at hfirst
    refine ⟨iff_of_true ⟨keycode, key, other, rfl⟩ (hfirst.exists_clash hnames), ?_, by simp⟩
    rintro _ ⟨⟩
    exact ⟨keycode, key, other, rfl, hfirst⟩
  | none =>
    have hnodup : (finals.map (·.2)).Nodup := by
      rw [← hfinals, List.map_map]
      exact keycodes_nodup_of_duplicateKeycode? (by simp) hdup
    refine ⟨iff_of_false (by simp) fun hclash => not_nodup_of_clash hclash hnodup, by simp, ?_⟩
    rintro _ ⟨⟩
    exact hfinals

/-- A document that is read to its end, and whose elements are all in order, has two keys with one
keycode if that is what its mentions come to, each key with the last keycode that is given to it or
else that of its position. Then the first key is named whose keycode an earlier one has, with that
one; and else the keys have those keycodes. But a keycode that is too low is refused where it is
given, whatever comes behind it. -/
theorem duplicates_found (source : Source) :
    ((readSource {} source).2 = none → (∀ event ∈ source.events, event.Proper) →
      ∃! tree : Tree, source.events = tree.events ∧ tree.name = "geometry" ∧
        ((∃ keycode key other,
          (readGeometry source).result = .error (.duplicateKeycode keycode key other)) ↔
          ∃ one ∈ finalKeycodes tree.content.mentions, ∃ two ∈ finalKeycodes tree.content.mentions,
            one.1 ≠ two.1 ∧ one.2 = two.2) ∧
        (∀ e, (readGeometry source).result = .error e →
          ∃ keycode key other, e = .duplicateKeycode keycode key other ∧
          FirstClash (finalKeycodes tree.content.mentions) keycode key other) ∧
        ∀ g, (readGeometry source).result = .ok g →
          g.keys.map (fun key => (key.name, key.keycode)) = finalKeycodes tree.content.mentions) ∧
    ∀ before a path after n, source.events = before ++ .start "button" a path :: after →
      (∀ event ∈ before, event.Proper) → Kind.geometry.check "button" path = .ok () →
      (a.get? "name").isSome →
      a.value? Number.word32? "keycode" = some n → n < firstKeycode →
      (readGeometry source).result =
        .error (.invalidAttribute "button" "keycode" (toString n)) := by
  constructor
  · intro hread hproper
    obtain ⟨d, hconsume⟩ : ∃ d, consume GeometryDraft.step {} source = (d, none) := by
      refine ⟨_, Prod.ext rfl ?_⟩
      rw [consume_eq, (GeometryDraft.taken_iff {} _).2 hproper, hread]
      rfl
    obtain ⟨tree, hevents, hname, hkeyed, -⟩ := arranged_of_consume hconsume
    have hfinals := hkeyed.finalKeycodes
    have hnames : ((finalKeycodes tree.content.mentions).map (·.1)).Nodup := by
      rw [← hfinals, List.map_map]
      exact hkeyed.nodup
    refine ⟨tree, ⟨hevents, hname, result_of_consume hconsume hfinals hnames⟩,
      fun other hother => ?_⟩
    exact Tree.events_inj (hother.1.symm.trans hevents)
  · intro before a path after n hevents hbefore hplace hname hn hlow
    apply readGeometry_refused
    have htaken : deliver GeometryDraft.step {} before = (_, none) :=
      Prod.ext rfl ((GeometryDraft.taken_iff {} before).2 hbefore)
    have hrefused :=
      deliver_refused htaken (GeometryDraft.step_lowKeycode _ hplace hname hn hlow) after
    rw [consume_eq, hevents, hrefused, Option.some_or]

/-- The button for `a` gives it the keycode that `b` has then, and the one for
`b` gives it that of `c`. -/
def overridden : Source := .ofBytes <| ascii <|
  "<geometry><section>a b c</section><button name='a' keycode='9'/><button name='b' keycode='10'/></geometry>"

def tooLow : Source := .ofBytes <| ascii <|
  "<geometry><button name='a' keycode='5'/><button name='a' keycode='9'/></geometry>"

theorem overridden_duplicates :
    (readGeometry overridden).result = .error (.duplicateKeycode 10 "c" "b") ∧
      (∃ tree : Tree, overridden.events = tree.events ∧
        FirstClash (finalKeycodes tree.content.mentions) 10 "c" "b") ∧
      (readGeometry tooLow).result = .error (.invalidAttribute "button" "keycode" "5") := by
  let content : Content :=
    .element "section" {} (.text "a b c" .nil) <|
      .element "button" ⟨[("name", "a"), ("keycode", "9")]⟩ .nil <|
      .element "button" ⟨[("name", "b"), ("keycode", "10")]⟩ .nil .nil
  have hread : readSource {} overridden = ((Tree.mk "geometry" {} content).events, none) := by
    decide +kernel
  have htaken : (deliver GeometryDraft.step {} overridden.events).2 = none := by
    rw [Source.events, hread]
    decide +kernel
  have hresult : (readGeometry overridden).result.map (fun _ => ()) =
      .error (.duplicateKeycode 10 "c" "b") := by
    decide +kernel
  have herror : (readGeometry overridden).result = .error (.duplicateKeycode 10 "c" "b") :=
    map_eq_error.1 hresult
  obtain ⟨tree, ⟨hevents, -, -, hclash, -⟩, -⟩ :=
    (duplicates_found overridden).1 (by rw [hread]) ((GeometryDraft.taken_iff {} _).1 htaken)
  obtain ⟨keycode, key, other, he, hfirst⟩ := hclash _ herror
  cases he
  have hlow : tooLow.events = [.start "geometry" {} []] ++
      .start "button" ⟨[("name", "a"), ("keycode", "5")]⟩ ["geometry"] ::
        [.stop "button" ["geometry"],
          .start "button" ⟨[("name", "a"), ("keycode", "9")]⟩ ["geometry"],
          .stop "button" ["geometry"], .stop "geometry" []] := by decide +kernel
  have hroot : ∀ event ∈ [Event.start "geometry" {} []], event.Proper :=
    (GeometryDraft.taken_iff {} _).1 (by decide +kernel)
  refine ⟨herror, ⟨tree, hevents, hfirst⟩, ?_⟩
  exact (duplicates_found tooLow).2 _ _ _ _ 5 hlow hroot (by decide +kernel) (by decide)
    (by decide +kernel) (by decide)

end KeyLayout.Document
