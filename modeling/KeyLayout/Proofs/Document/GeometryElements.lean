import KeyLayout.Proofs.Document.Keys
import KeyLayout.Proofs.Number.Digits
import KeyLayout.Proofs.Outcome

/-! What the elements of a geometry document do where they are accepted. -/
namespace KeyLayout.Markup
open Document Model

/-- The value of an attribute, read without the blanks around it. -/
def Attributes.value? {α : Type} (read : List Char → Option α) (a : Attributes)
    (name : String) : Option α :=
  (a.get? name).bind fun value => read (Text.trimChars value.toList)

def Attributes.Optional {α : Type} (read : List Char → Option α) (a : Attributes)
    (name : String) : Prop :=
  (a.get? name).isSome → (a.value? read name).isSome

/-- A key is named, by text or by a `button`, which can also give it a keycode and an outline. -/
structure Mention where
  name : String
  keycode : Option Nat := none
  outline : Option String := none
  deriving DecidableEq, Repr

def buttonMention (a : Attributes) : Option Mention :=
  (a.get? "name").map fun name =>
    { name, keycode := a.value? Number.word32? "keycode", outline := a.get? "oref" }

def rectOf (a : Attributes) : Option (Rect Float) := do
  let x ← a.value? Number.real? "x"
  let y ← a.value? Number.real? "y"
  let width ← a.value? Number.real? "width"
  let height ← a.value? Number.real? "height"
  return ⟨x, y, width, height⟩

def pointOf (a : Attributes) : Option (Point Float) := do
  let x ← a.value? Number.real? "x"
  let y ← a.value? Number.real? "y"
  return ⟨x, y⟩

end KeyLayout.Markup

namespace KeyLayout.Document
open Markup Model

theorem required_eq_ok {a : Attributes} {element name value : String} :
    a.required element name = .ok value ↔ a.get? name = some value := by
  unfold Attributes.required
  cases a.get? name <;> simp

/-- A value that is read without complaint is that of the attribute,
without the blanks around it. -/
theorem read?_eq_ok {α : Type} {read : List Char → Option α} {a : Attributes}
    {element name : String} {r : Option α} :
    a.read? read element name = .ok r ↔ a.value? read name = r ∧ a.Optional read name := by
  unfold Attributes.read? Attributes.readValue Attributes.Optional Attributes.value?
  cases a.get? name with
  | none => simp
  | some value => cases hr : read (Text.trimChars value.toList) <;> simp [hr, Except.map]

theorem read_eq_ok {α : Type} {read : List Char → Option α} {a : Attributes}
    {element name : String} {x : α} :
    a.read read element name = .ok x ↔ a.value? read name = some x := by
  unfold Attributes.read Attributes.readValue Attributes.required Attributes.value?
  cases a.get? name with
  | none => simp
  | some value => cases hr : read (Text.trimChars value.toList) <;> simp [hr]

namespace GeometryDraft
variable {d d' : GeometryDraft} {a : Attributes} {path : List String}

theorem sections_introduce (d : GeometryDraft) (name : String) :
    (d.introduce name).1.geometry.sections = d.geometry.sections := by
  unfold introduce
  split <;> rfl

theorem openSection_introduce (d : GeometryDraft) (name : String) :
    (d.introduce name).1.openSection = d.openSection := by
  unfold introduce
  split <;> rfl

/-- The text that is not yet read stays. -/
theorem content_place (d : GeometryDraft) (i : Nat) :
    (d.place i).openSection.map (·.content) = d.openSection.map (·.content) := by
  unfold place
  split
  next s key hs _ => split <;> simp [warn, hs]
  next => rfl

def tell (d : GeometryDraft) (m : Mention) : GeometryDraft × Nat :=
  let (d, i) := d.introduce m.name
  ({ d with geometry := d.geometry.modifyKey i fun key =>
      { key with
        outline := m.outline.getD key.outline, keycode := m.keycode.getD key.keycode } }, i)

theorem Numbered.tell (h : d.Numbered) (m : Mention) : (d.tell m).1.Numbered :=
  (h.introduce m.name).of_names (map_name_modify fun _ => rfl) rfl rfl

theorem tell_named (h : d.geometry.Indexed) (m : Mention) :
    ∃ key, (d.tell m).1.geometry.keys[(d.tell m).2]? = some key ∧ key.name = m.name := by
  obtain ⟨key, hkey, hname⟩ := introduce_named h m.name
  refine ⟨{ key with outline := m.outline.getD key.outline, keycode := m.keycode.getD key.keycode },
    ?_, hname⟩
  simp [tell, Geometry.modifyKey, hkey]

/-- A keycode that a button gives is in range. -/
theorem buttonKeycode_eq_ok {keycode : Option Nat} (h : buttonKeycode a = .ok keycode) :
    a.value? Number.word32? "keycode" = keycode ∧
      ∀ code ∈ keycode, firstKeycode ≤ code ∧ code < 1 <<< 32 := by
  obtain ⟨read, hread, h⟩ := bind_eq_ok.1 h
  have hvalue := (read?_eq_ok.1 hread).1
  cases read with
  | none =>
    obtain rfl : none = keycode := by simpa using h
    exact ⟨hvalue, by simp⟩
  | some code =>
    by_cases hlow : code < firstKeycode
    · simp [hlow] at h
    · obtain rfl : some code = keycode := by simpa [hlow] using h
      obtain ⟨value, -, hnumber⟩ := Option.bind_eq_some_iff.1 hvalue
      refine ⟨hvalue, ?_⟩
      rintro _ ⟨⟩
      exact ⟨Nat.le_of_not_lt hlow, Number.unsigned?_lt hnumber⟩

/-- A `button` tells of the key that it names, and in a section it places it
unless that has been done. -/
theorem startButton_eq_ok (h : d.startButton a path = .ok d') :
    ∃ m, buttonMention a = some m ∧ (∀ code ∈ m.keycode, firstKeycode ≤ code ∧ code < 1 <<< 32) ∧
      d' = if path.head? = some "section" &&
        !((d.tell m).1.geometry.keys[(d.tell m).2]?.any (·.placed)) then
        (d.tell m).1.place (d.tell m).2 else (d.tell m).1 := by
  obtain ⟨name, hname, h⟩ := bind_eq_ok.1 h
  obtain ⟨keycode, hkeycode, h⟩ := bind_eq_ok.1 h
  obtain ⟨hvalue, hrange⟩ := buttonKeycode_eq_ok hkeycode
  refine ⟨⟨name, keycode, a.get? "oref"⟩, ?_, hrange, ?_⟩
  · rw [buttonMention, required_eq_ok.1 hname, hvalue]
    rfl
  · cases hi : d.introduce name with
    | mk introduced i =>
      simp only [hi] at h
      simp only [tell, hi]
      split at h
      next hplace =>
        cases h
        exact (if_pos hplace).symm
      next hplace =>
        cases h
        exact (if_neg hplace).symm

/-- Bounds are those of the open section if they stand in it, and else those of the keyboard. -/
theorem startBounds_eq_ok (h : d.startBounds a path = .ok d') :
    ∃ r, rectOf a = some r ∧
      ((∃ s, d.openSection = some s ∧ path.head? = some "section" ∧
          d' = { d with openSection := some { s with bounds := some r } }) ∨
        ((d.openSection = none ∨ path.head? ≠ some "section") ∧
          d' = { d with geometry := { d.geometry with bounds := some r } })) := by
  obtain ⟨x, hx, h⟩ := bind_eq_ok.1 h
  obtain ⟨y, hy, h⟩ := bind_eq_ok.1 h
  obtain ⟨width, hwidth, h⟩ := bind_eq_ok.1 h
  obtain ⟨height, hheight, h⟩ := bind_eq_ok.1 h
  refine ⟨⟨x, y, width, height⟩, ?_, ?_⟩
  · simp [rectOf, read_eq_ok.1 hx, read_eq_ok.1 hy, read_eq_ok.1 hwidth, read_eq_ok.1 hheight]
  · simp only at h
    split at h
    next s ho =>
      split at h
      next hsection =>
        cases h
        exact .inl ⟨s, ho, hsection, rfl⟩
      next hsection =>
        cases h
        exact .inr ⟨.inr hsection, rfl⟩
    next ho =>
      cases h
      exact .inr ⟨.inl ho, rfl⟩

theorem startOutline_eq_ok (h : d.startOutline a = .ok d') :
    ∃ id, a.get? "id" = some id ∧
      d' = { d with
        openOutline := some { id, radius := (a.value? Number.real? "corner-radius").getD 0 } } := by
  obtain ⟨id, hid, h⟩ := bind_eq_ok.1 h
  obtain ⟨radius, hradius, h⟩ := bind_eq_ok.1 h
  cases h
  exact ⟨id, required_eq_ok.1 hid, by rw [(read?_eq_ok.1 hradius).1]⟩

theorem startPoint_eq_ok (h : d.startPoint a = .ok d') :
    d' = { d with openOutline := d.openOutline.map fun o =>
      { o with points := o.points ++ (pointOf a).toList } } := by
  obtain ⟨x, hx, h⟩ := bind_eq_ok.1 h
  obtain ⟨y, hy, h⟩ := bind_eq_ok.1 h
  cases h
  have hpoint : pointOf a = some ⟨x, y⟩ := by simp [pointOf, read_eq_ok.1 hx, read_eq_ok.1 hy]
  rw [hpoint]
  rfl

end GeometryDraft
end KeyLayout.Document
