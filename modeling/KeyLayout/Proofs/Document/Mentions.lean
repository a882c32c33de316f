import KeyLayout.Proofs.Distinct
import KeyLayout.Proofs.Document.GeometryElements
import KeyLayout.Proofs.Markup.Tree

/-! What a geometry document says of keys, and the keys that it makes by saying so: the first
mention of a name makes a key, and later ones change what they speak of. -/
namespace KeyLayout.Markup
open Document Model

/-- The content of a section, piece by piece: a key that is named, the end of a line, the bounds. -/
inductive Mark where
  | mention (m : Mention)
  | lineEnd
  | bounds (r : Rect Float)

def Mark.mention? : Mark → Option Mention
  | mention m => some m
  | lineEnd => none
  | bounds _ => none

def Mark.bounds? : Mark → Option (Rect Float)
  | mention _ => none
  | lineEnd => none
  | bounds r => some r

def lineMarks (line : List Char) : List Mark := (Text.words line).map fun name => .mention { name }

/-- Blanks separate names, and line feeds lines. -/
def textMarks (text : String) : List Mark :=
  [Mark.lineEnd].intercalate ((Text.lines text.toList).map lineMarks)

def childMarks (name : String) (a : Attributes) : List Mark :=
  match name with
  | "button" => (buttonMention a).toList.map .mention
  | "bounds" => (rectOf a).toList.map .bounds
  | _ => []

/-- What the content of a section says, behind some text of it. The texts between
two children are one text. -/
def Content.marks (behind : String) : Content → List Mark
  | nil => textMarks behind
  | text t beside => beside.marks (behind ++ t)
  | element name a _ beside => textMarks behind ++ childMarks name a ++ beside.marks ""

def mentionsOf (name : String) (a : Attributes) (below : Content) : List Mention :=
  match name with
  | "section" => (below.marks "").filterMap Mark.mention?
  | "button" => (buttonMention a).toList
  | _ => []

def Content.mentions : Content → List Mention
  | nil => []
  | text _ beside => beside.mentions
  | element name a below beside => mentionsOf name a below ++ beside.mentions

end KeyLayout.Markup

namespace KeyLayout.Document
open Markup Model

/-- The names that are mentioned, in the order of their first mention. -/
def namesOf (seen : List Mention) : List String := (seen.map (·.name)).eraseDups

theorem mem_namesOf {seen : List Mention} {name : String} :
    name ∈ namesOf seen ↔ name ∈ seen.map (·.name) :=
  List.mem_eraseDups

theorem namesOf_concat (seen : List Mention) (m : Mention) :
    namesOf (seen ++ [m]) = if m.name ∈ namesOf seen then namesOf seen
      else namesOf seen ++ [m.name] := by
  simp only [mem_namesOf]
  unfold namesOf
  rw [List.map_append, List.map_singleton, eraseDups_concat]

theorem namesOf_grows (seen more : List Mention) : namesOf seen <+: namesOf (seen ++ more) := by
  unfold namesOf
  rw [List.map_append]
  exact eraseDups_grows _ _

def lastSaid {α : Type} (field : Mention → Option α) (seen : List Mention)
    (name : String) : Option α :=
  seen.reverse.findSome? fun m => if m.name = name then field m else none

theorem lastSaid_concat {α : Type} (field : Mention → Option α) (seen : List Mention) (m : Mention)
    (name : String) :
    lastSaid field (seen ++ [m]) name =
      if m.name = name then (field m).or (lastSaid field seen name)
      else lastSaid field seen name := by
  unfold lastSaid
  rw [List.reverse_append, List.findSome?_append]
  by_cases hm : m.name = name
  · simp [hm]
  · simp [hm]

theorem lastSaid_eq_none {α : Type} {field : Mention → Option α} {seen : List Mention}
    {name : String} (h : name ∉ namesOf seen) : lastSaid field seen name = none := by
  rw [mem_namesOf] at h
  refine List.findSome?_eq_none_iff.2 fun m hm => ?_
  have hne : m.name ≠ name := by
    rintro rfl
    exact h (List.mem_map_of_mem (List.mem_reverse.1 hm))
  simp [hne]

/-- The key at a position has the keycode and the outline last said of its name, no levels yet, and
is placed if a section holds it. -/
structure KeyDraft.Told (seen : List Mention) (held : List String) (i : Nat)
    (key : KeyDraft) : Prop where
  keycode : key.keycode = (lastSaid (·.keycode) seen key.name).getD (autoKeycode i)
  outline : key.outline = (lastSaid (·.outline) seen key.name).getD defaultOutline
  placed : key.placed = true ↔ key.name ∈ held
  levels : key.levels = []

structure Keyed (seen : List Mention) (held : List String) (keys : List KeyDraft) : Prop where
  names : keys.map (·.name) = namesOf seen
  told : ∀ i (key : KeyDraft), keys[i]? = some key → key.Told seen held i
  held_subset : held ⊆ namesOf seen

theorem keyed_nil : Keyed [] [] [] := ⟨rfl, by simp, by simp⟩

namespace Keyed
variable {seen : List Mention} {held : List String} {keys : List KeyDraft}
    {key : KeyDraft} {i : Nat}

theorem nodup (h : Keyed seen held keys) : (keys.map (·.name)).Nodup := by
  rw [h.names]
  exact nodup_eraseDups _

theorem name_mem (h : Keyed seen held keys) (hi : keys[i]? = some key) :
    key.name ∈ namesOf seen := by
  rw [← h.names]
  exact List.mem_map_of_mem (List.mem_of_getElem? hi)

/-- A name that is mentioned again says nothing new by that. -/
theorem again (h : Keyed seen held keys) {name : String} (hname : name ∈ namesOf seen) :
    Keyed (seen ++ [{ name := name }]) held keys := by
  have hnames : namesOf (seen ++ [{ name := name }]) = namesOf seen := by
    rw [namesOf_concat]
    exact if_pos hname
  constructor
  · rw [hnames]
    exact h.names
  · intro i key hi
    obtain ⟨hkeycode, houtline, hplaced, hlevels⟩ := h.told i key hi
    constructor
    · simpa [lastSaid_concat] using hkeycode
    · simpa [lastSaid_concat] using houtline
    · exact hplaced
    · exact hlevels
  · rw [hnames]
    exact h.held_subset

/-- A name that is mentioned first makes a key behind the others. -/
theorem add (h : Keyed seen held keys) {name : String} (hname : name ∉ namesOf seen) :
    Keyed (seen ++ [{ name := name }]) held
      (keys ++ [{ name, keycode := autoKeycode keys.length }]) := by
  have hnames : namesOf (seen ++ [{ name := name }]) = namesOf seen ++ [name] := by
    rw [namesOf_concat]
    exact if_neg hname
  constructor
  · simp [hnames, h.names]
  · intro i key hi
    by_cases hlt : i < keys.length
    · rw [List.getElem?_append_left hlt] at hi
      obtain ⟨hkeycode, houtline, hplaced, hlevels⟩ := h.told i key hi
      constructor
      · simpa [lastSaid_concat] using hkeycode
      · simpa [lastSaid_concat] using houtline
      · exact hplaced
      · exact hlevels
    · rw [List.getElem?_append_right (Nat.le_of_not_lt hlt), List.getElem?_singleton] at hi
      split at hi
      next hzero =>
        cases hi
        have hlast : i = keys.length := by omega
        have hfree : name ∉ held := fun hmem => hname (h.held_subset hmem)
        constructor
        · simp [lastSaid_concat, lastSaid_eq_none hname, hlast]
        · simp [lastSaid_concat, lastSaid_eq_none hname]
        · simp [hfree]
        · rfl
      next => simp at hi
  · rw [hnames]
    exact fun name hmem => List.mem_append_left _ (h.held_subset hmem)

/-- What a `button` says of the key that it mentions. -/
theorem say (h : Keyed (seen ++ [{ name := key.name }]) held keys) (hi : keys[i]? = some key)
    (keycode : Option Nat) (outline : Option String) :
    Keyed (seen ++ [⟨key.name, keycode, outline⟩]) held (keys.modify i fun key =>
      { key with outline := outline.getD key.outline, keycode := keycode.getD key.keycode }) := by
  have hnames : namesOf (seen ++ [⟨key.name, keycode, outline⟩]) =
      namesOf (seen ++ [{ name := key.name }]) := by
    simp only [namesOf_concat]
  constructor
  · rw [hnames, ← h.names]
    exact map_name_modify (by simp)
  · intro j x hj
    rcases of_getElem?_modify h.nodup hi hj with ⟨rfl, rfl⟩ | ⟨hj, hne⟩
    · obtain ⟨hkeycode, houtline, hplaced, hlevels⟩ := h.told j key hi
      simp only [lastSaid_concat, if_true, Option.none_or] at hkeycode houtline
      constructor
      · cases keycode with
        | none => simpa [lastSaid_concat] using hkeycode
        | some keycode => simp [lastSaid_concat]
      · cases outline with
        | none => simpa [lastSaid_concat] using houtline
        | some outline => simp [lastSaid_concat]
      · exact hplaced
      · exact hlevels
    · obtain ⟨hkeycode, houtline, hplaced, hlevels⟩ := h.told j x hj
      simp only [lastSaid_concat, hne.symm, if_false] at hkeycode houtline
      constructor
      · simpa [lastSaid_concat, hne.symm] using hkeycode
      · simpa [lastSaid_concat, hne.symm] using houtline
      · exact hplaced
      · exact hlevels
  · rw [hnames]
    exact h.held_subset

/-- A key gets a place. -/
theorem place (h : Keyed seen held keys) (hi : keys[i]? = some key) :
    Keyed seen (held ++ [key.name]) (keys.modify i fun key => { key with placed := true }) := by
  constructor
  · rw [← h.names]
    exact map_name_modify (by simp)
  · intro j x hj
    rcases of_getElem?_modify h.nodup hi hj with ⟨rfl, rfl⟩ | ⟨hj, hne⟩
    · obtain ⟨hkeycode, houtline, -, hlevels⟩ := h.told j key hi
      exact ⟨hkeycode, houtline, by simp, hlevels⟩
    · obtain ⟨hkeycode, houtline, hplaced, hlevels⟩ := h.told j x hj
      exact ⟨hkeycode, houtline, by simpa [hne] using hplaced, hlevels⟩
  · exact List.append_subset.2 ⟨h.held_subset,
      List.cons_subset.2 ⟨h.name_mem hi, List.nil_subset _⟩⟩

/-- Only which names are held counts, not how they are listed. -/
theorem congr_held {other : List String} (h : Keyed seen held keys)
    (hsame : ∀ name, name ∈ held ↔ name ∈ other) : Keyed seen other keys := by
  constructor
  · exact h.names
  · intro i key hi
    obtain ⟨hkeycode, houtline, hplaced, hlevels⟩ := h.told i key hi
    exact ⟨hkeycode, houtline, hplaced.trans (hsame _), hlevels⟩
  · exact fun name hname => h.held_subset ((hsame name).2 hname)

end Keyed

structure GeometryDraft.KeyedBy (d : GeometryDraft) (seen : List Mention)
    (held : List String) : Prop extends
    Keyed seen held d.geometry.keys, Numbered d

namespace GeometryDraft.KeyedBy
variable {d d' : GeometryDraft} {seen : List Mention} {held : List String} {i : Nat}
    {key : KeyDraft}

theorem start : KeyedBy {} [] [] := ⟨keyed_nil, .start⟩

theorem congr (h : d.KeyedBy seen held) (ht : d'.table = d.table) : d'.KeyedBy seen held :=
  ⟨keys_of_table ht ▸ h.toKeyed, h.toNumbered.congr ht⟩

theorem congr_held {other : List String} (h : d.KeyedBy seen held)
    (hsame : ∀ name, name ∈ held ↔ name ∈ other) : d.KeyedBy seen other :=
  ⟨h.toKeyed.congr_held hsame, h.toNumbered⟩

theorem introduce (h : d.KeyedBy seen held) (name : String) :
    (d.introduce name).1.KeyedBy (seen ++ [{ name := name }]) held := by
  refine ⟨?_, h.toNumbered.introduce name⟩
  unfold GeometryDraft.introduce
  cases hf : d.geometry.findKey? name with
  | some i =>
    obtain ⟨key, hkey, rfl⟩ := h.indexed.exists_key hf
    exact h.again (h.name_mem hkey)
  | none =>
    have hname : name ∉ namesOf seen := by
      rw [← h.names]
      exact h.indexed.findKey?_eq_none.1 hf
    have hadded := h.add hname
    rwa [← h.counted] at hadded

theorem tell (h : d.KeyedBy seen held) (m : Mention) : (d.tell m).1.KeyedBy (seen ++ [m]) held := by
  refine ⟨?_, h.toNumbered.tell m⟩
  obtain ⟨key, hkey, hname⟩ := introduce_named h.indexed m.name
  obtain ⟨name, keycode, outline⟩ := m
  subst hname
  exact (h.introduce key.name).say hkey keycode outline

/-- A key gets a place, in whatever section is open. -/
theorem place (h : d.KeyedBy seen held) (hi : d.geometry.keys[i]? = some key)
    (s : Option SectionDraft) :
    KeyedBy { d with
      geometry := d.geometry.modifyKey i fun key => { key with placed := true }
      openSection := s } seen (held ++ [key.name]) :=
  ⟨h.toKeyed.place hi, h.toNumbered.of_names (map_name_modify fun _ => rfl) rfl rfl⟩

end GeometryDraft.KeyedBy
end KeyLayout.Document
