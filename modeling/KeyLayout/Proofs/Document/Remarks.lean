import KeyLayout.Proofs.Document.Arrangement

/-! What a geometry document says that can be odd, in document order, and the warnings that it makes
by saying so. A key is skipped where it is named again in the text of a section, and an outline is
redefined where its id comes again. -/
namespace KeyLayout.Markup
open Document Model

/-- A section names a key, in its text or by a `button`, or an outline is defined. -/
inductive Remark where
  | text (name : String)
  | button (name : String)
  | outline (id : String) (outline : Outline)

namespace Remark

def key? : Remark → Option String
  | text name => some name
  | button name => some name
  | outline _ _ => none

def definition? : Remark → Option (String × Outline)
  | text _ => none
  | button _ => none
  | outline id defined => some (id, defined)

def isText : Remark → Bool
  | text _ => true
  | button _ => false
  | outline _ _ => false

/-- A text that names a key named before is warned of, and so is an outline
whose id is defined before. -/
def warning? (said : List Remark) : Remark → Option Warning
  | text name => if name ∈ said.filterMap key? then some (.alreadyPlaced name) else none
  | button _ => none
  | outline id _ =>
    if id ∈ (said.filterMap definition?).map (·.1) then some (.outlineRedefined id) else none

end Remark

def warningsFrom (said : List Remark) : List Remark → List Warning
  | [] => []
  | r :: more => (r.warning? said).toList ++ warningsFrom (said ++ [r]) more

theorem warningsFrom_append (said first more : List Remark) :
    warningsFrom said (first ++ more) = warningsFrom said first ++
      warningsFrom (said ++ first) more := by
  induction first generalizing said with
  | nil => simp [warningsFrom]
  | cons r first ih => simp [warningsFrom, ih]

theorem warningsFrom_singleton (said : List Remark) (r : Remark) :
    warningsFrom said [r] = (r.warning? said).toList := by
  simp [warningsFrom]

def textRemarks (text : String) : List Remark :=
  ((Text.lines text.toList).flatMap Text.words).map .text

/-- What the content of a section says, behind some text of it. The texts between
two children are one text. -/
def Content.sectionRemarks (behind : String) : Content → List Remark
  | nil => textRemarks behind
  | text t beside => beside.sectionRemarks (behind ++ t)
  | element name a _ beside =>
    textRemarks behind ++ (if name = "button" then (a.get? "name").toList.map .button else []) ++
      beside.sectionRemarks ""

def outlineOf (a : Attributes) (below : Content) : Outline where
  radius := (a.value? Number.real? "corner-radius").getD 0
  points := below.points

def remarksOf (name : String) (a : Attributes) (below : Content) : List Remark :=
  match name with
  | "section" => below.sectionRemarks ""
  | "outline" => (a.get? "id").toList.map fun id => .outline id (outlineOf a below)
  | _ => []

def Content.remarks : Content → List Remark
  | nil => []
  | text _ beside => beside.remarks
  | element name a below beside => remarksOf name a below ++ beside.remarks

def Content.outlines (c : Content) : List (String × Outline) :=
  c.remarks.filterMap Remark.definition?

theorem definitions_textRemarks (text : String) :
    (textRemarks text).filterMap Remark.definition? = [] := by
  simp [textRemarks, List.filterMap_eq_nil_iff, Remark.definition?]

/-- Sections define no outlines. -/
theorem Content.definitions_sectionRemarks (c : Content) (behind : String) :
    (c.sectionRemarks behind).filterMap Remark.definition? = [] := by
  induction c generalizing behind with
  | nil => exact definitions_textRemarks behind
  | text t beside ih => exact ih (behind ++ t)
  | element name a below beside _ ih =>
    rw [sectionRemarks, List.filterMap_append, List.filterMap_append, definitions_textRemarks, ih]
    split <;> simp [List.filterMap_eq_nil_iff, Remark.definition?]

theorem Content.outlines_element (name : String) (a : Attributes) (below beside : Content) :
    (element name a below beside).outlines =
      (if name = "outline" then (a.get? "id").toList.map fun id =>
        (id, outlineOf a below) else []) ++ beside.outlines := by
  rw [outlines, remarks, List.filterMap_append, outlines]
  congr 1
  unfold remarksOf
  split
  · simp [definitions_sectionRemarks]
  · cases a.get? "id" <;> simp [Remark.definition?]
  next hname => rw [if_neg hname, List.filterMap_nil]

/-- A section names a key first in its text, and not by a `button`. -/
def placedByText (said : List Remark) (name : String) : Bool :=
  (said.find? (·.key? == some name)).any Remark.isText

section count
variable {said : List Remark} {r : Remark} {name other : String} {names : List String}

/-- A remark counts only if it is the first that names its key. -/
theorem placedByText_concat_eq (h : ∀ name, r.key? = some name →
    name ∈ said.filterMap Remark.key? ∨ r.isText = false) :
    placedByText (said ++ [r]) other = placedByText said other := by
  unfold placedByText
  rw [List.find?_append]
  cases hfirst : said.find? (·.key? == some other) with
  | some first => rfl
  | none =>
    by_cases hr : r.key? = some other
    · have hnew : other ∉ said.filterMap Remark.key? := by simpa using hfirst
      have htext : r.isText = false := (h other hr).resolve_left hnew
      simp [hr, htext]
    · simp [hr]

theorem placedByText_concat_text (h : name ∉ said.filterMap Remark.key?) :
    placedByText (said ++ [.text name]) other = (placedByText said other || other == name) := by
  unfold placedByText
  rw [List.find?_append]
  cases hfirst : said.find? (·.key? == some other) with
  | some first =>
    have hne : other ≠ name := by
      rintro rfl
      have hnone : said.find? (·.key? == some other) = none := by simpa using h
      simp [hnone] at hfirst
    simp [hne]
  | none =>
    by_cases hname : name = other
    · simp [Remark.key?, Remark.isText, hname]
    · simp [Remark.key?, hname, Ne.symm hname]

/-- Among distinct names one more fits a test that also lets one name pass. -/
theorem countP_or_eq {p : String → Bool} (hn : names.Nodup) (hmem : name ∈ names)
    (hp : p name = false) :
    names.countP (fun other => p other || other == name) = names.countP p + 1 := by
  induction names with
  | nil => simp at hmem
  | cons first names ih =>
    obtain ⟨hfirst, hn⟩ := List.nodup_cons.1 hn
    rw [List.countP_cons, List.countP_cons]
    by_cases hname : first = name
    · subst hname
      have hrest : names.countP (fun other => p other || other == first) = names.countP p := by
        refine List.countP_congr fun other hother => ?_
        have hne : other ≠ first := by
          rintro rfl
          exact hfirst hother
        simp [hne]
      simp [hrest, hp]
    · have hrest := ih hn ((List.mem_cons.1 hmem).resolve_left (Ne.symm hname))
      simp only [hrest, beq_eq_false_iff_ne.2 hname, Bool.or_false]
      omega

end count

end KeyLayout.Markup

namespace KeyLayout.Document
open Markup

def Warning.isSkip : Warning → Bool
  | alreadyPlaced _ => true
  | _ => false

/-- Every name in the text of a section places its key or is skipped. -/
theorem count_text {names : List String} (hn : names.Nodup) {said : List Remark}
    (hsaid : ∀ name ∈ said.filterMap Remark.key?, name ∈ names) :
    said.countP Remark.isText = names.countP (placedByText said) +
      (warningsFrom [] said).countP Warning.isSkip := by
  induction said using List.reverseRecOn with
  | nil =>
    have hnone : placedByText [] = fun _ => false := rfl
    simp [hnone, warningsFrom]
  | append_singleton said r ih =>
    rw [List.filterMap_append, List.forall_mem_append] at hsaid
    have hmore := ih hsaid.1
    rw [warningsFrom_append, List.nil_append, warningsFrom_singleton, List.countP_append,
      List.countP_append, hmore]
    cases r with
    | button name =>
      have hsame : placedByText (said ++ [.button name]) = placedByText said :=
        funext fun other => placedByText_concat_eq fun _ _ => .inr rfl
      simp [hsame, Remark.isText, Remark.warning?]
    | outline id outline =>
      have hsame : placedByText (said ++ [.outline id outline]) = placedByText said :=
        funext fun other => placedByText_concat_eq fun _ _ => .inr rfl
      simp only [hsame, Remark.warning?]
      split <;> simp [Remark.isText, Warning.isSkip]
    | text name =>
      by_cases hmem : name ∈ said.filterMap Remark.key?
      · have hsame : placedByText (said ++ [.text name]) = placedByText said :=
          funext fun other =>
            placedByText_concat_eq fun _ hkey => .inl (Option.some.inj hkey ▸ hmem)
        simp only [hsame, Remark.warning?, if_pos hmem]
        simp [Remark.isText, Warning.isSkip, Nat.add_assoc]
      · -- The name is new, and among the distinct names of the keys it comes once.
        have hnew : placedByText (said ++ [.text name]) = fun other =>
          placedByText said other || other == name :=
          funext fun other => placedByText_concat_text hmem
        have hfirst : said.find? (·.key? == some name) = none := by simpa using hmem
        have hfree : placedByText said name = false := by simp [placedByText, hfirst]
        have hname : name ∈ names := hsaid.2 name (by simp [Remark.key?])
        rw [hnew, countP_or_eq hn hname hfree]
        simp only [Remark.warning?, if_neg hmem]
        simp [Remark.isText]
        omega

/-- Every definition of an outline but the first is warned of. -/
theorem count_redefined (said : List Remark) (id : String) :
    (warningsFrom [] said).count (.outlineRedefined id) =
      ((said.filterMap Remark.definition?).map (·.1)).count id - 1 := by
  induction said using List.reverseRecOn with
  | nil => simp [warningsFrom]
  | append_singleton said r ih =>
    rw [warningsFrom_append, List.nil_append, warningsFrom_singleton, List.count_append, ih,
      List.filterMap_append, List.map_append, List.count_append]
    cases r with
    | text name =>
      simp only [Remark.warning?]
      split <;> simp [List.filterMap_cons, Remark.definition?]
    | button name => simp [List.filterMap_cons, Remark.warning?, Remark.definition?]
    | outline defined outline =>
      by_cases hid : defined = id
      · subst hid
        by_cases hmem : defined ∈ (said.filterMap Remark.definition?).map (·.1)
        · have hpos := List.count_pos_iff.2 hmem
          simp only [Remark.warning?, if_pos hmem]
          simp [Remark.definition?]
          omega
        · simp only [Remark.warning?, if_neg hmem]
          simp [Remark.definition?, List.count_eq_zero.2 hmem]
      · simp only [Remark.warning?]
        split <;> simp [Remark.definition?, hid]

end KeyLayout.Document
