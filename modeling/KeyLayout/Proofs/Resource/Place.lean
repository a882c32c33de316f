import KeyLayout.Resource.Directory
import KeyLayout.Resource.Name
import Mathlib.Tactic.SplitIfs

/-! The place of the file that a path leads to. -/
namespace KeyLayout.Text

theorem splitOn_ne_nil (separator : Char) (cs : List Char) : splitOn separator cs ≠ [] := by
  cases cs with
  | nil => simp [splitOn]
  | cons c cs =>
    rw [splitOn]
    split_ifs
    · simp
    · split <;> simp

theorem splitOn_append (separator : Char) (front back : List Char) :
    splitOn separator (front ++ separator :: back) =
      splitOn separator front ++ splitOn separator back := by
  induction front with
  | nil => simp [splitOn]
  | cons c front ih =>
    simp only [List.cons_append, splitOn, ih]
    split_ifs
    · rfl
    · cases hs : splitOn separator front with
      | nil => exact absurd hs (splitOn_ne_nil _ _)
      | cons piece more => rfl

theorem splitOn_of_not_mem {separator : Char} {cs : List Char} (h : separator ∉ cs) :
    splitOn separator cs = [cs] := by
  induction cs with
  | nil => rfl
  | cons c cs ih =>
    obtain ⟨hc, hcs⟩ := not_or.1 (mt List.mem_cons.2 h)
    simp only [splitOn, ih hcs, if_neg (Ne.symm hc)]

theorem intercalate_splitOn (separator : Char) (cs : List Char) :
    [separator].intercalate (splitOn separator cs) = cs := by
  induction cs with
  | nil => rfl
  | cons c cs ih =>
    obtain ⟨piece, more, hpieces⟩ := List.exists_cons_of_ne_nil (splitOn_ne_nil separator cs)
    rw [hpieces] at ih
    simp only [splitOn, hpieces]
    split_ifs with hc
    · rw [List.intercalate_cons_cons, ih, hc]
      rfl
    · cases more with
      | nil => simpa using ih
      | cons next more => simpa [List.intercalate_cons_cons] using ih

end KeyLayout.Text

namespace KeyLayout.Resource
open Markup

def Directory.symbolsPlace (d : Directory) (base name : String) : List String :=
  d.placeOf (joinPath base ("symbols/" ++ name ++ ".xml"))

theorem joinPath_symbols (base name : String) :
    (joinPath base ("symbols/" ++ name ++ ".xml")).toList =
      (joinPath base "symbols").toList ++ '/' :: (name.toList ++ ".xml".toList) := by
  unfold joinPath
  simp only [String.toList_append]
  split_ifs <;> simp_all

/-- Names that end as the names of documents do are no steps to another folder. -/
theorem enter_xml (place : List String) (name : String) :
    Directory.enter place (name ++ ".xml") = place ++ [name ++ ".xml"] := by
  have hl : (name ++ ".xml").toList.length = name.toList.length + 4 := by
    rw [String.toList_append, List.length_append, show ".xml".toList.length = 4 by decide]
  have hne : ∀ other : String, other.toList.length < 4 → name ++ ".xml" ≠ other := by
    intro other hlt heq
    rw [heq] at hl
    omega
  simp [Directory.enter, hne "" (by decide), hne "." (by decide), hne ".." (by decide)]

/-- Where a path begins is told by its own beginning. -/
theorem Directory.origin_of_append {d : Directory} {front path : String} {back : List Char}
    (h : path.toList = front.toList ++ '/' :: back) (hne : front.toList ≠ []) :
    d.origin path = d.origin front := by
  cases hfront : front.toList with
  | nil => exact absurd hfront hne
  | cons c more => simp [origin, h, hfront]

/-- A name without slashes names a file in the folder of symbols itself. -/
theorem symbolsPlace_of_not_mem (d : Directory) {base name : String} (h : '/' ∉ name.toList) :
    d.symbolsPlace base name = d.placeOf (joinPath base "symbols") ++ [name ++ ".xml"] := by
  have hpath := joinPath_symbols base name
  have hbase : (joinPath base "symbols").toList ≠ [] := by
    unfold joinPath
    split_ifs <;> simp
  have hfile : '/' ∉ name.toList ++ ".xml".toList := by
    rw [List.mem_append, not_or]
    exact ⟨h, by decide⟩
  have htext : String.ofList (name.toList ++ ".xml".toList) = name ++ ".xml" := by
    rw [← String.toList_append, String.ofList_toList]
  have hsteps : Directory.steps (joinPath base ("symbols/" ++ name ++ ".xml")) =
      Directory.steps (joinPath base "symbols") ++ [name ++ ".xml"] := by
    rw [Directory.steps, hpath, Text.splitOn_append, Text.splitOn_of_not_mem hfile, List.map_append,
      List.map_singleton, htext]
    rfl
  rw [Directory.symbolsPlace, Directory.placeOf, hsteps, List.foldl_append,
    Directory.origin_of_append hpath hbase]
  exact enter_xml _ name

end KeyLayout.Resource
