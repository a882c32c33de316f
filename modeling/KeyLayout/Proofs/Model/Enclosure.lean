import KeyLayout.Model.Plane
import Mathlib.Algebra.Order.Ring.Rat
import Mathlib.Order.Bounds.Basic
import Mathlib.Tactic.Linarith

/-! The rectangle around points, computed exactly: the least one in which all of them
lie, whatever their order. -/
namespace KeyLayout.Model

/-- Every coordinate is a number, and nothing is rounded. -/
instance : Coordinate ℚ where
  atMost x y := x ≤ y
  lesser := min
  greater := max

namespace Rect
open Coordinate

variable {r s : Rect ℚ} {p : Point ℚ} {ps qs : List (Point ℚ)}

theorem contains_iff :
    r.contains p ↔ r.x ≤ p.x ∧ r.y ≤ p.y ∧ p.x ≤ r.x + r.width ∧ p.y ≤ r.y + r.height := by
  simp only [contains, atMost, Bool.and_eq_true, decide_eq_true_eq, and_assoc]

def Within (r s : Rect ℚ) : Prop := ∀ p, r.contains p → s.contains p

/-- A rectangle that is not inside out holds its own corners, so that it lies in another if its
sides do not reach beyond. -/
theorem within_iff (hw : 0 ≤ r.width) (hh : 0 ≤ r.height) :
    r.Within s ↔
      s.x ≤ r.x ∧ s.y ≤ r.y ∧ r.x + r.width ≤ s.x + s.width ∧ r.y + r.height ≤ s.y + s.height := by
  constructor
  · intro h
    have hfirst : r.contains ⟨r.x, r.y⟩ := contains_iff.2 ⟨le_rfl, le_rfl, by linarith, by linarith⟩
    have hlast : r.contains ⟨r.x + r.width, r.y + r.height⟩ :=
      contains_iff.2 ⟨by linarith, by linarith, le_rfl, le_rfl⟩
    obtain ⟨hleft, htop, -, -⟩ := contains_iff.1 (h _ hfirst)
    obtain ⟨-, -, hright, hbottom⟩ := contains_iff.1 (h _ hlast)
    exact ⟨hleft, htop, hright, hbottom⟩
  · rintro ⟨hleft, htop, hright, hbottom⟩ p hp
    obtain ⟨hx, hy, hx', hy'⟩ := contains_iff.1 hp
    exact contains_iff.2 ⟨hleft.trans hx, htop.trans hy, hx'.trans hright, hy'.trans hbottom⟩

/-- The sides are the least and the greatest coordinates of the points. -/
structure Fits (r : Rect ℚ) (ps : List (Point ℚ)) : Prop where
  left : IsLeast {x | x ∈ ps.map (·.x)} r.x
  top : IsLeast {y | y ∈ ps.map (·.y)} r.y
  right : IsGreatest {x | x ∈ ps.map (·.x)} (r.x + r.width)
  bottom : IsGreatest {y | y ∈ ps.map (·.y)} (r.y + r.height)

namespace Fits

theorem nonneg (h : r.Fits ps) : 0 ≤ r.width ∧ 0 ≤ r.height := by
  have hw : r.x ≤ r.x + r.width := h.left.2 h.right.1
  have hh : r.y ≤ r.y + r.height := h.top.2 h.bottom.1
  exact ⟨by linarith, by linarith⟩

theorem contains (h : r.Fits ps) (hp : p ∈ ps) : r.contains p := by
  have hx : p.x ∈ ps.map (·.x) := List.mem_map_of_mem hp
  have hy : p.y ∈ ps.map (·.y) := List.mem_map_of_mem hp
  exact contains_iff.2 ⟨h.left.2 hx, h.top.2 hy, h.right.2 hx, h.bottom.2 hy⟩

/-- A rectangle with all points reaches at least to those on the sides of `r`. -/
theorem within (h : r.Fits ps) (hs : ∀ p ∈ ps, s.contains p) : r.Within s := by
  have hx : ∀ x ∈ ps.map (·.x), s.x ≤ x ∧ x ≤ s.x + s.width := by
    simp only [List.forall_mem_map]
    intro p hp
    obtain ⟨hleft, -, hright, -⟩ := contains_iff.1 (hs p hp)
    exact ⟨hleft, hright⟩
  have hy : ∀ y ∈ ps.map (·.y), s.y ≤ y ∧ y ≤ s.y + s.height := by
    simp only [List.forall_mem_map]
    intro p hp
    obtain ⟨-, htop, -, hbottom⟩ := contains_iff.1 (hs p hp)
    exact ⟨htop, hbottom⟩
  refine (within_iff h.nonneg.1 h.nonneg.2).2 ⟨?_, ?_, ?_, ?_⟩
  · exact (hx _ h.left.1).1
  · exact (hy _ h.top.1).1
  · exact (hx _ h.right.1).2
  · exact (hy _ h.bottom.1).2

theorem unique (h : r.Fits ps) (h' : s.Fits ps) : r = s := by
  have hx : r.x = s.x := h.left.unique h'.left
  have hy : r.y = s.y := h.top.unique h'.top
  have hright : r.x + r.width = s.x + s.width := h.right.unique h'.right
  have hbottom : r.y + r.height = s.y + s.height := h.bottom.unique h'.bottom
  have hw : r.width = s.width := by linarith
  have hh : r.height = s.height := by linarith
  obtain ⟨x, y, width, height⟩ := r
  exact (mk.injEq ..).mpr ⟨hx, hy, hw, hh⟩

theorem perm (h : r.Fits ps) (hperm : ps.Perm qs) : r.Fits qs := by
  have hx : ∀ x, x ∈ ps.map (·.x) ↔ x ∈ qs.map (·.x) := fun _ => (hperm.map _).mem_iff
  have hy : ∀ y, y ∈ ps.map (·.y) ↔ y ∈ qs.map (·.y) := fun _ => (hperm.map _).mem_iff
  obtain ⟨hleft, htop, hright, hbottom⟩ := h
  simp only [hx] at hleft hright
  simp only [hy] at htop hbottom
  exact ⟨hleft, htop, hright, hbottom⟩

end Fits

/-- The least coordinate so far is that of a point, and at most that of
each, up to the last point. -/
theorem isLeast_foldl_lesser (f : Point ℚ → ℚ) (p : Point ℚ) (ps : List (Point ℚ)) :
    IsLeast {x | x ∈ (p :: ps).map f} (ps.foldl (fun x q => lesser x (f q)) (f p)) := by
  rw [← List.foldl_map]
  exact List.min?_eq_some_iff.1 List.min?_cons'

theorem isGreatest_foldl_greater (f : Point ℚ → ℚ) (p : Point ℚ) (ps : List (Point ℚ)) :
    IsGreatest {x | x ∈ (p :: ps).map f} (ps.foldl (fun x q => greater x (f q)) (f p)) := by
  rw [← List.foldl_map]
  exact List.max?_eq_some_iff.1 List.max?_cons'

theorem enclosing_eq_none : enclosing ps = none ↔ ps = [] := by
  cases ps with
  | nil => simp [enclosing]
  | cons p ps => simp [enclosing]

theorem fits_of_enclosing (h : enclosing ps = some r) : r.Fits ps := by
  cases ps with
  | nil => cases h
  | cons p ps =>
    obtain rfl := Option.some.inj h
    refine ⟨isLeast_foldl_lesser _ p ps, isLeast_foldl_lesser _ p ps, ?_, ?_⟩
    -- from the one side, the size leads back to the greatest coordinate
    · simpa only [add_sub_cancel] using isGreatest_foldl_greater (·.x) p ps
    · simpa only [add_sub_cancel] using isGreatest_foldl_greater (·.y) p ps

theorem enclosing_eq_some_iff : enclosing ps = some r ↔ r.Fits ps := by
  refine ⟨fits_of_enclosing, fun h => ?_⟩
  cases hps : enclosing ps with
  | none =>
    obtain rfl := enclosing_eq_none.1 hps
    simpa using h.left.1
  | some s => rw [(fits_of_enclosing hps).unique h]

/-- There is a rectangle around points if there are any points. It is not inside out, holds every
point, lies in every other rectangle that holds them, has a point on each of its four sides, and is
the same for the points in any order. -/
theorem enclosing_least (ps : List (Point ℚ)) :
    (enclosing ps = none ↔ ps = []) ∧
    (ps ≠ [] → ∃ r, enclosing ps = some r ∧ 0 ≤ r.width ∧ 0 ≤ r.height ∧
      (∀ p ∈ ps, r.contains p) ∧
      (∀ s : Rect ℚ, (∀ p ∈ ps, s.contains p) → r.Within s) ∧
      ((∃ p ∈ ps, p.x = r.x) ∧ (∃ p ∈ ps, p.y = r.y) ∧
        (∃ p ∈ ps, p.x = r.x + r.width) ∧ (∃ p ∈ ps, p.y = r.y + r.height)) ∧
      ∀ qs, ps.Perm qs → enclosing qs = some r) := by
  refine ⟨enclosing_eq_none, fun hne => ?_⟩
  obtain ⟨r, hr⟩ := Option.ne_none_iff_exists'.1 (enclosing_eq_none.not.2 hne)
  have hfits : r.Fits ps := enclosing_eq_some_iff.1 hr
  have htouched : (∃ p ∈ ps, p.x = r.x) ∧ (∃ p ∈ ps, p.y = r.y) ∧
      (∃ p ∈ ps, p.x = r.x + r.width) ∧ (∃ p ∈ ps, p.y = r.y + r.height) :=
    ⟨List.mem_map.1 hfits.left.1, List.mem_map.1 hfits.top.1, List.mem_map.1 hfits.right.1,
      List.mem_map.1 hfits.bottom.1⟩
  exact ⟨r, hr, hfits.nonneg.1, hfits.nonneg.2, fun _ => hfits.contains,
    fun _ => hfits.within, htouched, fun _ hperm => enclosing_eq_some_iff.2 (hfits.perm hperm)⟩

def corners : List (Point ℚ) := [⟨0, 0⟩, ⟨187 / 5, 0⟩, ⟨187 / 5, 52⟩, ⟨-2, 52⟩]

/-- The rectangle around the corners, in either order, lies in each that holds them. -/
theorem corners_enclosed :
    enclosing corners = some ⟨-2, 0, 197 / 5, 52⟩ ∧
      enclosing corners.reverse = some ⟨-2, 0, 197 / 5, 52⟩ ∧
      ∀ s : Rect ℚ, (∀ p ∈ corners, s.contains p) → Within ⟨-2, 0, 197 / 5, 52⟩ s := by
  have hvalue : enclosing corners = some ⟨-2, 0, 197 / 5, 52⟩ := by
    norm_num [enclosing, corners, lesser, greater]
  obtain ⟨r, hr, -, -, -, hleast, -, hperm⟩ := (enclosing_least corners).2 (List.cons_ne_nil _ _)
  obtain rfl : _ = r := Option.some.inj (hvalue.symm.trans hr)
  exact ⟨hr, hperm _ corners.reverse_perm.symm, hleast⟩

end Rect
end KeyLayout.Model
