/-! Points and upright rectangles of the plane. -/
namespace KeyLayout.Model

/-- Numbers that measure positions. -/
class Coordinate (κ : Type) extends Add κ, Sub κ where
  atMost : κ → κ → Bool
  lesser : κ → κ → κ
  greater : κ → κ → κ

/-- What is not a number is ignored beside a number. -/
instance : Coordinate Float where
  atMost a b := a ≤ b
  lesser a b := if a.isNaN || b < a then b else a
  greater a b := if a.isNaN || a < b then b else a

structure Point (κ : Type) where
  x : κ
  y : κ
  deriving Repr

/-- A rectangle by its corner with the least coordinates and its size. -/
structure Rect (κ : Type) where
  x : κ
  y : κ
  width : κ
  height : κ
  deriving Repr

namespace Rect
variable {κ : Type} [Coordinate κ]
open Coordinate

/-- The rectangle that reaches from the least to the greatest coordinates of the points. -/
def enclosing : List (Point κ) → Option (Rect κ)
  | [] => none
  | p :: ps =>
    let left := ps.foldl (fun x q => lesser x q.x) p.x
    let top := ps.foldl (fun y q => lesser y q.y) p.y
    let right := ps.foldl (fun x q => greater x q.x) p.x
    let bottom := ps.foldl (fun y q => greater y q.y) p.y
    some ⟨left, top, right - left, bottom - top⟩

def origin (r : Rect κ) : Point κ := ⟨r.x, r.y⟩

/-- The edges belong to the rectangle. -/
def contains (r : Rect κ) (p : Point κ) : Bool :=
  atMost r.x p.x && atMost r.y p.y && atMost p.x (r.x + r.width) && atMost p.y (r.y + r.height)

end Rect
end KeyLayout.Model
