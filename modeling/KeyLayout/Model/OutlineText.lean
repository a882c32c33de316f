import KeyLayout.Model.Outline
import KeyLayout.Number.Shortest
import KeyLayout.Text.Quoted

/-! A table of outlines as one line of text. -/
namespace KeyLayout.Model
open Number

def Point.describe (p : Point Float) : String :=
  "Point \x7b x: " ++ Layout.marked.write p.x ++ ", y: " ++ Layout.marked.write p.y ++ " \x7d"

def Outline.describe (o : Outline) : String :=
  "Outline \x7b corner_radius: " ++ Layout.marked.write o.radius ++ ", points: [" ++
    ", ".intercalate (o.points.map Point.describe) ++ "] \x7d"

def OutlineTable.describe (t : OutlineTable) : String :=
  "\x7b" ++
    ", ".intercalate (t.entries.map fun (id, o) => Text.quote id ++ ": " ++ o.describe) ++ "\x7d"

end KeyLayout.Model
