import KeyLayout.Proofs.Document.Mentions

/-! How the lines of the sections become rows: every name in the line of a
section that mentions it first. -/
namespace KeyLayout.Markup
open Document Model

/-- What a section has besides its rows. -/
structure Heading where
  name : Option String
  angle : Int
  bounds : Option (Rect Float)

/-- The heading of a section and the names in each of its lines. -/
structure Passage where
  heading : Heading
  lines : List (List String)

def Passage.names (p : Passage) : List String := p.lines.flatten

/-- The names in each line, behind those in the line so far. Only the end of a line ends it. -/
def linesFrom (line : List String) : List Mark → List (List String)
  | [] => [line]
  | .mention m :: more => linesFrom (line ++ [m.name]) more
  | .lineEnd :: more => line :: linesFrom [] more
  | .bounds _ :: more => linesFrom line more

def passageOf (a : Attributes) (below : Content) : Passage where
  heading :=
    { name := a.get? "id", angle := (a.value? Number.integer32? "angle").getD 0
      bounds := ((below.marks "").filterMap Mark.bounds?).getLast? }
  lines := linesFrom [] (below.marks "")

def Content.passages : Content → List Passage
  | nil => []
  | text _ beside => beside.passages
  | element name a below beside =>
    if name = "section" then passageOf a below :: beside.passages else beside.passages

/-- The names of a line that are not held yet, each once. -/
def freshNames (held line : List String) : List String := line.eraseDups.filter (· ∉ held)

/-- The rows of the sections, by the names of their keys. A line keeps the names that stand in no
line before it, of its own section or an earlier one, and without any it yields no row. -/
def arrange (passages : List Passage) : List Passage :=
  passages.mapIdx fun k p =>
    { p with lines :=
        (p.lines.mapIdx fun j line =>
          freshNames ((passages.take k).flatMap Passage.names ++ (p.lines.take j).flatten)
            line).filter (· ≠ []) }

def rowsFrom (held : List String) : List (List String) → List (List String)
  | [] => []
  | line :: more => [freshNames held line].filter (· ≠ []) ++ rowsFrom (held ++ line) more

def arrangeFrom (held : List String) : List Passage → List Passage
  | [] => []
  | p :: more => { p with lines := rowsFrom held p.lines } :: arrangeFrom (held ++ p.names) more

theorem rowsFrom_eq (held : List String) (lines : List (List String)) :
    rowsFrom held lines =
      (lines.mapIdx fun j line => freshNames (held ++ (lines.take j).flatten) line).filter
        (· ≠ []) := by
  induction lines generalizing held with
  | nil => rfl
  | cons line more ih =>
    rw [rowsFrom, ih, List.mapIdx_cons]
    by_cases hnil : freshNames held line = []
    · simp [hnil]
    · simp [hnil]

theorem arrangeFrom_eq (held : List String) (passages : List Passage) :
    arrangeFrom held passages = passages.mapIdx fun k p =>
      { p with lines := rowsFrom (held ++ (passages.take k).flatMap Passage.names) p.lines } := by
  induction passages generalizing held with
  | nil => rfl
  | cons p more ih =>
    rw [arrangeFrom, ih, List.mapIdx_cons]
    simp

theorem arrange_eq (passages : List Passage) : arrange passages = arrangeFrom [] passages := by
  rw [arrangeFrom_eq]
  simp only [rowsFrom_eq, List.nil_append, arrange]

theorem mem_freshNames {held line : List String} {name : String} :
    name ∈ freshNames held line ↔ name ∈ line ∧ name ∉ held := by
  simp [freshNames]

theorem freshNames_concat (held line : List String) (name : String) :
    freshNames held (line ++ [name]) =
      if name ∈ held ++ line then freshNames held line else freshNames held line ++ [name] := by
  unfold freshNames
  rw [eraseDups_concat]
  by_cases hline : name ∈ line
  · simp [hline]
  · by_cases hheld : name ∈ held
    · simp [hline, hheld]
    · simp [hline, hheld]

theorem mem_rowsFrom {held : List String} {lines : List (List String)} {name : String} :
    name ∈ (rowsFrom held lines).flatten ↔ name ∈ lines.flatten ∧ name ∉ held := by
  induction lines generalizing held with
  | nil => simp [rowsFrom]
  | cons line more ih =>
    have hfirst : name ∈ ([freshNames held line].filter (· ≠ [])).flatten ↔
        name ∈ line ∧ name ∉ held := by
      rw [← mem_freshNames]
      by_cases hnil : freshNames held line = []
      · simp [hnil]
      · simp [hnil]
    rw [rowsFrom, List.flatten_append, List.mem_append, hfirst, ih]
    simp only [List.flatten_cons, List.mem_append]
    tauto

theorem mem_arrangeFrom {held : List String} {passages : List Passage} {name : String} :
    name ∈ (arrangeFrom held passages).flatMap Passage.names ↔
      name ∈ passages.flatMap Passage.names ∧ name ∉ held := by
  induction passages generalizing held with
  | nil => simp [arrangeFrom]
  | cons p more ih =>
    rw [arrangeFrom, List.flatMap_cons, List.mem_append, ih]
    simp only [Passage.names, mem_rowsFrom, List.flatMap_cons, List.mem_append]
    tauto

/-- The names that every mention so far, all lines before, and the open line hold, with the rows of
the open section. -/
structure Filled where
  seen : List Mention
  held : List String
  line : List String
  rows : List (List String)
  heading : Heading

namespace Filled

def row (f : Filled) : List String := freshNames f.held f.line

def endLine (f : Filled) : Filled :=
  { f with held := f.held ++ f.line, line := [], rows := f.rows ++ [f.row].filter (· ≠ []) }

def add (f : Filled) : Mark → Filled
  | .mention m => { f with seen := f.seen ++ [m], line := f.line ++ [m.name] }
  | .lineEnd => f.endLine
  | .bounds r => { f with heading := { f.heading with bounds := some r } }

/-- What a section comes to, line by line. -/
theorem endLine_foldl (f : Filled) (marks : List Mark) :
    (marks.foldl add f).endLine =
      { seen := f.seen ++ marks.filterMap Mark.mention?
        held := f.held ++ (linesFrom f.line marks).flatten
        line := []
        rows := f.rows ++ rowsFrom f.held (linesFrom f.line marks)
        heading := { f.heading with
          bounds := ((marks.filterMap Mark.bounds?).getLast?).or f.heading.bounds } } := by
  induction marks generalizing f with
  | nil => simp [endLine, row, linesFrom, rowsFrom]
  | cons mark more ih =>
    rw [List.foldl_cons, ih]
    cases mark with
    | mention m => simp [add, linesFrom, Mark.mention?, Mark.bounds?]
    | lineEnd => simp [add, endLine, row, linesFrom, rowsFrom, List.filterMap_cons,
        Mark.mention?, Mark.bounds?]
    | bounds r =>
      simp only [add, linesFrom, Mark.mention?, Mark.bounds?, List.filterMap_cons,
        List.getLast?_cons]
      cases (more.filterMap Mark.bounds?).getLast? <;> rfl

end Filled
end KeyLayout.Markup
