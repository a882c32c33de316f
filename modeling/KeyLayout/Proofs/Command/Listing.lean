import KeyLayout.Proofs.Command.Writing
import KeyLayout.Proofs.Load.Build
import KeyLayout.Proofs.Resource.Place

/-! Listing keyboards: a record for each, in a line of its own unless one of
its texts holds a line feed. -/
namespace KeyLayout.Text

theorem length_splitOn (separator : Char) (cs : List Char) :
    (splitOn separator cs).length = cs.count separator + 1 := by
  induction cs with
  | nil => rfl
  | cons c cs ih =>
    by_cases hc : c = separator
    · simp [splitOn, hc, ih]
    · obtain ⟨piece, more, hsplit⟩ := List.exists_cons_of_ne_nil (splitOn_ne_nil separator cs)
      rw [List.count_cons_of_ne hc, ← ih]
      simp [splitOn, hc, hsplit]

/-- Pieces without separators are found again by the separators behind them. -/
theorem splitOn_flatMap {separator : Char} {pieces : List (List Char)}
    (h : ∀ piece ∈ pieces, separator ∉ piece) :
    splitOn separator (pieces.flatMap (· ++ [separator])) = pieces ++ [[]] := by
  induction pieces with
  | nil => rfl
  | cons piece pieces ih =>
    obtain ⟨hpiece, hmore⟩ := List.forall_mem_cons.1 h
    rw [List.flatMap_cons, List.append_assoc, List.singleton_append, splitOn_append,
      splitOn_of_not_mem hpiece, ih hmore]
    rfl

theorem length_padRight {width : Nat} {text : String} (h : text.length ≤ width) :
    (padRight width text).length = width := by
  rw [padRight, String.length_append, String.length_ofList, List.length_replicate]
  omega

/-- What is padded has no more of any character but the blank. -/
theorem count_padRight {c : Char} (hc : c ≠ ' ') (width : Nat) (text : String) :
    (padRight width text).toList.count c = text.toList.count c := by
  simp [padRight, List.count_replicate, hc.symm]

/-- Every character takes a byte at least. -/
theorem length_le_utf8ByteSize (text : String) : text.length ≤ text.utf8ByteSize := by
  have hchars (cs : List Char) : cs.length ≤ (String.ofList cs).utf8ByteSize := by
    induction cs with
    | nil => simp
    | cons c cs ih =>
      have := c.utf8Size_pos
      have hfirst : String.ofList (c :: cs) = String.singleton c ++ String.ofList cs := by
        rw [String.singleton_eq_ofList, ← String.ofList_append, List.singleton_append]
      rw [hfirst, String.utf8ByteSize_append, String.utf8ByteSize_singleton, List.length_cons]
      omega
  simpa [String.length_toList] using hchars text.toList

end KeyLayout.Text

namespace KeyLayout.Command
open Document Load Markup Model Resource Text

def listedTexts (d : Descriptor) : List String :=
  [d.id, orDash d.name, orDash d.language, orDash d.longName, d.geometry, orDash d.symbols]

/-- What stands behind the padded id in a record. -/
def columns (d : Descriptor) : String :=
  padRight 24 (orDash d.name) ++ "  " ++ padRight 8 (orDash d.language) ++ "  " ++
    padRight 16 (orDash d.longName) ++
    "  geometry=" ++ d.geometry ++ " symbols=" ++ orDash d.symbols

def listRecord (width : Nat) (d : Descriptor) : String := padRight width d.id ++ "  " ++ columns d

theorem listLine_eq (width : Nat) (d : Descriptor) :
    listLine width d = listRecord width d ++ "\n" := by
  simp [listLine, listRecord, columns, String.append_assoc]

/-- All line feeds of a record are in the texts that it shows. -/
theorem count_listRecord (width : Nat) (d : Descriptor) :
    (listRecord width d).toList.count '\n' = (String.join (listedTexts d)).toList.count '\n' := by
  simp [listRecord, columns, listedTexts, count_padRight, String.join_cons]

theorem length_le_idWidth {ds : List Descriptor} {d : Descriptor} (hd : d ∈ ds) :
    d.id.length ≤ idWidth ds := by
  have hmem : d.id.utf8ByteSize ∈ ds.map (·.id.utf8ByteSize) := List.mem_map_of_mem hd
  have hwidth : d.id.utf8ByteSize ≤ idWidth ds := by
    rw [idWidth, List.foldl_max, Nat.zero_max]
    cases hmax : (ds.map (·.id.utf8ByteSize)).max? with
    | none => simp [List.max?_eq_none_iff.1 hmax] at hmem
    | some width => exact (List.max?_eq_some_iff.1 hmax).2 _ hmem
  exact (length_le_utf8ByteSize d.id).trans hwidth

theorem length_padRight_id {ds : List Descriptor} {d : Descriptor} (hd : d ∈ ds) :
    (padRight (idWidth ds) d.id).length = idWidth ds :=
  length_padRight (length_le_idWidth hd)

/-- A list ends as many lines as it has keyboards and shows line feeds. -/
theorem count_listText (width : Nat) (ds : List Descriptor) :
    (String.join (ds.map (listLine width))).toList.count '\n' =
      ds.length + (String.join (ds.flatMap listedTexts)).toList.count '\n' := by
  induction ds with
  | nil => rfl
  | cons d ds ih =>
    have hline : (listLine width d).toList.count '\n' =
        (String.join (listedTexts d)).toList.count '\n' + 1 := by
      rw [listLine_eq, String.toList_append, List.count_append, count_listRecord]
      rfl
    rw [List.map_cons, String.join_cons, String.toList_append, List.count_append, hline, ih,
      List.flatMap_cons, String.join_append, String.toList_append, List.count_append,
      List.length_cons]
    omega

/-- The lines of a list are its records if no line feed is shown. -/
theorem lines_listText {width : Nat} {ds : List Descriptor}
    (h : (String.join (ds.flatMap listedTexts)).toList.count '\n' = 0) :
    lines (String.join (ds.map (listLine width))).toList =
      ds.map (fun d => (listRecord width d).toList) ++ [[]] := by
  have htext : (String.join (ds.map (listLine width))).toList =
      (ds.map fun d => (listRecord width d).toList).flatMap (· ++ ['\n']) := by
    simp [String.toList_join, List.flatMap_map, listLine_eq]
  rw [htext, lines]
  refine splitOn_flatMap fun piece hpiece => ?_
  obtain ⟨d, hd, rfl⟩ := List.mem_map.1 hpiece
  rw [← List.count_eq_zero, count_listRecord, List.count_eq_zero]
  rw [List.count_eq_zero] at h
  simp only [String.toList_join, List.mem_flatMap, not_exists, not_and] at h ⊢
  exact fun shown hshown => h shown ⟨d, hd, hshown⟩

theorem runList_of_list {l : Loader} {ds : List Descriptor} (h : l.list = .ok ds) :
    runList l {} =
      { output := { written := Utf8.encode (String.join (ds.map (listLine (idWidth ds)))) } } := by
  have hrun : runList l {} = writeLines {} (listLines ds) [] := by
    unfold runList
    simp only [h]
  rw [hrun]
  exact (Writes.lines (listLines ds) []).run_unlimited

/-- A list has a record for each keyboard of the catalog, in its order, which begins with the id,
padded to one width, and ends a line. The records are the lines just if no text in them holds a line
feed: each line feed adds a line. -/
theorem keyboards_listed {l : Loader} {source : Source} {ds : List Descriptor}
    (hopen : l.library.open? l.root.catalog = some source) (hread : readCatalog source = .ok ds) :
    let text := String.join (ds.map fun d => listRecord (idWidth ds) d ++ "\n")
    runList l {} = { output := { written := Utf8.encode text } } ∧
    (∀ d ∈ ds, (padRight (idWidth ds) d.id).length = idWidth ds) ∧
    text.toList.count '\n' = ds.length + (String.join (ds.flatMap listedTexts)).toList.count '\n' ∧
    (lines text.toList = ds.map (fun d => (listRecord (idWidth ds) d).toList) ++ [[]] ↔
      ∀ d ∈ ds, ∀ shown ∈ listedTexts d, '\n' ∉ shown.toList) := by
  intro text
  have htext : text = String.join (ds.map (listLine (idWidth ds))) :=
    congrArg String.join (List.map_congr_left fun d _ => (listLine_eq _ d).symm)
  have hcount : text.toList.count '\n' = ds.length +
      (String.join (ds.flatMap listedTexts)).toList.count '\n' :=
    htext ▸ count_listText _ ds
  have hnone : (String.join (ds.flatMap listedTexts)).toList.count '\n' = 0 ↔
      ∀ d ∈ ds, ∀ shown ∈ listedTexts d, '\n' ∉ shown.toList := by
    rw [List.count_eq_zero, String.toList_join]
    simp only [List.mem_flatMap]
    grind
  refine ⟨htext ▸ runList_of_list (readWith_eq_ok.2 ⟨source, hopen, hread⟩),
    fun d hd => length_padRight_id hd, hcount, ?_⟩
  rw [← hnone]
  constructor
  · intro hlines
    have hlength := congrArg List.length hlines
    rw [lines, length_splitOn, hcount] at hlength
    simp only [List.length_append, List.length_map, List.length_singleton] at hlength
    omega
  · exact fun h => htext ▸ lines_listText h

/-- A keyboard with a line feed in its name. -/
def brokenName : Directory where
  files :=
    [(["kb", "keyboards.xml"],
      ascii "<keyboards><keyboard id='a' name='x&#10;y' geometry='g'/></keyboards>")]

theorem brokenName_listed :
    ∃ source ds,
      (Loader.ofDirectory brokenName "kb").library.open? (Name.path "kb").catalog = some source ∧
      readCatalog source = .ok ds ∧ ds.length = 1 ∧
      (runList (Loader.ofDirectory brokenName "kb") {}).output.written = Utf8.encode
        "a  x\ny                       -         -                 geometry=g symbols=-\n" := by
  let d : Descriptor := { id := "a", name := some "x\ny", geometry := "g" }
  have hread :
      ((Loader.ofDirectory brokenName "kb").library.open? (Name.path "kb").catalog).map
        readCatalog =
      some (.ok [d]) := by decide +kernel
  obtain ⟨source, hopen, hread⟩ := Option.map_eq_some_iff.1 hread
  have hlisted := keyboards_listed (l := Loader.ofDirectory brokenName "kb") hopen hread
  have htext : String.join ([d].map fun other => listRecord (idWidth [d]) other ++ "\n") =
      "a  x\ny                       -         -                 geometry=g symbols=-\n" := by
        decide +kernel
  refine ⟨source, [d], hopen, hread, rfl, ?_⟩
  rw [hlisted.1, htext]

end KeyLayout.Command
