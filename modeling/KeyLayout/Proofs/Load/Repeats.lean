import KeyLayout.Proofs.Load.Build
import KeyLayout.Proofs.Load.IncludeWalk
import KeyLayout.Proofs.Resource.Place

/-! Which files are bound more than once to a keyboard: includes are told apart by their names, and
a file can have more than one. -/
namespace KeyLayout.Load
open Document Markup Model Resource

theorem bindSymbols_folder (geometry : Geometry) : bindSymbols geometry Entry.folder.source =
    .error (.unreadable "Is a directory (os error 21)") := rfl

/-- A document of symbols that can be read, as no folder can, is the file at its place. -/
theorem file_of_readWith {α : Type} {d : Directory} {base name : String}
    {read : Source → Except Document.Error α}
    {a : α} {e : Document.Error} (hfolder : read Entry.folder.source = .error e)
    (h : readWith (.ofFiles d.toFiles) ((Name.path base).symbols name) read = .ok a) :
    ∃ content, d.at? (d.symbolsPlace base name) = some (.file content) ∧
      (Library.ofFiles d.toFiles).open? ((Name.path base).symbols name) = some (.ofBytes content) ∧
      read (.ofBytes content) = .ok a := by
  obtain ⟨source, hopen, hread⟩ := readWith_eq_ok.1 h
  have hentry := hopen
  obtain ⟨entry, hfind, rfl⟩ := Option.map_eq_some_iff.1 hentry
  cases entry with
  | folder => simp [hfolder] at hread
  | file content => exact ⟨content, Directory.at?_placeOf hfind, hopen, hread⟩

theorem file_of_bindDocument {d : Directory} {base name : String} {geometry bound : Geometry}
    (h : bindDocument (.ofFiles d.toFiles) (.path base) geometry name = .ok bound) :
    ∃ content, d.at? (d.symbolsPlace base name) = some (.file content) ∧
      ∀ geometry, bindDocument (.ofFiles d.toFiles) (.path base) geometry name =
        (bindSymbols geometry (.ofBytes content)).mapError
          (.document ((Name.path base).symbols name).text) := by
  obtain ⟨content, hplace, hopen, -⟩ := file_of_readWith (bindSymbols_folder geometry) h
  refine ⟨content, hplace, fun geometry => ?_⟩
  rw [bindDocument, readWith, hopen]

/-- The files whose symbols are bound on the way through a forest of includes, in order. -/
def IncludeForest.files (d : Directory) (base : String) (t : IncludeForest) : List (List String) :=
  t.postorder.map (d.symbolsPlace base)

theorem IncludeForest.files_nodup_iff {d : Directory} {base : String} {t : IncludeForest}
    (h : t.preorder.Nodup) :
    (t.files d base).Nodup ↔
      ∀ a ∈ t.preorder,
        ∀ b ∈ t.preorder, d.symbolsPlace base a = d.symbolsPlace base b → a = b := by
  have hp := t.postorder_perm
  rw [files, List.nodup_map_iff_inj_on (hp.nodup_iff.2 h)]
  simp only [hp.mem_iff]

theorem symbolsPlace_inj {d : Directory} {base a b : String} (ha : '/' ∉ a.toList)
    (hb : '/' ∉ b.toList) (h : d.symbolsPlace base a = d.symbolsPlace base b) : a = b := by
  rw [symbolsPlace_of_not_mem d ha, symbolsPlace_of_not_mem d hb] at h
  have hfile : a ++ ".xml" = b ++ ".xml" := by simpa using h
  rw [← String.toList_inj] at hfile ⊢
  simpa only [String.toList_append, List.append_left_inj] using hfile

/-- The files whose symbols are bound in a load are those that the names met lead to, one
after the other. So no file is bound twice exactly if the names lead to different places, as
names without slashes do. -/
theorem files_bound_once_iff {d : Directory} {base id : String} {keyboard : Keyboard}
    (h : ((Loader.ofDirectory d base).load id).result = .ok keyboard) :
    ∃ symbols geometry bound, ∃ t : IncludeForest,
      keyboard.descriptor.symbols = some symbols ∧
      ((Loader.ofDirectory d base).readGeometry keyboard.descriptor.geometry).result =
        .ok geometry ∧
      t.roots = [symbols] ∧ t.Follows (.ofFiles d.toFiles) (.path base) ∧
      t.postorder.foldlM (bindDocument (.ofFiles d.toFiles) (.path base)) geometry = .ok bound ∧
      (assemble keyboard.descriptor bound).result = .ok keyboard ∧
      (∀ name ∈ t.postorder, ∃ content, d.at? (d.symbolsPlace base name) = some (.file content) ∧
        ∀ geometry, bindDocument (.ofFiles d.toFiles) (.path base) geometry name =
          (bindSymbols geometry (.ofBytes content)).mapError
            (.document ((Name.path base).symbols name).text)) ∧
      ((t.files d base).Nodup ↔
        ∀ a ∈ t.preorder, ∀ b ∈ t.preorder, d.symbolsPlace base a = d.symbolsPlace base b → a = b) ∧
      ((∀ name ∈ t.preorder, '/' ∉ name.toList) → (t.files d base).Nodup) := by
  obtain ⟨keyboards, descriptor, -, -, hbuild⟩ := Loader.load_eq_ok.1 h
  obtain ⟨symbols, geometry, bound, hsymbols, hgeometry, hbind, hassemble⟩ :=
    Loader.build_eq_ok.1 hbuild
  have hdescriptor : keyboard.descriptor = descriptor := by
    obtain ⟨keys, -, rfl⟩ := assemble_eq_ok.1 hassemble
    rfl
  obtain ⟨p, hfollow, rfl⟩ := bindAll_eq_ok.1 hbind
  obtain ⟨t, hroots, hfollows, hnodup, -, hbound⟩ := forest_of_bindIncluding hfollow
  have hiff : (t.files d base).Nodup ↔ _ := IncludeForest.files_nodup_iff hnodup
  rw [hdescriptor]
  refine ⟨symbols, geometry, p.geometry, t, hsymbols, hgeometry, hroots, hfollows, hbound,
    hassemble, ?_, hiff, ?_⟩
  · intro name hname
    obtain ⟨before, after, hstep⟩ := foldlM_step hbound hname
    exact file_of_bindDocument hstep
  · exact fun hplain =>
      hiff.2 fun a ha b hb hplace => symbolsPlace_inj (hplain a ha) (hplain b hb) hplace

/-- A keyboard whose symbols include one file under two names. -/
def sharedSymbols : Directory where
  files :=
    [(["kb", "keyboards.xml"],
      ascii "<keyboards><keyboard id='a' geometry='g' symbols='s'/></keyboards>"),
      (["kb", "geometry", "g.xml"],
        ascii "<geometry><section>a</section><outline id='default'/></geometry>"),
      (["kb", "symbols", "s.xml"],
        ascii "<symbols><include>c</include><include>./c</include></symbols>"),
      (["kb", "symbols", "c.xml"], ascii "<symbols><key name='a'><text>x</text></key></symbols>")]

theorem sharedSymbols_bound_twice :
    ∃ keyboard, ∃ t : IncludeForest,
      ((Loader.ofDirectory sharedSymbols "kb").load "a").result = .ok keyboard ∧
      t.Follows (.ofFiles sharedSymbols.toFiles) (.path "kb") ∧ t.roots = ["s"] ∧
      ¬(t.files sharedSymbols "kb").Nodup := by
  have hwithin :
      ((Loader.ofDirectory sharedSymbols "kb").loadWithin 2 "a").map (·.descriptor.symbols) =
      .ok (some "s") := by decide +kernel
  obtain ⟨keyboard, hwithin, hdescriptor⟩ := map_eq_ok.1 hwithin
  have hload := Loader.load_of_loadWithin hwithin
  obtain ⟨symbols, geometry, bound, t, hsymbols, -, hroots, hfollows, -, -, -, hiff, -⟩ :=
    files_bound_once_iff hload
  obtain rfl : "s" = symbols := Option.some.inj (hdescriptor.symm.trans hsymbols)
  refine ⟨keyboard, t, hload, hfollows, hroots, fun hnodup => ?_⟩
  cases t with
  | nil => simp [IncludeForest.roots] at hroots
  | node name below beside =>
    obtain rfl : name = "s" := (List.cons.inj hroots).1
    have hincludes :
        includesOf (.ofFiles sharedSymbols.toFiles) (.path "kb") "s" = .ok ["c", "./c"] := by
      decide +kernel
    have hbelow : ["c", "./c"] = below.roots := Except.ok.inj (hincludes.symm.trans hfollows.1)
    have hmem :
        ∀ included ∈ ["c", "./c"], included ∈ (IncludeForest.node "s" below beside).preorder := by
      intro included h
      have := below.roots_subset (hbelow ▸ h)
      simp [IncludeForest.preorder, this]
    have hplace : sharedSymbols.symbolsPlace "kb" "c" = sharedSymbols.symbolsPlace "kb" "./c" := by
      decide +kernel
    have hsame := hiff.1 hnodup "c" (hmem _ (by simp)) "./c" (hmem _ (by simp)) hplace
    exact absurd hsame (by decide)

end KeyLayout.Load
