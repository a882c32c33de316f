import KeyLayout.Proofs.Document.Listing
import KeyLayout.Proofs.Load.Blame

/-! Keyboards of a catalog are found by their ids, and loaded alike by id and by descriptor. -/
namespace KeyLayout.Load
open Document Markup Model Resource Catalog

variable {ds : List Descriptor} {d : Descriptor} {id : String}

/-- Where ids are distinct, the keyboard that is found is the only one of its id. -/
theorem resolve_eq_ok_iff (hn : (ds.map (·.id)).Nodup) :
    resolve ds id = .ok d ↔ d ∈ ds ∧ d.id = id := by
  constructor
  · exact resolve_eq_ok
  · rintro ⟨hd, rfl⟩
    cases h : resolve ds d.id with
    | error e => exact absurd rfl ((resolve_eq_error.1 h).2 d hd)
    | ok found =>
      obtain ⟨hfound, hsame⟩ := resolve_eq_ok h
      rw [List.inj_on_of_nodup_map hn hfound hd hsame]

theorem resolve_eq_unknown : resolve ds id = .error (.unknownKeyboard id) ↔ id ∉ ds.map (·.id) := by
  rw [resolve_eq_error]
  simp

/-- The keyboard of an id is what is built from the descriptor that the catalog has for it. -/
theorem Loader.load_of_resolve {l : Loader} (hlist : l.list = .ok ds) (h : resolve ds id = .ok d) :
    l.load id = l.loadDescribed d := by
  have hbuild :
      (Reported.ofExcept l.list >>= fun keyboards =>
        Reported.ofExcept (resolve keyboards id) >>= l.build) =
      l.build d := by
    rw [hlist]
    change (Reported.ofExcept (resolve ds id) >>= l.build) = l.build d
    rw [h]
    rfl
  rw [load, loadDescribed, (resolve_eq_ok h).2]
  exact congrArg _ hbuild

/-- A catalog that is accepted lists the keyboards of its elements, in document order and with their
attributes, and each of them is the one that is found by its id; no other id is known. An id is
reported as repeated just where an element is in order but for having the id of an earlier one, and
all before it is in order. Whatever files there are, a keyboard that is listed is loaded by its id
as it is by its descriptor. -/
theorem catalog_agrees (source : Source) (l : Loader) :
    (∀ ds, readCatalog source = .ok ds →
      (∃ tree : Tree, source.events = tree.events ∧
        ds.map some = (keyboards tree.events).map descriptorOf?) ∧
      (ds.map (·.id)).Nodup ∧
      (∀ id d, resolve ds id = .ok d ↔ d ∈ ds ∧ d.id = id) ∧
      ∀ id, resolve ds id = .error (.unknownKeyboard id) ↔ id ∉ ds.map (·.id)) ∧
    (∀ id, readCatalog source = .error (.duplicateKeyboard id) ↔
      ∃ before a path after, source.events = before ++ .start "keyboard" a path :: after ∧
        (∀ event ∈ before, Proper event) ∧ ((listed before).map (·.id)).Nodup ∧
        Proper (.start "keyboard" a path) ∧ a.get? "id" = some id ∧
        id ∈ (listed before).map (·.id)) ∧
    ∀ ds, l.list = .ok ds → ∀ d ∈ ds, l.load d.id = l.loadDescribed d := by
  refine ⟨fun ds hds => ?_, fun id => readCatalog_eq_duplicate, fun ds hlist d hd => ?_⟩
  · obtain ⟨tree, htree, hdescribed, hdistinct⟩ := keyboards_of_readCatalog hds
    exact ⟨⟨tree, htree, hdescribed⟩, hdistinct, fun id d => resolve_eq_ok_iff hdistinct,
      fun id => resolve_eq_unknown⟩
  · obtain ⟨source, -, hds⟩ := readWith_eq_ok.1 hlist
    obtain ⟨-, -, -, hdistinct⟩ := keyboards_of_readCatalog hds
    exact l.load_of_resolve hlist ((resolve_eq_ok_iff hdistinct).2 ⟨hd, rfl⟩)

/-- A catalog that lists a keyboard again behind another one. -/
def listedAgain : Source := .ofBytes <| ascii <|
  "<keyboards><keyboard id='us' geometry='a'/><keyboard id='de' geometry='b'/><keyboard id='us' geometry='c'/></keyboards>"

def withoutGeometry : Directory where
  files :=
    [(["kb", "keyboards.xml"],
      ascii "<keyboards><keyboard id='us' geometry='a' symbols='s'/><keyboard id='de' geometry='a'/></keyboards>")]

theorem listedAgain_refused :
    readCatalog listedAgain = .error (.duplicateKeyboard "us") ∧
      (Loader.ofDirectory withoutGeometry "kb").load "us" =
        (Loader.ofDirectory withoutGeometry "kb").loadDescribed
          { id := "us", geometry := "a", symbols := some "s" } := by
  let l := Loader.ofDirectory withoutGeometry "kb"
  let us : Descriptor := { id := "us", geometry := "a" }
  let de : Descriptor := { id := "de", geometry := "b" }
  let before : List Event :=
    [.start "keyboards" {} [], .start "keyboard" ⟨[("id", "us"), ("geometry", "a")]⟩ ["keyboards"],
      .stop "keyboard" ["keyboards"],
      .start "keyboard" ⟨[("id", "de"), ("geometry", "b")]⟩ ["keyboards"],
      .stop "keyboard" ["keyboards"]]
  let again : Attributes := ⟨[("id", "us"), ("geometry", "c")]⟩
  have hevents : listedAgain.events = before ++ .start "keyboard" again ["keyboards"] ::
      [.stop "keyboard" ["keyboards"], .stop "keyboards" []] := by decide +kernel
  have hbefore :
      deliver (.ofExcept CatalogDraft.step) {} before = (⟨[us, de], ["us", "de"]⟩, none) := by
    decide +kernel
  obtain ⟨hproper, hdistinct, hlisted⟩ := deliver_eq_listed.1 hbefore
  have hlast : Proper (.start "keyboard" again ["keyboards"]) :=
    ⟨by decide +kernel, fun _ => ⟨rfl, rfl⟩⟩
  obtain ⟨-, hrepeated, hload⟩ := catalog_agrees listedAgain l
  have hlist : l.list = .ok [{ id := "us", geometry := "a", symbols := some "s" },
    { id := "de", geometry := "a" }] := by
    decide +kernel
  refine ⟨(hrepeated "us").2 ⟨before, again, _, _, hevents, hproper, hdistinct, hlast, rfl, ?_⟩, ?_⟩
  · have hkeyboards : listed before = [us, de] := by
      simpa [addAll] using congrArg CatalogDraft.keyboards hlisted
    rw [hkeyboards]
    decide
  · exact hload _ hlist _ (List.mem_cons_self ..)

end KeyLayout.Load
