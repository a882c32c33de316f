import KeyLayout.Proofs.Document.GeometryReading
import KeyLayout.Proofs.Load.Lookup

/-! What loading says where it fails: a keyboard that is listed is known, and that it is not loaded
is for others to say. -/
namespace KeyLayout.Document
open Markup Model

/-- Any warning but that a keyboard is not loaded, which only a check gives. -/
def Warning.OfLoading (w : Warning) : Prop := ∀ id, w ≠ .notLoaded id

namespace GeometryDraft
variable {d d' : GeometryDraft} {a : Attributes} {path : List String}

def WarnsOfLoading (d : GeometryDraft) : Prop := ∀ w ∈ d.warnings, w.OfLoading

namespace WarnsOfLoading

theorem congr (h : d.WarnsOfLoading) (hwarnings : d'.warnings = d.warnings) :
    d'.WarnsOfLoading := by
  rwa [WarnsOfLoading, hwarnings]

theorem warn (h : d.WarnsOfLoading) {w : Warning} (hw : w.OfLoading) :
    (d.warn w).WarnsOfLoading := by
  intro other hother
  rcases List.mem_append.1 hother with hother | hother
  · exact h other hother
  · rwa [List.mem_singleton.1 hother]

theorem introduce (h : d.WarnsOfLoading) (name : String) : (d.introduce name).1.WarnsOfLoading := by
  unfold GeometryDraft.introduce
  split <;> exact h.congr rfl

theorem place (h : d.WarnsOfLoading) (i : Nat) : (d.place i).WarnsOfLoading := by
  unfold GeometryDraft.place
  split
  · split
    · exact h.warn nofun
    · exact h.congr rfl
  · exact h

theorem readContent (h : d.WarnsOfLoading) : d.readContent.WarnsOfLoading :=
  readContent_induction (fun name h => (h.introduce name).place _) (fun h => h.congr rfl)
    (fun _ h => h.congr rfl) h

theorem startButton (h : d.WarnsOfLoading) (hd : d.startButton a path = .ok d') :
    d'.WarnsOfLoading := by
  obtain ⟨m, -, -, rfl⟩ := startButton_eq_ok hd
  have htold : (d.tell m).1.WarnsOfLoading := (h.introduce m.name).congr rfl
  split
  · exact htold.place _
  · exact htold

theorem start (h : d.WarnsOfLoading) {name : String} (hd : d.start name a path = .ok d') :
    d'.WarnsOfLoading := by
  unfold GeometryDraft.start at hd
  split at hd
  · obtain ⟨r, -, ⟨s, -, -, rfl⟩ | ⟨-, rfl⟩⟩ := startBounds_eq_ok hd <;> exact h.congr rfl
  · obtain ⟨angle, -, hd⟩ := bind_eq_ok.1 hd
    cases hd
    exact h.congr rfl
  · exact h.startButton hd
  · obtain ⟨id, -, rfl⟩ := startOutline_eq_ok hd
    exact h.congr rfl
  · obtain rfl := startPoint_eq_ok hd
    exact h.congr rfl
  · cases hd
    exact h

theorem stop (h : d.WarnsOfLoading) (name : String) : (d.stop name).WarnsOfLoading := by
  unfold GeometryDraft.stop
  split
  · unfold stopSection
    simp only
    split
    · exact h.readContent
    · exact h.readContent.congr rfl
  · unfold stopOutline
    split
    · exact h
    · simp only
      split
      · exact warn (h.congr rfl) nofun
      · exact h.congr rfl
  · exact h

/-- Also an event that is refused leaves no other warnings behind. -/
theorem step (h : d.WarnsOfLoading) (event : Event) : (step d event).1.WarnsOfLoading := by
  cases event with
  | start name a path =>
    rw [GeometryDraft.step]
    split
    · exact h
    · have hread : (if path.head? = some "section" then d.readContent else d).WarnsOfLoading := by
        split
        · exact h.readContent
        · exact h
      simp only
      split
      next hstart => exact hread.start hstart
      next => exact hread
  | stop name path => exact h.stop name
  | text text path =>
    rw [GeometryDraft.step, addText]
    split <;> exact h.congr rfl

end WarnsOfLoading
end GeometryDraft

theorem ofLoading_of_readGeometry (source : Source) :
    ∀ w ∈ (readGeometry source).warnings, w.OfLoading := by
  have hread : (consume GeometryDraft.step {} source).1.WarnsOfLoading := by
    rw [consume_fst]
    exact deliver_keeps (fun event h => h.step event) (by simp [GeometryDraft.WarnsOfLoading]) _
  unfold readGeometry
  split
  next hconsume =>
    rw [hconsume] at hread
    exact hread
  next d hconsume =>
    rw [hconsume] at hread
    split
    · exact hread
    · intro w hw
      rcases List.mem_append.1 hw with hw | hw
      · exact hread w hw
      · obtain ⟨key, -, rfl⟩ := List.mem_map.1 hw
        exact nofun

end KeyLayout.Document

namespace KeyLayout.Load
open Document Model

theorem Loader.ofLoading_of_readGeometry (l : Loader) (name : String) :
    ∀ w ∈ (l.readGeometry name).warnings, w.OfLoading := by
  unfold Loader.readGeometry
  simp only
  cases l.library.open? (l.root.geometry name) with
  | none => simp [Reported.error]
  | some source => exact Document.ofLoading_of_readGeometry source

theorem ofLoading_of_assemble (descriptor : Descriptor) (geometry : Geometry) :
    ∀ w ∈ (assemble descriptor geometry).warnings, w.OfLoading := by
  intro w hw
  rw [assemble_warnings] at hw
  obtain ⟨key, -, rfl⟩ := List.mem_map.1 hw
  exact nofun

theorem ofLoading_of_build (l : Loader) (descriptor : Descriptor) :
    ∀ w ∈ (l.build descriptor).warnings, w.OfLoading := by
  unfold Loader.build
  cases descriptor.symbols with
  | none => simp [Reported.error]
  | some symbols =>
    refine Reported.forall_bind_warnings (l.ofLoading_of_readGeometry _) fun geometry => ?_
    exact Reported.forall_bind_warnings (by simp [Reported.ofExcept]) fun bound =>
      ofLoading_of_assemble descriptor bound

/-- Loading leaves it to others to warn that it has failed. -/
theorem Loader.ofLoading_of_load (l : Loader) (id : String) :
    ∀ w ∈ (l.load id).warnings, w.OfLoading :=
  Reported.forall_bind_warnings (by simp [Reported.ofExcept]) fun _ =>
    Reported.forall_bind_warnings (by simp [Reported.ofExcept]) fun descriptor =>
      ofLoading_of_build l descriptor

/-- A keyboard that the catalog does not list is unknown. -/
theorem Loader.load_of_not_listed {l : Loader} {ds : List Descriptor}
    (hlist : l.list = .ok ds) {id : String} (h : id ∉ ds.map (·.id)) :
    (l.load id).result = .error (.keyboard id (.unknownKeyboard id)) := by
  have hresolve : resolve ds id = .error (.unknownKeyboard id) := resolve_eq_unknown.2 h
  refine Reported.mapError_result_eq_error.2 ⟨.unknownKeyboard id, ?_, rfl⟩
  refine Reported.bind_result_eq_error.2 (.inr ⟨ds, hlist, ?_⟩)
  exact Reported.bind_result_eq_error.2 (.inl hresolve)

/-- A keyboard that the catalog lists is not unknown, whatever else may be wrong with it. -/
theorem Loader.root_ne_unknownKeyboard {l : Loader} {ds : List Descriptor} (hlist : l.list = .ok ds)
    {d : Descriptor} (hd : d ∈ ds) {e : Error} (h : (l.load d.id).result = .error e) (id : String) :
    e.root ≠ .unknownKeyboard id := by
  obtain ⟨source, -, hds⟩ := readWith_eq_ok.1 hlist
  obtain ⟨-, -, -, hdistinct⟩ := keyboards_of_readCatalog hds
  have hresolve : resolve ds d.id = .ok d := (resolve_eq_ok_iff hdistinct).2 ⟨hd, rfl⟩
  rw [l.load_of_resolve hlist hresolve] at h
  obtain ⟨cause, hcause, rfl⟩ := Reported.mapError_result_eq_error.1 h
  have hfault : AtFault l d.id cause := .of_build ⟨ds, hlist, hresolve⟩ hcause
  cases hfault with
  | unknownKeyboard hother hnone =>
    obtain rfl : _ = ds := Except.ok.inj (hother.symm.trans hlist)
    exact absurd rfl (hnone d hd)
  | _ => simp [Error.root]

end KeyLayout.Load
