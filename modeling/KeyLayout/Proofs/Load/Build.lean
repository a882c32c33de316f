import KeyLayout.Load.Loader
import KeyLayout.Proofs.Load.IncludeWalk
import KeyLayout.Resource.Directory

/-! The stages through which a keyboard that is loaded has come. -/
namespace KeyLayout.Document.Reported

variable {ε ε' α β : Type}

theorem bind_result_eq_ok {r : Reported ε α} {next : α → Reported ε β} {b : β} :
    (r >>= next).result = .ok b ↔ ∃ a, r.result = .ok a ∧ (next a).result = .ok b := by
  obtain ⟨warnings, result⟩ := r
  cases result with
  | error e => simp [bind, andThen]
  | ok a => simp [bind, andThen]

theorem bind_result_eq_error {r : Reported ε α} {next : α → Reported ε β} {e : ε} :
    (r >>= next).result = .error e ↔ r.result = .error e ∨
      ∃ a, r.result = .ok a ∧ (next a).result = .error e := by
  obtain ⟨warnings, result⟩ := r
  cases result with
  | error e => simp [bind, andThen]
  | ok a => simp [bind, andThen]

theorem forall_bind_warnings {P : Warning → Prop} {r : Reported ε α} {next : α → Reported ε β}
    (hr : ∀ w ∈ r.warnings, P w) (hnext : ∀ a, ∀ w ∈ (next a).warnings, P w) :
    ∀ w ∈ (r >>= next).warnings, P w := by
  obtain ⟨warnings, result⟩ := r
  cases result with
  | error e => exact hr
  | ok a =>
    intro w hw
    rcases List.mem_append.1 hw with hw | hw
    · exact hr w hw
    · exact hnext a w hw

/-- What is made of a result raises no more warnings. -/
theorem bind_pure_warnings (r : Reported ε α) (f : α → β) :
    (r >>= fun a => pure (f a)).warnings = r.warnings := by
  obtain ⟨warnings, result⟩ := r
  cases result <;> simp [bind, andThen, pure, ok]

theorem mapError_result_eq_error {r : Reported ε α} {f : ε → ε'} {e : ε'} :
    (r.mapError f).result = .error e ↔ ∃ cause, r.result = .error cause ∧ f cause = e := by
  obtain ⟨warnings, result⟩ := r
  cases result <;> simp [mapError, Except.mapError]

theorem mapError_result_eq_ok {r : Reported ε α} {f : ε → ε'} {a : α} :
    (r.mapError f).result = .ok a ↔ r.result = .ok a := by
  obtain ⟨warnings, result⟩ := r
  cases result <;> simp [mapError, Except.mapError]

theorem ofExcept_result (result : Except ε α) : (ofExcept result).result = result := rfl

end KeyLayout.Document.Reported

namespace KeyLayout.Load
open Document Model Resource

theorem readWith_eq_ok {α : Type} {lib : Library} {name : Name}
    {read : Source → Except Document.Error α} {a : α} :
    readWith lib name read = .ok a ↔
      ∃ source, lib.open? name = some source ∧ read source = .ok a := by
  unfold readWith
  cases lib.open? name with
  | none => simp
  | some source => cases hr : read source <;> simp [hr, Except.mapError]

/-- A document that is not read cannot be opened, or is wrong. -/
theorem readWith_eq_error {α : Type} {lib : Library} {name : Name}
    {read : Source → Except Document.Error α} {e : Error} :
    readWith lib name read = .error e ↔
      lib.open? name = none ∧ e = .notOpened name.text ∨
        ∃ source cause, lib.open? name = some source ∧ read source = .error cause ∧
          e = .document name.text cause := by
  unfold readWith
  cases lib.open? name with
  | none => simp [eq_comm]
  | some source => cases hr : read source <;> simp [hr, Except.mapError, eq_comm]

namespace Loader
variable {l : Loader} {descriptor : Descriptor} {keyboard : Keyboard}

theorem readGeometry_eq_ok {name : String} {geometry : Geometry} :
    (l.readGeometry name).result = .ok geometry ↔
      ∃ source, l.library.open? (l.root.geometry name) = some source ∧
        (Document.readGeometry source).result = .ok geometry := by
  unfold readGeometry
  simp only
  cases l.library.open? (l.root.geometry name) with
  | none => simp [Reported.error]
  | some source => simp [Reported.mapError_result_eq_ok]

theorem readGeometry_eq_error {name : String} {e : Error} :
    (l.readGeometry name).result = .error e ↔
      l.library.open? (l.root.geometry name) = none ∧ e = .notOpened (l.root.geometry name).text ∨
        ∃ source cause, l.library.open? (l.root.geometry name) = some source ∧
          (Document.readGeometry source).result = .error cause ∧
          e = .document (l.root.geometry name).text cause := by
  unfold readGeometry
  simp only
  cases l.library.open? (l.root.geometry name) with
  | none => simp [Reported.error, eq_comm]
  | some source =>
    simp only [Reported.mapError_result_eq_error, reduceCtorEq, false_and, false_or]
    constructor
    · rintro ⟨cause, hcause, rfl⟩
      exact ⟨source, cause, rfl, hcause, rfl⟩
    · rintro ⟨_, cause, ⟨⟩, hcause, rfl⟩
      exact ⟨cause, hcause, rfl⟩

theorem build_eq_ok :
    (l.build descriptor).result = .ok keyboard ↔
      ∃ symbols geometry bound, descriptor.symbols = some symbols ∧
        (l.readGeometry descriptor.geometry).result = .ok geometry ∧
        bindAll l.library l.root geometry symbols = .ok bound ∧
        (assemble descriptor bound).result = .ok keyboard := by
  unfold build
  cases descriptor.symbols with
  | none => simp [Reported.error]
  | some symbols => simp [Reported.bind_result_eq_ok, Reported.ofExcept_result]

theorem load_eq_ok {id : String} :
    (l.load id).result = .ok keyboard ↔
      ∃ keyboards descriptor, l.list = .ok keyboards ∧ resolve keyboards id = .ok descriptor ∧
        (l.build descriptor).result = .ok keyboard := by
  simp [load, Reported.mapError_result_eq_ok, Reported.bind_result_eq_ok, Reported.ofExcept_result]

theorem loadDescribed_eq_ok :
    (l.loadDescribed descriptor).result = .ok keyboard ↔
      (l.build descriptor).result = .ok keyboard :=
  Reported.mapError_result_eq_ok

end Loader

theorem bindAll_eq_ok {lib : Library} {root : Name} {geometry bound : Geometry} {name : String} :
    bindAll lib root geometry name = .ok bound ↔
      ∃ p, followIncludes lib root geometry name = .ok p ∧ p.geometry = bound := by
  simp [bindAll, bind_eq_ok]

/-- Assembly copies everything but the keys, which it links one by one, and the
outlines, which it numbers anew. -/
theorem assemble_eq_ok {descriptor : Descriptor} {geometry : Geometry} {keyboard : Keyboard} :
    (assemble descriptor geometry).result = .ok keyboard ↔
      ∃ keys, (linkKeys (.ofEntries geometry.outlines.entries) geometry.keys).result = .ok keys ∧
        keyboard = { descriptor, bounds := geometry.bounds, sections := geometry.sections, keys
                     outlines := .ofEntries geometry.outlines.entries } := by
  simp only [assemble, Reported.bind_result_eq_ok]
  simp [pure, Reported.ok, eq_comm]

def Loader.ofDirectory (d : Directory) (base : String) : Loader := ⟨.ofFiles d.toFiles, .path base⟩

/-- Loads a keyboard whose includes reach no deeper than some depth. -/
def Loader.loadWithin (l : Loader) (depth : Nat) (id : String) : Except Error Keyboard := do
  let keyboards ← l.list
  let descriptor ← resolve keyboards id
  let geometry ← (l.readGeometry descriptor.geometry).result
  match descriptor.symbols with
  | none => throw (.missingSymbols id)
  | some symbols =>
    let p ← bindIncluding l.library l.root depth { geometry } symbols
    (assemble descriptor p.geometry).result

theorem Loader.load_of_loadWithin {l : Loader} {depth : Nat} {id : String} {keyboard : Keyboard}
    (h : l.loadWithin depth id = .ok keyboard) : (l.load id).result = .ok keyboard := by
  obtain ⟨keyboards, hlist, h⟩ := bind_eq_ok.1 h
  obtain ⟨descriptor, hresolve, h⟩ := bind_eq_ok.1 h
  obtain ⟨geometry, hgeometry, h⟩ := bind_eq_ok.1 h
  cases hs : descriptor.symbols with
  | none => simp [hs] at h
  | some symbols =>
    simp only [hs] at h
    obtain ⟨p, hbind, hassemble⟩ := bind_eq_ok.1 h
    have hall : bindAll l.library l.root geometry symbols = .ok p.geometry :=
      bindAll_eq_ok.2 ⟨p, followIncludes_of_bindIncluding hbind, rfl⟩
    have hbuild := build_eq_ok.2 ⟨symbols, geometry, p.geometry, hs, hgeometry, hall, hassemble⟩
    exact load_eq_ok.2 ⟨keyboards, descriptor, hlist, hresolve, hbuild⟩

end KeyLayout.Load
