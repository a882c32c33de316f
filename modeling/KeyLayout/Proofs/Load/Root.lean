import KeyLayout.Load.Need
import KeyLayout.Proofs.Load.Build

/-! The root of the keyboards: how settings determine it, and that loading a keyboard reads nothing
but documents below it. -/
namespace KeyLayout.Resource

def firstGiven? : List (Option String) → Option String
  | [] => none
  | none :: more => firstGiven? more
  | some value :: more => if value = "" then firstGiven? more else some value

def rootOf (settings : List (Option String)) : Name :=
  .ofString ((firstGiven? settings).getD bundledRoot)

theorem firstGiven?_cons (setting : Option String) (more : List (Option String)) :
    firstGiven? (setting :: more) = (setting.filter (!·.isEmpty)).or (firstGiven? more) := by
  cases setting with
  | none => rfl
  | some value => by_cases hempty : value = "" <;> simp [firstGiven?, Option.filter, hempty]

theorem chooseRoot_eq (configured environment : Option String) :
    chooseRoot configured environment = rootOf [configured, environment] := by
  simp [chooseRoot, rootOf, firstGiven?_cons, firstGiven?]

/-- A setting that is not given leaves the choice to those behind it. -/
theorem rootOf_cons_none (more : List (Option String)) : rootOf (none :: more) = rootOf more := rfl

theorem rootOf_cons_empty (more : List (Option String)) :
    rootOf (some "" :: more) = rootOf more := rfl

theorem rootOf_cons_some {value : String} (h : value ≠ "") (more : List (Option String)) :
    rootOf (some value :: more) = .ofString value := by
  simp [rootOf, firstGiven?, h]

end KeyLayout.Resource

namespace KeyLayout.Load
open Document Resource

/-- The same documents can be opened below a root. -/
def SameBelow (root : Name) (lib lib' : Library) : Prop :=
  ∀ need : Need, lib.open? (need.document root) = lib'.open? (need.document root)

section includes
variable {lib lib' : Library} {root : Name}

/-- Depth beyond what the includes of a library can reach changes nothing. -/
theorem followIncludes_eq_of_le {depth : Nat} (h : depthOf lib ≤ depth) (geometry : Geometry)
    (start : String) :
    followIncludes lib root geometry start = bindIncluding lib root depth { geometry } start := by
  induction h with
  | refl => rfl
  | @step depth hle ih =>
    have hbounded : ({ geometry } : Progress).Bounded (namesFrom lib start) depth :=
      ⟨List.nodup_nil, List.nil_subset _, hle⟩
    rw [ih, bindIncluding_succ hbounded List.mem_cons_self]

theorem readWith_congr {α : Type} {name : Name} (h : lib.open? name = lib'.open? name)
    (read : Source → Except Document.Error α) :
    readWith lib name read = readWith lib' name read := by
  simp only [readWith, h]

theorem bindIncluding_congr (h : SameBelow root lib lib') (depth : Nat) (p : Progress)
    (name : String) :
    bindIncluding lib root depth p name = bindIncluding lib' root depth p name := by
  induction depth generalizing p name with
  | zero => rfl
  | succ depth ih =>
    have hincludes : includesOf lib root name = includesOf lib' root name :=
      readWith_congr (h (.symbols name)) readIncludes
    have hbind (geometry : Geometry) :
        bindDocument lib root geometry name = bindDocument lib' root geometry name :=
      readWith_congr (h (.symbols name)) (bindSymbols geometry)
    have hdeeper : bindIncluding lib root depth = bindIncluding lib' root depth := by
      funext p name
      exact ih p name
    simp only [bindIncluding, hincludes, hbind, hdeeper]

/-- The other documents of a library bound the depth of the walk, but do
not change where it leads. -/
theorem followIncludes_congr (h : SameBelow root lib lib') (geometry : Geometry) (start : String) :
    followIncludes lib root geometry start = followIncludes lib' root geometry start := by
  rw [followIncludes_eq_of_le (Nat.le_max_left (depthOf lib) (depthOf lib')),
    followIncludes_eq_of_le (Nat.le_max_right (depthOf lib) (depthOf lib')), bindIncluding_congr h]

end includes

namespace Loader
variable {l l' : Loader}

theorem list_congr (hroot : l.root = l'.root) (h : SameBelow l.root l.library l'.library) :
    l.list = l'.list := by
  unfold list
  rw [← hroot]
  exact readWith_congr (h .catalog) readCatalog

theorem build_congr (hroot : l.root = l'.root) (h : SameBelow l.root l.library l'.library)
    (descriptor : Model.Descriptor) : l.build descriptor = l'.build descriptor := by
  have hopen (name : String) :
      l.library.open? (l.root.geometry name) = l'.library.open? (l.root.geometry name) :=
    h (.geometry name)
  simp only [build, readGeometry, bindAll, ← hroot, hopen, followIncludes_congr h]

/-- Loading opens the catalog, geometries and symbols below the root, and nothing else. -/
theorem load_congr (hroot : l.root = l'.root) (h : SameBelow l.root l.library l'.library)
    (id : String) : l.load id = l'.load id := by
  have hbuild : l.build = l'.build := funext (build_congr hroot h)
  simp only [load, list_congr hroot h, hbuild]

end Loader
end KeyLayout.Load
