import KeyLayout.Command.Run
import KeyLayout.Proofs.Load.Root

/-! The root below which the commands read. It is the first setting that is given and not empty,
unless an empty directory on the command line hides the one in the settings. -/
namespace KeyLayout.Command
open Load Resource

section congr
variable {l l' : Loader}

theorem Checking.steps_congr (hload : l.load = l'.load) (checked : Nat) (c : Checking)
    (ids : List String) : c.steps l checked ids = c.steps l' checked ids := by
  induction ids generalizing c with
  | nil => rfl
  | cons id ids ih =>
    have hstep : c.step l id = c.step l' id := by simp only [Checking.step, hload]
    simp only [Checking.steps, hstep, ih]

/-- A command asks its loader for the catalog and for keyboards, and for nothing else. -/
theorem runWith_congr (hroot : l.root = l'.root) (h : SameBelow l.root l.library l'.library)
    (settings : Settings) (action : Action) (out : Output) :
    runWith settings l action out = runWith settings l' action out := by
  have hlist : l.list = l'.list := Loader.list_congr hroot h
  have hload : l.load = l'.load := funext (Loader.load_congr hroot h)
  cases action with
  | list => simp only [runWith, runList, hlist]
  | «show» id => simp only [runWith, runShow, hload]
  | check ids all => simp only [runWith, runCheck, hlist, Checking.steps_congr hload]

end congr

/-- The settings of the root, the one that counts most first: command line,
configuration, environment. -/
def rootSettings (request : Request) (settings : Settings) (around : Surroundings) :
    List (Option String) :=
  [request.keyboardsDir, settings.keyboardsDir, around.keyboardsDir]

/-- An empty directory on the command line hides that of the configuration; else the first setting
that is not empty counts. -/
def rootFor (request : Request) (settings : Settings) (around : Surroundings) : Name :=
  if request.keyboardsDir = some "" then rootOf [around.keyboardsDir]
  else rootOf (rootSettings request settings around)

theorem root_loaderFor (request : Request) (settings : Settings) (around : Surroundings) :
    (loaderFor request settings around).root = rootFor request settings around := by
  simp only [loaderFor, rootFor, rootSettings, chooseRoot_eq]
  cases hflag : request.keyboardsDir with
  | none => rfl
  | some dir =>
    by_cases hempty : dir = ""
    · simp [hempty, rootOf_cons_empty]
    · simp [hempty, rootOf_cons_some]

/-- With the settings that were found, a command reads nothing but documents below its root. That is
the root of the first setting that is given and not empty, with one exception: where the command
line gives an empty directory and the settings one that is not empty, it is that of the environment,
or the bundled one. -/
theorem read_below_root {request : Request} {around : Surroundings} {settings : Settings}
    (hfound : Settings.find around.files request.config around.systemPath around.systemSettings =
      .ok settings)
    (out : Output) :
    (∀ library, SameBelow (rootFor request settings around) (.ofFiles around.files) library →
      run request around out =
        runWith settings ⟨library, rootFor request settings around⟩ request.action out) ∧
    (rootFor request settings around = rootOf (rootSettings request settings around) ↔
      ∀ dir, request.keyboardsDir = some "" → settings.keyboardsDir = some dir → dir ≠ "" →
        Name.ofString dir = rootOf [around.keyboardsDir]) := by
  constructor
  · intro library hsame
    have hroot := root_loaderFor request settings around
    have hbelow :
        SameBelow (loaderFor request settings around).root (.ofFiles around.files) library :=
          hroot ▸ hsame
    simp only [run, hfound]
    exact @runWith_congr (loaderFor request settings around) ⟨library,
      _⟩ hroot hbelow settings request.action out
  · unfold rootFor rootSettings
    split_ifs with hempty
    · rw [hempty, rootOf_cons_empty]
      cases hdir : settings.keyboardsDir with
      | none => simp [rootOf_cons_none]
      | some dir =>
        by_cases hblank : dir = ""
        · simp [hblank, rootOf_cons_empty]
        · simp [hblank, rootOf_cons_some, eq_comm]
    · simp [hempty]

def configured : Surroundings where
  files := .ofList
    [("config.toml", .file (Markup.ascii "[loader]\nkeyboards_dir = \"kb\"\n")),
      ("kb/keyboards.xml",
        .file (Markup.ascii "<keyboards><keyboard id='a' geometry='g'/></keyboards>"))]

def emptyFlag : Request :=
  { action := .list, keyboardsDir := some "", config := some "config.toml" }

theorem emptyFlag_root :
    Settings.find configured.files (some "config.toml") "" none =
      .ok { keyboardsDir := some "kb" } ∧
      run emptyFlag configured {} =
        runWith { keyboardsDir := some "kb" } ⟨.ofFiles configured.files, .ofString bundledRoot⟩
          .list {} ∧
      rootFor emptyFlag { keyboardsDir := some "kb" } configured ≠
        rootOf [some "", some "kb", none] := by
  have hfind : Settings.find configured.files (some "config.toml") "" none =
      .ok { keyboardsDir := some "kb" } := by
    decide +kernel
  obtain ⟨hrun, hroot⟩ := @read_below_root emptyFlag configured _ hfind {}
  refine ⟨hfind, hrun _ fun need => rfl, fun hsame => ?_⟩
  exact absurd (hroot.1 hsame "kb" rfl rfl (by decide)) (by decide +kernel)

end KeyLayout.Command
