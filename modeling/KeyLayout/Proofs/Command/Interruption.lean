import KeyLayout.Proofs.Command.Checking

/-! An output that is full cuts the text of a command short, and changes nothing else. -/
namespace KeyLayout.Command
open Document Load

namespace Writes
variable {run : Output → Outcome} {text : String} {warnings : List Warning}
    {failure : Option Failure} {n : Nat}

/-- With enough room a run ends as it does without a limit. -/
theorem run_limited (h : Writes run text warnings failure) (hn : (Utf8.encode text).length ≤ n) :
    (run { room := some n }).output.written = Utf8.encode text ∧
      (run { room := some n }).warnings = warnings ∧
      (run { room := some n }).failure = failure := by
  have hroom : (({ room := some n } : Output).write text).2 = true := by
    rw [Output.write_limited]
    exact decide_eq_true hn
  refine ⟨?_, h.accepted _ hroom⟩
  rw [h.output, Output.write_limited, List.take_of_length_le hn]

/-- With too little room a run writes the front of its text, and fails. -/
theorem run_cut (h : Writes run text warnings failure) (hn : n < (Utf8.encode text).length) :
    (run { room := some n }).output.written = (Utf8.encode text).take n ∧
      (run { room := some n }).warnings <+: warnings ∧
      (run { room := some n }).failure = some (.output diskFull) := by
  have hroom : (({ room := some n } : Output).write text).2 = false := by
    rw [Output.write_limited]
    exact decide_eq_false (by omega)
  refine ⟨?_, h.cut _ hroom⟩
  rw [h.output, Output.write_limited]

end Writes

def Failure.IsOwn (failure : Failure) : Prop := ∀ reason, failure ≠ .output reason

/-- What a run writes and how it ends does not depend on the output, but for a
failure of the output itself. -/
def Steady (run : Output → Outcome) : Prop :=
  ∃ text warnings failure, Writes run text warnings failure ∧ ∀ own ∈ failure, own.IsOwn

theorem steady_failed (failure : Failure) (h : failure.IsOwn) (warnings : List Warning) :
    Steady fun output => { output, warnings, failure := some failure } :=
  ⟨"", warnings, some failure, .nothing warnings _, by simpa using h⟩

theorem steady_lines (lines : List String) (warnings : List Warning) :
    Steady fun out => writeLines out lines warnings :=
  ⟨_, warnings, none, .lines lines warnings, by simp⟩

theorem steady_runList (l : Loader) : Steady (runList l) := by
  unfold runList
  cases l.list with
  | ok keyboards => exact steady_lines (listLines keyboards) []
  | error e => exact steady_failed (.load e) nofun []

theorem steady_runShow (l : Loader) (id : String) : Steady (runShow l id) := by
  unfold runShow
  simp only
  cases (l.load id).result with
  | ok keyboard => exact steady_lines (keyboardLines keyboard) _
  | error e => exact steady_failed (.load e) nofun _

theorem steady_runCheck (l : Loader) (ids : List String) : Steady (runCheck l ids) := by
  refine ⟨_, _, _, writes_runCheck l ids, fun failure hfailure => ?_⟩
  unfold verdict at hfailure
  split at hfailure
  · cases hfailure
  · cases hfailure
    exact nofun

theorem steady_runWith (settings : Settings) (l : Loader) (action : Action) :
    Steady (runWith settings l action) := by
  unfold runWith
  cases action with
  | list => exact steady_runList l
  | «show» id => exact steady_runShow l _
  | check ids all =>
    cases all with
    | false => cases ids <;> exact steady_runCheck l _
    | true =>
      cases l.list with
      | ok keyboards => exact steady_runCheck l _
      | error e => exact steady_failed (.load e) nofun []

theorem steady_run (request : Request) (around : Surroundings) : Steady (run request around) := by
  unfold run
  cases Settings.find around.files request.config around.systemPath around.systemSettings with
  | error e => exact steady_failed (.settings e) nofun []
  | ok settings => exact steady_runWith settings _ request.action

/-- A command whose output accepts so many bytes writes as much of what it writes without a limit,
all of it if that is not longer. If it is longer, and only then, the command fails as the output
does; else it ends as it does without a limit. -/
theorem output_cut_short (request : Request) (around : Surroundings) (n : Nat) :
    let whole := run request around {}
    let cut := run request around { room := some n }
    cut.output.written = whole.output.written.take n ∧
    (whole.output.written.length ≤ n → cut.failure = whole.failure ∧
      cut.warnings = whole.warnings) ∧
    (n < whole.output.written.length → cut.failure = some (.output diskFull) ∧
      cut.warnings <+: whole.warnings) ∧
    ∀ failure ∈ whole.failure, failure.IsOwn := by
  obtain ⟨text, warnings, failure, hwrites, hown⟩ := steady_run request around
  intro whole cut
  have hwhole : whole = { output := { written := Utf8.encode text }, warnings, failure } :=
    hwrites.run_unlimited
  rw [hwhole]
  by_cases hn : (Utf8.encode text).length ≤ n
  · obtain ⟨hwritten, hwarnings, hfailure⟩ := hwrites.run_limited hn
    refine ⟨?_, fun _ => ⟨hfailure, hwarnings⟩, fun hlonger => ?_, hown⟩
    · rw [List.take_of_length_le hn]
      exact hwritten
    · exact absurd hn (Nat.not_le.2 hlonger)
  · obtain ⟨hwritten, hwarnings, hfailure⟩ := hwrites.run_cut (Nat.lt_of_not_le hn)
    exact ⟨hwritten, fun hfits => absurd hfits hn, fun _ => ⟨hfailure, hwarnings⟩, hown⟩

end KeyLayout.Command
