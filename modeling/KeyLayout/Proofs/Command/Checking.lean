import KeyLayout.Proofs.Command.Writing
import KeyLayout.Proofs.Load.Failures

/-! Checking keyboards: each is reported once, in the order in which they are asked
for, and on its own account. -/
namespace KeyLayout.Load

@[simp] theorem Error.root_root (e : Error) : e.root.root = e.root := by
  induction e with
  | keyboard id cause ih => exact ih
  | _ => rfl

end KeyLayout.Load

namespace KeyLayout.Command
open Document Load Model Resource

/-- The record of one id: the number of keys, or the error that loading ends in. -/
def recordOf (l : Loader) (id : String) : String :=
  match (l.load id).result with
  | .ok keyboard => okLine id keyboard.keys.length
  | .error e => failLine id e

def failureOf? (l : Loader) (id : String) : Option Load.Error :=
  match (l.load id).result with
  | .ok _ => none
  | .error e => some e

/-- The warnings of loading, and behind them, if it fails, that the keyboard is not loaded. -/
def warningsOf (l : Loader) (id : String) : List Warning :=
  (l.load id).warnings ++ ((failureOf? l id).map fun _ => Warning.notLoaded id).toList

def verdict (checked : Nat) (failures : List Load.Error) : Option Failure :=
  if failures.isEmpty then none else some (.check checked failures)

section
variable {l : Loader} {id : String} {ids : List String} {e : Load.Error}

theorem recordOf_of_ok {keyboard : Keyboard} (h : (l.load id).result = .ok keyboard) :
    recordOf l id = okLine id keyboard.keys.length := by
  rw [recordOf, h]

theorem recordOf_of_error (h : (l.load id).result = .error e) : recordOf l id = failLine id e := by
  rw [recordOf, h]

theorem failureOf?_eq_some : failureOf? l id = some e ↔ (l.load id).result = .error e := by
  unfold failureOf?
  split <;> simp_all

theorem failureOf?_eq_none :
    failureOf? l id = none ↔ ∃ keyboard, (l.load id).result = .ok keyboard := by
  unfold failureOf?
  split <;> simp_all

theorem verdict_eq_none {checked : Nat} {failures : List Load.Error} :
    verdict checked failures = none ↔ failures = [] := by
  simp [verdict]

/-- A check tells of one keyboard, and takes note of its failure if the output has
room for the record of it. -/
theorem Checking.step_eq (l : Loader) (c : Checking) (id : String) : c.step l id =
    match c.output.write (recordOf l id) with
    | (output, true) =>
      ({ output
         warnings := c.warnings ++ warningsOf l id
         failures := c.failures ++ (failureOf? l id).toList }, true)
    | (output, false) =>
      ({ c with output, warnings := c.warnings ++ (l.load id).warnings }, false) := by
  unfold step recordOf warningsOf failureOf?
  cases hload : (l.load id).result with
  | ok keyboard =>
    simp only [hload]
    cases c.output.write (okLine id keyboard.keys.length) with
    | mk output accepted => cases accepted <;> simp
  | error e =>
    simp only [hload]
    cases c.output.write (failLine id e) with
    | mk output accepted => cases accepted <;> simp

theorem writes_steps (l : Loader) (checked : Nat) (ids : List String) (warnings : List Warning)
    (failures : List Load.Error) :
    Writes (fun output => Checking.steps l checked { output, warnings, failures } ids)
      (String.join (ids.map (recordOf l)))
      (warnings ++ ids.flatMap (warningsOf l))
        (verdict checked (failures ++ ids.filterMap (failureOf? l))) := by
  induction ids generalizing warnings failures with
  | nil => simpa [Checking.steps, verdict] using Writes.nothing warnings (verdict checked failures)
  | cons id ids ih =>
    have hrest := ih (warnings ++ warningsOf l id) (failures ++ (failureOf? l id).toList)
    have hfailures : failures ++ (id :: ids).filterMap (failureOf? l) =
        failures ++ (failureOf? l id).toList ++ ids.filterMap (failureOf? l) := by
      cases hf : failureOf? l id <;> simp [hf]
    rw [List.map_cons, String.join_cons, List.flatMap_cons, hfailures, ← List.append_assoc]
    have hraised : warnings ++ (l.load id).warnings <+: warnings ++ warningsOf l id ++
        ids.flatMap (warningsOf l) := by
      simp [warningsOf]
    refine hrest.andThen hraised fun out => ?_
    rw [Checking.steps, Checking.step_eq]
    simp only
    cases hwrite : out.write (recordOf l id) with
    | mk output accepted => cases accepted <;> rfl

theorem writes_runCheck (l : Loader) (ids : List String) :
    Writes (runCheck l ids) (String.join (ids.map (recordOf l))) (ids.flatMap (warningsOf l))
      (verdict ids.length (ids.filterMap (failureOf? l))) := by
  have hsteps := writes_steps l ids.length ids [] []
  rwa [List.nil_append, List.nil_append] at hsteps

end

/-- What the check of these keyboards comes to where all of it is written: one record for each,
which tells its number of keys or the root of its error, and nothing else. It fails if one of the
keyboards does, with the errors in the order of their records, one warning for each, and one report
for each before the summary. -/
structure Checked (l : Loader) (ids : List String) (o : Outcome) : Prop where
  records : o.output.written = Utf8.encode (String.join (ids.map (recordOf l)))
  succeeds : o.failure = none ↔ ∀ id ∈ ids, ∃ keyboard, (l.load id).result = .ok keyboard
  fails : o.failure ≠ none → o.failure = some (.check ids.length (ids.filterMap (failureOf? l)))
  warnings : o.warnings = ids.flatMap (warningsOf l)
  notLoaded : o.warnings.filter (·.message = "Keyboard failed to load") =
    (ids.filter fun id => (failureOf? l id).isSome).map .notLoaded
  /-- The code and the help are those of the root of the error. -/
  reports : ∀ failure ∈ o.failure, failure.reports =
    (ids.filterMap (failureOf? l)).map
      (fun e => ⟨e.message, loadCode e.root, loadHelp e.root, e.causes⟩) ++
      [⟨s!"{(ids.filterMap (failureOf? l)).length} of {ids.length} keyboards failed to load",
        "keyloom::check", none, []⟩]

theorem message_ne_of_ofLoading {w : Warning} (h : w.OfLoading) :
    w.message ≠ "Keyboard failed to load" := by
  cases w with
  | notLoaded id => exact absurd rfl (h id)
  | _ => simp [Warning.message]

theorem filter_warningsOf (l : Loader) (ids : List String) :
    (ids.flatMap (warningsOf l)).filter (·.message = "Keyboard failed to load") =
      (ids.filter fun id => (failureOf? l id).isSome).map .notLoaded := by
  induction ids with
  | nil => rfl
  | cons id ids ih =>
    have hloading : (l.load id).warnings.filter (·.message = "Keyboard failed to load") = [] := by
      rw [List.filter_eq_nil_iff]
      intro w hw
      simpa using message_ne_of_ofLoading (l.ofLoading_of_load id w hw)
    rw [List.flatMap_cons, List.filter_append, ih, warningsOf, List.filter_append, hloading,
      List.nil_append]
    cases hf : failureOf? l id <;> simp [hf, Warning.message]

theorem loadReport_eq :
    loadReport = fun e => ⟨e.message, loadCode e.root, loadHelp e.root, e.causes⟩ := by
  funext e
  simp [loadReport, loadCode, loadHelp]

theorem checked_runCheck (l : Loader) (ids : List String) : Checked l ids (runCheck l ids {}) := by
  rw [(writes_runCheck l ids).run_unlimited]
  have hnone : verdict ids.length (ids.filterMap (failureOf? l)) = none ↔
      ∀ id ∈ ids, ∃ keyboard, (l.load id).result = .ok keyboard := by
    simp only [verdict_eq_none, List.filterMap_eq_nil_iff, failureOf?_eq_none]
  have hfails : verdict ids.length (ids.filterMap (failureOf? l)) ≠ none →
      verdict ids.length (ids.filterMap (failureOf? l)) =
        some (.check ids.length (ids.filterMap (failureOf? l))) := by
    unfold verdict
    split <;> simp
  refine ⟨rfl, hnone, hfails, rfl, filter_warningsOf l ids, fun failure hfailure => ?_⟩
  have hsome := hfails (Option.ne_none_iff_exists'.2 ⟨failure, hfailure⟩)
  obtain rfl := Option.some.inj (hsome.symm.trans hfailure)
  rw [Failure.reports, loadReport_eq]

/-- A check reports every keyboard that is asked for once and nothing else, in the order in which
they are asked for: those that are named, else the one that the settings name, or all that the
catalog lists. Those that it lists are never unknown. -/
theorem keyboards_checked {request : Request} {around : Surroundings} {settings : Settings}
    (h : Settings.find around.files request.config around.systemPath around.systemSettings =
      .ok settings) :
    let l := loaderFor request settings around
    let o := run request around {}
    (∀ ids, request.action = .check ids false → ids ≠ [] → Checked l ids o) ∧
    (request.action = .check [] false → Checked l [settings.defaultKeyboard] o) ∧
    (∀ ids ds, request.action = .check ids true → l.list = .ok ds →
      Checked l (ds.map (·.id)) o ∧
      ∀ e ∈ (ds.map (·.id)).filterMap (failureOf? l), ∀ id, e.root ≠ .unknownKeyboard id) ∧
    (∀ ids e, request.action = .check ids true → l.list = .error e →
      o = { output := {}, failure := some (.load e) }) := by
  intro l o
  have ho : o = runWith settings l request.action {} := by
    simp only [o, run, h]
    rfl
  refine ⟨fun ids hids hne => ?_, fun hnone => ?_, fun ids ds hall hlist => ⟨?_, ?_⟩,
    fun ids e hall hlist => ?_⟩
  · have hrun : o = runCheck l ids {} := by simp [ho, hids, runWith, hne]
    exact hrun ▸ checked_runCheck l ids
  · have hrun : o = runCheck l [settings.defaultKeyboard] {} := by simp [ho, hnone, runWith]
    exact hrun ▸ checked_runCheck l [settings.defaultKeyboard]
  · have hrun : o = runCheck l (ds.map (·.id)) {} := by simp [ho, hall, runWith, hlist]
    exact hrun ▸ checked_runCheck l (ds.map (·.id))
  · intro e he
    obtain ⟨_, hid, he⟩ := List.mem_filterMap.1 he
    obtain ⟨d, hd, rfl⟩ := List.mem_map.1 hid
    exact Loader.root_ne_unknownKeyboard hlist hd (failureOf?_eq_some.1 he)
  · simp [ho, hall, runWith, hlist]

/-- A keyboard that can be loaded, and before and behind it one that the catalog does not list. -/
def strayIds : Request := { action := .check ["z", "a", "z"] false, keyboardsDir := some "kb" }

theorem strayIds_checked :
    Settings.find changedKey.toFiles none "" none = .ok {} ∧
      (run strayIds { files := changedKey.toFiles } {}).output.written = Utf8.encode
        ("FAIL  z: no keyboard with id `z` in the catalog\nok    a (2 keys)\n" ++
          "FAIL  z: no keyboard with id `z` in the catalog\n") ∧
      (run strayIds { files := changedKey.toFiles } {}).failure =
        some (.check 3 [.keyboard "z" (.unknownKeyboard "z"),
          .keyboard "z" (.unknownKeyboard "z")]) := by
  let l := Loader.ofDirectory changedKey "kb"
  have hfind : Settings.find changedKey.toFiles none "" none = .ok {} := by decide +kernel
  have hroot : chooseRoot (some "kb") none = .path "kb" := by decide +kernel
  have hloader : loaderFor strayIds {} { files := changedKey.toFiles } = l := by
    rw [loaderFor, strayIds, Option.some_or, hroot]
    rfl
  have hwithin : (l.loadWithin 1 "a").map (·.keys.length) = .ok 2 := by decide +kernel
  obtain ⟨keyboard, hkeyboard, hkeys⟩ := map_eq_ok.1 hwithin
  have ha : (l.load "a").result = .ok keyboard := Loader.load_of_loadWithin hkeyboard
  have hlist : l.list = .ok [{ id := "a", geometry := "g", symbols := some "s" }] := by
    decide +kernel
  have hz : (l.load "z").result = .error (.keyboard "z" (.unknownKeyboard "z")) :=
    Loader.load_of_not_listed hlist (by decide)
  have hnone : failureOf? l "a" = none := failureOf?_eq_none.2 ⟨keyboard, ha⟩
  have hsome : failureOf? l "z" = some (.keyboard "z" (.unknownKeyboard "z")) :=
    failureOf?_eq_some.2 hz
  have hall := @keyboards_checked strayIds { files := changedKey.toFiles } {} hfind
  have hchecked : Checked (loaderFor strayIds {} { files := changedKey.toFiles }) ["z", "a", "z"]
      (run strayIds { files := changedKey.toFiles } {}) := hall.1 ["z", "a", "z"] rfl (by decide)
  rw [hloader] at hchecked
  have hrecords : String.join (["z", "a", "z"].map (recordOf l)) =
      "FAIL  z: no keyboard with id `z` in the catalog\nok    a (2 keys)\n" ++
        "FAIL  z: no keyboard with id `z` in the catalog\n" := by
    rw [List.map_cons, List.map_cons, List.map_singleton, recordOf_of_ok ha,
      recordOf_of_error hz, hkeys]
    decide +kernel
  have hfailed : (run strayIds { files := changedKey.toFiles } {}).failure ≠ none := by
    intro hsucceeds
    obtain ⟨other, hother⟩ := hchecked.succeeds.1 hsucceeds "z" (by decide)
    cases hz.symm.trans hother
  refine ⟨hfind, hchecked.records.trans (congrArg _ hrecords), ?_⟩
  rw [hchecked.fails hfailed, List.filterMap_cons_some hsome, List.filterMap_cons_none hnone,
    List.filterMap_cons_some hsome]
  rfl

end KeyLayout.Command
