import KeyLayout.Command.Run
import KeyLayout.Proofs.Text.Utf8

/-! What is written to an output that may be full, and what becomes of the run that writes it. -/
namespace KeyLayout.Utf8

@[simp] theorem encode_empty : encode "" = [] := rfl

@[simp] theorem encode_append (front back : String) :
    encode (front ++ back) = encode front ++ encode back := by
  simp [encode]

end KeyLayout.Utf8

namespace KeyLayout.Command
open Document Markup

namespace Output

@[simp] theorem write_empty (out : Output) : out.write "" = (out, true) := by
  obtain ⟨written, room⟩ := out
  cases room <;> simp [write, writeBytes]

theorem writeBytes_append (out : Output) (front back : Bytes) : out.writeBytes (front ++ back) =
    match out.writeBytes front with
    | (out, true) => out.writeBytes back
    | (out, false) => (out, false) := by
  obtain ⟨written, room⟩ := out
  cases room with
  | none => simp [writeBytes]
  | some room =>
    by_cases hfits : front.length ≤ room
    · have hsum : front.length + back.length ≤ room ↔ back.length ≤ room - front.length := by omega
      simp [writeBytes, hfits, List.take_append, List.take_of_length_le, Nat.sub_sub, hsum]
    · have hfull : room - front.length = 0 := by omega
      have hsum : ¬front.length + back.length ≤ room := by omega
      have hlast : room - (front.length + back.length) = 0 := by omega
      simp [writeBytes, hfits, List.take_append, hfull, hsum, hlast]

/-- Where the front of a text is not accepted to its end, nothing behind it is. -/
theorem write_append (out : Output) (front back : String) : out.write (front ++ back) =
    match out.write front with
    | (out, true) => out.write back
    | (out, false) => (out, false) := by
  simp only [write, Utf8.encode_append, writeBytes_append]

/-- However a text is cut into pieces, the same of it is written. -/
theorem writeEach_eq (out : Output) (texts : List String) :
    out.writeEach texts = out.write (String.join texts) := by
  induction texts generalizing out with
  | nil => simp [writeEach]
  | cons text more ih =>
    rw [String.join_cons, write_append, writeEach]
    split <;> simp_all

theorem write_unlimited (text : String) :
    ({} : Output).write text = ({ written := Utf8.encode text }, true) := rfl

theorem write_limited (n : Nat) (text : String) : ({ room := some n } : Output).write text =
    ({ written := (Utf8.encode text).take n, room := some (n - (Utf8.encode text).length) },
      decide ((Utf8.encode text).length ≤ n)) := rfl

end Output

/-- A run that writes this text to whatever output it is given. With all of the text
accepted it raises these warnings and ends in this way; else it has raised some of them, and
ends as the output failed. -/
structure Writes (run : Output → Outcome) (text : String) (warnings : List Warning)
    (failure : Option Failure) : Prop where
  output : ∀ out, (run out).output = (out.write text).1
  accepted :
    ∀ out, (out.write text).2 = true → (run out).warnings = warnings ∧ (run out).failure = failure
  cut : ∀ out, (out.write text).2 = false →
    (run out).warnings <+: warnings ∧ (run out).failure = some (.output diskFull)

namespace Writes
variable {run more : Output → Outcome} {text rest : String} {warnings raised : List Warning}
    {failure : Option Failure}

/-- A run that comes to its end without writing. -/
theorem nothing (warnings : List Warning) (failure : Option Failure) :
    Writes (fun output => { output, warnings, failure }) "" warnings failure := by
  constructor <;> simp

/-- A run that writes a text, and goes on if all of it is accepted. -/
theorem andThen (hmore : Writes more rest warnings failure) (hraised : raised <+: warnings)
    (hrun : ∀ out, run out = match out.write text with
      | (out, true) => more out
      | (out, false) => { output := out, warnings := raised, failure := some (.output diskFull) }) :
    Writes run (text ++ rest) warnings failure := by
  have hboth (out : Output) : (run out).output = (out.write (text ++ rest)).1 ∧
      ((out.write (text ++ rest)).2 = true → (run out).warnings = warnings ∧
        (run out).failure = failure) ∧
      ((out.write (text ++ rest)).2 = false →
        (run out).warnings <+: warnings ∧ (run out).failure = some (.output diskFull)) := by
    rw [hrun, Output.write_append]
    split
    next next hwrite => exact ⟨hmore.output next, hmore.accepted next, hmore.cut next⟩
    next next hwrite => exact ⟨rfl, nofun, fun _ => ⟨hraised, rfl⟩⟩
  exact ⟨fun out => (hboth out).1, fun out => (hboth out).2.1, fun out => (hboth out).2.2⟩

theorem lines (lines : List String) (warnings : List Warning) :
    Writes (fun out => writeLines out lines warnings) (String.join lines) warnings none := by
  have hwrites :
      Writes (fun out => writeLines out lines warnings) (String.join lines ++ "")
        warnings none := by
    refine (nothing warnings none).andThen List.prefix_rfl fun out => ?_
    cases hwrite : out.write (String.join lines) with
    | mk output accepted => cases accepted <;> simp [writeLines, Output.writeEach_eq, hwrite]
  rwa [String.append_empty] at hwrites

/-- An output without a limit gets the whole text. -/
theorem run_unlimited (h : Writes run text warnings failure) :
    run {} = { output := { written := Utf8.encode text }, warnings, failure } := by
  have houtput : (run {}).output = { written := Utf8.encode text } := by
    rw [h.output, Output.write_unlimited]
  obtain ⟨hwarnings, hfailure⟩ := h.accepted {} (by rw [Output.write_unlimited])
  cases hrun : run {} with
  | mk output raised reason => simp_all

end Writes
end KeyLayout.Command
