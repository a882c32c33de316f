import KeyLayout.Markup.Reader
import KeyLayout.Proofs.Outcome

/-! What a token says, and when. -/
namespace KeyLayout.Markup

section texts
variable {offset : Nat}

theorem decodeText_eq_ok {raw : Bytes} {text : String} :
    decodeText offset raw = .ok text ↔ Utf8.decode raw = .ok text := by
  unfold decodeText
  cases Utf8.decode raw <;> simp

theorem expandText_eq_ok {text t : String} :
    expandText offset text = .ok t ↔ expand text = .ok t := by
  unfold expandText
  cases expand text <;> simp

end texts

namespace Nesting

/-- The events of an accepted token at `offset`, and the nesting behind it. -/
inductive Means (n : Nesting) (offset : Nat) : Token → List Event → Nesting → Prop where
  | startTag {rawName : Bytes} {rawAttributes : List (Bytes × Bytes)} {name : String}
      {a : Attributes} :
      (n.path = [] → n.rootSeen = false) → decodeText offset rawName = .ok name →
      readAttributes offset name {} rawAttributes = .ok a →
      Means n offset (.startTag rawName rawAttributes false) [.start name a n.path]
        { path := name :: n.path, rootSeen := true }
  | emptyTag {rawName : Bytes} {rawAttributes : List (Bytes × Bytes)} {name : String}
      {a : Attributes} :
      (n.path = [] → n.rootSeen = false) → decodeText offset rawName = .ok name →
      readAttributes offset name {} rawAttributes = .ok a →
      Means n offset (.startTag rawName rawAttributes true) [.start name a n.path,
        .stop name n.path]
        { n with rootSeen := true }
  | endTag {rawName : Bytes} {name : String} {path : List String} :
      n.path = name :: path → decodeText offset rawName = .ok name →
      Means n offset (.endTag rawName) [.stop name path] { n with path }
  | blank {raw : Bytes} {text : String} :
      n.path = [] → decodeText offset raw = .ok text → Text.isBlankText text = true →
      Means n offset (.text raw) [] n
  | text {raw : Bytes} {written text : String} :
      n.path ≠ [] → decodeText offset raw = .ok written → expandText offset written = .ok text →
      Means n offset (.text raw) [.text text n.path] n
  | verbatim {raw : Bytes} {text : String} :
      n.path ≠ [] → decodeText offset raw = .ok text →
        Means n offset (.verbatim raw) [.text text n.path] n
  | skipped : Means n offset .skipped [] n

variable {n n' : Nesting} {offset : Nat} {token : Token} {events : List Event}

theorem Means.interpret (h : n.Means offset token events n') :
    n.interpret offset token = .ok (events, n') := by
  cases h with
  | startTag hroot hname ha =>
    have hinside : ¬(n.path.isEmpty && n.rootSeen) = true := by simpa using hroot
    simp [Nesting.interpret, hname, ha, hinside]
  | emptyTag hroot hname ha =>
    have hinside : ¬(n.path.isEmpty && n.rootSeen) = true := by simpa using hroot
    simp [Nesting.interpret, hname, ha, hinside]
  | endTag hpath hname => simp [Nesting.interpret, hname, hpath]
  | blank hpath htext hblank => simp [Nesting.interpret, htext, hpath, hblank]
  | text hpath htext hexpand => simp [Nesting.interpret, htext, hpath, hexpand]
  | verbatim hpath htext => simp [Nesting.interpret, htext, hpath]
  | skipped => rfl

theorem means_of_interpret (h : n.interpret offset token = .ok (events, n')) :
    n.Means offset token events n' := by
  cases token with
  | startTag rawName rawAttributes empty =>
    obtain ⟨name, hname, h⟩ := bind_eq_ok.1 h
    simp only at h
    split at h
    · cases h
    next hinside =>
      have hroot : n.path = [] → n.rootSeen = false := by simpa using hinside
      obtain ⟨a, ha, h⟩ := bind_eq_ok.1 h
      cases empty with
      | false =>
        cases h
        exact .startTag hroot hname ha
      | true =>
        cases h
        exact .emptyTag hroot hname ha
  | endTag rawName =>
    obtain ⟨name, hname, h⟩ := bind_eq_ok.1 h
    split at h
    · cases h
    next top path hpath =>
      split at h
      next htop =>
        subst htop
        cases h
        exact .endTag hpath hname
      · cases h
  | text raw =>
    obtain ⟨written, hwritten, h⟩ := bind_eq_ok.1 h
    split at h
    next hpath =>
      split at h
      next hblank =>
        cases h
        exact .blank (by simpa using hpath) hwritten hblank
      · cases h
    next hpath =>
      obtain ⟨text, htext, h⟩ := bind_eq_ok.1 h
      cases h
      exact .text (by simpa using hpath) hwritten htext
  | verbatim raw =>
    obtain ⟨text, htext, h⟩ := bind_eq_ok.1 h
    split at h
    · cases h
    next hpath =>
      cases h
      exact .verbatim (by simpa using hpath) htext
  | skipped =>
    cases h
    exact .skipped

end Nesting
end KeyLayout.Markup
