import KeyLayout.Proofs.Document.Delivery
import Mathlib.Logic.Relation

/-! Texts that are cut in other places: a text event split in two, two of them
joined, or an empty one put in. -/
namespace KeyLayout.Document
open Markup

/-- The later events have one text more cut than the earlier ones. -/
inductive CutsText : List Event → List Event → Prop where
  | split (before : List Event) (front back : String) (path : List String) (after : List Event) :
      CutsText (before ++ .text (front ++ back) path :: after)
        (before ++ .text front path :: .text back path :: after)
  | empty (before : List Event) (path : List String) (after : List Event) :
      CutsText (before ++ after) (before ++ .text "" path :: after)

def Recut : List Event → List Event → Prop := Relation.EqvGen CutsText

variable {σ : Type} {consumer : Consumer σ}

/-- A consumer for which two texts are as good as one, and an empty text as good as none. -/
structure Consumer.JoinsText (consumer : Consumer σ) : Prop where
  empty : ∀ s path, consumer s (.text "" path) = (s, none)
  append : ∀ s front back path,
    deliver consumer s [.text front path, .text back path] = consumer s (.text (front ++ back) path)

theorem deliver_congr {s : σ} (before middle middle' after : List Event)
    (h : ∀ s, deliver consumer s middle = deliver consumer s middle') :
    deliver consumer s (before ++ (middle ++ after)) =
      deliver consumer s (before ++ (middle' ++ after)) := by
  simp only [deliver_append, h]

/-- Where texts are cut makes no difference to what such a consumer comes to. -/
theorem Consumer.JoinsText.deliver_eq (h : consumer.JoinsText) {events events' : List Event}
    (hr : Recut events events')
    (s : σ) : deliver consumer s events = deliver consumer s events' := by
  induction hr with
  | rel _ _ hcut =>
    cases hcut with
    | split before front back path after =>
      refine deliver_congr before [.text (front ++ back) path] [.text front path,
        .text back path] after fun s => ?_
      rw [deliver_singleton, h.append]
    | empty before path after =>
      refine deliver_congr before [] [.text "" path] after fun s => ?_
      rw [deliver_singleton, h.empty, deliver]
  | refl events => rfl
  | symm _ _ _ ih => exact ih.symm
  | trans _ _ _ _ _ ih ih' => exact ih.trans ih'

end KeyLayout.Document
