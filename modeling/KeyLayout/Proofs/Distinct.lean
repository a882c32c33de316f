import Mathlib.Data.List.Induction
import Mathlib.Data.List.Nodup

/-! Lists without their repetitions: each item stands where it comes first. -/
namespace KeyLayout

variable {α : Type} [DecidableEq α]

theorem eraseDups_concat (l : List α) (a : α) :
    (l ++ [a]).eraseDups = if a ∈ l then l.eraseDups else l.eraseDups ++ [a] := by
  rw [List.eraseDups_append]
  by_cases ha : a ∈ l
  · simp [List.removeAll, ha]
  · simp [List.removeAll, ha, List.eraseDups_cons]

theorem nodup_eraseDups (l : List α) : l.eraseDups.Nodup := by
  induction l using List.reverseRecOn with
  | nil => simp
  | append_singleton l a ih =>
    rw [eraseDups_concat]
    split
    · exact ih
    next ha =>
      rw [List.nodup_append]
      refine ⟨ih, List.nodup_singleton a, ?_⟩
      rintro b hb _ hc rfl
      obtain rfl := List.mem_singleton.1 hc
      exact ha (List.mem_eraseDups.1 hb)

/-- More items come behind those that there are. -/
theorem eraseDups_grows (l more : List α) : l.eraseDups <+: (l ++ more).eraseDups := by
  rw [List.eraseDups_append]
  exact List.prefix_append _ _

end KeyLayout
