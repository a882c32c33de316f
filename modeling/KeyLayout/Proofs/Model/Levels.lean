import KeyLayout.Model.Key
import Mathlib.Data.List.Induction
import Mathlib.Data.List.Nodup

/-! Levels that are numbered group by group without gaps. -/
namespace KeyLayout.Model

@[simp] theorem groupCount_append_singleton (levels : List Level) (l : Level) :
    groupCount (levels ++ [l]) = max (groupCount levels) (l.group + 1) := by
  simp [groupCount]

theorem lt_groupCount {levels : List Level} {l : Level} (h : l ∈ levels) :
    l.group < groupCount levels := by
  induction levels using List.reverseRecOn with
  | nil => simp at h
  | append_singleton levels last ih =>
    rw [groupCount_append_singleton]
    rcases List.mem_append.1 h with h | h
    · have := ih h
      omega
    · obtain rfl := List.mem_singleton.1 h
      omega

def Level.Before (l l' : Level) : Prop :=
  l.group < l'.group ∨ l.group = l'.group ∧ l.level < l'.level

def levelNumbers (levels : List Level) (group : Nat) : List Nat :=
  (levels.filter (·.group == group)).map (·.level)

theorem mem_levelNumbers {levels : List Level} {l : Level} (h : l ∈ levels) :
    l.level ∈ levelNumbers levels l.group :=
  List.mem_map_of_mem (List.mem_filter.2 ⟨h, by simp⟩)

theorem levelNumbers_append_singleton (levels : List Level) (l : Level) (group : Nat) :
    levelNumbers (levels ++ [l]) group =
      if l.group = group then levelNumbers levels group ++ [l.level]
      else levelNumbers levels group := by
  split
  next h => simp [levelNumbers, h]
  next h => simp [levelNumbers, h]

theorem levelNumbers_of_groupCount_le {levels : List Level} {group : Nat}
    (h : groupCount levels ≤ group) : levelNumbers levels group = [] := by
  refine List.map_eq_nil_iff.2 (List.filter_eq_nil_iff.2 fun l hl => ?_)
  have := lt_groupCount hl
  simp only [beq_iff_eq]
  omega

/-- Where groups ascend, those levels come last that are of the last of the groups. -/
theorem filter_group_le {levels : List Level}
    (h : levels.Pairwise fun l l' => l.group ≤ l'.group) (n : Nat) :
    levels.filter (·.group ≤ n) = levels.filter (·.group < n) ++ levels.filter (·.group == n) := by
  induction levels with
  | nil => rfl
  | cons l more ih =>
    obtain ⟨hl, hmore⟩ := List.pairwise_cons.1 h
    have ih := ih hmore
    rcases Nat.lt_trichotomy l.group n with hlt | heq | hgt
    · simp [ih, hlt, Nat.le_of_lt hlt, Nat.ne_of_lt hlt]
    · -- No group behind the first of its own is smaller.
      have hnone : more.filter (·.group < n) = [] := by
        refine List.filter_eq_nil_iff.2 fun l' hl' => ?_
        have := hl l' hl'
        simp only [decide_eq_true_eq]
        omega
      simp [ih, hnone, heq]
    · have hnot : ¬l.group < n := by omega
      simp [ih, hnot, Nat.not_le.2 hgt, Nat.ne_of_gt hgt]

theorem flatten_groups_below {levels : List Level}
    (h : levels.Pairwise fun l l' => l.group ≤ l'.group) (n : Nat) :
    ((List.range n).map fun group => levels.filter (·.group == group)).flatten =
      levels.filter (·.group < n) := by
  induction n with
  | zero => simp
  | succ n ih =>
    have hnext : levels.filter (·.group < n + 1) = levels.filter (·.group ≤ n) :=
      List.filter_congr fun l _ => decide_eq_decide.2 Nat.lt_succ_iff
    rw [List.range_succ, List.map_append, List.flatten_append, ih, hnext, filter_group_le h,
      List.map_singleton, List.flatten_singleton]

/-- Levels in ascending order, whose groups and whose levels in each group are
numbered from 0 without gaps. -/
structure Regular (levels : List Level) : Prop where
  ascending : levels.Pairwise Level.Before
  group_lt : ∀ group, group < groupCount levels ↔ ∃ l ∈ levels, l.group = group
  numbers : ∀ group, levelNumbers levels group = List.range (levelNumbers levels group).length
  /-- No level has more than one symbol. -/
  single : ∀ l ∈ levels, ∃ slot : Option Symbol, l.symbols = slot.toList

theorem regular_nil : Regular [] where
  ascending := .nil
  group_lt := by simp [groupCount]
  numbers := fun _ => rfl
  single := by simp

namespace Regular
variable {levels : List Level}

theorem level_lt (h : Regular levels) {l : Level} (hl : l ∈ levels) :
    l.level < (levelNumbers levels l.group).length := by
  have := mem_levelNumbers hl
  rw [h.numbers] at this
  simpa using this

/-- The next level opens a group behind the others, or comes behind the levels of the last group. -/
theorem append_singleton (h : Regular levels) {l : Level} (hge : groupCount levels ≤ l.group + 1)
    (hle : l.group ≤ groupCount levels) (hlevel : l.level = (levelNumbers levels l.group).length)
    (hsymbols : ∃ slot : Option Symbol, l.symbols = slot.toList) : Regular (levels ++ [l]) where
  ascending := by
    refine List.pairwise_append.2 ⟨h.ascending, List.pairwise_singleton _ _,
      fun other hother last hlast => ?_⟩
    obtain rfl := List.mem_singleton.1 hlast
    have hlt := lt_groupCount hother
    by_cases hsame : other.group = last.group
    · exact .inr ⟨hsame, by rw [hlevel, ← hsame]; exact h.level_lt hother⟩
    · exact .inl (by omega)
  group_lt := by
    intro group
    have hold := h.group_lt group
    rw [groupCount_append_singleton]
    constructor
    · intro hlt
      by_cases hsame : group = l.group
      · exact ⟨l, by simp, hsame.symm⟩
      · obtain ⟨other, hother, hgroup⟩ := hold.1 (by omega)
        exact ⟨other, List.mem_append_left _ hother, hgroup⟩
    · rintro ⟨other, hother, rfl⟩
      have := lt_groupCount hother
      rwa [groupCount_append_singleton] at this
  numbers := by
    intro group
    rw [levelNumbers_append_singleton]
    split
    next hgroup =>
      subst hgroup
      rw [List.length_append, List.length_singleton, List.range_succ, ← h.numbers, hlevel]
    next => exact h.numbers group
  single := by
    intro other hother
    rcases List.mem_append.1 hother with hother | hother
    · exact h.single other hother
    · rwa [List.mem_singleton.1 hother]

/-- The groups one behind the other are all the levels. -/
theorem flatten_groups (h : Regular levels) :
    ((List.range (groupCount levels)).map fun group => levels.filter (·.group == group)).flatten =
      levels := by
  have hsorted : levels.Pairwise fun l l' => l.group ≤ l'.group := by
    refine h.ascending.imp ?_
    rintro l l' (hlt | ⟨heq, -⟩) <;> omega
  have hall : levels.filter (·.group < groupCount levels) = levels :=
    List.filter_eq_self.2 fun l hl => decide_eq_true (lt_groupCount hl)
  rw [flatten_groups_below hsorted, hall]

/-- No group is without levels. -/
theorem levels_ne_nil (h : Regular levels) {group : Nat} (hgroup : group < groupCount levels) :
    levels.filter (·.group == group) ≠ [] := by
  obtain ⟨l, hl, rfl⟩ := (h.group_lt group).1 hgroup
  exact List.ne_nil_of_mem (List.mem_filter.2 ⟨hl, by simp⟩)

theorem eq_of_numbers (h : Regular levels) {l l' : Level} (hl : l ∈ levels) (hl' : l' ∈ levels)
    (hgroup : l.group = l'.group) (hlevel : l.level = l'.level) : l = l' := by
  have hnodup : (levels.map fun l => (l.group, l.level)).Nodup := by
    refine List.pairwise_map.2 (h.ascending.imp fun {a b} hab heq => ?_)
    obtain ⟨hg, hn⟩ := Prod.mk.inj heq
    rcases hab with hab | ⟨-, hab⟩ <;> omega
  exact List.inj_on_of_nodup_map hnodup hl hl' (Prod.ext hgroup hlevel)

/-- The symbol of a level is found by the numbers of the level. -/
theorem symbolAt?_of_mem {key : Key} (h : Regular key.levels) {l : Level} (hl : l ∈ key.levels) :
    l.symbols = (key.symbolAt? l.group l.level).toList := by
  have hfind : key.levels.find? (fun other => other.group == l.group && other.level == l.level) =
      some l := by
    cases hf : key.levels.find? fun other => other.group == l.group && other.level == l.level with
    | none =>
      have := List.find?_eq_none.1 hf l hl
      simp at this
    | some other =>
      have hnumbers := List.find?_some hf
      simp only [Bool.and_eq_true, beq_iff_eq] at hnumbers
      rw [h.eq_of_numbers (List.mem_of_find?_eq_some hf) hl hnumbers.1 hnumbers.2]
  obtain ⟨slot, hslot⟩ := h.single l hl
  rw [Key.symbolAt?, hfind, Option.bind_some, hslot]
  cases slot <;> rfl

end Regular

/-- Where there is no level, there is no symbol. -/
theorem Key.symbolAt?_eq_none {key : Key} {group level : Nat}
    (h : ∀ l ∈ key.levels, ¬(l.group = group ∧ l.level = level)) :
    key.symbolAt? group level = none := by
  have hfind : key.levels.find? (fun l => l.group == group && l.level == level) = none :=
    List.find?_eq_none.2 fun l hl => by simpa using h l hl
  rw [symbolAt?, hfind, Option.bind_none]

end KeyLayout.Model
