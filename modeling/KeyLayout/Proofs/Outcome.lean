/-! What the steps of a computation that can fail say of its outcome. -/
namespace KeyLayout

variable {ε α β : Type} {x : Except ε α} {f : α → Except ε β}

theorem bind_eq_ok {b : β} : x >>= f = .ok b ↔ ∃ a, x = .ok a ∧ f a = .ok b := by
  cases x with
  | error e => simp [bind, Except.bind]
  | ok a => simp [bind, Except.bind]

theorem bind_eq_error {e : ε} :
    x >>= f = .error e ↔ x = .error e ∨ ∃ a, x = .ok a ∧ f a = .error e := by
  cases x with
  | error e => simp [bind, Except.bind]
  | ok a => simp [bind, Except.bind]

theorem exists_bind_eq_ok : (∃ b, x >>= f = .ok b) ↔ ∃ a, x = .ok a ∧ ∃ b, f a = .ok b := by
  simp only [bind_eq_ok]
  exact ⟨fun ⟨b, a, ha, hb⟩ => ⟨a, ha, b, hb⟩, fun ⟨a, ha, b, hb⟩ => ⟨b, a, ha, hb⟩⟩

theorem map_eq_ok {g : α → β} {b : β} : x.map g = .ok b ↔ ∃ a, x = .ok a ∧ g a = b := by
  cases x <;> simp [Except.map]

theorem map_eq_error {g : α → β} {e : ε} : x.map g = .error e ↔ x = .error e := by
  cases x <;> simp [Except.map]

@[simp] theorem ok_bind (a : α) : (.ok a : Except ε α) >>= f = f a := rfl

@[simp] theorem error_bind (e : ε) : (.error e : Except ε α) >>= f = .error e := rfl

@[simp] theorem bind_ok : (x >>= fun a => .ok a) = x := bind_pure x

@[simp] theorem pure_eq_ok (a : α) : (pure a : Except ε α) = .ok a := rfl

@[simp] theorem throw_eq_error (e : ε) : (throw e : Except ε α) = .error e := rfl

/-- What every step of a fold keeps, its result keeps. -/
theorem foldlM_invariant {f : α → β → Except ε α} {P : α → Prop}
    (hstep : ∀ {before step after}, P before → f before step = .ok after → P after)
    {steps : List β} {a last : α} (ha : P a) (h : steps.foldlM f a = .ok last) : P last := by
  induction steps generalizing a with
  | nil =>
    obtain rfl : a = last := by simpa using h
    exact ha
  | cons first more ih =>
    rw [List.foldlM_cons] at h
    obtain ⟨mid, hfirst, hmore⟩ := bind_eq_ok.1 h
    exact ih (hstep ha hfirst) hmore

/-- Every step of a fold that comes to a result has one. -/
theorem foldlM_step {f : α → β → Except ε α} {steps : List β} {a last : α}
    (h : steps.foldlM f a = .ok last)
    {step : β} (hmem : step ∈ steps) : ∃ before after, f before step = .ok after := by
  induction steps generalizing a with
  | nil => simp at hmem
  | cons first more ih =>
    rw [List.foldlM_cons] at h
    obtain ⟨mid, hfirst, hmore⟩ := bind_eq_ok.1 h
    rcases List.mem_cons.1 hmem with rfl | hmem
    · exact ⟨a, mid, hfirst⟩
    · exact ih hmore hmem

end KeyLayout
