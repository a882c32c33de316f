import KeyLayout.Proofs.Load.IncludeForest

/-! The outcome of following includes: what is bound if all goes well, and else the first error. -/
namespace KeyLayout.Load
open Document Resource

variable {lib : Library} {root : Name}

theorem includes_subset {name : String} {includes : List String}
    (h : includesOf lib root name = .ok includes) : includes ⊆ includeNames lib := by
  unfold includesOf readWith at h
  split at h
  · simp at h
  next source hopen =>
    cases hread : readIncludes source with
    | error e => simp [hread, Except.mapError] at h
    | ok read =>
      obtain rfl : read = includes := by simpa [hread, Except.mapError] using h
      intro included hmem
      exact List.mem_flatMap.2 ⟨source, lib.mem_sources hopen,
        by simpa [hread, Except.toOption] using hmem⟩

def namesFrom (lib : Library) (start : String) : List String := start :: includeNames lib

/-- No name was entered twice, and so many are entered that the depth left
is enough for the others. -/
structure Progress.Bounded (names : List String) (depth : Nat) (p : Progress) : Prop where
  nodup : p.entered.Nodup
  subset : p.entered ⊆ names
  length_le : names.length ≤ depth + p.entered.length

section bounded
variable {names : List String} {depth : Nat} {p : Progress} {name : String}

theorem Progress.Bounded.mem_entered (hp : p.Bounded names 0) (hn : name ∈ names) :
    name ∈ p.entered := by
  by_contra hfresh
  have hl := (List.nodup_cons.2 ⟨hfresh, hp.nodup⟩).subperm (List.cons_subset.2 ⟨hn, hp.subset⟩)
  have := hl.length_le
  have := hp.length_le
  simp only [List.length_cons] at *
  omega

theorem Progress.Bounded.enter (hp : p.Bounded names (depth + 1)) (hn : name ∈ names)
    (hfresh : name ∉ p.entered) :
    ({ p with entered := name :: p.entered } : Progress).Bounded names depth where
  nodup := List.nodup_cons.2 ⟨hfresh, hp.nodup⟩
  subset := List.cons_subset.2 ⟨hn, hp.subset⟩
  length_le := by
    have := hp.length_le
    simp only [List.length_cons]
    omega

end bounded

theorem IncludeForest.Follows.preorder_subset {t : IncludeForest} (h : t.Follows lib root)
    {start : String}
    (hroots : t.roots ⊆ namesFrom lib start) : t.preorder ⊆ namesFrom lib start := by
  induction t with
  | nil => exact List.nil_subset _
  | node name below beside hbelow hbeside =>
    obtain ⟨hincludes, hb, hs⟩ := h
    obtain ⟨hname, hroots⟩ := List.cons_subset.1 hroots
    have hin := hbelow hb fun _ hmem => List.mem_cons_of_mem _ (includes_subset hincludes hmem)
    exact List.cons_subset.2 ⟨hname, List.append_subset.2 ⟨hin, hbeside hs hroots⟩⟩

theorem Progress.Bounded.foldlM {start : String} {depth depth' : Nat} {names : List String}
    {p last : Progress}
    (hp : p.Bounded (namesFrom lib start) depth) (hn : names ⊆ namesFrom lib start)
    (h : names.foldlM (bindIncluding lib root depth') p = .ok last) :
    last.Bounded (namesFrom lib start) depth := by
  obtain ⟨t, hroots, hfollows, hentered, hnodup, -⟩ := forest_of_foldlM h
  refine ⟨hnodup hp.nodup, ?_, ?_⟩
  · rw [hentered]
    refine List.append_subset.2 ⟨fun name hmem => ?_, hp.subset⟩
    exact hfollows.preorder_subset (hroots ▸ hn) (List.mem_reverse.1 hmem)
  · have := hp.length_le
    rw [hentered, List.length_append]
    omega

/-- If one step deeper makes no difference to any name, it makes none to a list of names. -/
theorem foldlM_succ {start : String} {depth : Nat} {names : List String} {p : Progress}
    (hone : ∀ {p : Progress} {name : String}, p.Bounded (namesFrom lib start) depth →
      name ∈ namesFrom lib start →
      bindIncluding lib root (depth + 1) p name = bindIncluding lib root depth p name)
    (hp : p.Bounded (namesFrom lib start) depth) (hn : names ⊆ namesFrom lib start) :
    names.foldlM (bindIncluding lib root (depth + 1)) p =
      names.foldlM (bindIncluding lib root depth) p := by
  induction names generalizing p with
  | nil => rfl
  | cons name more ih =>
    obtain ⟨hname, hmore⟩ := List.cons_subset.1 hn
    rw [List.foldlM_cons, List.foldlM_cons, hone hp hname]
    cases hb : bindIncluding lib root depth p name with
    | error e => rfl
    | ok next =>
      have hnext : [name].foldlM (bindIncluding lib root depth) p = .ok next := by simp [hb]
      exact ih (hp.foldlM (List.cons_subset.2 ⟨hname, List.nil_subset _⟩) hnext) hmore

/-- Where the depth is enough, more of it changes nothing. -/
theorem bindIncluding_succ {start : String} {depth : Nat} {p : Progress} {name : String}
    (hp : p.Bounded (namesFrom lib start) depth) (hn : name ∈ namesFrom lib start) :
    bindIncluding lib root (depth + 1) p name = bindIncluding lib root depth p name := by
  induction depth generalizing p name with
  | zero =>
    have hm := hp.mem_entered hn
    rw [bindIncluding_of_mem hm, bindIncluding_of_mem hm]
  | succ depth ih =>
    by_cases hentered : name ∈ p.entered
    · rw [bindIncluding_of_mem hentered, bindIncluding_of_mem hentered]
    · rw [bindIncluding_of_not_mem hentered, bindIncluding_of_not_mem hentered]
      cases hi : includesOf lib root name with
      | error e => rfl
      | ok includes =>
        have hsub : includes ⊆ namesFrom lib start :=
          fun _ hmem => List.mem_cons_of_mem _ (includes_subset hi hmem)
        simp only [ok_bind, foldlM_succ ih (hp.enter hn hentered) hsub]

/-- The walk comes to an error at the first visit that goes wrong. -/
theorem fails_of_foldlM {geometry : Geometry} {start : String} {depth : Nat} {names : List String}
    {done ahead : List Visit} {p : Progress} {e : Error} (hp : Reached lib root geometry done p)
    (hd : DepthFirst lib root start done (names.map .enter ++ ahead))
    (hb : p.Bounded (namesFrom lib start) depth) (hn : names ⊆ namesFrom lib start)
    (h : names.foldlM (bindIncluding lib root depth) p = .error e) :
    ∃ made visit next q, DepthFirst lib root start made (visit :: next) ∧
      Reached lib root geometry made q ∧ Fails lib root q visit e := by
  induction depth generalizing names done ahead p with
  | zero =>
    cases names with
    | nil => simp at h
    | cons name more =>
      obtain rfl : Error.repeatedInclude name = e := by simpa [bindIncluding] using h
      have hm := hb.mem_entered (List.cons_subset.1 hn).1
      exact ⟨done, .enter name, _, p, hd, hp, .repeated hm⟩
  | succ depth ihdepth =>
    induction names generalizing done p with
    | nil => simp at h
    | cons name more ihmore =>
      obtain ⟨hname, hmore⟩ := List.cons_subset.1 hn
      rw [List.foldlM_cons] at h
      rcases bind_eq_error.1 h with herror | ⟨mid, hok, hrest⟩
      · by_cases hentered : name ∈ p.entered
        · obtain rfl : Error.repeatedInclude name = e := by
            simpa [bindIncluding_of_mem hentered] using herror
          exact ⟨done, .enter name, _, p, hd, hp, .repeated hentered⟩
        rw [bindIncluding_of_not_mem hentered] at herror
        rcases bind_eq_error.1 herror with hscan | ⟨includes, hincludes, herror⟩
        · exact ⟨done, .enter name, _, p, hd, hp, .notScanned hentered hscan⟩
        have hin := hp.enter hentered
        have hsub : includes ⊆ namesFrom lib start := fun _ hmem =>
          List.mem_cons_of_mem _ (includes_subset hincludes hmem)
        rcases bind_eq_error.1 herror with hbelow | ⟨inner, hinner, herror⟩
        · exact ihdepth hin (hd.enter hincludes) (hb.enter hname hentered) hsub hbelow
        rcases bind_eq_error.1 herror with hbind | ⟨bound, -, herror⟩
        · obtain ⟨made, hmade, hreached⟩ := hin.foldlM (hd.enter hincludes) hinner
          exact ⟨made, .bind name, _, inner, hmade, hreached, .notBound hbind⟩
        · simp at herror
      · have hone : [name].foldlM (bindIncluding lib root (depth + 1)) p = .ok mid := by simp [hok]
        have hfirst :
            DepthFirst lib root start done ([name].map .enter ++ (more.map .enter ++ ahead)) := hd
        obtain ⟨made, hmade, hreached⟩ := hp.foldlM hfirst hone
        exact ihmore hreached hmade
          (hb.foldlM (List.cons_subset.2 ⟨hname, List.nil_subset _⟩) hone) hmore hrest

theorem DepthFirst.mem_namesFrom {start name : String} {done ahead : List Visit}
    (h : DepthFirst lib root start done ahead) (hm : .enter name ∈ done ++ ahead) :
    name ∈ namesFrom lib start := by
  induction h with
  | start =>
    obtain rfl : name = start := by simpa using hm
    exact List.mem_cons_self
  | enter hd hincludes ih =>
    simp only [List.mem_append, List.mem_cons, List.mem_map, List.not_mem_nil, or_false] at hm ih
    rcases hm with (hdone | hname) | ⟨included, hmem, heq⟩ | hbind | hahead
    · exact ih (.inl hdone)
    · exact ih (.inr (.inl hname))
    · obtain rfl : included = name := by simpa using heq
      exact List.mem_cons_of_mem _ (includes_subset hincludes hmem)
    · simp at hbind
    · exact ih (.inr (.inr hahead))
  | bind hd ih => exact ih (by simp_all)

def depthOf (lib : Library) : Nat := (includeNames lib).length + 1

theorem Reached.bounded {geometry : Geometry} {start : String} {done ahead : List Visit}
    {p : Progress}
    (hp : Reached lib root geometry done p) (hd : DepthFirst lib root start done ahead) :
    p.Bounded (namesFrom lib start) (depthOf lib) where
  nodup := by
    rw [hp.entered, List.nodup_reverse]
    exact hp.nodup
  subset := by
    intro name hmem
    rw [hp.entered, List.mem_reverse, enteredNames, List.mem_filterMap] at hmem
    obtain ⟨visit, hvisit, hname⟩ := hmem
    cases visit with
    | enter entered =>
      obtain rfl : entered = name := by simpa [Visit.entered?] using hname
      exact hd.mem_namesFrom (List.mem_append_left _ hvisit)
    | bind bound => simp [Visit.entered?] at hname
  length_le := by
    simp only [namesFrom, depthOf, List.length_cons]
    omega

/-- Makes a visit, with all that a document entered leads to. -/
def Visit.perform (lib : Library) (root : Name) (p : Progress) : Visit → Except Error Progress
  | enter name => bindIncluding lib root (depthOf lib) p name
  | bind name => do
    let geometry ← bindDocument lib root p.geometry name
    return { p with geometry }

/-- From wherever it has come to in the order of visits, the walk goes on
with those that are ahead. -/
theorem followIncludes_eq_foldlM {geometry : Geometry} {start : String} {done ahead : List Visit}
    {p : Progress}
    (hd : DepthFirst lib root start done ahead) (hp : Reached lib root geometry done p) :
    followIncludes lib root geometry start = ahead.foldlM (Visit.perform lib root) p := by
  induction hd generalizing p with
  | start =>
    obtain ⟨entered, -, bound⟩ := hp
    obtain rfl : p = { geometry } := by
      cases p
      simp_all
    simp [followIncludes, Visit.perform, depthOf]
  | @enter done ahead name includes hd hincludes ih =>
    obtain ⟨q, hq, hfresh, rfl⟩ := hp.of_enter
    have hb : q.Bounded (namesFrom lib start) (depthOf lib) := hq.bounded hd
    have hn : name ∈ namesFrom lib start := hd.mem_namesFrom (by simp)
    have hstep : Visit.perform lib root q (.enter name) =
        (includes.map Visit.enter ++ [Visit.bind name]).foldlM (Visit.perform lib root)
          { q with entered := name :: q.entered } := by
      rw [Visit.perform, ← bindIncluding_succ hb hn, bindIncluding_of_not_mem hfresh, hincludes]
      simp [List.foldlM_append, List.foldlM_map, Visit.perform]
    rw [ih hq, List.foldlM_cons, hstep]
    simp [List.foldlM_append]
  | @bind done ahead name hd ih =>
    obtain ⟨q, hq, hbind, hp⟩ := hp.of_bind
    rw [ih hq, List.foldlM_cons, Visit.perform, hbind, hp]
    simp

/-- A visit that goes wrong is where the walk ends. -/
theorem Fails.perform {geometry : Geometry} {start : String} {done ahead : List Visit}
    {visit : Visit} {p : Progress} {e : Error} (h : Fails lib root p visit e)
    (hd : DepthFirst lib root start done (visit :: ahead)) (hp : Reached lib root geometry done p) :
    visit.perform lib root p = .error e := by
  cases h with
  | repeated hmem => exact bindIncluding_of_mem hmem
  | @notScanned name e hfresh hscan =>
    have hn : name ∈ namesFrom lib start := hd.mem_namesFrom (by simp)
    rw [Visit.perform, ← bindIncluding_succ (hp.bounded hd) hn,
      bindIncluding_of_not_mem hfresh, hscan]
    rfl
  | notBound hbind =>
    rw [Visit.perform, hbind]
    rfl

section outcome
variable {geometry : Geometry} {start : String}

theorem followIncludes_eq_ok_of_forest {t : IncludeForest} {p : Progress}
    (hroots : t.roots = [start]) (hfollows : t.Follows lib root) (hnodup : t.preorder.Nodup)
    (hentered : p.entered = t.preorder.reverse)
    (hbound : t.postorder.foldlM (bindDocument lib root) geometry = .ok p.geometry) :
    followIncludes lib root geometry start = .ok p := by
  have hd : DepthFirst lib root start [] (t.roots.map .enter ++ []) := by
    rw [hroots]
    exact .start
  have hp := (Reached.start lib root geometry).visits (by simpa using hentered)
    (by simpa [hentered] using hnodup) hbound
  exact followIncludes_eq_foldlM (hfollows.depthFirst hd) hp

theorem forest_of_bindIncluding {depth : Nat} {p : Progress}
    (h : bindIncluding lib root depth { geometry } start = .ok p) :
    ∃ t : IncludeForest, t.roots = [start] ∧ t.Follows lib root ∧ t.preorder.Nodup ∧
      p.entered = t.preorder.reverse ∧
      t.postorder.foldlM (bindDocument lib root) geometry = .ok p.geometry := by
  have hone : [start].foldlM (bindIncluding lib root depth) { geometry } = .ok p := by simp [h]
  obtain ⟨t, hroots, hfollows, hentered, hnodup, hbound⟩ := forest_of_foldlM hone
  have he : p.entered = t.preorder.reverse := by simpa using hentered
  have hn : t.preorder.Nodup := by simpa [he] using hnodup List.nodup_nil
  exact ⟨t, hroots, hfollows, hn, he, hbound⟩

/-- A walk that succeeds within some depth succeeds. -/
theorem followIncludes_of_bindIncluding {depth : Nat} {p : Progress}
    (h : bindIncluding lib root depth { geometry } start = .ok p) :
    followIncludes lib root geometry start = .ok p := by
  obtain ⟨t, hroots, hfollows, hnodup, hentered, hbound⟩ := forest_of_bindIncluding h
  exact followIncludes_eq_ok_of_forest hroots hfollows hnodup hentered hbound

/-- A walk that fails comes to a visit that goes wrong. -/
theorem fails_of_followIncludes {e : Error}
    (h : followIncludes lib root geometry start = .error e) :
    ∃ made visit ahead p, DepthFirst lib root start made (visit :: ahead) ∧
      Reached lib root geometry made p ∧ Fails lib root p visit e := by
  have hone : [start].foldlM (bindIncluding lib root (depthOf lib)) { geometry } = .error e := by
    simpa [followIncludes, depthOf] using h
  have hr := Reached.start lib root geometry
  exact fails_of_foldlM hr .start (hr.bounded .start) (by simp [namesFrom]) hone

end outcome

/-- The walk succeeds exactly if the includes form a tree in which no name stands twice and every
document can be bound behind those below it; all its names have then been entered. Otherwise it ends
in what goes wrong first in depth-first order: a name is met again, or a document cannot be opened,
scanned or bound. -/
theorem followIncludes_exact (lib : Library) (root : Name) (geometry : Geometry) (start : String) :
    (∀ p, followIncludes lib root geometry start = .ok p ↔
      ∃ t : IncludeForest, t.roots = [start] ∧ t.Follows lib root ∧ t.preorder.Nodup ∧
        p.entered = t.preorder.reverse ∧
        t.postorder.foldlM (bindDocument lib root) geometry = .ok p.geometry) ∧
    (∀ e, followIncludes lib root geometry start = .error e ↔
      ∃ done visit ahead p, DepthFirst lib root start done (visit :: ahead) ∧
        Reached lib root geometry done p ∧ Fails lib root p visit e) ∧
    bindAll lib root geometry start =
      (followIncludes lib root geometry start).map (·.geometry) := by
  refine ⟨fun p => ⟨forest_of_bindIncluding, ?_⟩, fun e => ⟨fun h => ?_, ?_⟩, rfl⟩
  · rintro ⟨t, hroots, hfollows, hnodup, hentered, hbound⟩
    exact followIncludes_eq_ok_of_forest hroots hfollows hnodup hentered hbound
  · have hone : [start].foldlM (bindIncluding lib root (depthOf lib)) { geometry } = .error e := by
      simpa [followIncludes, depthOf] using h
    have hr := Reached.start lib root geometry
    exact fails_of_foldlM hr .start (hr.bounded .start) (by simp [namesFrom]) hone
  · rintro ⟨done, visit, ahead, p, hd, hp, hfails⟩
    rw [followIncludes_eq_foldlM hd hp, List.foldlM_cons, hfails.perform hd hp]
    rfl

end KeyLayout.Load
