import KeyLayout.Proofs.Load.Repeats
import Mathlib.Logic.Relation

/-! Following includes comes to an end in every tree of files, and files that include each other in
a cycle are never loaded, whatever the names by which they do so. -/
namespace KeyLayout.Load
open Document Markup Model Resource

/-- How the visits ahead are made, one after the other, and what comes of them. Nothing bounds their
number, so there is an outcome only where the visits come to an end. -/
inductive Runs (lib : Library) (root : Name) :
    Progress → List Visit → Except Error Progress → Prop where
  | done {p : Progress} : Runs lib root p [] (.ok p)
  | fails {p : Progress} {visit : Visit} {ahead : List Visit} {e : Error} :
      Fails lib root p visit e → Runs lib root p (visit :: ahead) (.error e)
  | enter {p : Progress} {name : String} {includes : List String} {ahead : List Visit}
      {outcome : Except Error Progress} :
      name ∉ p.entered → includesOf lib root name = .ok includes →
      Runs lib root { p with
        entered := name :: p.entered } (includes.map .enter ++ .bind name :: ahead) outcome →
      Runs lib root p (.enter name :: ahead) outcome
  | bind {p : Progress} {name : String} {bound : Geometry} {ahead : List Visit}
      {outcome : Except Error Progress} :
      bindDocument lib root p.geometry name = .ok bound →
      Runs lib root { p with geometry := bound } ahead outcome →
      Runs lib root p (.bind name :: ahead) outcome

section runs
variable {lib : Library} {root : Name} {geometry : Geometry} {start : String} {p : Progress}
    {ahead : List Visit}

theorem Runs.unique {one other : Except Error Progress} (h : Runs lib root p ahead one)
    (h' : Runs lib root p ahead other) : one = other := by
  induction h generalizing other with
  | done =>
    cases h'
    rfl
  | fails hf =>
    cases hf with
    | repeated hm =>
      cases h' with
      | fails hf' => cases hf' <;> simp_all
      | enter hm' => exact absurd hm hm'
    | notScanned hm hi =>
      cases h' with
      | fails hf' => cases hf' <;> simp_all
      | enter _ hi' => simp_all
    | notBound hb =>
      cases h' with
      | fails hf' => cases hf' with | notBound hb' => simp_all
      | bind hb' => simp_all
  | enter hm hi _ ih =>
    cases h' with
    | fails hf' => cases hf' <;> simp_all
    | enter _ hi' hr' =>
      cases hi.symm.trans hi'
      exact ih hr'
  | bind hb _ ih =>
    cases h' with
    | fails hf' => cases hf' with | notBound hb' => simp_all
    | bind hb' hr' =>
      cases hb.symm.trans hb'
      exact ih hr'

/-- The visits made so far stand in front of those ahead. -/
theorem Runs.of_depthFirst {done : List Visit} {outcome : Except Error Progress}
    (hd : DepthFirst lib root start done ahead) (hp : Reached lib root geometry done p)
    (h : Runs lib root p ahead outcome) : Runs lib root { geometry } [.enter start] outcome := by
  induction hd generalizing p with
  | start =>
    obtain ⟨entered, -, bound⟩ := hp
    obtain rfl : p = { geometry } := by
      cases p
      simp_all
    exact h
  | enter _ hincludes ih =>
    obtain ⟨q, hq, hfresh, rfl⟩ := hp.of_enter
    exact ih hq (.enter hfresh hincludes h)
  | bind _ ih =>
    obtain ⟨q, hq, hbind, hp⟩ := hp.of_bind
    exact ih hq (.bind hbind (hp ▸ h))

/-- The visits from a document come to an end, with the outcome of following its includes. -/
theorem runs_iff {outcome : Except Error Progress} :
    Runs lib root { geometry } [.enter start] outcome ↔
      followIncludes lib root geometry start = outcome := by
  have hrun :
      Runs lib root { geometry } [.enter start] (followIncludes lib root geometry start) := by
    cases hf : followIncludes lib root geometry start with
    | ok p =>
      obtain ⟨t, hroots, hfollows, hnodup, hentered, hbound⟩ := forest_of_bindIncluding hf
      have hd : DepthFirst lib root start [] (t.roots.map .enter ++ []) := by
        rw [hroots]
        exact .start
      have hp := (Reached.start lib root geometry).visits (by simpa using hentered)
        (by simpa [hentered] using hnodup) hbound
      exact .of_depthFirst (hfollows.depthFirst hd) hp .done
    | error e =>
      obtain ⟨made, visit, next, p, hd, hp, hfails⟩ := fails_of_followIncludes hf
      exact .of_depthFirst hd hp (.fails hfails)
  exact ⟨hrun.unique, fun h => h ▸ hrun⟩

end runs

/-- The names in the include elements of a source, up to where it is wrong. -/
def includesRead (source : Source) : List String :=
  (consume (.ofExcept IncludesDraft.step) {} source).1.includes

theorem includesRead_of_readIncludes {source : Source} {includes : List String}
    (h : readIncludes source = .ok includes) : includesRead source = includes := by
  unfold readIncludes at h
  unfold includesRead
  split at h
  next d hconsume => simpa [hconsume] using h
  next => simp at h

/-- The file at one place includes, by whatever name, the file at another. -/
def Leads (d : Directory) (base : String) (here there : List String) : Prop :=
  ∃ content, d.at? here = some (.file content) ∧
    ∃ name ∈ includesRead (.ofBytes content), d.symbolsPlace base name = there

section leads
variable {d : Directory} {base : String} {place there : List String}

/-- The includes of a document that is opened by some name are those of the file
at the place of the name. -/
theorem leads_of_includesOf {name : String} {includes : List String}
    (h : includesOf (.ofFiles d.toFiles) (.path base) name = .ok includes)
    (hl : Leads d base (d.symbolsPlace base name) there) :
    ∃ other ∈ includes, d.symbolsPlace base other = there := by
  obtain ⟨content, hcontent, -, hread⟩ := file_of_readWith rfl h
  obtain ⟨content', hcontent', other, hother, rfl⟩ := hl
  obtain rfl : content = content' := by simpa [hcontent] using hcontent'
  exact ⟨other, includesRead_of_readIncludes hread ▸ hother, rfl⟩

theorem IncludeForest.Follows.leads {t : IncludeForest}
    (h : t.Follows (.ofFiles d.toFiles) (.path base)) {name : String} (hname : name ∈ t.preorder)
    (hl : Leads d base (d.symbolsPlace base name) there) :
    ∃ other ∈ t.preorder, d.symbolsPlace base other = there := by
  induction t with
  | nil => simp [preorder] at hname
  | node first below beside hbelow hbeside =>
    obtain ⟨hincludes, hb, hs⟩ := h
    simp only [preorder, List.mem_cons, List.mem_append] at hname ⊢
    rcases hname with rfl | hname | hname
    · obtain ⟨other, hother, hplace⟩ := leads_of_includesOf hincludes hl
      exact ⟨other, .inr (.inl (below.roots_subset hother)), hplace⟩
    · obtain ⟨other, hother, hplace⟩ := hbelow hb hname
      exact ⟨other, .inr (.inl hother), hplace⟩
    · obtain ⟨other, hother, hplace⟩ := hbeside hs hname
      exact ⟨other, .inr (.inr hother), hplace⟩

theorem IncludeForest.Follows.reaches {t : IncludeForest}
    (h : t.Follows (.ofFiles d.toFiles) (.path base)) {name : String} (hname : name ∈ t.preorder)
    (hr : Relation.ReflTransGen (Leads d base) (d.symbolsPlace base name) place) :
    ∃ other ∈ t.preorder, d.symbolsPlace base other = place := by
  induction hr with
  | refl => exact ⟨name, hname, rfl⟩
  | tail _ hl ih =>
    obtain ⟨other, hother, rfl⟩ := ih
    exact h.leads hother hl

/-- No file that a finite forest of includes reaches lies on a cycle: below it there would be a file
on the same cycle, and so on without end. -/
theorem IncludeForest.Follows.acyclic {t : IncludeForest}
    (h : t.Follows (.ofFiles d.toFiles) (.path base)) {name : String} (hname : name ∈ t.preorder) :
    ¬Relation.TransGen (Leads d base) (d.symbolsPlace base name) (d.symbolsPlace base name) := by
  induction t generalizing name with
  | nil => simp [preorder] at hname
  | node first below beside hbelow hbeside =>
    obtain ⟨hincludes, hb, hs⟩ := h
    simp only [preorder, List.mem_cons, List.mem_append] at hname
    rcases hname with rfl | hname | hname
    · intro hcycle
      obtain ⟨next, hl, hback⟩ := Relation.TransGen.head'_iff.1 hcycle
      obtain ⟨other, hother, rfl⟩ := leads_of_includesOf hincludes hl
      exact hbelow hb (below.roots_subset hother) (Relation.TransGen.tail' hback hl)
    · exact hbelow hb hname
    · exact hbeside hs hname

theorem not_bindAll_of_cycle {geometry bound : Geometry} {symbols : String}
    (hr : Relation.ReflTransGen (Leads d base) (d.symbolsPlace base symbols) place)
    (hcycle : Relation.TransGen (Leads d base) place place) :
    bindAll (.ofFiles d.toFiles) (.path base) geometry symbols ≠ .ok bound := by
  intro h
  obtain ⟨p, hfollow, -⟩ := bindAll_eq_ok.1 h
  obtain ⟨t, hroots, hfollows, -⟩ := forest_of_bindIncluding hfollow
  have hroot : symbols ∈ t.preorder := t.roots_subset (by simp [hroots])
  obtain ⟨name, hname, rfl⟩ := hfollows.reaches hroot hr
  exact hfollows.acyclic hname hcycle

theorem not_build_of_cycle {descriptor : Descriptor} {symbols : String}
    (hs : descriptor.symbols = some symbols)
    (hr : Relation.ReflTransGen (Leads d base) (d.symbolsPlace base symbols) place)
    (hcycle : Relation.TransGen (Leads d base) place place) (keyboard : Keyboard) :
    ((Loader.ofDirectory d base).build descriptor).result ≠ .ok keyboard := by
  intro h
  obtain ⟨symbols', geometry, bound, hs', -, hbind, -⟩ := Loader.build_eq_ok.1 h
  obtain rfl : symbols = symbols' := Option.some.inj (hs.symm.trans hs')
  exact not_bindAll_of_cycle hr hcycle hbind

end leads

/-- In every tree of files, following includes comes to an end, with one outcome. If the
symbols of a keyboard lead to a file that can be reached from itself, by whatever names, the
outcome of loading it is an error. -/
theorem cycle_not_loaded (d : Directory) (base : String) :
    (∀ geometry symbols,
      ∃! outcome, Runs (.ofFiles d.toFiles) (.path base) { geometry } [.enter symbols] outcome) ∧
    (∀ geometry symbols outcome,
      Runs (.ofFiles d.toFiles) (.path base) { geometry } [.enter symbols] outcome →
      bindAll (.ofFiles d.toFiles) (.path base) geometry symbols = outcome.map (·.geometry)) ∧
    ∀ descriptor symbols place, descriptor.symbols = some symbols →
      Relation.ReflTransGen (Leads d base) (d.symbolsPlace base symbols) place →
      Relation.TransGen (Leads d base) place place →
      (∃ e, ((Loader.ofDirectory d base).loadDescribed descriptor).result = .error e) ∧
      ∀ id keyboards, (Loader.ofDirectory d base).list = .ok keyboards →
        resolve keyboards id = .ok descriptor →
        ∃ e, ((Loader.ofDirectory d base).load id).result = .error e := by
  refine ⟨fun geometry symbols => ?_, fun geometry symbols outcome h => ?_, ?_⟩
  · exact ⟨_, runs_iff.2 rfl, fun outcome h => (runs_iff.1 h).symm⟩
  · rw [← runs_iff.1 h]
    rfl
  · intro descriptor symbols place hs hr hcycle
    have hbuild := not_build_of_cycle hs hr hcycle
    constructor
    · cases hload : ((Loader.ofDirectory d base).loadDescribed descriptor).result with
      | error e => exact ⟨e, rfl⟩
      | ok keyboard => exact absurd (Loader.loadDescribed_eq_ok.1 hload) (hbuild keyboard)
    · intro id keyboards hlist hresolve
      cases hload : ((Loader.ofDirectory d base).load id).result with
      | error e => exact ⟨e, rfl⟩
      | ok keyboard =>
        obtain ⟨keyboards', descriptor', hlist', hresolve', hbuild'⟩ := Loader.load_eq_ok.1 hload
        obtain rfl : keyboards = keyboards' := Except.ok.inj (hlist.symm.trans hlist')
        obtain rfl : descriptor = descriptor' := Except.ok.inj (hresolve.symm.trans hresolve')
        exact absurd hbuild' (hbuild keyboard)

/-- Two files with symbols that include each other, one of them by a detour over the root, above
which there is nothing. The working directory lies elsewhere. -/
def detour : Directory where
  files :=
    [(["opt", "kb", "keyboards.xml"],
      ascii "<keyboards><keyboard id='a' geometry='g' symbols='s'/></keyboards>"),
      (["opt", "kb", "geometry", "g.xml"],
        ascii "<geometry><section>a</section><outline id='default'/></geometry>"),
      (["opt", "kb", "symbols", "s.xml"], ascii "<symbols><include>c</include></symbols>"),
      (["opt", "kb", "symbols", "c.xml"],
        ascii "<symbols><include>../../../../opt//kb/./symbols/s</include></symbols>")]
  working := ["home", "user"]

theorem detour_not_loaded :
    Relation.ReflTransGen (Leads detour "/opt/kb") (detour.symbolsPlace "/opt/kb" "s")
    ["opt", "kb", "symbols", "c.xml"] ∧
      Relation.TransGen (Leads detour "/opt/kb") ["opt", "kb", "symbols", "c.xml"]
      ["opt", "kb", "symbols", "c.xml"] ∧
      ∃ e, ((Loader.ofDirectory detour "/opt/kb").load "a").result = .error e := by
  have hforth :
      Leads detour "/opt/kb" ["opt", "kb", "symbols", "s.xml"] ["opt", "kb", "symbols", "c.xml"] :=
    ⟨ascii "<symbols><include>c</include></symbols>", by decide +kernel, "c", by decide +kernel,
      by decide +kernel⟩
  have hback :
      Leads detour "/opt/kb" ["opt", "kb", "symbols", "c.xml"] ["opt", "kb", "symbols", "s.xml"] :=
    ⟨ascii "<symbols><include>../../../../opt//kb/./symbols/s</include></symbols>",
      by decide +kernel,
      "../../../../opt//kb/./symbols/s", by decide +kernel, by decide +kernel⟩
  have hplace : detour.symbolsPlace "/opt/kb" "s" = ["opt", "kb", "symbols", "s.xml"] := by
    decide +kernel
  have hreach : Relation.ReflTransGen (Leads detour "/opt/kb") (detour.symbolsPlace "/opt/kb" "s")
      ["opt", "kb", "symbols", "c.xml"] := hplace ▸ .single hforth
  have hcycle := (Relation.TransGen.single hback).tail hforth
  let descriptor : Descriptor := { id := "a", geometry := "g", symbols := some "s" }
  have hlist : (Loader.ofDirectory detour "/opt/kb").list = .ok [descriptor] := by decide +kernel
  have hresolve : resolve [descriptor] "a" = .ok descriptor := by decide +kernel
  have herror := (cycle_not_loaded detour "/opt/kb").2.2 descriptor "s" _ rfl hreach hcycle
  exact ⟨hreach, hcycle, herror.2 "a" _ hlist hresolve⟩

/-- The same folder of keyboards, named from the working directory. -/
example : detour.symbolsPlace "../../opt/kb" "s" = detour.symbolsPlace "/opt/kb" "s" := by
  decide +kernel

end KeyLayout.Load
