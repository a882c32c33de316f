import KeyLayout.Load.Need
import KeyLayout.Proofs.Load.Cycles
import KeyLayout.Proofs.Load.Linked

/-! Which document is at fault when a keyboard cannot be loaded. -/
namespace KeyLayout.Load
open Document Markup Model Resource

def Includes (lib : Library) (root : Name) (name other : String) : Prop :=
  ∃ includes, includesOf lib root name = .ok includes ∧ other ∈ includes

def Loader.Lists (l : Loader) (id : String) (descriptor : Descriptor) : Prop :=
  ∃ keyboards, l.list = .ok keyboards ∧ resolve keyboards id = .ok descriptor

/-- The documents a keyboard is made from: the catalog, its geometry, and the symbols that its own
lead to by includes. -/
inductive Needed (l : Loader) (id : String) : Need → Prop where
  | catalog : Needed l id .catalog
  | geometry {descriptor : Descriptor} : l.Lists id descriptor →
      Needed l id (.geometry descriptor.geometry)
  | symbols {descriptor : Descriptor} {start name : String} :
      l.Lists id descriptor → descriptor.symbols = some start →
      Relation.ReflTransGen (Includes l.library l.root) start name → Needed l id (.symbols name)

/-- Read alone, a document of the keyboard of this id is refused with this error. Its includes are
looked for, and its symbols are bound to the geometry of the keyboard as it was first read. -/
inductive Refuses (l : Loader) (id : String) (source : Source) (e : Document.Error) :
    Need → Prop where
  | catalog : readCatalog source = .error e → Refuses l id source e .catalog
  | geometry {name : String} : (readGeometry source).result = .error e →
      Refuses l id source e (.geometry name)
  | includes {name : String} : readIncludes source = .error e →
      Refuses l id source e (.symbols name)
  | binding {name : String} {descriptor : Descriptor} {geometry : Geometry} :
      l.Lists id descriptor → (l.readGeometry descriptor.geometry).result = .ok geometry →
      bindSymbols geometry source = .error e → Refuses l id source e (.symbols name)

/-- The error blames a document that is needed, or says what the catalog, the
includes or the outlines lack. -/
inductive AtFault (l : Loader) (id : String) : Error → Prop where
  /-- A document that is needed cannot be opened. -/
  | notOpened {need : Need} : Needed l id need → l.library.open? (need.document l.root) = none →
      AtFault l id (.notOpened (need.document l.root).text)
  /-- A document that is needed is wrong. -/
  | document {need : Need} {source : Source} {e : Document.Error} :
      Needed l id need → l.library.open? (need.document l.root) = some source →
      Refuses l id source e need →
      AtFault l id (.document (need.document l.root).text e)
  | unknownKeyboard {keyboards : List Descriptor} :
      l.list = .ok keyboards → (∀ descriptor ∈ keyboards, descriptor.id ≠ id) →
        AtFault l id (.unknownKeyboard id)
  | missingSymbols {descriptor : Descriptor} :
      l.Lists id descriptor → descriptor.symbols = none → AtFault l id (.missingSymbols id)
  | repeatedInclude {name : String} : Needed l id (.symbols name) →
      AtFault l id (.repeatedInclude name)
  | danglingOutline {descriptor : Descriptor} {geometry : Geometry} {key : KeyDraft} :
      l.Lists id descriptor → (l.readGeometry descriptor.geometry).result = .ok geometry →
      key ∈ geometry.keys →
      geometry.outlines.handle? key.outline = none →
      AtFault l id (.danglingOutline key.name key.outline)

theorem resolve_eq_ok {keyboards : List Descriptor} {id : String} {descriptor : Descriptor}
    (h : resolve keyboards id = .ok descriptor) : descriptor ∈ keyboards ∧ descriptor.id = id := by
  unfold resolve at h
  split at h
  next found hfound =>
    cases h
    exact ⟨List.mem_of_find?_eq_some hfound, by simpa using List.find?_some hfound⟩
  next => simp at h

theorem resolve_eq_error {keyboards : List Descriptor} {id : String} {e : Error} :
    resolve keyboards id = .error e ↔
      e = .unknownKeyboard id ∧ ∀ descriptor ∈ keyboards, descriptor.id ≠ id := by
  unfold resolve
  split
  next found hfound =>
    have hid : found.id = id := by simpa using List.find?_some hfound
    refine ⟨nofun, fun ⟨_, hother⟩ => absurd hid (hother found (List.mem_of_find?_eq_some hfound))⟩
  next hnone =>
    have hother : ∀ descriptor ∈ keyboards, descriptor.id ≠ id := by simpa using hnone
    refine ⟨?_, ?_⟩
    · rintro ⟨⟩
      exact ⟨rfl, hother⟩
    · rintro ⟨rfl, -⟩
      rfl

section walk
variable {lib : Library} {root : Name} {geometry : Geometry} {start : String}

def Visit.name : Visit → String
  | enter name => name
  | bind name => name

/-- Every visit, made or ahead, is to a document to which includes lead. -/
theorem DepthFirst.reaches {done ahead : List Visit} (h : DepthFirst lib root start done ahead) :
    ∀ visit ∈ done ++ ahead, Relation.ReflTransGen (Includes lib root) start visit.name := by
  induction h with
  | start =>
    intro visit hvisit
    obtain rfl := List.mem_singleton.1 hvisit
    exact .refl
  | @enter done ahead name includes _ hincludes ih =>
    intro visit hvisit
    have hname : Relation.ReflTransGen (Includes lib root) start name := ih (.enter name) (by simp)
    simp only [List.mem_append, List.mem_cons, List.mem_map, List.not_mem_nil, or_false] at hvisit
    rcases hvisit with (hdone | rfl) | ⟨other, hother, rfl⟩ | rfl | hahead
    · exact ih visit (by simp [hdone])
    · exact hname
    · exact hname.tail ⟨includes, hincludes, hother⟩
    · exact hname
    · exact ih visit (by simp [hahead])
  | @bind done ahead name _ ih =>
    intro visit hvisit
    exact ih visit (by simpa using hvisit)

/-- A walk that fails does so at a visit that the includes lead to. -/
theorem fails_of_bindAll {e : Error} (h : bindAll lib root geometry start = .error e) :
    ∃ visit p, Relation.ReflTransGen (Includes lib root) start visit.name ∧
      p.geometry.bare = geometry.bare ∧
      Fails lib root p visit e := by
  have hfollow : followIncludes lib root geometry start = .error e := by
    rcases bind_eq_error.1 h with hfollow | ⟨p, -, h⟩
    · exact hfollow
    · simp at h
  obtain ⟨made, visit, ahead, p, hd, hp, hfails⟩ := fails_of_followIncludes hfollow
  exact ⟨visit, p, hd.reaches visit (by simp), bare_of_foldlM hp.bound, hfails⟩

end walk

namespace AtFault
variable {l : Loader} {id : String} {descriptor : Descriptor} {e : Error}

/-- A document that is needed and cannot be read is at fault. -/
theorem of_unread {need : Need} {P : Source → Document.Error → Prop} (hneeded : Needed l id need)
    (hrefuses : ∀ source e, P source e → Refuses l id source e need)
    (h : l.library.open? (need.document l.root) = none ∧
      e = .notOpened (need.document l.root).text ∨
      ∃ source cause, l.library.open? (need.document l.root) = some source ∧ P source cause ∧
        e = .document (need.document l.root).text cause) : AtFault l id e := by
  rcases h with ⟨hopen, rfl⟩ | ⟨source, cause, hopen, hread, rfl⟩
  · exact notOpened hneeded hopen
  · exact document hneeded hopen (hrefuses source cause hread)

theorem of_list (h : l.list = .error e) : AtFault l id e :=
  of_unread .catalog (fun _ _ hread => .catalog hread) (readWith_eq_error.1 h)

theorem of_readGeometry (hl : l.Lists id descriptor)
    (h : (l.readGeometry descriptor.geometry).result = .error e) : AtFault l id e :=
  of_unread (.geometry hl) (fun _ _ hread => .geometry hread) (Loader.readGeometry_eq_error.1 h)

/-- The walk blames the document of the visit that fails, whatever was bound before. -/
theorem of_bindAll (hl : l.Lists id descriptor) {start : String}
    (hs : descriptor.symbols = some start)
    {geometry : Geometry} (hg : (l.readGeometry descriptor.geometry).result = .ok geometry)
    (h : bindAll l.library l.root geometry start = .error e) : AtFault l id e := by
  obtain ⟨visit, p, hreaches, hbare, hfails⟩ := fails_of_bindAll h
  have hneeded : Needed l id (.symbols visit.name) := .symbols hl hs hreaches
  cases hfails with
  | repeated _ => exact repeatedInclude hneeded
  | notScanned _ hscan =>
    exact of_unread hneeded (fun _ _ hread => .includes hread) (readWith_eq_error.1 hscan)
  | notBound hbind =>
    refine of_unread hneeded (fun source cause hread => ?_) (readWith_eq_error.1 hbind)
    exact .binding hl hg (bindSymbols_error_of_bare hbare hread)

theorem of_assemble (hl : l.Lists id descriptor) {geometry bound : Geometry}
    (hg : (l.readGeometry descriptor.geometry).result = .ok geometry)
    (hb : bound.bare = geometry.bare)
    (h : (assemble descriptor bound).result = .error e) : AtFault l id e := by
  obtain ⟨key, hfind, rfl⟩ := assemble_eq_error.1 h
  have hkey : key ∈ bound.keys := List.mem_of_find?_eq_some hfind
  have hnone : bound.outlines.handle? key.outline = none := by simpa using List.find?_some hfind
  have hkeys : bound.keys.map KeyDraft.bare = geometry.keys.map KeyDraft.bare :=
    congrArg (·.keys) hb
  have houtlines : bound.outlines = geometry.outlines := congrArg (·.outlines) hb
  obtain ⟨first, hfirst, hsame⟩ := exists_of_bare hkeys hkey
  have hname : first.name = key.name := congrArg (·.name) hsame
  have houtline : first.outline = key.outline := congrArg (·.outline) hsame
  rw [← hname, ← houtline]
  exact danglingOutline hl hg hfirst (houtline ▸ houtlines ▸ hnone)

theorem of_build (hl : l.Lists id descriptor) (h : (l.build descriptor).result = .error e) :
    AtFault l id e := by
  unfold Loader.build at h
  cases hs : descriptor.symbols with
  | none =>
    obtain ⟨keyboards, hlist, hresolve⟩ := hl
    have he : Error.missingSymbols descriptor.id = e := by simpa [hs, Reported.error] using h
    rw [← he, (resolve_eq_ok hresolve).2]
    exact missingSymbols ⟨keyboards, hlist, hresolve⟩ hs
  | some start =>
    simp only [hs] at h
    rcases Reported.bind_result_eq_error.1 h with hread | ⟨geometry, hread, h⟩
    · exact of_readGeometry hl hread
    rcases Reported.bind_result_eq_error.1 h with hbind | ⟨bound, hbind, h⟩
    · exact of_bindAll hl hs hread hbind
    · exact of_assemble hl hread (bare_of_bindAll hbind) h

end AtFault

/-- A load that fails names the keyboard, once, around what is at fault. -/
theorem fault_of_load {l : Loader} {id : String} {e : Error} (h : (l.load id).result = .error e) :
    ∃ cause, e = .keyboard id cause ∧ AtFault l id cause ∧ e.root = cause ∧
      ∀ other inner, cause ≠ .keyboard other inner := by
  obtain ⟨cause, hcause, rfl⟩ := Reported.mapError_result_eq_error.1 h
  have hfault : AtFault l id cause := by
    rcases Reported.bind_result_eq_error.1 hcause with hlist | ⟨keyboards, hlist, hcause⟩
    · exact .of_list hlist
    rcases Reported.bind_result_eq_error.1 hcause with hresolve | ⟨descriptor, hresolve, hbuild⟩
    · obtain ⟨rfl, hnone⟩ := resolve_eq_error.1 hresolve
      exact .unknownKeyboard hlist hnone
    · exact .of_build ⟨keyboards, hlist, hresolve⟩ hbuild
  refine ⟨cause, rfl, hfault, ?_, ?_⟩
  · cases hfault <;> rfl
  · rintro other inner rfl
    cases hfault

/-- A keyboard whose symbols include a document in which a key of no section is bound. -/
def strayKey : Directory where
  files :=
    [(["kb", "keyboards.xml"],
      ascii "<keyboards><keyboard id='a' geometry='g' symbols='s'/></keyboards>"),
      (["kb", "geometry", "g.xml"],
        ascii "<geometry><section>a</section><outline id='default'/></geometry>"),
      (["kb", "symbols", "s.xml"], ascii "<symbols><include>c</include><key name='a'/></symbols>"),
      (["kb", "symbols", "c.xml"], ascii "<symbols><key name='z'><text>x</text></key></symbols>")]

theorem strayKey_blamed :
    ((Loader.ofDirectory strayKey "kb").load "a").result =
        .error (.keyboard "a" (.document "kb/symbols/c.xml" (.unknownKey "z"))) ∧
      AtFault (Loader.ofDirectory strayKey "kb") "a"
        (.document "kb/symbols/c.xml" (.unknownKey "z")) := by
  let l := Loader.ofDirectory strayKey "kb"
  let descriptor : Descriptor := { id := "a", geometry := "g", symbols := some "s" }
  have hlist : l.list = .ok [descriptor] := by decide +kernel
  have hresolve : resolve [descriptor] "a" = .ok descriptor := by decide +kernel
  have hread : (l.readGeometry "g").result.map (fun _ => ()) = .ok () := by decide +kernel
  obtain ⟨geometry, hgeometry, -⟩ := map_eq_ok.1 hread
  have hs : includesOf l.library l.root "s" = .ok ["c"] := by decide +kernel
  have hc : includesOf l.library l.root "c" = .ok [] := by decide +kernel
  have hbind : bindDocument l.library l.root geometry "c" =
      .error (.document "kb/symbols/c.xml" (.unknownKey "z")) := by
    have hboth : ((l.readGeometry "g").result >>= fun g =>
        (bindDocument l.library l.root g "c").map fun _ => ()) =
        .error (.document "kb/symbols/c.xml" (.unknownKey "z")) := by decide +kernel
    rw [hgeometry] at hboth
    exact map_eq_error.1 hboth
  have hruns : Runs l.library l.root { geometry } [.enter "s"]
      (.error (.document "kb/symbols/c.xml" (.unknownKey "z"))) :=
    .enter (by simp) hs (.enter (by simp) hc (.fails (.notBound hbind)))
  have hall : bindAll l.library l.root geometry "s" =
      .error (.document "kb/symbols/c.xml" (.unknownKey "z")) :=
    bind_eq_error.2 (.inl (runs_iff.1 hruns))
  have hbuild :
      (l.build descriptor).result = .error (.document "kb/symbols/c.xml" (.unknownKey "z")) :=
    Reported.bind_result_eq_error.2
      (.inr ⟨geometry, hgeometry, Reported.bind_result_eq_error.2 (.inl hall)⟩)
  have hload : (l.load "a").result =
      .error (.keyboard "a" (.document "kb/symbols/c.xml" (.unknownKey "z"))) := by
    refine Reported.mapError_result_eq_error.2 ⟨_, ?_, rfl⟩
    refine Reported.bind_result_eq_error.2 (.inr ⟨_, hlist, ?_⟩)
    exact Reported.bind_result_eq_error.2 (.inr ⟨_, hresolve, hbuild⟩)
  obtain ⟨cause, hcause, hfault, -, -⟩ := fault_of_load hload
  cases hcause
  exact ⟨hload, hfault⟩

end KeyLayout.Load
