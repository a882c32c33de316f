import KeyLayout.Document.Catalog
import KeyLayout.Proofs.Document.OpenDrafts
import KeyLayout.Proofs.Text.Validity
import Mathlib.Data.List.MinMax

/-! Joined names tell how elements are nested, so a grammar that lists paths allows the nestings
that they name and no others. -/
namespace KeyLayout.Document
open Markup

def PathName (name : String) : Prop := name ≠ "" ∧ Plain name

section names
variable {s : Supply} {input rest : Bytes} {token : Token} {n n' : Nesting} {offset : Nat}
    {events seen : List Event}

theorem ne_empty_of_decodeText {raw : Bytes} {name : String} (h : decodeText offset raw = .ok name)
    (hraw : raw ≠ []) : name ≠ "" := by
  rintro rfl
  exact hraw (Utf8.decode_eq_ok.1 (decodeText_eq_ok.1 h)).symm

theorem pathName_of_interpret (hs : s.scan input = .token token rest)
    (h : n.interpret offset token = .ok (events, n')) :
    ∀ event ∈ events, ∀ name a path, event = .start name a path → PathName name := by
  rintro event hevent name a path rfl
  obtain ⟨raw, hbegins, hdecoded⟩ := Nesting.start_of_interpret h hevent
  obtain ⟨_, _, hrun⟩ := run1_of_scan hs hbegins
  exact ⟨ne_empty_of_decodeText hdecoded (ne_nil_of_run1 hrun),
    plain_of_decodeText hdecoded (forall_run1 hrun)⟩

/-- Every element that is open, with those around it, has been started there. -/
theorem started_of_open (hn : WellNested seen) {inner : String} {outer : List String}
    (h : inner :: outer <:+ openElements seen) : ∃ a, .start inner a outer ∈ seen := by
  induction seen using List.reverseRecOn with
  | nil => simp at h
  | append_singleton seen event ih =>
    obtain ⟨hnested, hfits⟩ := wellNested_append_singleton.1 hn
    have hbefore (hopen : inner :: outer <:+ openElements seen) :
        ∃ a, .start inner a outer ∈ seen ++ [event] := by
      obtain ⟨a, ha⟩ := ih hnested hopen
      exact ⟨a, List.mem_append_left _ ha⟩
    rw [openElements_append_singleton] at h
    cases event with
    | start name a path =>
      obtain ⟨rfl, -, -⟩ := hfits
      rcases List.suffix_cons_iff.1 h with hsame | hopen
      · obtain ⟨rfl, rfl⟩ := List.cons.inj hsame
        exact ⟨a, by simp⟩
      · exact hbefore hopen
    | stop name path => exact hbefore (h.trans (List.tail_suffix _))
    | text text path => exact hbefore h

/-- The names that a reader tells are not empty and hold no slashes. -/
theorem pathName_of_start {source : Source} {name : String} {a : Attributes} {path : List String}
    (h : .start name a path ∈ source.events) : ∀ inner ∈ name :: path, PathName inner := by
  have hname : ∀ event ∈ source.events, ∀ name a path, event = .start name a path → PathName name :=
    forall_readSource (fun s r => Reader.forall_drainAs pathName_of_interpret r) {} source
  have hnested := wellNested_events source
  obtain ⟨before, after, hsplit⟩ := List.append_of_mem h
  obtain ⟨rfl, -, -⟩ := hnested before _ after hsplit
  have hbefore : WellNested before := hnested.of_prefix ⟨_, hsplit.symm⟩
  refine List.forall_mem_cons.2 ⟨hname _ h name a _ rfl, fun inner hinner => ?_⟩
  obtain ⟨front, outer, hopen⟩ := List.append_of_mem hinner
  obtain ⟨a', hstart⟩ := started_of_open hbefore ⟨front, hopen.symm⟩
  exact hname _ (hsplit ▸ List.mem_append_left _ hstart) inner a' outer rfl

end names

namespace Kind
variable {kind : Kind} {element other : String} {path outer : List String}

theorem pathOf_inj (he : Plain element) (hp : ∀ name ∈ path, Plain name) (ho : Plain other)
    (houter : ∀ name ∈ outer, Plain name) (h : pathOf other outer = pathOf element path) :
    other :: outer = element :: path := by
  have hsplit := splitOn_pathOf he hp
  rw [← h, splitOn_pathOf ho houter] at hsplit
  exact List.map_injective_iff.2 (fun _ _ => String.toList_injective) hsplit

/-- The names of a path join to the path. -/
theorem mem_paths_of_mem_places (h : element :: path ∈ kind.places) :
    pathOf element path ∈ kind.paths := by
  obtain ⟨allowed, hallowed, hnames⟩ := List.mem_map.1 h
  have hjoin : pathOf element path = allowed := by
    rw [pathOf, ← hnames, ← String.toList_inj, String.toList_intercalate, List.map_map]
    have hid : (String.toList ∘ String.ofList) = id := by
      funext cs
      simp
    rw [hid, List.map_id]
    exact Text.intercalate_splitOn '/' allowed.toList
  rwa [hjoin]

theorem check_eq (he : Plain element) (hp : ∀ name ∈ path, Plain name) :
    kind.check element path =
      if element :: path ∈ kind.places then .ok ()
      else .error (.misplaced element (pathOf element path)) := by
  split_ifs with hplace
  · exact if_pos (mem_paths_of_mem_places hplace)
  · refine if_neg fun hmem => hplace (mem_places_of_check he hp ?_)
    exact if_pos hmem

/-- The number of elements in the longest of the allowed paths. -/
def depth (kind : Kind) : Nat := (kind.places.map List.length).foldr max 0

theorem Stands.length_le (h : kind.Stands path) : path.length ≤ kind.depth := by
  rcases h with rfl | h
  · exact Nat.zero_le _
  · exact List.le_max_of_le' 0 (List.mem_map_of_mem h) le_rfl

/-- The elements around an element at a place are at places themselves. -/
theorem Stands.suffix (h : kind.Stands path) (hsuffix : outer <:+ path) : kind.Stands outer := by
  induction path with
  | nil => exact List.suffix_nil.1 hsuffix ▸ h
  | cons name path ih =>
    rcases List.suffix_cons_iff.1 hsuffix with rfl | hsuffix
    · exact h
    · exact ih (place_facts (h.resolve_left (by simp))).2.1 hsuffix

def Accepts : Kind → Source → Prop
  | catalog, source => ∃ ds, readCatalog source = .ok ds
  | geometry, source => ∃ g, (readGeometry source).result = .ok g
  | symbols, source => ∃ g bound, bindSymbols g source = .ok bound
  | prerequisites, source => ∃ includes, readIncludes source = .ok includes

/-- The consumer takes no element that the grammar refuses. -/
def Checks {σ : Type} (kind : Kind) (consumer : Consumer σ) : Prop :=
  ∀ d d' name a path, consumer d (.start name a path) = (d', none) → kind.check name path = .ok ()

theorem Checks.stands {σ : Type} {consumer : Consumer σ} {s d : σ} {seen : List Event}
    (h : kind.Checks consumer) (hn : WellNested seen) (hp : ∀ event ∈ seen, event.Plain)
    (hd : deliver consumer s seen = (d, none)) : kind.Stands (openElements seen) := by
  have hfollows : Follows kind consumer fun _ _ => True :=
    ⟨h _ _ _ _ _, fun _ _ _ => trivial, fun _ _ _ => trivial, fun _ _ _ => trivial⟩
  exact (hfollows.agrees trivial hn hp hd).2

theorem exists_checks {source : Source} (h : kind.Accepts source) :
    ∃ (σ : Type) (consumer : Consumer σ)
    (s s' : σ), kind.Checks consumer ∧ consume consumer s source = (s', none) := by
  cases kind with
  | catalog =>
    obtain ⟨ds, hread⟩ := h
    have hchecks : Kind.catalog.Checks (.ofExcept CatalogDraft.step) := by
      intro d d' name a path hd
      obtain ⟨_, hcheck, -⟩ := bind_eq_ok.1 (Consumer.ofExcept_eq_none.1 hd)
      exact hcheck
    unfold readCatalog at hread
    split at hread
    next d hconsume => exact ⟨_, _, {}, d, hchecks, hconsume⟩
    next => cases hread
  | geometry =>
    obtain ⟨g, hread⟩ := h
    have hchecks : Kind.geometry.Checks GeometryDraft.step :=
      fun _ _ _ _ _ => GeometryDraft.follows.allowed
    unfold readGeometry at hread
    split at hread
    next => cases hread
    next d hconsume => exact ⟨_, _, {}, d, hchecks, hconsume⟩
  | symbols =>
    obtain ⟨g, bound, hread⟩ := h
    have hchecks : Kind.symbols.Checks (.ofExcept SymbolsDraft.step) :=
      fun _ _ _ _ _ => SymbolsDraft.check_of_taken
    unfold bindSymbols at hread
    split at hread
    next d hconsume => exact ⟨_, _, _, d, hchecks, hconsume⟩
    next => cases hread
  | prerequisites =>
    obtain ⟨includes, hread⟩ := h
    have hchecks : Kind.prerequisites.Checks (.ofExcept IncludesDraft.step) :=
      fun _ _ _ _ _ => IncludesDraft.follows.allowed
    unfold readIncludes at hread
    split at hread
    next d hconsume => exact ⟨_, _, {}, d, hchecks, hconsume⟩
    next => cases hread

/-- While an accepted document is read, the open elements are at places of the grammar. -/
theorem Accepts.stands {source : Source} (h : kind.Accepts source) {seen : List Event}
    (hseen : seen <+: source.events) : kind.Stands (openElements seen) := by
  obtain ⟨σ, consumer, s, s', hchecks, hconsume⟩ := exists_checks h
  have hplain : ∀ event ∈ seen, event.Plain := fun event hevent =>
    plain_readSource {} source event (hseen.subset hevent)
  obtain ⟨after, hafter⟩ := hseen
  have hdelivered := deliver_of_consume hconsume
  rw [← hafter] at hdelivered
  obtain ⟨mid, hmid, -⟩ := deliver_append_taken.1 hdelivered
  exact hchecks.stands (WellNested.of_prefix (wellNested_events source) ⟨after, hafter⟩) hplain hmid

end Kind

/-- Paths of names without slashes tell these names, and so an element is allowed just where the
grammar has a place for it; elements that are read have such names. In an accepted document every
element around one that starts has been started and was allowed where it stands, and no element
stands deeper than the longest path goes. -/
theorem paths_tell_places (kind : Kind) :
    (∀ element path, (∀ name ∈ element :: path, PathName name) →
      (∀ other outer, (∀ name ∈ other :: outer, PathName name) →
        Kind.pathOf other outer = Kind.pathOf element path → other :: outer = element :: path) ∧
      kind.check element path =
        if element :: path ∈ kind.places then .ok ()
        else .error (.misplaced element (Kind.pathOf element path))) ∧
    (∀ (source : Source) name a path, .start name a path ∈ source.events →
      ∀ inner ∈ name :: path, PathName inner) ∧
    ∀ source, kind.Accepts source → ∀ before event after, source.events = before ++ event :: after →
      (openElements (before ++ [event])).length ≤ kind.depth ∧
      ∀ name a path, event = .start name a path → path = openElements before ∧
        ∀ inner outer, inner :: outer <:+ name :: path →
          kind.check inner outer = .ok () ∧ ∃ a', .start inner a' outer ∈ before ++ [event] := by
  refine ⟨fun element path hnames => ?_,
    fun source name a path hstart => pathName_of_start hstart, ?_⟩
  · obtain ⟨helement, hpath⟩ := List.forall_mem_cons.1 hnames
    refine ⟨fun other outer hothers hsame => ?_,
      Kind.check_eq helement.2 fun name hname => (hpath name hname).2⟩
    obtain ⟨hother, houter⟩ := List.forall_mem_cons.1 hothers
    exact Kind.pathOf_inj helement.2 (fun name hname => (hpath name hname).2) hother.2
      (fun name hname => (houter name hname).2) hsame
  · intro source haccepts before event after hsplit
    have hseen : before ++ [event] <+: source.events := ⟨after, by simp [hsplit]⟩
    have hstands := haccepts.stands hseen
    have hnested := WellNested.of_prefix (wellNested_events source) hseen
    refine ⟨hstands.length_le, ?_⟩
    rintro name a path rfl
    obtain ⟨rfl, -, -⟩ := (wellNested_append_singleton.1 hnested).2
    refine ⟨rfl, fun inner outer hsuffix => ?_⟩
    have hopen :
        inner :: outer <:+ openElements (before ++ [.start name a (openElements before)]) := by
      rwa [openElements_append_singleton]
    have hplace : inner :: outer ∈ kind.places := (hstands.suffix hopen).resolve_left (by simp)
    have hplain := (Kind.place_facts hplace).2.2
    refine ⟨?_, started_of_open hnested hopen⟩
    rw [Kind.check_eq (hplain inner (by simp)) fun name hname => hplain name (by simp [hname]),
      if_pos hplace]

theorem nestedInclude_placed :
    (∀ name ∈ ["include", "symbols"], PathName name) ∧
      Kind.prerequisites.check "include" ["symbols"] = .ok () ∧
      (∀ name ∈ ["symbols", "include"], PathName name) ∧
      Kind.prerequisites.check "symbols" ["include"] =
        .error (.misplaced "symbols" "symbols/include") ∧
      Kind.prerequisites.Accepts (.ofBytes (ascii "<symbols><include>us</include></symbols>")) ∧
      ∀ before event after,
        (Source.ofBytes (ascii "<symbols><include>us</include></symbols>")).events =
          before ++ event :: after →
        (openElements (before ++ [event])).length ≤ 3 := by
  have hinner : ∀ name ∈ ["include", "symbols"], PathName name := by
    simp [PathName, Plain]
  have houter : ∀ name ∈ ["symbols", "include"], PathName name := by
    simp [PathName, Plain]
  have hread :
      Kind.prerequisites.Accepts (.ofBytes (ascii "<symbols><include>us</include></symbols>")) :=
    ⟨["us"], by decide +kernel⟩
  obtain ⟨hplaces, -, haccepted⟩ := paths_tell_places .prerequisites
  refine ⟨hinner, ?_, houter, ?_, hread, fun before event after hsplit => ?_⟩
  · exact (hplaces "include" ["symbols"] hinner).2.trans (if_pos (by decide))
  · exact (hplaces "symbols" ["include"] houter).2.trans (if_neg (by decide))
  · exact (haccepted _ hread before event after hsplit).1

end KeyLayout.Document
