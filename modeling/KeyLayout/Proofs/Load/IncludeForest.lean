import KeyLayout.Load.Include
import KeyLayout.Proofs.Outcome
import Mathlib.Data.List.Nodup
import Mathlib.Data.List.Perm.Subperm
import Mathlib.Tactic.SplitIfs

/-! The documents that a symbols document leads to, as trees and in the order
in which they are visited. -/
namespace KeyLayout.Load
open Document Resource

/-- Trees of includes side by side: the first tree by its name and the trees
below it, then the others. -/
inductive IncludeForest where
  | nil
  | node (name : String) (below beside : IncludeForest)

namespace IncludeForest

def roots : IncludeForest → List String
  | nil => []
  | node name _ beside => name :: beside.roots

def preorder : IncludeForest → List String
  | nil => []
  | node name below beside => name :: (below.preorder ++ beside.preorder)

def postorder : IncludeForest → List String
  | nil => []
  | node name below beside => below.postorder ++ name :: beside.postorder

/-- Below each document stand the documents it includes, in its own order. -/
def Follows (lib : Library) (root : Name) : IncludeForest → Prop
  | nil => True
  | node name below beside =>
    includesOf lib root name = .ok below.roots ∧ below.Follows lib root ∧ beside.Follows lib root

theorem postorder_perm (t : IncludeForest) : t.postorder.Perm t.preorder := by
  induction t with
  | nil => exact .nil
  | node name below beside hbelow hbeside =>
    exact List.perm_middle.trans ((hbelow.append hbeside).cons name)

theorem roots_subset (t : IncludeForest) : t.roots ⊆ t.preorder := by
  induction t with
  | nil => exact List.nil_subset _
  | node name below beside _ hbeside =>
    exact List.cons_subset_cons _ (List.subset_append_of_subset_right _ hbeside)

end IncludeForest

variable {lib : Library} {root : Name}

theorem bindIncluding_of_mem {depth : Nat} {p : Progress} {name : String} (h : name ∈ p.entered) :
    bindIncluding lib root depth p name = .error (.repeatedInclude name) := by
  cases depth with
  | zero => rfl
  | succ depth => rw [bindIncluding, if_pos h]

theorem bindIncluding_of_not_mem {depth : Nat} {p : Progress} {name : String}
    (h : name ∉ p.entered) :
    bindIncluding lib root (depth + 1) p name = do
      let includes ← includesOf lib root name
      let p ← includes.foldlM (bindIncluding lib root depth) { p with entered := name :: p.entered }
      let geometry ← bindDocument lib root p.geometry name
      return { p with geometry } := by
  rw [bindIncluding, if_neg h]

/-- A walk that succeeds has gone through the forest of the includes, and has met no name before. -/
theorem forest_of_foldlM {depth : Nat} {names : List String} {p last : Progress}
    (h : names.foldlM (bindIncluding lib root depth) p = .ok last) :
    ∃ t : IncludeForest, t.roots = names ∧ t.Follows lib root ∧
      last.entered = t.preorder.reverse ++ p.entered ∧ (p.entered.Nodup → last.entered.Nodup) ∧
      t.postorder.foldlM (bindDocument lib root) p.geometry = .ok last.geometry := by
  induction depth generalizing names p last with
  | zero =>
    cases names with
    | nil =>
      obtain rfl : p = last := by simpa using h
      exact ⟨.nil, rfl, trivial, rfl, id, rfl⟩
    | cons name more => simp [bindIncluding] at h
  | succ depth ihdepth =>
    induction names generalizing p with
    | nil =>
      obtain rfl : p = last := by simpa using h
      exact ⟨.nil, rfl, trivial, rfl, id, rfl⟩
    | cons name more ihmore =>
      rw [List.foldlM_cons] at h
      obtain ⟨mid, hname, hmore⟩ := bind_eq_ok.1 h
      rw [bindIncluding] at hname
      split_ifs at hname with hfresh
      obtain ⟨includes, hincludes, hname⟩ := bind_eq_ok.1 hname
      obtain ⟨inner, hinner, hname⟩ := bind_eq_ok.1 hname
      obtain ⟨geometry, hgeometry, hname⟩ := bind_eq_ok.1 hname
      obtain rfl : { inner with geometry } = mid := by simpa using hname
      obtain ⟨below, hroots, hbelow, hentered, hnodup, hfold⟩ := ihdepth hinner
      obtain ⟨beside, hroots', hbeside, hentered', hnodup', hfold'⟩ := ihmore hmore
      refine ⟨.node name below beside, ?_, ?_, ?_, ?_, ?_⟩
      · rw [IncludeForest.roots, hroots']
      · exact ⟨hroots ▸ hincludes, hbelow, hbeside⟩
      · simp [hentered', hentered, IncludeForest.preorder]
      · exact fun hp => hnodup' (hnodup (List.nodup_cons.2 ⟨hfresh, hp⟩))
      · rw [IncludeForest.postorder, List.foldlM_append, hfold]
        simp only [ok_bind, List.foldlM_cons, hgeometry]
        exact hfold'

/-- What the walk does with a document: it enters it to see its includes, and later binds it. -/
inductive Visit where
  | enter (name : String)
  | bind (name : String)

namespace Visit

def entered? : Visit → Option String
  | enter name => some name
  | bind _ => none

def bound? : Visit → Option String
  | enter _ => none
  | bind name => some name

end Visit

def enteredNames (visits : List Visit) : List String := visits.filterMap Visit.entered?

def boundNames (visits : List Visit) : List String := visits.filterMap Visit.bound?

section names
variable (name : String) (visits more : List Visit)

@[simp] theorem enteredNames_nil : enteredNames [] = [] := rfl

@[simp] theorem boundNames_nil : boundNames [] = [] := rfl

@[simp] theorem enteredNames_append :
    enteredNames (visits ++ more) = enteredNames visits ++ enteredNames more :=
  List.filterMap_append

@[simp] theorem enteredNames_enter :
    enteredNames (.enter name :: visits) = name :: enteredNames visits := rfl

@[simp] theorem enteredNames_bind : enteredNames (.bind name :: visits) = enteredNames visits := rfl

@[simp] theorem boundNames_append :
    boundNames (visits ++ more) = boundNames visits ++ boundNames more :=
  List.filterMap_append

@[simp] theorem boundNames_enter : boundNames (.enter name :: visits) = boundNames visits := rfl

@[simp] theorem boundNames_bind :
    boundNames (.bind name :: visits) = name :: boundNames visits := rfl

end names

/-- The depth-first order in which the walk visits the documents that a document leads
to: the visits made, and those known to be ahead. It does not matter here whether a
name has been met before. -/
inductive DepthFirst (lib : Library) (root : Name) (start : String) :
    List Visit → List Visit → Prop where
  | start : DepthFirst lib root start [] [.enter start]
  | enter {done ahead : List Visit} {name : String} {includes : List String} :
      DepthFirst lib root start done (.enter name :: ahead) →
      includesOf lib root name = .ok includes →
      DepthFirst lib root start (done ++ [.enter name]) (includes.map .enter ++ .bind name :: ahead)
  | bind {done ahead : List Visit} {name : String} :
      DepthFirst lib root start done (.bind name :: ahead) →
      DepthFirst lib root start (done ++ [.bind name]) ahead

structure Reached (lib : Library) (root : Name) (geometry : Geometry) (done : List Visit)
    (p : Progress) : Prop where
  entered : p.entered = (enteredNames done).reverse
  nodup : (enteredNames done).Nodup
  bound : (boundNames done).foldlM (bindDocument lib root) geometry = .ok p.geometry

namespace Reached
variable {geometry : Geometry} {done : List Visit} {p : Progress} {name : String}

theorem start (lib : Library) (root : Name) (geometry : Geometry) :
    Reached lib root geometry [] { geometry } :=
  ⟨rfl, List.nodup_nil, rfl⟩

theorem enter (h : Reached lib root geometry done p) (hfresh : name ∉ p.entered) :
    Reached lib root geometry (done ++ [.enter name]) { p with entered := name :: p.entered } := by
  have hn : name ∉ enteredNames done := by simpa [h.entered] using hfresh
  refine ⟨by simp [h.entered], ?_, by simpa using h.bound⟩
  simpa [List.nodup_append] using ⟨h.nodup, fun other hother heq => hn (heq ▸ hother)⟩

theorem of_enter (h : Reached lib root geometry (done ++ [.enter name]) p) :
    ∃ q, Reached lib root geometry done q ∧ name ∉ q.entered ∧
      p = { q with entered := name :: q.entered } := by
  have hn : (enteredNames done ++ [name]).Nodup := by simpa using h.nodup
  obtain ⟨hdone, -, hfresh⟩ := List.nodup_append.1 hn
  refine ⟨{ p with entered := (enteredNames done).reverse },
    ⟨rfl, hdone, by simpa using h.bound⟩, ?_, ?_⟩
  · exact fun hmem => hfresh name (List.mem_reverse.1 hmem) name (List.mem_singleton_self _) rfl
  · have he : p.entered = name :: (enteredNames done).reverse := by simpa using h.entered
    rw [← he]

theorem of_bind (h : Reached lib root geometry (done ++ [.bind name]) p) :
    ∃ q, Reached lib root geometry done q ∧ bindDocument lib root q.geometry name = .ok p.geometry ∧
      p = { q with geometry := p.geometry } := by
  have hb :
      (boundNames done ++ [name]).foldlM (bindDocument lib root) geometry = .ok p.geometry := by
    simpa using h.bound
  rw [List.foldlM_append] at hb
  obtain ⟨before, hbefore, hbind⟩ := bind_eq_ok.1 hb
  have he : p.entered = (enteredNames done).reverse := by simpa using h.entered
  exact ⟨{ p with geometry := before }, ⟨he, by simpa using h.nodup, hbefore⟩,
    by simpa using hbind, rfl⟩

end Reached

/-- What goes wrong at a visit: the document was entered before, or cannot be
opened, scanned or bound. -/
inductive Fails (lib : Library) (root : Name) (p : Progress) : Visit → Error → Prop where
  | repeated {name : String} : name ∈ p.entered →
      Fails lib root p (.enter name) (.repeatedInclude name)
  | notScanned {name : String} {e : Error} :
      name ∉ p.entered → includesOf lib root name = .error e → Fails lib root p (.enter name) e
  | notBound {name : String} {e : Error} :
      bindDocument lib root p.geometry name = .error e → Fails lib root p (.bind name) e

def IncludeForest.visits : IncludeForest → List Visit
  | nil => []
  | node name below beside => .enter name :: (below.visits ++ .bind name :: beside.visits)

@[simp] theorem IncludeForest.enteredNames_visits (t : IncludeForest) :
    enteredNames t.visits = t.preorder := by
  induction t with
  | nil => rfl
  | node name below beside hbelow hbeside => simp [visits, preorder, hbelow, hbeside]

@[simp] theorem IncludeForest.boundNames_visits (t : IncludeForest) :
    boundNames t.visits = t.postorder := by
  induction t with
  | nil => rfl
  | node name below beside hbelow hbeside => simp [visits, postorder, hbelow, hbeside]

theorem IncludeForest.Follows.depthFirst {t : IncludeForest} (h : t.Follows lib root)
    {start : String}
    {done ahead : List Visit} (hd : DepthFirst lib root start done (t.roots.map .enter ++ ahead)) :
    DepthFirst lib root start (done ++ t.visits) ahead := by
  induction t generalizing done ahead with
  | nil => simpa [roots, visits] using hd
  | node name below beside hbelow hbeside =>
    obtain ⟨hincludes, hb, hs⟩ := h
    have hin := hbelow hb (hd.enter hincludes)
    have hout := hbeside hs hin.bind
    simpa [visits] using hout

theorem Reached.visits {geometry : Geometry} {done : List Visit} {p last : Progress}
    {t : IncludeForest} (h : Reached lib root geometry done p)
    (hentered : last.entered = t.preorder.reverse ++ p.entered) (hnodup : last.entered.Nodup)
    (hbound : t.postorder.foldlM (bindDocument lib root) p.geometry = .ok last.geometry) :
    Reached lib root geometry (done ++ t.visits) last := by
  have hl : last.entered = (enteredNames (done ++ t.visits)).reverse := by
    simp [hentered, h.entered]
  refine ⟨hl, ?_, ?_⟩
  · rw [hl, List.nodup_reverse] at hnodup
    exact hnodup
  · rw [boundNames_append, IncludeForest.boundNames_visits, List.foldlM_append, h.bound]
    exact hbound

/-- A walk that succeeds makes its visits and leaves those that were ahead of them. -/
theorem Reached.foldlM {geometry : Geometry} {start : String} {depth : Nat} {names : List String}
    {done ahead : List Visit} {p last : Progress} (hp : Reached lib root geometry done p)
    (hd : DepthFirst lib root start done (names.map .enter ++ ahead))
    (h : names.foldlM (bindIncluding lib root depth) p = .ok last) :
    ∃ made, DepthFirst lib root start made ahead ∧ Reached lib root geometry made last := by
  obtain ⟨t, hroots, hfollows, hentered, hnodup, hbound⟩ := forest_of_foldlM h
  have hn : p.entered.Nodup := by
    rw [hp.entered, List.nodup_reverse]
    exact hp.nodup
  exact ⟨done ++ t.visits, hfollows.depthFirst (hroots ▸ hd), hp.visits hentered (hnodup hn) hbound⟩

end KeyLayout.Load
