import KeyLayout.Model.KeyboardStore
import Mathlib.Data.List.Induction

/-! Using a keyboard changes the flags of its keys and nothing else. -/
namespace KeyLayout.Model

section names
variable {first : Key} {keys : List Key} {name : String} {i : Nat}

/-- The key at this position has the name, and none behind it has. -/
structure LastNamed (keys : List Key) (name : String) (i : Nat) : Prop where
  named : ∃ key, keys[i]? = some key ∧ key.name = name
  last : ∀ j key, keys[j]? = some key → key.name = name → j ≤ i

theorem lastNamed_cons_zero :
    LastNamed (first :: keys) name 0 ↔ first.name = name ∧ ∀ key ∈ keys, key.name ≠ name := by
  constructor
  · rintro ⟨⟨key, hkey, hname⟩, hlast⟩
    obtain rfl : first = key := Option.some_inj.1 hkey
    refine ⟨hname, fun other hother hsame => ?_⟩
    obtain ⟨j, hj⟩ := List.getElem?_of_mem hother
    exact absurd (hlast (j + 1) other hj hsame) (by omega)
  · rintro ⟨hname, hmore⟩
    refine ⟨⟨first, rfl, hname⟩, fun j key hkey hsame => ?_⟩
    cases j with
    | zero => exact Nat.le_refl 0
    | succ j => exact absurd hsame (hmore key (List.mem_of_getElem? hkey))

theorem lastNamed_cons_succ : LastNamed (first :: keys) name (i + 1) ↔ LastNamed keys name i := by
  constructor
  · rintro ⟨hnamed, hlast⟩
    exact ⟨hnamed, fun j key hkey hsame => Nat.le_of_succ_le_succ (hlast (j + 1) key hkey hsame)⟩
  · rintro ⟨hnamed, hlast⟩
    refine ⟨hnamed, fun j key hkey hsame => ?_⟩
    cases j with
    | zero => exact Nat.zero_le _
    | succ j => exact Nat.succ_le_succ (hlast j key hkey hsame)

theorem lastNamed?_eq_none :
    Keyboard.lastNamed? name keys = none ↔ ∀ key ∈ keys, key.name ≠ name := by
  induction keys with
  | nil => simp [Keyboard.lastNamed?]
  | cons first keys ih =>
    rw [List.forall_mem_cons, ← ih]
    cases hl : Keyboard.lastNamed? name keys with
    | some j => simp [Keyboard.lastNamed?, hl]
    | none => simp [Keyboard.lastNamed?, hl]

theorem lastNamed?_eq_some_iff :
    Keyboard.lastNamed? name keys = some i ↔ LastNamed keys name i := by
  induction keys generalizing i with
  | nil => exact ⟨nofun, fun h => by simpa using h.named⟩
  | cons first keys ih =>
    cases i with
    | succ i =>
      rw [lastNamed_cons_succ, ← ih]
      cases hl : Keyboard.lastNamed? name keys with
      | some j => simp [Keyboard.lastNamed?, hl]
      | none => simp [Keyboard.lastNamed?, hl]
    | zero =>
      rw [lastNamed_cons_zero, ← lastNamed?_eq_none]
      cases hl : Keyboard.lastNamed? name keys with
      | some j => simp [Keyboard.lastNamed?, hl]
      | none => simp [Keyboard.lastNamed?, hl]

theorem lastNamed?_concat (keys : List Key) (key : Key) (name : String) :
    Keyboard.lastNamed? name (keys ++ [key]) =
      if key.name = name then some keys.length else Keyboard.lastNamed? name keys := by
  induction keys with
  | nil => rfl
  | cons first more ih =>
    rw [List.cons_append, Keyboard.lastNamed?, ih, Keyboard.lastNamed?]
    split_ifs <;> rfl

theorem indexNames_concat (keys : List Key) (key : Key) :
    indexNames (keys ++ [key]) = (key.name, keys.length) :: indexNames keys := by
  simp [indexNames, List.zipIdx_append]

/-- The index finds the key that a search from the end finds. -/
theorem lookup_indexNames (keys : List Key) (name : String) :
    (indexNames keys).lookup name = Keyboard.lastNamed? name keys := by
  induction keys using List.reverseRecOn with
  | nil => rfl
  | append_singleton keys key ih =>
    rw [indexNames_concat, lastNamed?_concat, List.lookup_cons, ih]
    by_cases hname : key.name = name
    · simp [hname]
    · simp [hname, beq_eq_false_iff_ne.2 (Ne.symm hname)]

end names

section flags

def Key.released (key : Key) : Key := { key with pressed := false, locked := false }

def Key.withFlag (key : Key) (flag : Flag) (value : Bool) : Key :=
  match flag with
  | .pressed => { key with pressed := value }
  | .locked => { key with locked := value }

/-- No flag disturbs the other. -/
theorem Key.flag_withFlag (key : Key) (flag other : Flag) (value : Bool) :
    (key.withFlag flag value).flag other = if flag = other then value else key.flag other := by
  cases flag <;> cases other <;> rfl

@[simp] theorem Key.released_withFlag (key : Key) (flag : Flag) (value : Bool) :
    (key.withFlag flag value).released = key.released := by
  cases flag <;> rfl

theorem Keyboard.setFlag?_eq (k : Keyboard) (flag : Flag) (i : Nat) (value : Bool) :
    k.setFlag? flag i value =
      if i < k.keys.length then some { k with keys := k.keys.modify i (·.withFlag flag value) }
      else none := by
  cases flag <;> rfl

end flags

def Keyboard.released (k : Keyboard) : Keyboard := { k with keys := k.keys.map Key.released }

/-- What does not look at the flags tells the same of the keys of both. -/
theorem Keyboard.map_eq_of_released {k l : Keyboard} (h : l.released = k.released)
    {α : Type} (f : Key → α)
    (hf : ∀ key : Key, f key.released = f key) (i : Nat) : l.keys[i]?.map f = k.keys[i]?.map f := by
  have hreleased (k : Keyboard) : k.released.keys[i]?.map f = k.keys[i]?.map f := by
    simp [released, Function.comp_def, hf]
  rw [← hreleased, h, hreleased]

namespace KeyboardStore

/-- Two stores answer alike to every question but that for a flag. -/
structure SameButFlags (t u : KeyboardStore) : Prop where
  keys : u.keyboard.keys.map Key.released = t.keyboard.keys.map Key.released
  findKey? (name : String) : u.findKey? name = t.findKey? name
  groups (i : Nat) : u.keyboard.keys[i]?.map Key.groups = t.keyboard.keys[i]?.map Key.groups
  levelsIn (i group : Nat) :
    u.keyboard.keys[i]?.map (·.levelsIn group) = t.keyboard.keys[i]?.map (·.levelsIn group)
  symbolAt? (i group level : Nat) :
    u.keyboard.keys[i]?.map (·.symbolAt? group level) =
      t.keyboard.keys[i]?.map (·.symbolAt? group level)
  outlineOf? (i : Nat) : u.keyboard.outlineOf? i = t.keyboard.outlineOf? i
  keysIn (s : Section) :
    (u.keyboard.keysIn s).map Key.released = (t.keyboard.keysIn s).map Key.released
  descriptor : u.keyboard.descriptor = t.keyboard.descriptor
  bounds : u.keyboard.bounds = t.keyboard.bounds
  sections : u.keyboard.sections = t.keyboard.sections
  outlines : u.keyboard.outlines = t.keyboard.outlines
  numLock : u.keyboard.numLock = t.keyboard.numLock
  altGr : u.keyboard.altGr = t.keyboard.altGr

theorem sameButFlags_of_released {t u : KeyboardStore}
    (hkeyboard : u.keyboard.released = t.keyboard.released)
    (hindex : u.index = t.index) : SameButFlags t u where
  keys := congrArg Keyboard.keys hkeyboard
  findKey? name := by rw [findKey?, findKey?, hindex]
  groups := Keyboard.map_eq_of_released hkeyboard _ fun _ => rfl
  levelsIn i group := Keyboard.map_eq_of_released hkeyboard (·.levelsIn group) (fun _ => rfl) i
  symbolAt? i group level :=
    Keyboard.map_eq_of_released hkeyboard (·.symbolAt? group level) (fun _ => rfl) i
  outlineOf? i := by
    have houtline := Keyboard.map_eq_of_released hkeyboard Key.outline (fun _ => rfl) i
    have houtlines : u.keyboard.outlines = t.keyboard.outlines :=
      (congrArg Keyboard.outlines hkeyboard :)
    have hbind (k : Keyboard) :
        k.outlineOf? i = (k.keys[i]?.map Key.outline).bind k.outlines.get? := by
      rw [Option.bind_map]
      rfl
    rw [hbind, hbind, houtline, houtlines]
  keysIn s := by
    have hkeys (k : Keyboard) :
        (k.keysIn s).map Key.released = s.keys.filterMap (k.released.keys[·]?) := by
      simp [Keyboard.keysIn, Keyboard.released, List.map_filterMap]
    rw [hkeys, hkeys, hkeyboard]
  descriptor := (congrArg Keyboard.descriptor hkeyboard :)
  bounds := (congrArg Keyboard.bounds hkeyboard :)
  sections := (congrArg Keyboard.sections hkeyboard :)
  outlines := (congrArg Keyboard.outlines hkeyboard :)
  numLock := (congrArg Keyboard.numLock hkeyboard :)
  altGr := (congrArg Keyboard.altGr hkeyboard :)

variable (t : KeyboardStore)

/-- Only the key with the number changes, and nothing if there is none. -/
theorem set_eq (setting : Setting) :
    t.set setting =
      ({ t with keyboard := { t.keyboard with
          keys := t.keyboard.keys.modify setting.key (·.withFlag setting.flag setting.value) } },
        decide (setting.key < t.keyboard.keys.length)) := by
  unfold set
  rw [Keyboard.setFlag?_eq]
  by_cases hkey : setting.key < t.keyboard.keys.length
  · simp [hkey]
  · have hsame :=
      List.modify_eq_self (f := (·.withFlag setting.flag setting.value)) (Nat.le_of_not_lt hkey)
    simp [hkey, hsame]

/-! What one call does -/

@[simp] theorem answer_set (setting : Setting) :
    (t.set setting).2 = decide (setting.key < t.keyboard.keys.length) := by
  rw [set_eq]

@[simp] theorem length_set (setting : Setting) :
    (t.set setting).1.keyboard.keys.length = t.keyboard.keys.length := by
  rw [set_eq, List.length_modify]

theorem flag_set (setting : Setting) (i : Nat) (flag : Flag) :
    (t.set setting).1.keyboard.keys[i]?.map (·.flag flag) =
      t.keyboard.keys[i]?.map fun key =>
        if setting.key = i ∧ setting.flag = flag then setting.value else key.flag flag := by
  rw [set_eq]
  by_cases hkey : setting.key = i
  · simp [hkey, Function.comp_def, Key.flag_withFlag]
  · simp [hkey]

@[simp] theorem index_set (setting : Setting) : (t.set setting).1.index = t.index := by
  rw [set_eq]

@[simp] theorem released_set (setting : Setting) :
    (t.set setting).1.keyboard.released = t.keyboard.released := by
  have hkeys :
      (t.keyboard.keys.modify setting.key (·.withFlag setting.flag setting.value)).map
        Key.released =
      t.keyboard.keys.map Key.released := by
    refine List.ext_getElem? fun i => ?_
    by_cases hkey : setting.key = i
    · simp [hkey, Function.comp_def]
    · simp [hkey]
  rw [set_eq]
  simp [Keyboard.released, hkeys]

/-! What a row of calls does -/

theorem setAll_cons (setting : Setting) (more : List Setting) :
    t.setAll (setting :: more) =
      (((t.set setting).1.setAll more).1,
        (t.set setting).2 :: ((t.set setting).1.setAll more).2) := rfl

theorem answers_setAll (settings : List Setting) :
    (t.setAll settings).2 = settings.map fun setting =>
      decide (setting.key < t.keyboard.keys.length) := by
  induction settings generalizing t with
  | nil => rfl
  | cons setting more ih => simp [setAll_cons, ih]

theorem index_setAll (settings : List Setting) : (t.setAll settings).1.index = t.index := by
  induction settings generalizing t with
  | nil => rfl
  | cons setting more ih => simp [setAll_cons, ih]

theorem released_setAll (settings : List Setting) :
    (t.setAll settings).1.keyboard.released = t.keyboard.released := by
  induction settings generalizing t with
  | nil => rfl
  | cons setting more ih => simp [setAll_cons, ih]

/-- The value that a flag of a key was set to last. -/
def lastSet (settings : List Setting) (i : Nat) (flag : Flag) : Option Bool :=
  (settings.filter fun s => s.key = i ∧ s.flag = flag).getLast?.map (·.value)

theorem lastSet_cons (setting : Setting) (more : List Setting) (i : Nat) (flag : Flag) :
    lastSet (setting :: more) i flag =
      if setting.key = i ∧ setting.flag = flag then some ((lastSet more i flag).getD setting.value)
      else lastSet more i flag := by
  unfold lastSet
  split_ifs with h
  · rw [List.filter_cons_of_pos (by simpa using h), List.getLast?_cons]
    cases (more.filter fun s => s.key = i ∧ s.flag = flag).getLast? <;> rfl
  · rw [List.filter_cons_of_neg (by simpa using h)]

theorem flag_setAll (settings : List Setting) (i : Nat) (flag : Flag) :
    (t.setAll settings).1.keyboard.keys[i]?.map (·.flag flag) =
      t.keyboard.keys[i]?.map fun key => (lastSet settings i flag).getD (key.flag flag) := by
  induction settings generalizing t with
  | nil => rfl
  | cons setting more ih =>
    let held (value : Bool) : Bool := (lastSet more i flag).getD value
    calc ((t.setAll (setting :: more)).1.keyboard.keys[i]?.map (·.flag flag))
      _ = (t.set setting).1.keyboard.keys[i]?.map fun key => held (key.flag flag) := ih _
      _ = ((t.set setting).1.keyboard.keys[i]?.map (·.flag flag)).map held := by
        rw [Option.map_map]; rfl
      _ = t.keyboard.keys[i]?.map fun key =>
        (lastSet (setting :: more) i flag).getD (key.flag flag) := by
        rw [flag_set, Option.map_map, lastSet_cons]
        congr 1
        funext key
        simp only [Function.comp_apply]
        split_ifs <;> rfl

/-- Known numbers of a section have keys, in the order of its rows. -/
theorem keysIn_known (k : Keyboard) (s : Section) :
    (k.keysIn s).map some = (s.keys.filter (· < k.keys.length)).map fun i => k.keys[i]? := by
  unfold Keyboard.keysIn
  induction s.keys with
  | nil => rfl
  | cons i more ih =>
    by_cases hi : i < k.keys.length
    · simp [hi, ih]
    · simp [hi, ih]

/-- The flags of keys that are made anew are those that are set. -/
theorem flag_setAll_of_new (hnew : ∀ key ∈ t.keyboard.keys,
    key.pressed = false ∧ key.locked = false)
    (settings : List Setting) (i : Nat) (flag : Flag) :
    (t.setAll settings).1.keyboard.keys[i]?.map (·.flag flag) =
      t.keyboard.keys[i]?.map fun _ => (lastSet settings i flag).getD false := by
  rw [flag_setAll]
  apply Option.map_congr
  intro key hkey
  have hreleased := hnew key (List.mem_of_getElem? hkey)
  cases flag with
  | pressed => rw [Key.flag, hreleased.1]
  | locked => rw [Key.flag, hreleased.2]

/-- Each call answers whether there is such a key; a flag has the value that it was set
to last, else the one that the key was made with, which of a new key is that it is not
set. Nothing else changes: a name finds the last key that has it, and a section has those
of its keys that are there. -/
theorem only_flags_change (k : Keyboard) (settings : List Setting) :
    let made := ofKeyboard k
    let used := (made.setAll settings).1
    (made.setAll settings).2 = settings.map (fun setting => decide (setting.key < k.keys.length)) ∧
      (∀ i flag, used.keyboard.keys[i]?.map (·.flag flag) =
        k.keys[i]?.map fun key => (lastSet settings i flag).getD (key.flag flag)) ∧
      ((∀ key ∈ k.keys, key.pressed = false ∧ key.locked = false) →
        ∀ i flag, used.keyboard.keys[i]?.map (·.flag flag) =
          k.keys[i]?.map fun _ => (lastSet settings i flag).getD false) ∧
      (∀ name i, used.findKey? name = some i ↔ LastNamed k.keys name i) ∧
      (∀ s, (used.keyboard.keysIn s).map some =
        (s.keys.filter (· < k.keys.length)).map fun i => used.keyboard.keys[i]?) ∧
      SameButFlags made used := by
  intro made used
  have hindex : used.index = made.index := index_setAll made settings
  have hreleased : used.keyboard.released = made.keyboard.released := released_setAll made settings
  have hlength : used.keyboard.keys.length = made.keyboard.keys.length := by
    simpa [Keyboard.released] using congrArg (·.keys.length) hreleased
  have hfound (name : String) (i : Nat) : used.findKey? name = some i ↔
      LastNamed k.keys name i := by
    rw [findKey?, hindex, ← lastNamed?_eq_some_iff, ← lookup_indexNames]
    rfl
  have hkeysIn (s : Section) : (used.keyboard.keysIn s).map some =
      (s.keys.filter (· < k.keys.length)).map fun i => used.keyboard.keys[i]? := by
    rw [keysIn_known, hlength]
    rfl
  exact ⟨answers_setAll made settings, flag_setAll made settings,
    fun hnew => flag_setAll_of_new made hnew settings, hfound, hkeysIn,
    sameButFlags_of_released hreleased hindex⟩

/-- Two keys of one name, and a row with a number that no key has. -/
def twins : Keyboard where
  descriptor := { id := "us", geometry := "pc" }
  bounds := none
  sections := [{ rows := [[1, 7], [0]] }]
  keys := [⟨"AC01", 38, 0, [], false, false⟩, ⟨"AC02", 39, 0, [], false, false⟩,
    ⟨"AC01", 40, 0, [], false, false⟩]
  outlines := {}

def twinCalls : List Setting :=
  [⟨2, .pressed, true⟩, ⟨7, .locked, true⟩, ⟨2, .locked, true⟩, ⟨2, .pressed, false⟩]

def heldTwins : Keyboard :=
  { twins with keys := twins.keys.map fun key => { key with pressed := true } }

theorem twins_flags :
    (∀ key ∈ twins.keys, key.pressed = false ∧ key.locked = false) ∧
      ((ofKeyboard twins).setAll twinCalls).2 = [true, false, true, true] ∧
      ((ofKeyboard twins).setAll twinCalls).1.keyboard.keys[2]?.map (·.flag .pressed) = some false ∧
      ((ofKeyboard twins).setAll twinCalls).1.keyboard.keys[2]?.map (·.flag .locked) = some true ∧
      ((ofKeyboard twins).setAll twinCalls).1.findKey? "AC01" = some 2 ∧
      ((ofKeyboard heldTwins).setAll twinCalls).1.keyboard.keys[1]?.map (·.flag .pressed) =
        some true ∧
      ((ofKeyboard heldTwins).setAll twinCalls).1.keyboard.keys[2]?.map (·.flag .pressed) =
        some false := by
  have hnew : ∀ key ∈ twins.keys, key.pressed = false ∧ key.locked = false := by decide
  obtain ⟨hanswers, -, hflags, hfound, -⟩ := only_flags_change twins twinCalls
  obtain ⟨-, hheld, -⟩ := only_flags_change heldTwins twinCalls
  have hlast : LastNamed twins.keys "AC01" 2 := lastNamed?_eq_some_iff.1 rfl
  exact ⟨hnew, hanswers, hflags hnew 2 .pressed, hflags hnew 2 .locked, (hfound "AC01" 2).2 hlast,
    hheld 1 .pressed, hheld 2 .pressed⟩

end KeyboardStore
end KeyLayout.Model
