/-! The documents that are always there, and their names. -/
namespace KeyLayout.Resource

def catalogText : String := r#"<?xml version="1.0" encoding="UTF-8"?>
<keyboards>
  <keyboard id="us" name="English (US)" geometry="compact" symbols="us" longname="English" language="en"/>
  <keyboard id="de" name="Deutsch" geometry="compact" symbols="de" longname="German" language="de"/>
  <keyboard id="number" name="Numbers" geometry="numpad" symbols="number" longname="Number pad"/>
</keyboards>
"#

def compactGeometry : String := r#"<?xml version="1.0" encoding="UTF-8"?>
<!-- Four-row phone-style layout. Rows are listed as key names. -->
<geometry version="0.90">
  <bounds x="10.0" y="10.0" width="410.0" height="229.0"/>
  <section id="letters" angle="0">
    AD01 AD02 AD03 AD04 AD05 AD06 AD07 AD08 AD09 AD10
    AC01 AC02 AC03 AC04 AC05 AC06 AC07 AC08 AC09
    LFSH AB01 AB02 AB03 AB04 AB05 AB06 AB07 BKSP
  </section>
  <section id="bottom" angle="0">
    <bounds x="0.0" y="172.0" width="410.0" height="57.0"/>
    PREF AB08 SPCE AB09 <button name="RTRN" oref="wide"/>
  </section>
  <button name="LFSH" oref="altline"/>
  <button name="BKSP" oref="altline"/>
  <button name="PREF" oref="altline"/>
  <button name="SPCE" oref="spaceline"/>
  <outline id="default" corner-radius="1.000000">
    <point x="0.0" y="0.0"/>
    <point x="37.4" y="0.0"/>
    <point x="37.4" y="52.0"/>
    <point x="0.0" y="52.0"/>
  </outline>
  <outline id="altline" corner-radius="1.000000">
    <point x="0.0" y="0.0"/>
    <point x="48.0" y="0.0"/>
    <point x="48.0" y="52.0"/>
    <point x="0.0" y="52.0"/>
  </outline>
  <outline id="wide" corner-radius="1.000000">
    <point x="0.0" y="0.0"/>
    <point x="62.0" y="0.0"/>
    <point x="62.0" y="52.0"/>
    <point x="0.0" y="52.0"/>
  </outline>
  <outline id="spaceline" corner-radius="1.000000">
    <point x="0.0" y="0.0"/>
    <point x="150.0" y="0.0"/>
    <point x="150.0" y="52.0"/>
    <point x="0.0" y="52.0"/>
  </outline>
</geometry>
"#

def numpadGeometry : String := r#"<?xml version="1.0" encoding="UTF-8"?>
<geometry version="0.90">
  <bounds x="10.0" y="10.0" width="410.0" height="229.0"/>
  <section id="digits">
    <button name="KP7"/> <button name="KP8"/> <button name="KP9"/>
    KP4 KP5 KP6
    KP1 KP2 KP3
    ABC KP0 KPBS KPEN
  </section>
  <button name="ABC" oref="wide"/>
  <button name="KPEN" oref="wide"/>
  <outline id="default" corner-radius="2.0">
    <point x="0.0" y="0.0"/>
    <point x="120.0" y="0.0"/>
    <point x="120.0" y="52.0"/>
    <point x="0.0" y="52.0"/>
  </outline>
  <outline id="wide" corner-radius="2.0">
    <point x="0.0" y="0.0"/>
    <point x="90.0" y="0.0"/>
    <point x="90.0" y="52.0"/>
    <point x="0.0" y="52.0"/>
  </outline>
</geometry>
"#

def commonSymbols : String := r#"<?xml version="1.0" encoding="UTF-8"?>
<!-- Keys shared by every letter layout. -->
<symbols>
  <key name="LFSH">
    <symbol label="⇧" tooltip="Shift">Shift_L</symbol>
  </key>
  <key name="BKSP">
    <keysym keyval="0xff08" icon="edit-clear-symbolic" tooltip="Erase">BackSpace</keysym>
  </key>
  <key name="PREF">
    <keysym keyval="0xffb0" label="123" tooltip="Numbers">show_numbers</keysym>
  </key>
  <key name="SPCE">
    <text label=" ">&#32;</text>
  </key>
  <key name="RTRN">
    <keysym keyval="0xff0d" label="⏎">Return</keysym>
  </key>
  <key name="AB08">
    <text>,</text>
    <text>;</text>
  </key>
  <key name="AB09">
    <text>.</text>
    <text>:</text>
  </key>
</symbols>
"#

def germanSymbols : String := r#"<?xml version="1.0" encoding="UTF-8"?>
<symbols>
  <include>common</include>
  <key name="AD01"><text>q</text><text>Q</text></key>
  <key name="AD02"><text>w</text><text>W</text></key>
  <key name="AD03"><text>e</text><text>E</text></key>
  <key name="AD04"><text>r</text><text>R</text></key>
  <key name="AD05"><text>t</text><text>T</text></key>
  <key name="AD06"><text>z</text><text>Z</text></key>
  <key name="AD07" groups="2">
    <text>u</text><text>U</text>
    <text>ü</text><text>Ü</text>
  </key>
  <key name="AD08"><text>i</text><text>I</text></key>
  <key name="AD09"><text>o</text><text>O</text></key>
  <key name="AD10"><text>p</text><text>P</text></key>
  <key name="AC01" groups="2">
    <text>a</text><text>A</text>
    <text>ä</text><text>Ä</text>
  </key>
  <key name="AC02" groups="2">
    <text>s</text><text>S</text>
    <text>ß</text><text>ẞ</text>
  </key>
  <key name="AC03"><text>d</text><text>D</text></key>
  <key name="AC04"><text>f</text><text>F</text></key>
  <key name="AC05"><text>g</text><text>G</text></key>
  <key name="AC06"><text>h</text><text>H</text></key>
  <key name="AC07"><text>j</text><text>J</text></key>
  <key name="AC08"><text>k</text><text>K</text></key>
  <key name="AC09" groups="2">
    <text>l</text><text>L</text>
    <text>ö</text><text>Ö</text>
  </key>
  <key name="AB01"><text>y</text><text>Y</text></key>
  <key name="AB02"><text>x</text><text>X</text></key>
  <key name="AB03"><text>c</text><text>C</text></key>
  <key name="AB04"><text>v</text><text>V</text></key>
  <key name="AB05"><text>b</text><text>B</text></key>
  <key name="AB06"><text>n</text><text>N</text></key>
  <key name="AB07"><text>m</text><text>M</text></key>
</symbols>
"#

def numberSymbols : String := r#"<?xml version="1.0" encoding="UTF-8"?>
<symbols>
  <key name="KP7"><keysym keyval="0xffb7" label="7">KP_7</keysym></key>
  <key name="KP8"><keysym keyval="0xffb8" label="8">KP_8</keysym></key>
  <key name="KP9"><keysym keyval="0xffb9" label="9">KP_9</keysym></key>
  <key name="KP4"><keysym keyval="0xffb4" label="4">KP_4</keysym></key>
  <key name="KP5"><keysym keyval="0xffb5" label="5">KP_5</keysym></key>
  <key name="KP6"><keysym keyval="0xffb6" label="6">KP_6</keysym></key>
  <key name="KP1"><keysym keyval="0xffb1" label="1">KP_1</keysym></key>
  <key name="KP2"><keysym keyval="0xffb2" label="2">KP_2</keysym></key>
  <key name="KP3"><keysym keyval="0xffb3" label="3">KP_3</keysym></key>
  <key name="KP0"><keysym keyval="0xffb0" label="0">KP_0</keysym></key>
  <key name="ABC">
    <keysym keyval="0xff7e" label="ABC" tooltip="Letters">show_letters</keysym>
    <invalid/>
  </key>
  <key name="KPBS">
    <symbol icon="edit-clear-symbolic">BackSpace</symbol>
  </key>
  <key name="KPEN">
    <keysym keyval="0xff8d" label="⏎">KP_Enter</keysym>
  </key>
</symbols>
"#

def americanSymbols : String := r#"<?xml version="1.0" encoding="UTF-8"?>
<symbols>
  <include>common</include>
  <key name="AD01"><text>q</text><text>Q</text></key>
  <key name="AD02"><text>w</text><text>W</text></key>
  <key name="AD03"><text>e</text><text>E</text></key>
  <key name="AD04"><text>r</text><text>R</text></key>
  <key name="AD05"><text>t</text><text>T</text></key>
  <key name="AD06"><text>y</text><text>Y</text></key>
  <key name="AD07"><text>u</text><text>U</text></key>
  <key name="AD08"><text>i</text><text>I</text></key>
  <key name="AD09"><text>o</text><text>O</text></key>
  <key name="AD10"><text>p</text><text>P</text></key>
  <key name="AC01"><text>a</text><text>A</text></key>
  <key name="AC02"><text>s</text><text>S</text></key>
  <key name="AC03"><text>d</text><text>D</text></key>
  <key name="AC04"><text>f</text><text>F</text></key>
  <key name="AC05"><text>g</text><text>G</text></key>
  <key name="AC06"><text>h</text><text>H</text></key>
  <key name="AC07"><text>j</text><text>J</text></key>
  <key name="AC08"><text>k</text><text>K</text></key>
  <key name="AC09"><text>l</text><text>L</text></key>
  <key name="AB01"><text>z</text><text>Z</text></key>
  <key name="AB02"><text>x</text><text>X</text></key>
  <key name="AB03"><text>c</text><text>C</text></key>
  <key name="AB04"><text>v</text><text>V</text></key>
  <key name="AB05"><text>b</text><text>B</text></key>
  <key name="AB06"><text>n</text><text>N</text></key>
  <key name="AB07"><text>m</text><text>M</text></key>
</symbols>
"#

/-- The bundled documents by the part of their names that tells them apart. -/
def documents : List (String × String) :=
  [("keyboards.xml", catalogText),
    ("geometry/compact.xml", compactGeometry),
    ("geometry/numpad.xml", numpadGeometry),
    ("symbols/common.xml", commonSymbols),
    ("symbols/de.xml", germanSymbols),
    ("symbols/number.xml", numberSymbols),
    ("symbols/us.xml", americanSymbols)]

def bundledFolder : List Char := "/keyloom/keyboards/".toList

/-- A backslash separates names as a slash does. -/
def slashed (name : List Char) : List Char := name.map fun c => if c = '\\' then '/' else c

/-- The bundled document of this name. -/
def bundled? (name : String) : Option String :=
  if bundledFolder.isPrefixOf name.toList then
    documents.lookup (String.ofList (slashed (name.toList.drop bundledFolder.length)))
  else none

theorem mem_documents_of_bundled? {name text : String} (h : bundled? name = some text) :
    ∃ document ∈ documents, document.2 = text := by
  unfold bundled? at h
  split at h
  · obtain ⟨front, back, split, _⟩ := List.lookup_eq_some_iff.1 h
    refine ⟨(String.ofList (slashed (name.toList.drop bundledFolder.length)), text), ?_, rfl⟩
    simp [split]
  · simp at h

end KeyLayout.Resource
