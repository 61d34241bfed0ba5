import Clausal.Proofs.Build
import Clausal.Proofs.Toml.Document
import Clausal.Scaffold

/-!
# The configuration of a new project

A new project gets a configuration file, in which its name stands between quotes just as it is.
`ofText_configText` reads the file back for a verbatim name, and
`verbatim_of_ofText_configText` shows that no other name is read back: either the file cannot be
read, or it gives the project another name.
-/

namespace Clausal

namespace Path

/-- A name that is one part of a path is added as such. -/
theorem child_eq {name : String} (h : ofString name = ⟨0, [name]⟩) (p : Path) :
    p.child name = ⟨p.slashes, p.parts ++ [name]⟩ := by
  rw [child, h]
  rfl

end Path

/-- Files with different names are apart, whatever directories they are in. -/
theorem FileTree.apart_child {name other : String} (hname : Path.ofString name = ⟨0, [name]⟩)
    (hother : Path.ofString other = ⟨0, [other]⟩) (hne : name ≠ other) (p q : Path) :
    Apart (p.child name) (q.child other) := by
  rw [Path.child_eq hname, Path.child_eq hother]
  refine ⟨by simp, by simp, ?_⟩
  rw [Path.name_of_parts rfl, Path.name_of_parts rfl]
  exact hne

/-- A package has the name that its section defines. -/
theorem Config.name_of_holds {es : Toml.Entries} {v : Toml.Value} {config : Config}
    (hes : es.Holds "name" v ["package"]) (h : ofDocument es.finish = .ok config) :
    config.package.name = v := by
  obtain ⟨part?, inner, hpackage, hname⟩ := hes
  have hsection : section? es.finish "package" = .ok (some (Toml.Entries.finish inner)) := by
    rw [section?, Toml.Entries.value?_finish, hpackage]
    rfl
  have hsetting : (Toml.Entries.finish inner).value? "name" = some v := by
    rw [Toml.Entries.value?_finish, hname]
    rfl
  rw [ofDocument, hsection] at h
  cases hbuild : section? es.finish "build" with
  | error f => simp [hbuild, bind, Except.bind] at h
  | ok build =>
    cases htools : section? es.finish "tools" with
    | error f => simp [hbuild, htools, bind, Except.bind] at h
    | ok tools =>
      simp only [hbuild, htools, bind, Except.bind, pure, Except.pure] at h
      cases h
      show setting _ _ _ = v
      rw [setting, hsetting]
      rfl

namespace Workspace

variable {w : Workspace} {p q : Path} {text : String} {bytes : ByteArray}

/-- A text that is written is there as its bytes. -/
theorem writeText_self (hp : p.parts ≠ []) : Ends (writeText p text) w
    (fun _ u => u.tree.read p = .ok text.toUTF8) fun _ _ => True :=
  ends_change (fun _ hwrite => FileTree.read_write_self hp hwrite) fun _ _ => trivial

/-- Writing one file leaves another one as it is. -/
theorem writeText_other (h : FileTree.Apart p q) (hread : w.tree.read q = .ok bytes) :
    Ends (writeText p text) w (fun _ u => u.tree.read q = .ok bytes) fun _ _ => True :=
  ends_change (fun _ hwrite => h.read_write hread hwrite) fun _ _ => trivial

/-- A look that succeeds leaves the workspace as it is. -/
theorem examine_run {α : Type} {f : FileTree → Except FileTree.Fault α} {a : α}
    (h : f w.tree = .ok a) : (examine f).run.run w = (.ok a, w) := by
  have hends : Ends (examine f) w (fun b u => b = a ∧ u = w) fun _ _ => False := by
    refine ends_examine (fun b hb => ⟨Except.ok.inj (hb.symm.trans h), rfl⟩) fun e he => ?_
    cases he.symm.trans h
  rcases hrun : (examine f).run.run w with ⟨e | b, u⟩
  · exact (hends.of_error hrun).elim
  · obtain ⟨rfl, rfl⟩ := hends.of_ok hrun
    rfl

/-- A file with a text is loaded as the configuration that the text describes. -/
theorem loadConfig_run (h : w.tree.read p = .ok text.toUTF8) :
    (loadConfig p).run.run w = ((Config.ofText text.toList).mapError .badConfig, w) := by
  have hdecode : String.fromUTF8? text.toUTF8 = some text := dif_pos text.isValidUTF8
  have hbytes : Config.ofBytes text.toUTF8 = Config.ofText text.toList := by
    rw [Config.ofBytes, hdecode]
  rw [loadConfig, run_bind, examine_run h]
  dsimp only
  rw [hbytes]
  cases Config.ofText text.toList <;> rfl

end Workspace

namespace Scaffold

open Toml Workspace

variable {name : String}

/-! ## The file -/

/-- What is left to do once it is known where a project goes. -/
@[irreducible]
def make (name : String) (project : Path) : WorkM Path := do
  if (← examine (·.find? project)).isSome then throw (.projectExists name)
  makeDirectories (project.child "src") false
  writeText (project.child Config.fileName) (configText name)
  writeText ((project.child "src").child "main.muru") programText
  writeText (project.child ".gitignore") ignoreText
  writeText (project.child "README.md") (readmeText name)
  return project

/-- A new project is made in the given directory, or in the current one. -/
theorem scaffold_eq (name : String) (parent? : Option Path) : scaffold name parent? =
    parent?.elim currentDirectory pure >>= fun base => make name (base.child name) := by
  unfold make
  cases parent? <;> rfl

/-- A project that was made has its configuration file: the files that are written after it have
other names. -/
theorem make_spec (name : String) (project : Path) (w : Workspace) :
    Ends (make name project) w (fun made u =>
      u.tree.read (made.child Config.fileName) = .ok (configText name).toUTF8)
      fun _ _ => True := by
  have hconfig : Path.ofString Config.fileName = ⟨0, [Config.fileName]⟩ := by decide
  have hapart : ∀ other, Path.ofString other = ⟨0, [other]⟩ → other ≠ Config.fileName →
      ∀ p : Path, FileTree.Apart (p.child other) (project.child Config.fileName) :=
    fun other hother hne p => FileTree.apart_child hother hconfig hne p project
  have hreadme := hapart "README.md" (by decide) (by decide) project
  unfold make
  refine ends_bind.2 (ends_examine (fun entry? _ => ?_) fun _ _ => trivial)
  split
  · trivial
  · refine makeDirectories_spec.bind fun _ v _ => ?_
    refine (writeText_self hreadme.right).bind fun _ v hread => ?_
    refine (writeText_other (hapart "main.muru" (by decide) (by decide) _) hread).bind
      fun _ v hread => ?_
    refine (writeText_other (hapart ".gitignore" (by decide) (by decide) _) hread).bind
      fun _ v hread => ?_
    exact (writeText_other hreadme hread).bind fun _ v hread => hread

/-- Of a new project, the configuration is what was written for its name. -/
theorem scaffold_spec (name : String) (parent? : Option Path) (w : Workspace) :
    Ends (scaffold name parent?) w (fun project u =>
      u.tree.read (project.child Config.fileName) = .ok (configText name).toUTF8)
      fun _ _ => True := by
  rw [scaffold_eq]
  exact Ends.any.bind fun base v _ => make_spec name (base.child name) v

/-- What is loaded from the configuration file of a new project. -/
theorem loadConfig_scaffold {parent? : Option Path} {w u : Workspace} {project : Path}
    (h : (scaffold name parent?).run.run w = (.ok project, u)) :
    (loadConfig (project.child Config.fileName)).run.run u =
      ((Config.ofText (configText name).toList).mapError .badConfig, u) :=
  loadConfig_run ((scaffold_spec name parent? w).of_ok h)

/-! ## The text -/

/-- The lines of the configuration after the name. -/
def linesAfterName : List Char :=
  settingLine "version" (between "0.1.0".toList) ++ (settingLine "authors" ['[', ']'] ++
  '\n' :: (headerLine "build" ++ (settingLine "output_dir" (between "build".toList) ++
  (settingLine "indent" ['4'] ++ (settingLine "emit_text" ['f', 'a', 'l', 's', 'e'] ++
  '\n' :: (headerLine "tools" ++ (settingLine "wat2wasm" (between "wat2wasm".toList) ++
  (settingLine "wasmtime" (between "wasmtime".toList) ++ []))))))))

/-- The name stands between quotes as it is. -/
theorem toList_configText (name : String) : (configText name).toList =
    headerLine "package" ++ ("name = \"".toList ++
      (name.toList ++ '"' :: '\n' :: linesAfterName)) := by
  have hheader : "[package]\n".toList = headerLine "package" := by decide
  unfold configText
  simp only [String.toList_append, List.append_assoc, hheader]
  refine congrArg (_ ++ ·) (congrArg (_ ++ ·) (congrArg (name.toList ++ ·) ?_))
  decide +kernel

/-- In the configuration, line breaks can only be in the name. -/
theorem joinBreaks_configText (name : String) : Text.joinBreaks (configText name).toList =
    headerLine "package" ++ ("name".toList ++ ' ' :: '=' :: ' ' :: '"' ::
      (Text.joinBreaks name.toList ++ '"' :: '\n' :: linesAfterName)) := by
  have hafter : '\r' ∉ '"' :: '\n' :: linesAfterName := by decide +kernel
  rw [toList_configText, Text.joinBreaks_append_of_not_mem (by decide),
    Text.joinBreaks_append_of_not_mem (by decide), Text.joinBreaks_append_cons (by decide),
    Text.joinBreaks_eq_self hafter]
  rfl

/-- The configuration is read as the three tables that it was written for. -/
theorem read_configText (h : Verbatim name.toList) :
    Toml.read (configText name).toList = .ok [
      ("package", .table [("name", .string name), ("version", .string "0.1.0"),
        ("authors", .array [])]),
      ("build", .table [("output_dir", .string "build"), ("indent", .integer 4),
        ("emit_text", .boolean false)]),
      ("tools", .table [("wat2wasm", .string "wat2wasm"), ("wasmtime", .string "wasmtime")])] := by
  have hreturn : '\r' ∉ name.toList := fun hc => absurd (h _ hc) (by decide)
  have hname : "name".toList ++ ' ' :: '=' :: ' ' :: '"' ::
      (name.toList ++ '"' :: '\n' :: linesAfterName) =
        settingLine "name" (between name.toList) ++ linesAfterName := by
    simp [settingLine, between]
  have hwrites : ∀ s : String, Verbatim s.toList →
      Writes (between s.toList) (.string s) := fun s => writes_string
  unfold Toml.read
  rw [joinBreaks_configText, Text.joinBreaks_eq_self hreturn, hname]
  unfold linesAfterName
  simp only [lines_headerLine _ (by decide : IsBareWord "package"),
    lines_headerLine _ (by decide : IsBareWord "build"),
    lines_headerLine _ (by decide : IsBareWord "tools"),
    lines_settingLine _ (by decide : IsBareWord "name") (writes_string h),
    lines_settingLine _ (by decide : IsBareWord "version") (hwrites "0.1.0" (by decide)),
    lines_settingLine _ (by decide : IsBareWord "authors") writes_emptyArray,
    lines_settingLine _ (by decide : IsBareWord "output_dir") (hwrites "build" (by decide)),
    lines_settingLine _ (by decide : IsBareWord "indent") writes_four,
    lines_settingLine _ (by decide : IsBareWord "emit_text") writes_false,
    lines_settingLine _ (by decide : IsBareWord "wat2wasm") (hwrites "wat2wasm" (by decide)),
    lines_settingLine _ (by decide : IsBareWord "wasmtime") (hwrites "wasmtime" (by decide)),
    lines_blank, lines_nil]
  rfl

/-- The configuration that is read back is the default one, with the name and the first version. -/
theorem ofText_configText (h : Verbatim name.toList) :
    Config.ofText (configText name).toList =
      .ok { package := { name := .string name, version := .string "0.1.0" } } := by
  rw [Config.ofText, read_configText h]
  rfl

/-- A document that starts with a package keeps the name that is read between the quotes. -/
theorem exists_quoted_of_lines {cs : List Char} {d : Draft}
    (h : lines {} (headerLine "package" ++ ("name".toList ++ ' ' :: '=' :: ' ' :: '"' :: cs)) =
      .ok d) :
    ∃ t, quotedString '"' cs = .ok t ∧
      d.entries.Holds "name" (.string (String.ofList t.value)) ["package"] := by
  rw [lines_headerLine _ (by decide)] at h
  obtain ⟨t, defined, hvalue, hdefine, hgrows⟩ :=
    exists_value_of_lines_setting (by decide : IsBareWord "name") h
  replace hvalue : value ('"' :: cs) = .ok t := hvalue
  rw [value_quoted] at hvalue
  cases hquoted : quotedString '"' cs with
  | error f =>
    rw [hquoted] at hvalue
    cases hvalue
  | ok s =>
    rw [hquoted] at hvalue
    cases hvalue
    cases hdefine
    exact ⟨s, rfl, hgrows _ _ _ ⟨some 1, _, rfl, rfl⟩⟩

/-- Only a verbatim name is read back. -/
theorem verbatim_of_ofText_configText {config : Config}
    (h : Config.ofText (configText name).toList = .ok config)
    (hname : config.package.name = .string name) : Verbatim name.toList := by
  cases hd : lines {} (Text.joinBreaks (configText name).toList) with
  | error f => simp [Config.ofText, Toml.read, hd, bind, Except.bind] at h
  | ok d =>
    have hdocument : Config.ofDocument d.entries.finish = .ok config := by
      simpa [Config.ofText, Toml.read, hd, bind, Except.bind, pure, Except.pure] using h
    rw [joinBreaks_configText] at hd
    obtain ⟨t, ht, hholds⟩ := exists_quoted_of_lines hd
    have hvalue : t.value = name.toList := by
      have heq : String.ofList t.value = name :=
        Value.string.inj ((Config.name_of_holds hholds hdocument).symm.trans hname)
      exact String.toList_ofList.symm.trans (congrArg String.toList heq)
    -- joined line ends only make the name in the file shorter than the one that is read
    have hlength : (Text.joinBreaks name.toList).length ≤ t.value.length := by
      rw [hvalue]
      exact Text.length_joinBreaks_le name.toList
    rw [← hvalue]
    exact (verbatim_of_quotedString ht hlength (by decide +kernel)).2

/-- **A new project's configuration is read back if its name is verbatim**: its file is loaded as a
package of that name, of version 0.1.0 and without authors, with the default ways of building and
tools. For every other name, with a quote, a backslash or a control character, what is loaded from
the file, if it can be loaded at all, has another name. -/
theorem scaffold_config_readsBack (w u : Workspace) (name : String) (parent? : Option Path)
    (project : Path) (h : (scaffold name parent?).run.run w = (.ok project, u)) :
    (Verbatim name.toList →
      (loadConfig (project.child Config.fileName)).run.run u =
        (.ok { package := { name := .string name, version := .string "0.1.0", authors := .array [] }
               build := {}
               tools := {} }, u)) ∧
    (¬ Verbatim name.toList → ∀ config v,
      (loadConfig (project.child Config.fileName)).run.run u = (.ok config, v) →
      config.package.name ≠ .string name) := by
  rw [loadConfig_scaffold h]
  constructor
  · intro hverbatim
    rw [ofText_configText hverbatim]
    rfl
  · intro hother config v hload hname
    cases htext : Config.ofText (configText name).toList with
    | error f =>
      rw [htext] at hload
      cases hload
    | ok loaded =>
      rw [htext] at hload
      cases hload
      exact hother (verbatim_of_ofText_configText htext hname)

/-- A name with braces and an apostrophe is read back. -/
theorem scaffold_config_readsBack_braces :
    ∃ u, (scaffold "\x7btea\x7d's" none).run.run { room := 80 } = (.ok ⟨1, ["\x7btea\x7d's"]⟩, u) ∧
      (loadConfig ⟨1, ["\x7btea\x7d's", Config.fileName]⟩).run.run u =
        (.ok { package :=
          { name := .string "\x7btea\x7d's", version := .string "0.1.0" } }, u) := by
  obtain ⟨u, hrun⟩ : ∃ u, (scaffold "\x7btea\x7d's" none).run.run { room := 80 } =
      (.ok ⟨1, ["\x7btea\x7d's"]⟩, u) := ⟨_, run_eq_of_toOption (by decide +kernel)⟩
  exact ⟨u, hrun, (scaffold_config_readsBack { room := 80 } u _ none _ hrun).1 (by decide)⟩

/-- **A name with quotes is not read back**: the project is made, and its configuration file cannot
be loaded. -/
theorem scaffold_config_unreadable :
    ∃ u f, (scaffold "say \"hi\"" none).run.run { room := 80 } = (.ok ⟨1, ["say \"hi\""]⟩, u) ∧
      (loadConfig ⟨1, ["say \"hi\"", Config.fileName]⟩).run.run u = (.error (.badConfig f), u) := by
  obtain ⟨u, hrun⟩ : ∃ u, (scaffold "say \"hi\"" none).run.run { room := 80 } =
      (.ok ⟨1, ["say \"hi\""]⟩, u) := ⟨_, run_eq_of_toOption (by decide +kernel)⟩
  have htext : (Config.ofText (configText "say \"hi\"").toList).toOption.isNone = true := by
    decide +kernel
  have hload := loadConfig_scaffold hrun
  cases hconfig : Config.ofText (configText "say \"hi\"").toList with
  | error f =>
    rw [hconfig] at hload
    exact ⟨u, f, hrun, hload⟩
  | ok config =>
    rw [hconfig] at htext
    cases htext

end Scaffold

end Clausal
