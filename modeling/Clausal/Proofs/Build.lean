import Clausal.Build
import Clausal.Proofs.FileTree.Change
import Clausal.Proofs.Outcome

/-!
# What a build leaves

A build writes the module text, has it assembled, and removes the text unless it is wanted. The text
goes beside the result, under the same name with another ending, so the two are different files
unless the result has that ending itself. `build_built` tells what a build that is reported as
successful did to the file tree (`Made`), and `Assembly.artifacts` what is in the tree then.

Of the assembler this is assumed (`Tool.Assembles`): if it exits with 0, it has written its binary
for the text that it was given to the path that it was told, and has changed nothing else.
-/

namespace Clausal

/-- A tool that writes a binary for the text in its first argument to its third one. -/
def Tool.Assembles (tool : Tool) (binary : ByteArray → ByteArray) : Prop :=
  ∀ input output tree finished tree' text,
    tool.run [input, "-o", output] tree = (.ok finished, tree') → finished.exitCode = 0 →
    tree.read (.ofString input) = .ok text →
    tree.write (.ofString output) (binary text) = .ok tree'

namespace Workspace

variable {w : Workspace} {p source : Path}

/-! ## The file tree -/

/-- Events are added at the end of the journal. -/
theorem ends_record {events : List Event} {Q : Unit → Workspace → Prop}
    {E : Trouble → Workspace → Prop} : Ends (record events) w Q E ↔
      Q () { w with journal := w.journal ++ events } :=
  Iff.rfl

/-- A look at the tree leaves the workspace as it is, or is refused. -/
theorem ends_examine {α : Type} {f : FileTree → Except FileTree.Fault α} {Q : α → Workspace → Prop}
    {E : Trouble → Workspace → Prop} (hok : ∀ a, f w.tree = .ok a → Q a w)
    (herror : ∀ e, f w.tree = .error e → E (.refused e) w) : Ends (examine f) w Q E := by
  rw [examine, ends_bind, ends_get]
  cases hf : f w.tree with
  | error e => exact herror e hf
  | ok a => exact hok a hf

/-- A change of the tree changes nothing else, or is refused. -/
theorem ends_change {f : FileTree → Except FileTree.Fault FileTree} {Q : Unit → Workspace → Prop}
    {E : Trouble → Workspace → Prop} (hok : ∀ t, f w.tree = .ok t → Q () { w with tree := t })
    (herror : ∀ e, f w.tree = .error e → E (.refused e) w) : Ends (change f) w Q E :=
  ends_bind.2 (ends_examine hok herror)

/-- Making directories leaves the tools as they are. -/
theorem makeDirectories_spec {mayExist : Bool} :
    Ends (makeDirectories p mayExist) w (fun _ u => u.tools = w.tools) fun _ _ => True := by
  rw [makeDirectories, ends_bind, ends_get]
  rcases w.tree.makeDirectories p mayExist with ⟨tree, _ | _⟩
  · trivial
  · rfl

/-! ## Compiling a file -/

/-- A path leads to a file that holds a text. -/
def Reads (t : FileTree) (p : Path) (text : String) : Prop :=
  ∃ bytes, t.read p = .ok bytes ∧ decode? bytes = some text

/-- What the compilation of a source file gives: its output, or the diagnostics that report why it
has none. -/
inductive Reports (t : FileTree) (source : Path) : Except (List Diagnostic) Compile.Output → Prop
  | output {text : String} {out : Compile.Output} : Reads t source text →
      (Compile.source text source.text).1 = .ok out → Reports t source (.ok out)
  | failure {text : String} {f : Compile.Failure} {ds : List Diagnostic} : Reads t source text →
      (Compile.source text source.text).1 = .error f → f.report? = some ds →
      Reports t source (.error ds)

/-- A file has one text. -/
theorem Reads.unique {t : FileTree} {text text' : String} (h : Reads t p text)
    (h' : Reads t p text') : text = text' := by
  obtain ⟨bytes, hread, htext⟩ := h
  obtain ⟨bytes', hread', htext'⟩ := h'
  cases hread.symm.trans hread'
  exact Option.some.inj (htext.symm.trans htext')

/-- A source has one result. -/
theorem Reports.unique {t : FileTree} {r r' : Except (List Diagnostic) Compile.Output}
    (h : Reports t source r) (h' : Reports t source r') : r = r' := by
  cases h with
  | output hread hout =>
    cases h' with
    | output hread' hout' =>
      cases hread.unique hread'
      cases hout.symm.trans hout'
      rfl
    | failure hread' hf' =>
      cases hread.unique hread'
      cases hout.symm.trans hf'
  | failure hread hf hds =>
    cases h' with
    | output hread' hout' =>
      cases hread.unique hread'
      cases hf.symm.trans hout'
    | failure hread' hf' hds' =>
      cases hread.unique hread'
      cases hf.symm.trans hf'
      cases hds.symm.trans hds'
      rfl

/-- A text that is read is that of the file. -/
theorem readText_spec : Ends (readText p) w (fun text u => u = w ∧ Reads w.tree p text)
    fun _ _ => ∀ text, ¬ Reads w.tree p text := by
  refine ends_bind.2 (ends_examine (fun bytes hread => ?_) fun e hread text => ?_)
  · cases htext : decode? bytes with
    | some text => exact ⟨rfl, bytes, hread, htext⟩
    | none =>
      rintro text ⟨bytes', hread', htext'⟩
      cases hread.symm.trans hread'
      cases htext.symm.trans htext'
  · rintro ⟨bytes, hread', -⟩
    cases hread.symm.trans hread'

/-- A compilation gives what is reported, and changes neither the tree nor the tools. -/
theorem compile_spec : Ends (compile source) w
    (fun r u => u.tree = w.tree ∧ u.tools = w.tools ∧ Reports w.tree source r)
    fun _ _ => ∀ r, ¬ Reports w.tree source r := by
  refine (readText_spec.mono (fun _ _ h => h) fun _ _ h r hr => ?_).bind ?_
  · cases hr with
    | output hread _ => exact h _ hread
    | failure hread _ _ => exact h _ hread
  · rintro text u ⟨rfl, hread⟩
    rcases hsource : Compile.source text source.text with ⟨f | out, events⟩
    · have hfailed : (Compile.source text source.text).1 = .error f := by rw [hsource]
      cases hds : f.report? with
      | some ds =>
        have h := Reports.failure hread hfailed hds
        simp only [hds]
        exact ⟨rfl, rfl, h⟩
      | none =>
        simp only [hds]
        rintro r (⟨hread', hout⟩ | ⟨hread', hfailed', hds'⟩)
        · cases hread.unique hread'
          cases hfailed.symm.trans hout
        · cases hread.unique hread'
          cases hfailed.symm.trans hfailed'
          cases hds.symm.trans hds'
    · exact ⟨rfl, rfl, .output hread (by rw [hsource])⟩

/-- The columns that a setting stands for; yes and no count as one and zero. -/
inductive Columns : Toml.Value → Int → Prop
  | integer (n : Int) : Columns (.integer n) n
  | boolean (b : Bool) : Columns (.boolean b) (if b then 1 else 0)

/-- An indent that is accepted is a number of columns. -/
theorem indentOf_spec (v : Toml.Value) :
    Ends (indentOf v) w (fun n u => u = w ∧ Columns v n) fun _ _ => True := by
  have hcheck : ∀ n, Ends (checkIndent n) w (fun m u => u = w ∧ m = n) fun _ _ => True := by
    intro n
    rw [checkIndent, ends_bind, ends_get]
    cases Text.checkRun w.room n with
    | ok _ => exact ⟨rfl, rfl⟩
    | error f => trivial
  cases v with
  | integer n =>
    refine (hcheck n).mono ?_ fun _ _ h => h
    rintro m u ⟨hu, rfl⟩
    exact ⟨hu, .integer m⟩
  | boolean b =>
    refine (hcheck _).mono ?_ fun _ _ h => h
    rintro m u ⟨hu, rfl⟩
    exact ⟨hu, .boolean b⟩
  | _ => trivial

/-! ## Tools -/

/-- Only a string names a tool. -/
theorem findTool_spec (role hint : String) (name : Toml.Value) : Ends (findTool role hint name) w
    (fun tool u => u = w ∧ ∃ text, name = .string text ∧ w.tools text = some tool)
    fun _ _ => True := by
  cases name with
  | string text =>
    rw [findTool, ends_bind, ends_get]
    cases htool : w.tools text with
    | some tool => exact ⟨rfl, text, rfl, htool⟩
    | none => trivial
  | integer n =>
    rw [findTool]
    split <;> trivial
  | _ => trivial

/-- A tool that finishes leaves the tree that its run gives. -/
theorem runTool_spec (role : String) (tool : Tool) (arguments : List String)
    (timeout : Toml.Value) : Ends (runTool role tool arguments timeout) w
    (fun finished u => tool.run arguments w.tree = (.ok finished, u.tree)) fun _ _ => True := by
  rw [runTool, ends_bind, ends_record, ends_bind, ends_get]
  rcases hrun : tool.run arguments w.tree with ⟨e | finished, tree⟩
  · cases e <;> trivial
  · rfl

/-- A successful run of the configured assembler, from one tree to another. -/
def Assembled (tools : Toolbox) (assembler : Toml.Value) (text output : Path) (t u : FileTree) :
    Prop :=
  ∃ name tool finished, assembler = .string name ∧ tools name = some tool ∧
    tool.run [text.text, "-o", output.text] t = (.ok finished, u) ∧ finished.exitCode = 0

/-- Assembling runs the tool on the text and leaves what it makes. -/
theorem assemble_spec (text output : Path) (assembler timeout : Toml.Value) :
    Ends (assemble text output assembler timeout) w
      (fun _ u => Assembled w.tools assembler text output w.tree u.tree) fun _ _ => True := by
  refine (findTool_spec _ _ _).bind ?_
  rintro tool u ⟨rfl, name, rfl, htool⟩
  refine (runTool_spec _ _ _ _).bind fun finished v hrun => ?_
  split
  · trivial
  · next hexit => exact ⟨name, tool, finished, rfl, htool, hrun, Decidable.not_not.1 hexit⟩

/-- What an assembler leaves that writes its binary. -/
theorem Assembled.write {tools : Toolbox} {assembler : Toml.Value} {binary : ByteArray → ByteArray}
    {text output : Path} {t u : FileTree} {bytes : ByteArray}
    (h : Assembled tools assembler text output t u)
    (hassembles : ∀ name tool, assembler = .string name → tools name = some tool →
      tool.Assembles binary)
    (htext : text.Normal) (houtput : output.Normal) (hread : t.read text = .ok bytes) :
    t.write output (binary bytes) = .ok u := by
  obtain ⟨name, tool, finished, rfl, htool, hrun, hexit⟩ := h
  rw [← Path.ofString_text htext] at hread
  rw [← Path.ofString_text houtput]
  exact hassembles name tool rfl htool _ _ _ _ _ _ hrun hexit hread

end Workspace

namespace Build

open Workspace

/-- Without a message, the text has been assembled. -/
theorem assembleText_spec (text output : Path) (config : Config) {w : Workspace} :
    Ends (assembleText text output config) w
      (fun message? u => message? = none →
        Assembled w.tools config.tools.assembler text output w.tree u.tree) fun _ _ => True := by
  rw [assembleText, ends_tryCatch]
  refine ends_bind.2 ((assemble_spec _ _ _ _).mono (fun _ u h _ => h) fun e u _ => ?_)
  cases e with
  | tool message err => exact fun h => by cases h
  | _ => trivial

/-- Where a build puts its result is a normal path if its paths are. -/
theorem outputPath_spec {source : Path} (config : Config) {output? root? : Option Path}
    {w : Workspace} (hsource : source.Normal) (houtput : ∀ p ∈ output?, p.Normal)
    (hroot : ∀ p ∈ root?, p.Normal) :
    Ends (outputPath source config output? root?) w (fun output u => u = w ∧ output.Normal)
      fun _ _ => True := by
  cases output? with
  | some p => exact ⟨rfl, houtput p rfl⟩
  | none =>
    have hbase : (root?.getD source.parent).Normal := by
      cases root? with
      | none => exact hsource.parent
      | some p => exact hroot p rfl
    show Ends (defaultOutput source (root?.getD source.parent) config.build.outputDir) w _ _
    cases config.build.outputDir with
    | string dir => exact ⟨rfl, (hbase.child dir).child _⟩
    | _ => trivial

/-- The bytes of the module text of a compiled program at an indent. -/
def moduleText (compiled : Compile.Output) (indent : Int) : ByteArray :=
  (compiled.code.toSexp.pretty indent ++ "\n").toUTF8

/-- In a tree, the module text has been written and assembled. -/
def Assembly (tools : Toolbox) (compiled : Compile.Output) (config : Config) (output text : Path)
    (t : FileTree) : Prop :=
  output.withSuffix? ".wat" = some text ∧ ∃ (indent : Int) (before written : FileTree),
    Columns config.build.indent indent ∧
    before.write text (moduleText compiled indent) = .ok written ∧
    Assembled tools config.tools.assembler text output written t

/-- A build that is reported as successful has its text assembled, and the text is removed from the
tree if it is not reported. -/
theorem produce_spec (compiled : Compile.Output) (config : Config) (output : Path)
    (keepText : Bool) {w : Workspace} : Ends (produce compiled config output keepText) w
    (fun outcome u => ∀ path text? ds, outcome = .built path text? ds → path = output ∧
      ∃ text t, Assembly w.tools compiled config output text t ∧
        (text? = some text ∧ u.tree = t ∨ text? = none ∧ t.remove text = .ok u.tree))
    fun _ _ => True := by
  refine makeDirectories_spec.bind fun _ v htools => ?_
  rw [← htools, ends_bind, textPath]
  cases htext : output.withSuffix? ".wat" with
  | none => trivial
  | some text =>
    refine (indentOf_spec _).bind ?_
    rintro indent v ⟨rfl, hindent⟩
    refine ends_bind.2 (ends_change (fun written hwritten => ?_) fun _ _ => trivial)
    rw [ends_bind, ends_record]
    refine (assembleText_spec _ _ _).bind fun message? u hassembled => ?_
    cases message? with
    | some message => exact fun _ _ _ hbuilt => by cases hbuilt
    | none =>
      have hassembly : Assembly v.tools compiled config output text u.tree :=
        ⟨htext, indent, _, written, hindent, hwritten, hassembled rfl⟩
      dsimp only
      rw [ends_bind, ends_record]
      split
      · intro path text? ds hbuilt
        cases hbuilt
        exact ⟨rfl, text, _, hassembly, .inl ⟨rfl, rfl⟩⟩
      · refine ends_bind.2 (ends_change (fun final hfinal => ?_) fun _ _ => trivial)
        intro path text? ds hbuilt
        cases hbuilt
        exact ⟨rfl, text, _, hassembly, .inr ⟨rfl, hfinal⟩⟩

/-- **The artifacts.** What stands in the tree after an assembler that writes its binary: the binary
at the path of the result, and the module text beside it, unless both have one path. -/
theorem Assembly.artifacts {tools : Toolbox} {compiled : Compile.Output} {config : Config}
    {output text : Path} {t : FileTree} {binary : ByteArray → ByteArray}
    (h : Assembly tools compiled config output text t) (houtput : output.Normal)
    (hassembles : ∀ name tool, config.tools.assembler = .string name → tools name = some tool →
      tool.Assembles binary) :
    ∃ indent, Columns config.build.indent indent ∧
      t.read output = .ok (binary (moduleText compiled indent)) ∧
      (output.suffix = ".wat" → text = output) ∧
      (output.suffix ≠ ".wat" → FileTree.Apart text output ∧
        t.read text = .ok (moduleText compiled indent)) := by
  obtain ⟨hsuffix, indent, before, written, hindent, hwritten, hassembled⟩ := h
  have hparts := Path.parts_ne_nil_of_withSuffix? hsuffix
  have htext : text.Normal := houtput.withSuffix? hsuffix (by decide)
  have htextParts : text.parts ≠ [] := by
    rw [Path.eq_of_withSuffix? hsuffix]
    exact List.append_ne_nil_of_right_ne_nil _ (List.cons_ne_nil _ _)
  have hread := FileTree.read_write_self htextParts hwritten
  have hbinary := hassembled.write hassembles htext houtput hread
  refine ⟨indent, hindent, FileTree.read_write_self hparts hbinary,
    Path.withSuffix?_eq_self hsuffix, fun hother => ?_⟩
  have hname : text.name ≠ output.name := fun hname =>
    hother ((Path.withSuffix?_name_eq_iff hsuffix).1 hname)
  have hapart : FileTree.Apart text output := ⟨htextParts, hparts, hname⟩
  exact ⟨hapart, hapart.symm.read_write hread hbinary⟩

/-- What a build that is reported as successful has done: its source is compiled, the module text is
assembled, and the text is removed if it is not reported. -/
def Made (w : Workspace) (source : Path) (config : Config) (output : Path) (text? : Option Path)
    (u : FileTree) : Prop :=
  ∃ compiled text t, Reports w.tree source (.ok compiled) ∧
    Assembly w.tools compiled config output text t ∧
    (text? = some text ∧ u = t ∨ text? = none ∧ t.remove text = .ok u)

section

variable {w u : Workspace} {source : Path} {config : Config} {output? root? : Option Path}
  {keepText? : Option Bool} {ds : List Diagnostic}

/-- What is built is what was made of the source. -/
theorem build_built (hsource : source.Normal) (houtput : ∀ p ∈ output?, p.Normal)
    (hroot : ∀ p ∈ root?, p.Normal) {output : Path} {text? : Option Path}
    (h : (build source config output? root? keepText?).run.run w =
      (.ok (.built output text? ds), u)) :
    output.Normal ∧ Made w source config output text? u.tree := by
  suffices hends : Ends (build source config output? root? keepText?) w
      (fun outcome u => ∀ output text? ds, outcome = .built output text? ds →
        output.Normal ∧ Made w source config output text? u.tree) fun _ _ => True from
    hends.of_ok h output text? ds rfl
  refine (compile_spec.mono (fun _ _ h => h) fun _ _ _ => trivial).bind ?_
  rintro r v ⟨-, htools, hreports⟩
  cases r with
  | error ds => exact fun _ _ _ hbuilt => by cases hbuilt
  | ok compiled =>
    refine (outputPath_spec config hsource houtput hroot).bind ?_
    rintro output _ ⟨rfl, hnormal⟩
    refine (produce_spec _ _ _ _).mono (fun _ u h path text? ds hbuilt => ?_) fun _ _ _ => trivial
    obtain ⟨rfl, text, t, hassembly, hend⟩ := h path text? ds hbuilt
    rw [htools] at hassembly
    exact ⟨hnormal, compiled, text, t, hreports, hassembly, hend⟩

/-- A refused source file ends a build before it changes anything. -/
theorem build_rejected (h : Reports w.tree source (.error ds)) :
    ∃ u, (build source config output? root? keepText?).run.run w = (.ok (.rejected ds), u) ∧
      u.tree = w.tree := by
  rcases hrun : (compile source).run.run w with ⟨e | r, u⟩
  · exact absurd h (compile_spec.of_error hrun _)
  · obtain ⟨htree, -, hreports⟩ := compile_spec.of_ok hrun
    cases h.unique hreports
    refine ⟨u, ?_, htree⟩
    rw [build, run_bind, hrun]
    rfl

end

/-- The module text that a build of a source file prints. -/
def Prints (t : FileTree) (source : Path) (config : Config) (text : ByteArray) : Prop :=
  ∃ compiled indent, Reports t source (.ok compiled) ∧ Columns config.build.indent indent ∧
    text = moduleText compiled indent

/-- **A build that is reported as successful leaves its artifacts** if its result does not have the
ending of module text: the result holds what the assembler makes of the module text, and the module
text is there if its path is reported. If the result has that ending, its path is also the path of
the text, and then it is removed, unless the text is wanted, and holds the binary otherwise.

A build of a source file that is refused reports the diagnostics, and the tree is as before. -/
theorem build_artifacts (w : Workspace) (source : String) (config : Config)
    (output? root? : Option String) (keepText? : Option Bool) (binary : ByteArray → ByteArray)
    (hassembles : ∀ name tool, config.tools.assembler = .string name → w.tools name = some tool →
      tool.Assembles binary) :
    (∀ output text? ds u, (build (.ofString source) config (output?.map .ofString)
        (root?.map .ofString) keepText?).run.run w = (.ok (.built output text? ds), u) →
      ∃ text, Prints w.tree (.ofString source) config text ∧
        (output.suffix ≠ ".wat" → u.tree.read output = .ok (binary text) ∧
          ∀ path, text? = some path → u.tree.read path = .ok text) ∧
        (output.suffix = ".wat" →
          (text? = none → u.tree.read output = .error .missing) ∧
          ∀ path, text? = some path → path = output ∧ u.tree.read path = .ok (binary text))) ∧
    (∀ ds, Reports w.tree (.ofString source) (.error ds) →
      ∃ u, (build (.ofString source) config (output?.map .ofString) (root?.map .ofString)
        keepText?).run.run w = (.ok (.rejected ds), u) ∧ u.tree = w.tree) := by
  have hnormal : ∀ (path? : Option String) p, p ∈ path?.map Path.ofString → p.Normal := by
    intro path? p hp
    obtain ⟨text, -, rfl⟩ := Option.map_eq_some_iff.1 hp
    exact Path.ofString_normal text
  refine ⟨fun output text? ds u hrun => ?_, fun ds => build_rejected⟩
  obtain ⟨houtput, compiled, text, t, hreports, hassembly, hend⟩ :=
    build_built (Path.ofString_normal source) (hnormal output?) (hnormal root?) hrun
  obtain ⟨indent, hindent, hread, hsame, hother⟩ := hassembly.artifacts houtput hassembles
  refine ⟨_, ⟨compiled, indent, hreports, hindent, rfl⟩, fun hsuffix => ?_, fun hsuffix => ?_⟩
  · obtain ⟨hapart, htext⟩ := hother hsuffix
    rcases hend with ⟨rfl, htree⟩ | ⟨rfl, hremove⟩
    · rw [htree]
      refine ⟨hread, ?_⟩
      rintro path ⟨⟩
      exact htext
    · refine ⟨hapart.read_remove hread hremove, ?_⟩
      rintro path ⟨⟩
  · cases hsame hsuffix
    rcases hend with ⟨rfl, htree⟩ | ⟨rfl, hremove⟩
    · rw [htree]
      constructor
      · rintro ⟨⟩
      · rintro path ⟨⟩
        exact ⟨rfl, hread⟩
    · refine ⟨fun _ => FileTree.read_remove_self hremove, ?_⟩
      rintro path ⟨⟩

/-- The bytes that binary modules start with. -/
def signature : ByteArray :=
  ⟨#[0, 97, 115, 109]⟩

/-- An assembler that writes the same bytes for every text. -/
def stamper : Tool where
  path := "stamper"
  run
    | [_, "-o", output], tree =>
      match tree.write (.ofString output) signature with
      | .ok tree' => (.ok {}, tree')
      | .error f => (.error (.refused f), tree)
    | _, tree => (.error .notStarted, tree)

/-- The tool writes its signature, whatever the text. -/
theorem stamper_assembles : stamper.Assembles fun _ => signature := by
  intro input output tree finished tree' text hrun _ _
  cases hwrite : tree.write (.ofString output) signature with
  | error f =>
    simp only [stamper, hwrite] at hrun
    cases hrun
  | ok t =>
    simp only [stamper, hwrite] at hrun
    cases hrun
    rfl

/-- A workspace with a program and the assembler. -/
def bench : Workspace where
  tree := ⟨[("one.muru", .file "main = 1\n".toUTF8)], []⟩
  tools := fun _ => some stamper
  room := 80

/-- Every tool of the bench does. -/
theorem bench_assembles (name : String) (tool : Tool) (h : bench.tools name = some tool) :
    tool.Assembles fun _ => signature := by
  cases h
  exact stamper_assembles

/-- A build on the bench leaves the signature, and the text that was printed. -/
theorem build_artifacts_bench :
    ∃ u, (build (.ofString "one.muru") {} (some (.ofString "out/one.wasm")) none
        (some true)).run.run bench =
          (.ok (.built ⟨0, ["out", "one.wasm"]⟩ (some ⟨0, ["out", "one.wat"]⟩) []), u) ∧
      ∃ text, Prints bench.tree (.ofString "one.muru") {} text ∧
        u.tree.read ⟨0, ["out", "one.wasm"]⟩ = .ok signature ∧
        u.tree.read ⟨0, ["out", "one.wat"]⟩ = .ok text := by
  obtain ⟨u, hrun⟩ : ∃ u, (build (.ofString "one.muru") {} (some (.ofString "out/one.wasm")) none
      (some true)).run.run bench =
        (.ok (.built ⟨0, ["out", "one.wasm"]⟩ (some ⟨0, ["out", "one.wat"]⟩) []), u) :=
    ⟨_, run_eq_of_toOption (by decide +kernel)⟩
  refine ⟨u, hrun, ?_⟩
  obtain ⟨hbuilt, -⟩ := build_artifacts bench "one.muru" {} (some "out/one.wasm") none (some true) _
    fun name tool _ => bench_assembles name tool
  obtain ⟨text, hprints, hother, -⟩ := hbuilt _ _ _ u hrun
  obtain ⟨houtput, htext⟩ := hother (by decide)
  exact ⟨text, hprints, houtput, htext _ rfl⟩

/-- **A result with the ending of module text is lost**: with an assembler that writes its binary,
the build is reported as successful, and there is no file at the path that it reports. -/
theorem build_loses_result :
    (∀ name tool, bench.tools name = some tool → tool.Assembles fun _ => signature) ∧
    ∃ u, (build (.ofString "one.muru") {} (some (.ofString "out.wat")) none none).run.run bench =
        (.ok (.built ⟨0, ["out.wat"]⟩ none []), u) ∧
      u.tree.read ⟨0, ["out.wat"]⟩ = .error .missing := by
  obtain ⟨u, hrun⟩ : ∃ u, (build (.ofString "one.muru") {} (some (.ofString "out.wat")) none
      none).run.run bench = (.ok (.built ⟨0, ["out.wat"]⟩ none []), u) :=
    ⟨_, run_eq_of_toOption (by decide +kernel)⟩
  have houtput : ∀ p ∈ some (Path.ofString "out.wat"), p.Normal := by
    rintro p ⟨⟩
    exact Path.ofString_normal _
  have hroot : ∀ p ∈ (none : Option Path), p.Normal := by
    rintro p ⟨⟩
  refine ⟨bench_assembles, u, hrun, ?_⟩
  obtain ⟨-, compiled, text, t, -, ⟨hsuffix, -⟩, ⟨hkept, -⟩ | ⟨-, hremove⟩⟩ :=
    build_built (Path.ofString_normal _) houtput hroot hrun
  · cases hkept
  · cases Path.withSuffix?_eq_self hsuffix (by decide)
    exact FileTree.read_remove_self hremove

end Build

end Clausal
