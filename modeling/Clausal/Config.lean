import Clausal.Toml.Document

/-!
# Project configuration

A configuration file describes a package, how to build it and which tools to use. Every setting has
a default. The values are taken over as they are: whether a setting has a useful kind of value shows
where it is used.
-/

namespace Clausal

/-- What a package says about itself. -/
structure Config.Package where
  name : Toml.Value := .string "untitled"
  version : Toml.Value := .string "0.0.0"
  authors : Toml.Value := .array []
deriving Repr, Inhabited

/-- How a package is built: where the result goes, the indent of module text, and whether module
text is kept. -/
structure Config.Build where
  outputDir : Toml.Value := .string "build"
  indent : Toml.Value := .integer 4
  emitText : Toml.Value := .boolean false
deriving Repr, Inhabited

/-- The names of the tools that assemble and run modules. -/
structure Config.Tools where
  assembler : Toml.Value := .string "wat2wasm"
  engine : Toml.Value := .string "wasmtime"
deriving Repr, Inhabited

/-- A configuration. -/
structure Config where
  package : Config.Package := {}
  build : Config.Build := {}
  tools : Config.Tools := {}
deriving Repr, Inhabited

namespace Config

/-- The name of configuration files. -/
def fileName : String := "muru.toml"

/-- Why a file is not a configuration. -/
inductive Fault where
  /-- The bytes are not a text. -/
  | notText
  /-- The text is not a document. -/
  | unreadable (f : Toml.Fault)
  /-- A section is not a table. -/
  | notATable (kind : Toml.Kind)
deriving DecidableEq, Repr, Inhabited

/-- The table of a section; nothing if there is no such section. -/
def section? (document : Toml.Table) (name : String) : Except Fault (Option Toml.Table) :=
  match document.value? name with
  | none => .ok none
  | some (.table entries) => .ok (some entries)
  | some v => .error (.notATable v.kind)

/-- A setting of a section, or its default. -/
def setting (table : Toml.Table) (name : String) (default : Toml.Value) : Toml.Value :=
  (table.value? name).getD default

/-- The package that a table describes. -/
def Package.ofTable (t : Toml.Table) : Package where
  name := setting t "name" ({} : Package).name
  version := setting t "version" ({} : Package).version
  authors := setting t "authors" ({} : Package).authors

/-- The way of building that a table describes. -/
def Build.ofTable (t : Toml.Table) : Build where
  outputDir := setting t "output_dir" ({} : Build).outputDir
  indent := setting t "indent" ({} : Build).indent
  emitText := setting t "emit_text" ({} : Build).emitText

/-- The tools that a table names. -/
def Tools.ofTable (t : Toml.Table) : Tools where
  assembler := setting t "wat2wasm" ({} : Tools).assembler
  engine := setting t "wasmtime" ({} : Tools).engine

/-- The configuration that a document describes. -/
def ofDocument (document : Toml.Table) : Except Fault Config := do
  let package ← section? document "package"
  let build ← section? document "build"
  let tools ← section? document "tools"
  return {
    package := (package.map Package.ofTable).getD {}
    build := (build.map Build.ofTable).getD {}
    tools := (tools.map Tools.ofTable).getD {} }

/-- The configuration that a text describes. -/
def ofText (text : List Char) : Except Fault Config :=
  match Toml.read text with
  | .error f => .error (.unreadable f)
  | .ok document => ofDocument document

/-- The configuration that the bytes of a file describe. -/
def ofBytes (bytes : ByteArray) : Except Fault Config :=
  match String.fromUTF8? bytes with
  | none => .error .notText
  | some text => ofText text.toList

end Config

end Clausal
