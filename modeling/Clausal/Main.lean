import Clausal.CommandLine

/-!
# The program

Reads what the command line may concern from the file system into a file tree, runs the command on
it, writes the changes back and prints the output. External tools are not started from here, so
none is found.
-/

namespace Clausal.Main

/-- The texts in a word of the command line that may be paths. -/
def pathTexts (word : String) : List String :=
  let cs := word.toList
  [word, String.ofList (cs.drop 2), String.ofList ((cs.dropWhile (· ≠ '=')).drop 1)].filter (· ≠ "")

/-- All places that following a path passes through, with the configuration files beside them. -/
def routesOf (here : Route) (text : String) : List Route :=
  let p := Path.ofString text
  let start := if p.isAbsolute then [] else here
  let passed := (p.parts.foldl (fun done part =>
    done ++ [FileTree.step (done.getLast?.getD start) part]) [start])
  let above := passed.flatMap fun r => (List.range (r.length + 1)).map fun n => r.take n
  (above ++ above.map (· ++ [Config.fileName])).eraseDups

/-- Reads what stands at a place into a file tree. -/
def load (tree : FileTree) (r : Route) : IO FileTree := do
  let path := (← IO.currentDir) / (Path.text ⟨1, r⟩)
  if r = [] then return tree
  else if ← path.isDir then return tree.put r .directory
  else if ← path.pathExists then return tree.put r (.file (← IO.FS.readBinFile path))
  else return tree

/-- Makes the file system follow the changes of a file tree. -/
def save (before after : FileTree) : IO Unit := do
  let inOrder := after.places.mergeSort fun a b => a.1.length ≤ b.1.length
  for (r, e) in inOrder do
    unless (before.get? r).any (·.agrees e) do
      match e with
      | .directory => IO.FS.createDirAll (Path.text ⟨1, r⟩)
      | .file bytes => IO.FS.writeBinFile (Path.text ⟨1, r⟩) bytes
  for (r, e) in before.places do
    if !e.isDirectory && (after.get? r).isNone then IO.FS.removeFile (Path.text ⟨1, r⟩)

/-- How many blanks in a row the program has room for. -/
def room : Int := 0x1000000000

/-- Runs a command line and gives its exit code. -/
def perform (words : List String) : IO UInt32 := do
  let here := (Path.ofString (← IO.currentDir).toString).parts
  let routes := (words.flatMap pathTexts ++ ["."]).flatMap (routesOf here)
  let before ← routes.eraseDups.foldlM load { here }
  let session : CommandLine.Session :=
    { workspace := { tree := before, room }
      color := ← (← IO.getStdout).isTty
      scratch := ⟨1, ["muru-scratch"]⟩ }
  match CommandLine.run words session with
  | (none, _) =>
    IO.eprint CommandLine.helpText
    return 2
  | (some report, workspace) =>
    save before workspace.tree
    IO.print report.out
    IO.eprint report.err
    if let some t := report.crash? then
      IO.eprintln (toString (repr t))
    return UInt32.ofNat (report.exitCode % 256).toNat

end Clausal.Main

/-- Runs the command line that the program was started with. -/
def main (words : List String) : IO UInt32 :=
  Clausal.Main.perform words
