import Clausal.Wasm

/-!
# Built-in functions

Every module contains functions that print numbers through the host function `fd_write`, and a
start function that prints the result of the program. The memory is used as follows.

| address | holds                                 |
|---------|---------------------------------------|
| 0       | where the text to write starts, 8     |
| 4       | its length, 1                         |
| 8       | the byte to write                     |
| 20      | how many bytes the host says it wrote |
-/

namespace Clausal.Builtin

open Wasm

/-- The host function that writes bytes. -/
def fdWrite : Import where
  library := "wasi_unstable"
  item := "fd_write"
  name := "fd_write"
  params := [.i32, .i32, .i32, .i32]
  result := .i32

/-- A parameter by its name. -/
def param (name : String) : Instr :=
  .localGet (.name name)

/-- Writes the low byte of its argument and returns the argument. -/
def printc : Func where
  name := "printc"
  params := .named [("char", .i32)]
  result := some .i32
  body := [
    .store (.i32Const 0) (.i32Const 8),
    .store (.i32Const 4) (.i32Const 1),
    .store8 (.i32Const 8) (param "char"),
    .drop (.call "fd_write" [.i32Const 1, .i32Const 0, .i32Const 1, .i32Const 20]),
    param "char"]

/-- Prints its argument as an unsigned number and returns it. Being unsigned, it also prints the
magnitude of the least integer. -/
def printu : Func where
  name := "printu"
  params := .named [("num", .i32)]
  result := some .i32
  body := [
    .cond none (.numeric .i32 .geU (param "num") (.i32Const 10))
      [.drop (.call "printu" [.numeric .i32 .divU (param "num") (.i32Const 10)])] [],
    .drop (.call "printc"
      [.numeric .i32 .add (.i32Const 48) (.numeric .i32 .remU (param "num") (.i32Const 10))]),
    param "num"]

/-- Prints its argument as a signed number and returns it. -/
def printi : Func where
  name := "printi"
  params := .named [("num", .i32)]
  result := some .i32
  body := [
    .cond none (.numeric .i32 .ltS (param "num") (.i32Const 0))
      [.drop (.call "printc" [.i32Const 45]),
        .drop (.call "printu" [.numeric .i32 .sub (.i32Const 0) (param "num")])]
      [.drop (.call "printu" [param "num"])],
    param "num"]

/-- The start function: prints the result of a function without parameters, and a line feed. -/
def start (main : String) : Func where
  name := "_start"
  exportAs := some "_start"
  body := [
    .drop (.call "printi" [.call main []]),
    .drop (.call "printc" [.i32Const 10])]

/-- The functions that programs can call, in the order of the module. -/
def functions : List (Func × Signature) :=
  [(printc, ⟨[.int], .int⟩), (printu, ⟨[.int], .int⟩), (printi, ⟨[.int], .int⟩)]

/-- The signatures of the functions that programs can call. -/
def signatures : Assoc Signature :=
  functions.map fun p => (p.1.name, p.2)

end Clausal.Builtin
