import WasmBinary.Section

/-!
# Modules

A module is a list of sections. Its image is a header and the images of the sections in the order
given.
-/

namespace WasmBinary

open Encoder

structure Module where
  sections : List Section
  deriving BEq

namespace Module

/-- The first four bytes of an image. -/
def magic : Bytes := [0x00, 0x61, 0x73, 0x6d]

/-- The version of the format, the next four bytes. -/
def version : Bytes := [0x01, 0x00, 0x00, 0x00]

end Module

instance : Encode Module where
  encode m := do
    emit Module.magic
    emit Module.version
    emitAll m.sections

namespace Module

def empty : Module := ⟨[]⟩

def push (m : Module) (sec : Section) : Module := ⟨m.sections ++ [sec]⟩

def remove (m : Module) (i : Nat) : Module := ⟨m.sections.eraseIdx i⟩

/-- Exchanges the sections at two positions of the module. -/
def swap (m : Module) (i j : Nat) : Module :=
  match m.sections[i]?, m.sections[j]? with
  | some a, some b => ⟨(m.sections.set i b).set j a⟩
  | _, _ => m

/-- Puts a copy of the section at a position at the end. -/
def duplicate (m : Module) (i : Nat) : Module :=
  ⟨m.sections ++ m.sections[i]?.toList⟩

/-- Sorts the sections by id. Sections of the same kind keep their order. -/
def sort (m : Module) : Module := ⟨m.sections.mergeSort fun a b => a.id ≤ b.id⟩

end Module

end WasmBinary
