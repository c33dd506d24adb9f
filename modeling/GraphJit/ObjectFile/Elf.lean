import GraphJit.ObjectFile

/-! # The ELF container

An object file as a relocatable 64-bit ELF file. After the header come the text
section, the symbol table, the names of symbols and of sections, and the section
headers. Every symbol is a global function in the text section.
-/

namespace GraphJit.ObjectFile

open X64 (littleEndian)

def half (value : Nat) : List UInt8 := littleEndian (BitVec.ofNat 16 value) 2
def word (value : Nat) : List UInt8 := littleEndian (BitVec.ofNat 32 value) 4
def xword (value : Nat) : List UInt8 := littleEndian (BitVec.ofNat 64 value) 8

/-- Text ended by a zero byte. -/
def cString (text : String) : List UInt8 :=
  text.toUTF8.toList ++ [0]

/-- Names one after the other, behind an empty one. -/
def stringTable (names : List String) : List UInt8 :=
  0 :: names.flatMap cString

/-- Offset of the name at a position of a table. -/
def nameOffset (names : List String) (position : Nat) : Nat :=
  (stringTable (names.take position)).length

structure Section where
  name : String
  /-- Kind of the section. -/
  kind : Nat
  flags : Nat := 0
  link : Nat := 0
  info : Nat := 0
  align : Nat := 1
  entrySize : Nat := 0
  data : List UInt8

def headerSize : Nat := 64
def sectionHeaderSize : Nat := 64
def symbolSize : Nat := 24

/-- Position of the text section among the section headers. -/
def textSection : Nat := 1

/-- An entry of the symbol table: a global function. -/
def symbolEntry (nameAt : Nat) (symbol : ObjectSymbol) : List UInt8 :=
  word nameAt ++ [0x12, 0] ++ half textSection ++ xword symbol.address ++ xword symbol.size

/-- The symbol table, behind its empty first entry. -/
def symbolTable (file : ObjectFile) : List UInt8 :=
  let names := file.symbols.map (·.name)
  List.replicate symbolSize 0 ++ file.symbols.zipIdx.flatMap fun (symbol, position) =>
    symbolEntry (nameOffset names position) symbol

def sectionNames : List String :=
  [".text", ".symtab", ".strtab", ".shstrtab"]

def sections (file : ObjectFile) : List Section :=
  [{ name := ".text", kind := 1, flags := 6, align := file.textAlign, data := file.text },
    { name := ".symtab", kind := 2, link := 3, info := 1, align := 8, entrySize := symbolSize
      data := file.symbolTable },
    { name := ".strtab", kind := 3, data := stringTable (file.symbols.map (·.name)) },
    { name := ".shstrtab", kind := 3, data := stringTable sectionNames }]

/-- Contents placed one after the other at their alignment, with the offset of each. -/
def placeSections (start : Nat) : List Section → List (Section × Nat) × List UInt8
  | [] => ([], [])
  | part :: rest =>
    let offset := alignUp part.align start
    let (placed, bytes) := placeSections (offset + part.data.length) rest
    ((part, offset) :: placed, List.replicate (offset - start) 0 ++ part.data ++ bytes)

def sectionHeader (nameAt : Nat) (part : Section) (offset : Nat) : List UInt8 :=
  word nameAt ++ word part.kind ++ xword part.flags ++ xword 0 ++ xword offset
    ++ xword part.data.length ++ word part.link ++ word part.info ++ xword part.align
    ++ xword part.entrySize

/-- The file header of a relocatable file for this machine. -/
def fileHeader (sectionTable count : Nat) : List UInt8 :=
  [0x7F, 0x45, 0x4C, 0x46, 2, 1, 1, 0] ++ List.replicate 8 0 ++ half 1 ++ half 62 ++ word 1
    ++ xword 0 ++ xword 0 ++ xword sectionTable ++ word 0 ++ half headerSize ++ half 0 ++ half 0
    ++ half sectionHeaderSize ++ half count ++ half (count - 1)

/-- The whole file. -/
def elf (file : ObjectFile) : List UInt8 :=
  let (placed, bytes) := placeSections headerSize file.sections
  let tableOffset := alignUp 8 (headerSize + bytes.length)
  let gap := List.replicate (tableOffset - (headerSize + bytes.length)) 0
  let headers := placed.zipIdx.flatMap fun ((part, offset), position) =>
    sectionHeader (nameOffset sectionNames position) part offset
  fileHeader tableOffset (placed.length + 1) ++ bytes ++ gap
    ++ List.replicate sectionHeaderSize 0 ++ headers

end GraphJit.ObjectFile
