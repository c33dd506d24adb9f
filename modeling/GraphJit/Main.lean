import GraphJit.CommandLine.Program
import GraphJit.ObjectFile.Elf

/-! # The command on real files -/

open GraphJit CommandLine

def fileError : IO.Error → FileError
  | .noFileOrDirectory .. => .notFound
  | .permissionDenied .. => .permissionDenied
  | .inappropriateType _ code _ => if code = 20 then .notDirectory else .isDirectory
  | .invalidArgument _ 36 _ => .nameTooLong
  | .noSuchThing .. => .notFound
  | error => .other 5 (toString error)

/-- The result of an action on files, or why it failed. -/
def attemptFile {α : Type} (action : IO α) : IO (Except FileError α) := do
  try return .ok (← action)
  catch error => return .error (fileError error)

def asText (bytes : ByteArray) : Except FileError String :=
  match String.fromUTF8? bytes with
  | some text => .ok text
  | none => .error .invalidText

/-- All that is left to read from a stream. -/
partial def readRest (stream : IO.FS.Stream) (known : ByteArray) : IO ByteArray := do
  let chunk ← stream.read 65536
  if chunk.isEmpty then return known
  readRest stream (known ++ chunk)

def realFiles : Host IO where
  inputText := do
    let bytes ← attemptFile do readRest (← IO.getStdin) ByteArray.empty
    return bytes.bind asText
  textAt path := do
    let bytes ← attemptFile (IO.FS.withFile path .read (·.readBinToEnd))
    return bytes.bind asText
  putObject path file :=
    attemptFile (IO.FS.writeBinFile path ⟨file.elf.toArray⟩)

def main (words : List String) : IO UInt32 := do
  let ending ← run realFiles words
  IO.print ending.stdout
  IO.eprint ending.stderr
  return ending.status.toUInt32
