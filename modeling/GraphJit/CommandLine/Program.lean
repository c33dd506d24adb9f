import GraphJit.CommandLine.Failure
import GraphJit.CommandLine.Invocation
import GraphJit.Compile.Session
import GraphJit.ObjectFile
import GraphJit.X64.Text

/-! # The command

Reads a function as text, compiles it, and lists the machine code. What the
command needs from the outside is given by a `Host`, so it can be run on real
files and on any model of them.
-/

namespace GraphJit.CommandLine

open Validate (Signature)

def typeNamed (name : String) : Except CommandError ValueType :=
  match ValueType.ofName? (String.ofList (Text.trim name.toList)) with
  | some type => .ok type
  | none => .error (.unknownType name)

namespace Invocation

def signature (invocation : Invocation) : Except CommandError Signature := do
  let arguments ← invocation.arguments.mapM typeNamed
  return { arguments, result := ← invocation.result.mapM typeNamed }

def options (invocation : Invocation) : Options :=
  { ssa := !invocation.noSsa
    fastFloat := invocation.fastFloat
    avx := invocation.avx
    convention := if invocation.win64 then .win64 else .sysv }

end Invocation

/-- The sizes of a frame as a record. -/
def frameRecord (frame : Frame) : String :=
  recordText "FrameSizes"
    [("int_saved", toString frame.intSaved.toNat), ("vec_saved", toString frame.vecSaved.toNat),
      ("xmm_save_region_size", toString frame.xmmSave),
      ("spill_region_size", toString frame.spill),
      ("call_args_region_size", toString frame.callArgs)]

def summary (function : CompiledFunction) : String :=
  "; " ++ toString function.code.length ++ " bytes, frame " ++ frameRecord function.frame

/-- Name of the function in an object file, unless one is given. -/
def defaultName : String := "translated"

/-- An object file to be written. -/
structure ObjectRequest where
  path : String
  file : ObjectFile
deriving Repr

/-- The lines printed, and how printing ended. -/
structure Output where
  lines : List String := []
  result : Except CommandFailure (Option ObjectRequest)

namespace Output

def fail (lines : List String) (cause : CommandError) : Output :=
  { lines, result := .error (.error cause) }

end Output

/-- The object file that was asked for. -/
def Invocation.objectRequest (invocation : Invocation) (function : CompiledFunction) :
    Option ObjectRequest :=
  invocation.object.map fun path =>
    { path, file := ObjectFile.addFunction {} (invocation.name.getD defaultName) function.code }

/-- Whether a function can be run with the given values, by its signature alone. -/
def runnable (options : Options) (signature : Signature) (values : List Int) :
    Except CommandError Unit :=
  if (signature.arguments ++ signature.result.toList).any ValueType.isFloat then .error .runFloat
  else if values.length ≠ signature.arguments.length then
    .error (.runCount values.length signature.arguments.length)
  else if options.convention ≠ .sysv then .error .runConvention
  else .ok ()

/-- Compile and place a function that is to be run. -/
def compileMapped (options : Options) (signature : Signature) (graph : Graph) :
    Outcome CompiledFunction := do
  let function ← (graph.compile options signature).outcome
  let _ ← MappingStats.map {} function.code
  return function

/-- List a function, and then fail to run it. -/
def Invocation.runFunction (invocation : Invocation) (signature : Signature) (graph : Graph)
    (values : List Int) : Output :=
  match runnable invocation.options signature values with
  | .error cause => .fail [] cause
  | .ok () =>
    match compileMapped invocation.options signature graph with
    | .error failure => { result := .error (.ofFailure failure) }
    | .ok function =>
      .fail (X64.listing 0 function.code) (if values.length > 4 then .runTooMany else .runHost)

/-- Compile and list a function. -/
def Invocation.listFunction (invocation : Invocation) (signature : Signature) (graph : Graph) :
    Output :=
  match (graph.compile invocation.options signature).outcome with
  | .error failure => { result := .error (.ofFailure failure) }
  | .ok function =>
    { lines := X64.listing 0 function.code ++ [summary function]
      result := .ok (invocation.objectRequest function) }

/-- Do what was asked for with the text of a function. -/
def Invocation.process (invocation : Invocation) (source : String) : Output :=
  match Graph.parse source with
  | .error cause => .fail [] (.parse cause)
  | .ok graph =>
    match invocation.signature with
    | .error cause => .fail [] cause
    | .ok signature =>
      match invocation.run with
      | some values => invocation.runFunction signature graph values
      | none => invocation.listFunction signature graph

/-- What the command needs from the outside. -/
structure Host (m : Type → Type) where
  inputText : m (Except FileError String)
  textAt : String → m (Except FileError String)
  putObject : String → ObjectFile → m (Except FileError Unit)

/-- Exit status, and what was written to the two output streams. -/
structure Ending where
  status : Nat
  stdout : String := ""
  stderr : String := ""
deriving DecidableEq, Repr

namespace Ending

def linesText (lines : List String) : String :=
  String.join (lines.map (· ++ "\n"))

def ofError (lines : List String) (cause : CommandError) : Ending :=
  { status := 1, stdout := linesText lines, stderr := "Error: " ++ cause.text ++ "\n" }

def ofFailure (lines : List String) : CommandFailure → Ending
  | .error cause => ofError lines cause
  | .fault _ => { status := 101, stdout := linesText lines }

end Ending

def usage : String :=
  "usage: [INPUT] [--args T,T] [--ret T] [--no-ssa] [--fast-fp] [--avx] [--win64]\n"
    ++ "       [--emit-obj PATH] [--name NAME] [--run N,N]\n"

def Stop.ending : Stop → Ending
  | .help => { status := 0, stderr := usage }
  | .misuse => { status := 2, stderr := usage }

/-- Run the command. -/
def run {m : Type → Type} [Monad m] (host : Host m) (words : List String) : m Ending := do
  match Invocation.parse words with
  | .error stop => return stop.ending
  | .ok invocation =>
    let source ←
      match invocation.input with
      | some path => host.textAt path
      | none => host.inputText
    match source with
    | .error cause => return .ofError [] (.file cause)
    | .ok source =>
      let output := invocation.process source
      match output.result with
      | .error failure => return .ofFailure output.lines failure
      | .ok none => return { status := 0, stdout := Ending.linesText output.lines }
      | .ok (some request) =>
        match ← host.putObject request.path request.file with
        | .error cause => return .ofError output.lines (.file cause)
        | .ok () =>
          let lines := output.lines ++ ["; wrote " ++ request.path]
          return { status := 0, stdout := Ending.linesText lines }

end GraphJit.CommandLine
