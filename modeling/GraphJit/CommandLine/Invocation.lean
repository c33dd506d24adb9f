import GraphJit.Text.Cut
import GraphJit.Text.Numeral

/-! # Command line arguments

Options are long names; a value follows an option or stands behind an equals
sign. Options with one value and flags may be given once. What is no option is
the input file, and after two dashes nothing is an option.
-/

namespace GraphJit.CommandLine

/-- What the command line asks for. -/
structure Invocation where
  input : Option String := none
  /-- Names of argument types, as given. -/
  arguments : List String := []
  /-- Name of the result type, as given. -/
  result : Option String := none
  noSsa : Bool := false
  fastFloat : Bool := false
  avx : Bool := false
  win64 : Bool := false
  /-- Object file to write. -/
  object : Option String := none
  /-- Name of the function in the object file. -/
  name : Option String := none
  /-- Values to run the function with. -/
  run : Option (List Int) := none
deriving DecidableEq, Repr

/-- Why arguments are not acted on. -/
inductive Stop where
  | help
  | misuse
deriving DecidableEq, Repr

/-- Options that take a value. -/
inductive ValueOption where
  | arguments
  | result
  | object
  | name
  | run
deriving DecidableEq, Repr

def ValueOption.ofName? : String → Option ValueOption
  | "args" => some arguments
  | "ret" => some result
  | "emit-obj" => some object
  | "name" => some name
  | "run" => some run
  | _ => none

/-- Whether a value in an argument of its own may start with a dash. -/
def ValueOption.allowsDash : ValueOption → Bool
  | run => true
  | _ => false

inductive Flag where
  | noSsa
  | fastFloat
  | avx
  | win64
deriving DecidableEq, Repr

def Flag.ofName? : String → Option Flag
  | "no-ssa" => some noSsa
  | "fast-fp" => some fastFloat
  | "avx" => some avx
  | "win64" => some win64
  | _ => none

/-- The pieces of a list between commas. -/
def listItems (text : String) : List String :=
  (Text.pieces ',' text.toList).map String.ofList

namespace Invocation

/-- Set a field that may be given once. -/
def once (known : Option String) (value : String) : Except Stop (Option String) :=
  match known with
  | none => .ok (some value)
  | some _ => .error .misuse

/-- A path, which is never empty. -/
def path (value : String) : Except Stop String :=
  if value.isEmpty then .error .misuse else .ok value

def runValue (text : String) : Except Stop Int :=
  match Text.signed? 64 text.toList with
  | some value => .ok value
  | none => .error .misuse

def setInput (invocation : Invocation) (value : String) : Except Stop Invocation := do
  return { invocation with input := ← once invocation.input (← path value) }

def setValue (invocation : Invocation) (option : ValueOption) (value : String) :
    Except Stop Invocation := do
  match option with
  | .arguments => return { invocation with arguments := invocation.arguments ++ listItems value }
  | .result => return { invocation with result := ← once invocation.result value }
  | .object => return { invocation with object := ← once invocation.object (← path value) }
  | .name => return { invocation with name := ← once invocation.name value }
  | .run =>
    let values ← (listItems value).mapM runValue
    return { invocation with run := some (invocation.run.getD [] ++ values) }

def flag (invocation : Invocation) : Flag → Bool
  | .noSsa => invocation.noSsa
  | .fastFloat => invocation.fastFloat
  | .avx => invocation.avx
  | .win64 => invocation.win64

def setFlag (invocation : Invocation) (flag : Flag) : Except Stop Invocation :=
  if invocation.flag flag then .error .misuse
  else
    match flag with
    | .noSsa => .ok { invocation with noSsa := true }
    | .fastFloat => .ok { invocation with fastFloat := true }
    | .avx => .ok { invocation with avx := true }
    | .win64 => .ok { invocation with win64 := true }

end Invocation

/-- An argument by its form. -/
inductive Word where
  /-- Two dashes and nothing else. -/
  | separator
  | long (name : String) (value : Option String)
  | short (letters : List Char)
  | plain (text : String)
deriving DecidableEq, Repr

def Word.ofString (text : String) : Word :=
  match text.toList with
  | ['-', '-'] => .separator
  | '-' :: '-' :: rest =>
    match Text.cut? (· == '=') rest with
    | some (name, value) => .long (String.ofList name) (some (String.ofList value))
    | none => .long (String.ofList rest) none
  | '-' :: c :: rest => .short (c :: rest)
  | _ => .plain text

/-- Whether an argument can be the value of the option before it. -/
def Word.isValueOf (option : ValueOption) (word : Word) : Bool :=
  option.allowsDash ||
    match word with
    | .plain _ => true
    | _ => false

namespace Invocation

/-- Read arguments from left to right. -/
def read (invocation : Invocation) : List String → Except Stop Invocation
  | [] => .ok invocation
  | text :: rest =>
    match Word.ofString text with
    | .separator => rest.foldlM setInput invocation
    | .plain value => do (← invocation.setInput value).read rest
    | .short letters => .error (if letters.head? = some 'h' then .help else .misuse)
    | .long "help" none => .error .help
    | .long name value =>
      match ValueOption.ofName? name, Flag.ofName? name, value with
      | some option, _, some value => do (← invocation.setValue option value).read rest
      | some option, _, none =>
        match rest with
        | [] => .error .misuse
        | value :: rest =>
          if (Word.ofString value).isValueOf option then do
            (← invocation.setValue option value).read rest
          else .error .misuse
      | none, some flag, none => do (← invocation.setFlag flag).read rest
      | none, _, _ => .error .misuse

def parse (words : List String) : Except Stop Invocation :=
  read {} words

end Invocation

end GraphJit.CommandLine
