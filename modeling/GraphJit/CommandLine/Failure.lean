import GraphJit.Error
import GraphJit.IR.Parser
import GraphJit.Text.Hidden

/-! # Failures of the command

Errors are shown as records: the name of the error, and its fields.
-/

namespace GraphJit

/-- A record with named fields. -/
def recordText (name : String) (fields : List (String × String)) : String :=
  name ++ " \x7b " ++ String.intercalate ", " (fields.map fun field => field.1 ++ ": " ++ field.2)
    ++ " \x7d"

def ParseError.record (error : ParseError) : String :=
  recordText "ParseError"
    [("line", toString error.line), ("message", Text.quoted error.cause.message)]

/-- The fields of an error. -/
def CompileError.fields : CompileError → List (String × String)
  | nearJumpOutOfRange position offset expected actual =>
    [("position", toString position), ("offset", toString offset),
      ("expected", toString expected), ("actual", toString actual)]
  | nearJumpState cause => [("reason", Text.quoted cause.message)]
  | unresolvedBlock block => [("block", toString block)]
  | jumpSizeMismatch position expected actual =>
    [("position", toString position), ("expected", toString expected),
      ("actual", toString actual)]
  | resolutionDiverged iterations => [("iterations", toString iterations)]
  | ssaViolation cause => [("reason", Text.quoted cause.message)]
  | unsupported cause => [("reason", Text.quoted cause.message)]
  | allocation cause => [("reason", Text.quoted cause.message)]
  | encoding cause => [("reason", Text.quoted cause.message)]
  | mapping cause => [("reason", Text.quoted cause.message)]

def CompileError.record (error : CompileError) : String :=
  recordText error.kind error.fields

namespace CommandLine

/-- Files that cannot be read or written. -/
inductive FileError where
  | notFound
  | permissionDenied
  | notDirectory
  | isDirectory
  | nameTooLong
  /-- The bytes are not text. -/
  | invalidText
  | other (code : Nat) (message : String)
deriving DecidableEq, Repr

namespace FileError

def systemRecord (code : Nat) (kind message : String) : String :=
  recordText "Os" [("code", toString code), ("kind", kind), ("message", Text.quoted message)]

def record : FileError → String
  | notFound => systemRecord 2 "NotFound" "No such file or directory"
  | permissionDenied => systemRecord 13 "PermissionDenied" "Permission denied"
  | notDirectory => systemRecord 20 "NotADirectory" "Not a directory"
  | isDirectory => systemRecord 21 "IsADirectory" "Is a directory"
  | nameTooLong => systemRecord 36 "InvalidFilename" "File name too long"
  | invalidText =>
    recordText "Error"
      [("kind", "InvalidData"), ("message", Text.quoted "stream did not contain valid UTF-8")]
  | other code message => systemRecord code "Uncategorized" message

end FileError

/-- Why the command did not do what it was asked for. -/
inductive CommandError where
  | file (cause : FileError)
  | parse (cause : ParseError)
  | unknownType (name : String)
  | runFloat
  | runCount (values arguments : Nat)
  | runConvention
  | runTooMany
  /-- There is no processor at hand to run the code. -/
  | runHost
  | compile (cause : CompileError)
deriving DecidableEq, Repr

def CommandError.text : CommandError → String
  | file cause => cause.record
  | parse cause => cause.record
  | unknownType name => Text.quoted ("unknown type '" ++ name ++ "'")
  | runFloat => Text.quoted "--run only supports integer arguments and return values"
  | runCount values arguments =>
    Text.quoted ("--run got " ++ toString values ++ " values for " ++ toString arguments
      ++ " arguments")
  | runConvention => Text.quoted "--run needs the host calling convention"
  | runTooMany => Text.quoted "--run supports at most four arguments"
  | runHost => Text.quoted "--run needs an x86-64 unix host"
  | compile cause => cause.record

/-- How the command can end early. -/
inductive CommandFailure where
  | fault (cause : Fault)
  | error (cause : CommandError)
deriving DecidableEq, Repr

/-- The failure of a compilation, as one of the command. -/
def CommandFailure.ofFailure : Failure → CommandFailure
  | .fault cause => .fault cause
  | .error cause => .error (.compile cause)

end CommandLine

end GraphJit
