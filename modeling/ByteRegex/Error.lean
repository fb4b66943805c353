-- What a caller is told when an operation fails. Each part of the library
-- has its own causes, and turns them into one of these.
namespace ByteRegex

/-- A place in the text of a pattern. A tree that was not read from text has
no places. -/
abbrev Location := Option Nat

inductive Error where
  /-- The input is malformed, with the place of the fault if it has one. -/
  | malformed (reason : String) (index : Location)
  /-- Something does not fit. -/
  | resource (reason : String)
  /-- An automaton needs more states than the limit allows. -/
  | stateLimit (what : String) (limit : Nat)
  /-- The pattern uses a construct that no automaton can match. -/
  | unsupported (construct : String) (index : Location)
  /-- A range or the bounds of a repeat are the wrong way round or too large. -/
  | invalidRange (reason : String) (index : Location)
  /-- A file cannot be opened, with the reason that the system gives. -/
  | cannotOpen (path reason : String)
deriving DecidableEq, Repr

namespace Error

/-- The reason that is given when a limit is not named. -/
def defaultResourceReason : String := "Resource limit exceeded."

def message : Error → String
  | malformed reason _ => reason
  | resource reason => reason
  | stateLimit what limit => what ++ " limit of " ++ toString limit ++ " exceeded."
  | unsupported construct none => construct ++ " unsupported."
  | unsupported construct (some i) => construct ++ " unsupported at index " ++ toString i ++ "."
  | invalidRange reason _ => reason
  | cannotOpen path reason => "Unable to open \"" ++ path ++ "\": " ++ reason

/-- The place in the pattern that the error names. -/
def index : Error → Location
  | malformed _ i => i
  | unsupported _ i => i
  | invalidRange _ i => i
  | resource _ => none
  | stateLimit _ _ => none
  | cannotOpen _ _ => none

/-- The same error at another place of the pattern. -/
def withIndex (i : Nat) : Error → Error
  | malformed reason _ => malformed reason (some i)
  | unsupported construct _ => unsupported construct (some i)
  | invalidRange reason _ => invalidRange reason (some i)
  | e => e

/-- The name of a file ends at its first zero byte. -/
def fileName (path : String) : String := String.ofList (path.toList.takeWhile (· ≠ '\x00'))

/-- The error for a file that does not open. -/
def unopened (path reason : String) : Error := cannotOpen (fileName path) reason

end Error

end ByteRegex
