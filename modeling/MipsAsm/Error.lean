import MipsAsm.Cause
import MipsAsm.Token.Scanner

/-! # Errors

Everything that can end an assembly run or the reading of its files.
-/

namespace MipsAsm

/-- What is wrong with a run configuration. -/
inductive ConfigCause where
  | notAssignment (line : String)
  | unknownKey (key : String)
  | notAddress (value : String)
  | notFlag (value : String)
  | notNumber (value : String)
  | notSmallNumber (value : String)
  | unknownEndian (value : String)
  | unknownPredictor (value : String)
  | missingKey (key : String)
  deriving DecidableEq, Repr

def ConfigCause.message : ConfigCause → String
  | notAssignment line => "expected `key=value`, found `" ++ line ++ "`"
  | unknownKey key => "unknown key `" ++ key ++ "`"
  | notAddress value => "`" ++ value ++ "` is not an address"
  | notFlag value => "`" ++ value ++ "` is not true or false"
  | notNumber value => "`" ++ value ++ "` is not a number"
  | notSmallNumber value => "`" ++ value ++ "` is not a 32-bit number"
  | unknownEndian value => "unknown endianness `" ++ value ++ "`"
  | unknownPredictor value => "unknown predictor `" ++ value ++ "`"
  | missingKey key => "missing key `" ++ key ++ "`"

inductive Error where
  | lexical (error : Token.LexicalError)
  | assembly (pos : Option Position) (cause : Cause)
  | fileOpen (path : String)
  | fileRead
  | fileCreate (path : String)
  | fileWrite (path : String)
  /-- Lines count from 1; line 0 stands for the configuration as a whole. -/
  | config (line : Nat) (cause : ConfigCause)
  | settings
  deriving DecidableEq, Repr

def Cause.located (cause : Cause) (pos : Position) : Error :=
  .assembly (some pos) cause

namespace Error

def pos? : Error → Option Position
  | lexical error => some error.pos
  | assembly pos _ => pos
  | _ => none

/-- The message without a position. -/
def message : Error → String
  | lexical error => error.cause.message
  | assembly _ cause => cause.message
  | fileOpen path => "Failed to open file: " ++ path
  | fileRead => "Failed to read line"
  | fileCreate path => "Failed to create file: " ++ path
  | fileWrite path => "Failed to write file: " ++ path
  | config line cause => "Invalid config at line " ++ toString line ++ ": " ++ cause.message
  | settings => "Invalid pipeline settings"

def fullMessage (e : Error) : String :=
  match e.pos? with
  | some pos => pos.text ++ ": " ++ e.message
  | none => e.message

end Error

end MipsAsm
