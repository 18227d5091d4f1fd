import LayeredConfig.Path
import LayeredConfig.Text.Utf8

namespace LayeredConfig.Yaml

inductive Number
  | finite (value : Rat)
  | infinite (negative : Bool)
  | undefined
deriving DecidableEq, Repr

/-- What a mapping may have for a key. Of a time it only matters whether it has a zone. -/
inductive Key
  | null
  | bool (b : Bool)
  | int (n : Int)
  | float (x : Number)
  | date
  | time (zoned : Bool)
  | bytes
  | text (s : String)
deriving DecidableEq, Repr

inductive Value
  | text (s : String)
  | other
deriving DecidableEq, Repr

inductive Content
  | nothing
  | mapping (entries : List (Key × Value))
  | other
deriving DecidableEq, Repr

/-- How the reading of YAML may fail: with an explanation of what is wrong with it, at bytes that are no text,
or with an exception that is no answer to what was read. -/
inductive Fault
  | malformed (explanation : String)
  | undecodable (fault : Text.Utf8.Fault)
  | other (exception message : String)
deriving DecidableEq, Repr

/-- Reads the bytes of a file as text, and the text as YAML. What is wrong may be told with the name of the
file. -/
abbrev Reader := Path → List UInt8 → Except Fault Content

namespace Number

def lt : Number → Number → Bool
  | .finite x, .finite y => x < y
  | .infinite negative, .finite _ => negative
  | .finite _, .infinite negative => ¬negative
  | .infinite a, .infinite b => a && ¬b
  | _, _ => false

end Number

def Key.number? : Key → Option Number
  | .bool b => some (.finite b.toInt)
  | .int n => some (.finite n)
  | .float x => some x
  | _ => none

end LayeredConfig.Yaml
