import MipsAsm.Yaml.Scalar

/-! # Tags of YAML

A tag is a run of octets: its escapes spell the octets of characters one by one, and these need not
be text. A tag is put together from two parts, and each of them ends in front of an octet 0.
-/

namespace MipsAsm.Yaml

structure Tag where
  octets : List UInt8
  deriving DecidableEq, Repr

namespace Tag

def octetsOfText (s : String) : List UInt8 :=
  s.toUTF8.data.toList

def upToZero (octets : List UInt8) : List UInt8 :=
  octets.takeWhile (· != 0)

def ofParts (start suffix : List UInt8) : Tag :=
  ⟨upToZero start ++ upToZero suffix⟩

/-- Where the tags of the standard types start. -/
def standardStart : String :=
  "tag:yaml.org,2002:"

def standard (name : String) : Tag :=
  ofParts (octetsOfText standardStart) (octetsOfText name)

/-- The name that a local tag gives, if that is text. A mark alone is its own name. -/
def localName? (t : Tag) : Option String :=
  match t.octets with
  | 0x21 :: rest => String.fromUTF8? ⟨(if rest.isEmpty then t.octets else rest).toArray⟩
  | _ => none

/-! ## Reading -/

def isNameChar (c : Char) : Bool :=
  c.isAlphanum || c == '_' || c == '-'

def isUriChar (inBrackets : Bool) (c : Char) : Bool :=
  isNameChar c || ";/?:@&=+$.!~*'()".toList.contains c || (inBrackets && ",[]".toList.contains c)

def escapedOctet? : List Char → Option (Nat × List Char)
  | '%' :: a :: b :: rest => do
    return (16 * (← Text.digit? 16 a) + (← Text.digit? 16 b), rest)
  | _ => none

/-- How many octets follow the first one of a character. -/
def following? (n : Nat) : Option Nat :=
  if n < 0x80 then some 0
  else if n < 0xC0 then none
  else if n < 0xE0 then some 1
  else if n < 0xF0 then some 2
  else if n < 0xF8 then some 3
  else none

def followingOctets : Nat → List Char → Option (List UInt8 × List Char)
  | 0, cs => some ([], cs)
  | count + 1, cs => do
    let (n, cs) ← escapedOctet? cs
    if 0x80 ≤ n && n < 0xC0 then
      let (more, cs) ← followingOctets count cs
      return (UInt8.ofNat n :: more, cs)
    else none

/-- The octets of a character, all of them escaped. They may encode no character, but their first
one tells how many there are. -/
def escapedOctets? (cs : List Char) : Option (List UInt8 × List Char) := do
  let (n, cs) ← escapedOctet? cs
  let count ← following? n
  let (more, cs) ← followingOctets count cs
  return (UInt8.ofNat n :: more, cs)

/-- The longest run of a URI; `fuel` bounds the number of its characters. -/
def uri (inBrackets : Bool) : Nat → List Char → Option (List UInt8 × List Char)
  | 0, cs => some ([], cs)
  | fuel + 1, cs =>
    match cs with
    | [] => some ([], [])
    | c :: rest =>
      if c == '%' then do
        let (octets, rest) ← escapedOctets? cs
        let (more, rest) ← uri inBrackets fuel rest
        return (octets ++ more, rest)
      else if isUriChar inBrackets c then do
        let (more, rest) ← uri inBrackets fuel rest
        return (UInt8.ofNat c.toNat :: more, rest)
      else some ([], cs)

/-- A handle is a mark, or a name between marks. -/
def handle? : List Char → Option (String × List Char)
  | '!' :: cs =>
    let name := cs.takeWhile isNameChar
    match cs.dropWhile isNameChar with
    | '!' :: rest => some (String.ofList ('!' :: name ++ ['!']), rest)
    | rest => if name.isEmpty then some ("!", rest) else none
  | _ => none

/-- A handle and a suffix. A tag in brackets has no handle, and nor has a mark alone. -/
def parts? (cs : List Char) : Option (String × List UInt8 × List Char) :=
  match cs with
  | '!' :: '<' :: cs => do
    let (suffix, rest) ← uri true cs.length cs
    match rest with
    | '>' :: rest => if suffix.isEmpty then none else some ("", suffix, rest)
    | _ => none
  | '!' :: rest => do
    match handle? cs with
    | some (handle, rest) =>
      let (suffix, rest) ← uri false rest.length rest
      if handle != "!" then if suffix.isEmpty then none else some (handle, suffix, rest)
      else if (upToZero suffix).isEmpty then some ("", octetsOfText "!", rest)
      else some ("!", suffix, rest)
    | none =>
      let (suffix, rest) ← uri false rest.length rest
      some ("!", suffix, rest)
  | _ => none

end Tag

end MipsAsm.Yaml
