/-! # Numerals

Reading digits of a base into a natural number or a bounded integer, and writing hexadecimal
digits. A reader accepts one sign of its own in front of the digits and nothing after them.
-/

namespace MipsAsm.Text

def digit? (base : Nat) (c : Char) : Option Nat :=
  let value :=
    if '0' ≤ c ∧ c ≤ '9' then some (c.toNat - '0'.toNat)
    else if 'a' ≤ c ∧ c ≤ 'z' then some (c.toNat - 'a'.toNat + 10)
    else if 'A' ≤ c ∧ c ≤ 'Z' then some (c.toNat - 'A'.toNat + 10)
    else none
  value.filter (· < base)

def ofDigits (base : Nat) (digits : List Nat) : Nat :=
  digits.foldl (fun n d => n * base + d) 0

/-- A nonempty run of digits of the base. -/
def natural? (base : Nat) (cs : List Char) : Option Nat :=
  if cs.isEmpty then none else (cs.mapM (digit? base)).map (ofDigits base)

/-- A number of so many bits, with an optional plus sign. -/
def unsigned? (base bits : Nat) (cs : List Char) : Option Nat :=
  let digits := match cs with
    | '+' :: rest => rest
    | _ => cs
  (natural? base digits).filter (· < 1 <<< bits)

/-- An integer of the signed 64-bit range, with an optional sign. -/
def signed? (base : Nat) (cs : List Char) : Option Int :=
  let value := match cs with
    | '+' :: rest => (natural? base rest).map Int.ofNat
    | '-' :: rest => (natural? base rest).map fun n => -Int.ofNat n
    | _ => (natural? base cs).map Int.ofNat
  value.filter fun v => -0x8000000000000000 ≤ v ∧ v < 0x8000000000000000

def upperHex (n : Nat) : String :=
  String.ofList ((Nat.toDigits 16 n).map Char.toUpper)

def lowerHex (n : Nat) : String :=
  String.ofList (Nat.toDigits 16 n)

/-- Fills up to `width` characters on the left. -/
def padLeft (width : Nat) (c : Char) (s : String) : String :=
  String.ofList (s.toList.leftpad width c)

/-- Fills up to `width` characters on the right. -/
def padRight (width : Nat) (c : Char) (s : String) : String :=
  String.ofList (s.toList.rightpad width c)

def paddedHex (width n : Nat) : String :=
  padLeft width '0' (upperHex n)

/-- An address as messages and files spell it: `0x` and eight digits. -/
def addressText (address : UInt32) : String :=
  "0x" ++ paddedHex 8 address.toNat

def repeated (n : Nat) (c : Char) : String :=
  String.ofList (List.replicate n c)

end MipsAsm.Text
