/-! # Byte order

A number of a given width is a list of bytes. Both byte orders come from the little-endian list by
the same permutation, so that reading undoes writing for either.
-/

namespace MipsAsm.Memory

inductive Endian where
  | little
  | big
  deriving DecidableEq, Repr

/-- The `width` lowest bytes of `n`, lowest first. -/
def littleBytes : (width n : Nat) → List UInt8
  | 0, _ => []
  | width + 1, n => UInt8.ofNat (n % 256) :: littleBytes width (n / 256)

/-- The number spelled by bytes whose lowest comes first. -/
def littleValue : List UInt8 → Nat
  | [] => 0
  | b :: bs => b.toNat + 256 * littleValue bs

@[simp] theorem length_littleBytes (width n : Nat) : (littleBytes width n).length = width := by
  induction width generalizing n with
  | zero => rfl
  | succ width ih => simp [littleBytes, ih]

theorem littleValue_littleBytes (width n : Nat) :
    littleValue (littleBytes width n) = n % 1 <<< (8 * width) := by
  induction width generalizing n with
  | zero => simp [littleBytes, littleValue, Nat.mod_one]
  | succ width ih =>
    have hShift : 1 <<< (8 * (width + 1)) = 256 * 1 <<< (8 * width) := by
      rw [Nat.mul_succ, Nat.shiftLeft_add, Nat.shiftLeft_eq _ 8, Nat.mul_comm]
    rw [littleBytes, littleValue, ih, hShift, Nat.mod_mul, UInt8.toNat_ofNat']
    omega

namespace Endian

def name : Endian → String
  | little => "little"
  | big => "big"

def ofName? : String → Option Endian
  | "little" => some little
  | "big" => some big
  | _ => none

/-- Arranges bytes that come lowest first. -/
def arrange : Endian → List UInt8 → List UInt8
  | little, bs => bs
  | big, bs => bs.reverse

def encode (e : Endian) (width n : Nat) : List UInt8 :=
  e.arrange (littleBytes width n)

def decode (e : Endian) (bs : List UInt8) : Nat :=
  littleValue (e.arrange bs)

@[simp] theorem arrange_arrange (e : Endian) (bs : List UInt8) : e.arrange (e.arrange bs) = bs := by
  cases e <;> simp [arrange]

theorem decode_encode (e : Endian) (width n : Nat) :
    e.decode (e.encode width n) = n % 1 <<< (8 * width) := by
  rw [decode, encode, arrange_arrange, littleValue_littleBytes]

@[simp] theorem length_encode (e : Endian) (width n : Nat) : (e.encode width n).length = width := by
  cases e <;> simp [encode, arrange]

end Endian

end MipsAsm.Memory
