import MipsAsm.Assembly.State
import MipsAsm.Proofs.Memory.Bytes

/-! # Images that differ in byte order only

Images of given byte orders are alike if they have the same segments, entry point and capacity, and
also the same bytes unless the orders differ. Every operation that puts a program together keeps
images alike.
-/

namespace MipsAsm.Memory.Image

structure Alike (e e' : Endian) (m n : Image) : Prop where
  endian : m.endian = e
  endian' : n.endian = e'
  bytes : e = e' → m.bytes = n.bytes
  size : m.bytes.size = n.bytes.size
  entry : m.entry = n.entry
  data : m.data = n.data
  text : m.text = n.text
  opened : m.opened = n.opened

theorem Alike.refl (m : Image) : Alike m.endian m.endian m m :=
  ⟨rfl, rfl, fun _ => rfl, rfl, rfl, rfl, rfl, rfl⟩

theorem ofCapacity_alike (capacity : Nat) (e e' : Endian) :
    Alike e e' (ofCapacity capacity e) (ofCapacity capacity e') :=
  ⟨rfl, rfl, fun _ => rfl, rfl, rfl, rfl, rfl, rfl⟩

theorem size_grow_congr {bs cs : Array UInt8} (hSize : bs.size = cs.size) (index : Nat) :
    (grow bs index).size = (grow cs index).size := by
  rw [grow, grow, hSize]
  split
  · exact hSize
  · rw [Array.size_append, Array.size_append, hSize]

namespace Alike

variable {e e' : Endian} {m n : Image}

theorem eq {m n : Image} (hAlike : Alike e e m n) : m = n := by
  obtain ⟨hEndian, hEndian', hBytes, _, hEntry, hData, hText, hOpened⟩ := hAlike
  obtain ⟨bytes, endian, entry, data, text, opened⟩ := m
  obtain ⟨bytes', endian', entry', data', text', opened'⟩ := n
  cases hEndian.trans hEndian'.symm
  cases hBytes rfl
  cases hEntry
  cases hData
  cases hText
  cases hOpened
  rfl

theorem withEntry (hAlike : Alike e e' m n) (entry : UInt32) :
    Alike e e' { m with entry } { n with entry } :=
  { hAlike with entry := rfl }

/-! ## Segments -/

theorem openSegment (hAlike : Alike e e' m n) (s : Section) (address : Int) :
    Alike e e' (Assembly.openSegment s m address) (Assembly.openSegment s n address) := by
  have hOpened := hAlike.opened
  have hSerial : m.opened + 1 = n.opened + 1 := by rw [hOpened]
  cases s with
  | text =>
    refine { hAlike with bytes := fun hEndian => ?_, size := ?_, text := ?_, opened := hSerial }
    · rw [Assembly.openSegment, Assembly.openSegment, openText, openText, hAlike.bytes hEndian]
    · rw [Assembly.openSegment, Assembly.openSegment, openText, openText, size_clearFrom,
        size_clearFrom]
      exact hAlike.size
    · rw [Assembly.openSegment, Assembly.openSegment, openText, openText, hAlike.text, hOpened]
  | data =>
    refine { hAlike with data := ?_, opened := hSerial }
    rw [Assembly.openSegment, Assembly.openSegment, openData, openData, hAlike.data, hOpened]

theorem extendSegment (hAlike : Alike e e' m n) (s : Section) (stop : UInt32) :
    Alike e e' (Assembly.extendSegment s m stop) (Assembly.extendSegment s n stop) := by
  cases s with
  | text => exact { hAlike with text := congrArg (Track.extend · stop) hAlike.text }
  | data => exact { hAlike with data := congrArg (Track.extend · stop) hAlike.data }

theorem overlap?_eq (hAlike : Alike e e' m n) : m.overlap? = n.overlap? := by
  rw [overlap?, overlap?, layout, layout, hAlike.data, hAlike.text]

/-! ## Bytes -/

theorem writeByte (hAlike : Alike e e' m n) (address : UInt32) {b c : UInt8}
    (hByte : e = e' → b = c) : Alike e e' (m.writeByte address b) (n.writeByte address c) := by
  refine { hAlike with bytes := fun hEndian => ?_, size := ?_ }
  · rw [Image.writeByte, Image.writeByte, hAlike.bytes hEndian, hByte hEndian]
  · rw [size_writeByte, size_writeByte]
    exact size_grow_congr hAlike.size _

theorem writeBytes (hAlike : Alike e e' m n) (address : UInt32) {bs cs : List UInt8}
    (hLength : bs.length = cs.length) (hBytes : e = e' → bs = cs) :
    Alike e e' (m.writeBytes address bs) (n.writeBytes address cs) := by
  induction bs generalizing m n address cs with
  | nil =>
    cases cs with
    | nil => exact hAlike
    | cons c cs => cases hLength
  | cons b bs ih =>
    cases cs with
    | nil => cases hLength
    | cons c cs =>
      refine ih (hAlike.writeByte address fun hEndian => ?_) (address + 1)
        (Nat.succ.inj hLength) fun hEndian => ?_
      · exact (List.cons.inj (hBytes hEndian)).1
      · exact (List.cons.inj (hBytes hEndian)).2

theorem writeNumber (hAlike : Alike e e' m n) (address : UInt32) (width k : Nat) :
    Alike e e' (m.writeNumber address width k) (n.writeNumber address width k) := by
  refine hAlike.writeBytes address ?_ fun hEndian => ?_
  · rw [Endian.length_encode, Endian.length_encode]
  · rw [hAlike.endian, hAlike.endian', hEndian]

end Alike

end MipsAsm.Memory.Image
