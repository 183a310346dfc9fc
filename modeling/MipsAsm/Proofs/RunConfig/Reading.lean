import MipsAsm.Proofs.Outcome
import MipsAsm.Proofs.Text.Numeral
import MipsAsm.RunConfig.Reader
import Mathlib.Data.List.Induction

/-! # Reading back single assignments

Each kind of value is read as what was written, and so are the keys that name a bound of a segment
by its index. Bounds that come in the order of their indices are put one behind the other.
-/

namespace MipsAsm

open Memory (Segment Endian)
open Text (FitsLine isBlank natural?)

theorem Memory.Endian.ofName?_name (e : Endian) : Endian.ofName? e.name = some e := by
  cases e <;> rfl

theorem Memory.Segment.ofBounds_start_stop (s : Segment) : .ofBounds s.start s.stop = s := by
  obtain ⟨start, stop, hOrder⟩ := s
  simp only [ofBounds, if_pos hOrder]

namespace RunConfig

/-! ## Splitting -/

theorem splitOnce_append {c : Char} {front : List Char} (hFront : c ∉ front) (back : List Char) :
    splitOnce c (front ++ c :: back) = some (front, back) := by
  have hOther : ∀ d ∈ front, (d != c) = true := by
    intro d hMem
    exact bne_iff_ne.mpr fun hEq => hFront (hEq ▸ hMem)
  have hDrop : (front ++ c :: back).dropWhile (· != c) = c :: back := by
    rw [List.dropWhile_append_of_pos hOther]
    exact List.dropWhile_cons_of_neg (by simp)
  have hTake : (front ++ c :: back).takeWhile (· != c) = front := by
    rw [List.takeWhile_append_of_pos hOther, List.takeWhile_cons_of_neg (by simp), List.append_nil]
  rw [splitOnce, hDrop, hTake]

theorem splitOnce_eq_some {c : Char} {cs front back : List Char}
    (hSplit : splitOnce c cs = some (front, back)) : ∃ d, cs = front ++ d :: back := by
  rw [splitOnce] at hSplit
  split at hSplit
  · cases hSplit
  · rename_i d rest hDrop
    cases hSplit
    refine ⟨d, ?_⟩
    rw [← hDrop, List.takeWhile_append_dropWhile]

/-! ## Values -/

theorem address_of_natural? {digits : String} {n : Nat}
    (hDigits : natural? 16 digits.toList = some n) (hRange : n < 0x100000000) :
    address ("0x" ++ digits) = .ok (UInt32.ofNat n) := by
  have hValue : Token.integerValue? ("0x" ++ digits) = some (n : Int) := by
    rw [Token.integerValue?, String.toList_append]
    exact Text.signed?_of_natural? hDigits (by omega)
  have hWord : UInt32.ofInt (n : Int) = UInt32.ofNat n := congrArg UInt32.ofNat (by omega)
  rw [address, hValue, ← hWord]
  exact if_pos (by omega)

theorem address_addressText (a : UInt32) : address (Text.addressText a) = .ok a := by
  rw [Text.addressText, address_of_natural? (Text.natural?_paddedHex 8 a.toNat) a.toNat_lt,
    UInt32.ofNat_toNat]

theorem address_upperHex (a : UInt32) : address ("0x" ++ Text.upperHex a.toNat) = .ok a := by
  rw [address_of_natural? (Text.natural?_upperHex a.toNat) a.toNat_lt, UInt32.ofNat_toNat]

theorem flag_flagText (b : Bool) : flag (flagText b) = .ok b := by
  cases b <;> rfl

theorem number_toString (n : UInt64) : number (toString n.toNat) = .ok n := by
  rw [number, Text.unsigned?_of_natural? (Text.natural?_toString n.toNat) n.toNat_lt]
  exact congrArg _ (UInt64.ofNat_toNat)

theorem smallNumber_toString (n : UInt32) : smallNumber (toString n.toNat) = .ok n := by
  rw [smallNumber, Text.unsigned?_of_natural? (Text.natural?_toString n.toNat) n.toNat_lt]
  exact congrArg _ (UInt32.ofNat_toNat)

/-! ## Keys of segments -/

def sectionWord : Section → String
  | .text => "text"
  | .data => "data"

def boundWord : Bound → String
  | .start => "begin"
  | .stop => "end"

def boundKey (s : Section) (bound : Bound) (index : Nat) : String :=
  sectionWord s ++ ("_" ++ boundWord bound ++ "_") ++ toString index

theorem segmentAssignments_concat (s : Section) (segments : List Segment) (last : Segment) :
    segmentAssignments (sectionWord s) (segments ++ [last]) =
      segmentAssignments (sectionWord s) segments ++
        [(boundKey s .start segments.length, Text.addressText last.start),
          (boundKey s .stop segments.length, Text.addressText last.stop)] := by
  rw [segmentAssignments, List.mapIdx_concat, List.flatten_append, List.flatten_singleton]
  rfl

/-- Indices below this number can be written and read. -/
def indexLimit : Nat := 0x10000000000000000

theorem segmentKey?_boundKey (s : Section) (bound : Bound) {index : Nat}
    (hIndex : index < indexLimit) :
    segmentKey? (boundKey s bound index) = some (s, bound, index) := by
  have hKey : (boundKey s bound index).toList = (sectionWord s).toList ++ '_' ::
      ((boundWord bound).toList ++ '_' :: (toString index).toList) := by
    simp [boundKey]
  have hSection : '_' ∉ (sectionWord s).toList := by
    cases s <;> decide
  have hBound : '_' ∉ (boundWord bound).toList := by
    cases bound <;> decide
  have hDigits : Text.unsigned? 10 64 (toString index).toList = some index :=
    Text.unsigned?_of_natural? (Text.natural?_toString index) hIndex
  have hTarget : sectionOf? (sectionWord s) = some s := by
    cases s <;> rfl
  have hEnd : boundOf? (boundWord bound) = some bound := by
    cases bound <;> rfl
  generalize (toString index).toList = digits at hKey hDigits
  simp [segmentKey?, hKey, splitOnce_append hSection, splitOnce_append hBound, hDigits, hTarget,
    hEnd]

/-- A key that names a bound is none of the keys with a meaning of their own. -/
theorem assign_of_segmentKey? {d : Draft} {key value : String} {target : Section × Bound × Nat}
    (hKey : segmentKey? key = some target) : d.assign key value = d.assignBound key value := by
  rw [Draft.assign]
  all_goals
    rintro rfl
    exact absurd (hKey.symm.trans (by decide)) (Option.some_ne_none target)

/-! ## Bounds in the order of their indices -/

namespace Bounds

theorem insert_of_forall_lt {index : Nat} {list : List Bounds}
    (hLower : ∀ b ∈ list, b.index < index) (bound : Bound) (a : UInt32) :
    insert index bound a list = list ++ [assign ⟨index, none, none⟩ bound a] := by
  induction list with
  | nil => rfl
  | cons b list ih =>
    rw [insert, if_pos (hLower b List.mem_cons_self),
      ih fun c hMem => hLower c (List.mem_cons_of_mem _ hMem), List.cons_append]

theorem insert_concat {index : Nat} {list : List Bounds} (hLower : ∀ b ∈ list, b.index < index)
    {last : Bounds} (hLast : last.index = index) (bound : Bound) (a : UInt32) :
    insert index bound a (list ++ [last]) = list ++ [last.assign bound a] := by
  induction list with
  | nil =>
    have hNot : ¬ last.index < index := by omega
    rw [List.nil_append, insert, if_neg hNot, if_pos hLast, List.nil_append]
  | cons b list ih =>
    rw [List.cons_append, insert, if_pos (hLower b List.mem_cons_self),
      ih fun c hMem => hLower c (List.mem_cons_of_mem _ hMem), List.cons_append]

/-- The bounds of segments that are numbered from 0 on. -/
def ofSegments (segments : List Segment) : List Bounds :=
  segments.mapIdx fun n s => ⟨n, some s.start, some s.stop⟩

theorem index_lt_of_mem_ofSegments {segments : List Segment} {b : Bounds}
    (hMem : b ∈ ofSegments segments) : b.index < segments.length := by
  obtain ⟨n, hIndex, rfl⟩ := List.mem_mapIdx.mp hMem
  exact hIndex

theorem ofSegments_concat (segments : List Segment) (last : Segment) :
    ofSegments (segments ++ [last]) =
      ofSegments segments ++ [⟨segments.length, some last.start, some last.stop⟩] :=
  List.mapIdx_concat

theorem mapM_segment_ofSegments (kind : String) (segments : List Segment) :
    (ofSegments segments).mapM (segment kind) = .ok segments := by
  induction segments using List.reverseRecOn with
  | nil => rfl
  | append_singleton segments last ih =>
    have hLast : segment kind ⟨segments.length, some last.start, some last.stop⟩ = .ok last :=
      congrArg Except.ok last.ofBounds_start_stop
    rw [ofSegments_concat, List.mapM_append, ih, List.mapM_cons, hLast]
    rfl

end Bounds

namespace Draft

def withBounds (d : Draft) (s : Section) (list : List Bounds) : Draft :=
  match s with
  | .text => { d with text := list }
  | .data => { d with data := list }

def assignAll (d : Draft) (pairs : List (String × String)) : Except ConfigCause Draft :=
  pairs.foldlM (fun d pair => d.assign pair.1 pair.2) d

theorem assignAll_append {d e f : Draft} {pairs more : List (String × String)}
    (hFirst : d.assignAll pairs = .ok e) (hSecond : e.assignAll more = .ok f) :
    d.assignAll (pairs ++ more) = .ok f := by
  rw [assignAll, List.foldlM_append]
  exact Outcome.bind_eq_ok.mpr ⟨e, hFirst, hSecond⟩

theorem assign_boundKey (d : Draft) (s : Section) (bound : Bound) {index : Nat}
    (hIndex : index < indexLimit) (a : UInt32) (list : List Bounds) :
    (d.withBounds s list).assign (boundKey s bound index) (Text.addressText a) =
      .ok (d.withBounds s (Bounds.insert index bound a list)) := by
  have hKey := segmentKey?_boundKey s bound hIndex
  rw [assign_of_segmentKey? hKey, assignBound, hKey, address_addressText]
  cases s <;> rfl

/-- The bounds of any number of segments are collected in the order of the segments. -/
theorem assignAll_segmentAssignments (d : Draft) (s : Section) {segments : List Segment}
    (hLength : segments.length ≤ indexLimit) :
    (d.withBounds s []).assignAll (segmentAssignments (sectionWord s) segments) =
      .ok (d.withBounds s (Bounds.ofSegments segments)) := by
  induction segments using List.reverseRecOn with
  | nil => rfl
  | append_singleton segments last ih =>
    rw [List.length_append, List.length_singleton] at hLength
    have hLower : ∀ b ∈ Bounds.ofSegments segments, b.index < segments.length :=
      fun b hMem => Bounds.index_lt_of_mem_ofSegments hMem
    have hIndex : segments.length < indexLimit := hLength
    rw [segmentAssignments_concat]
    refine assignAll_append (ih (Nat.le_of_succ_le hLength)) ?_
    rw [assignAll, List.foldlM_cons, assign_boundKey d s .start hIndex,
      Bounds.insert_of_forall_lt hLower]
    change (do let e ← assign _ _ _; [].foldlM _ e : Except ConfigCause Draft) = _
    rw [assign_boundKey d s .stop hIndex, Bounds.insert_concat hLower rfl,
      Bounds.ofSegments_concat]
    rfl

end Draft

end RunConfig

end MipsAsm
