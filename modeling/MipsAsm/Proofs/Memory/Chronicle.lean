import MipsAsm.Proofs.Memory.Replay
import Mathlib.Data.List.Sort

/-! # Tracks and their history

The calls that concern one kind of segment tell which segments were opened and how far each was
extended while it was the latest. A track holds the segments of this record in the order of their
starts, less those that were empty when the next one was opened. The same track can be kept as one
list with the place of the latest segment in it, which opening and extending maintain.
-/

namespace MipsAsm.Memory

/-! ## Calls -/

/-- What an edit does to the segments of one kind. -/
inductive Call where
  | openAt (start : UInt32)
  | extend (stop : UInt32)
  deriving DecidableEq, Repr

def Edit.call? : SegmentKind → Edit → Option Call
  | .data, .openData address => some (.openAt (clampAddress address))
  | .data, .extendData stop => some (.extend stop)
  | .text, .openText address => some (.openAt (clampAddress address))
  | .text, .extendText stop => some (.extend stop)
  | _, _ => none

/-- The calls that concern one kind, in order. -/
def calls (kind : SegmentKind) (edits : List Edit) : List Call :=
  edits.filterMap (Edit.call? kind)

/-- The ends given before the next segment is opened. -/
def stops : List Call → List UInt32
  | .extend stop :: rest => stop :: stops rest
  | _ => []

/-- The greatest of an address and some others. -/
def greatest (address : UInt32) (others : List UInt32) : UInt32 :=
  others.foldl (fun x y => if x ≤ y then y else x) address

/-- All segments ever opened, in the order of opening, each with the greatest end it was given
while it was the latest. -/
def record : List Call → List Segment
  | [] => []
  | .extend _ :: rest => record rest
  | .openAt start :: rest => .ofBounds start (greatest start (stops rest)) :: record rest

theorem clampAddress_eq (v : Int) : ((clampAddress v).toNat : Int) = max 0 (min v 0xFFFFFFFF) := by
  rw [clampAddress, UInt32.toNat_ofNat_of_lt' (by simp only [UInt32.size]; omega)]
  omega

theorem le_greatest (address : UInt32) (others : List UInt32) :
    address ≤ greatest address others := by
  induction others generalizing address with
  | nil => exact UInt32.le_refl _
  | cons other others ih =>
    rw [greatest, List.foldl_cons]
    split
    · rename_i hLe
      exact UInt32.le_trans hLe (ih other)
    · exact ih address

theorem ofBounds_greatest_concat (start stop : UInt32) (others : List UInt32) :
    Segment.ofBounds start (greatest start (others ++ [stop])) =
      (Segment.ofBounds start (greatest start others)).extend stop := by
  have hBefore := le_greatest start others
  have hAfter := le_greatest start (others ++ [stop])
  have hStep : greatest start (others ++ [stop]) =
      if greatest start others ≤ stop then stop else greatest start others := by
    rw [greatest, List.foldl_append]
    rfl
  rw [Segment.extend, Segment.ofBounds, Segment.mk.injEq, if_pos hAfter, hStep]
  simp only [Segment.ofBounds, if_pos hBefore, and_self]

theorem stops_concat_openAt (front : List Call) (start : UInt32) :
    stops (front ++ [.openAt start]) = stops front := by
  induction front with
  | nil => rfl
  | cons first front ih =>
    cases first with
    | openAt _ => rfl
    | extend _ => exact congrArg (List.cons _) ih

/-- An end counts for the segment that was opened last, if any was. -/
theorem stops_concat_extend (front : List Call) (stop : UInt32) :
    record front = [] ∧ stops (front ++ [.extend stop]) = stops front ++ [stop] ∨
      record front ≠ [] ∧ stops (front ++ [.extend stop]) = stops front := by
  induction front with
  | nil => exact Or.inl ⟨rfl, rfl⟩
  | cons first front ih =>
    cases first with
    | openAt _ => exact Or.inr ⟨List.cons_ne_nil _ _, rfl⟩
    | extend _ =>
      rcases ih with ⟨hNone, hMore⟩ | ⟨hSome, hSame⟩
      · exact Or.inl ⟨hNone, congrArg (List.cons _) hMore⟩
      · exact Or.inr ⟨hSome, congrArg (List.cons _) hSame⟩

theorem record_concat_openAt (front : List Call) (start : UInt32) :
    record (front ++ [.openAt start]) = record front ++ [.emptyAt start] := by
  induction front with
  | nil =>
    rw [List.nil_append, record, record, record, List.nil_append, Segment.emptyAt, Segment.ofBounds]
    simp [stops, greatest]
  | cons first front ih =>
    cases first with
    | openAt _ => rw [List.cons_append, record, ih, stops_concat_openAt, record, List.cons_append]
    | extend _ => exact ih

theorem record_concat_extend (front : List Call) (stop : UInt32) :
    record front = [] ∧ record (front ++ [.extend stop]) = [] ∨
      ∃ log s, record front = log ++ [s] ∧
        record (front ++ [.extend stop]) = log ++ [s.extend stop] := by
  induction front with
  | nil => exact Or.inl ⟨rfl, rfl⟩
  | cons first front ih =>
    cases first with
    | extend _ => exact ih
    | openAt start =>
      refine Or.inr ?_
      rw [List.cons_append, record, record]
      rcases stops_concat_extend front stop with ⟨hNone, hMore⟩ | ⟨hSome, hSame⟩
      · rcases ih with ⟨_, hStill⟩ | ⟨log, s, hRecord, _⟩
        · refine ⟨[], _, congrArg _ hNone, ?_⟩
          rw [hMore, ofBounds_greatest_concat, hStill]
          rfl
        · rw [hNone] at hRecord
          exact absurd hRecord.symm (List.append_ne_nil_of_right_ne_nil _ (List.cons_ne_nil _ _))
      · rcases ih with ⟨hNone, _⟩ | ⟨log, s, hRecord, hExtended⟩
        · exact absurd hNone hSome
        · exact ⟨_ :: log, s, by rw [hRecord]; rfl, by rw [hSame, hExtended]; rfl⟩

/-! ## Sorting by start -/

/-- The first segment starts no later than the second. -/
def Segment.NoLater (a b : Segment) : Prop :=
  a.start ≤ b.start

instance decidableNoLater : DecidableRel Segment.NoLater :=
  fun a b => UInt32.decLe a.start b.start

theorem Segment.NoLater.trans {a b c : Segment} (hFirst : a.NoLater b) (hSecond : b.NoLater c) :
    a.NoLater c :=
  UInt32.le_trans hFirst hSecond

theorem Segment.NoLater.of_not {a b : Segment} (hNot : ¬a.NoLater b) : b.NoLater a :=
  UInt32.le_of_lt (UInt32.not_le.mp hNot)

instance totalNoLater : Std.Total Segment.NoLater :=
  ⟨fun a b => (Decidable.em (a.NoLater b)).imp_right Segment.NoLater.of_not⟩

instance transNoLater : IsTrans Segment Segment.NoLater :=
  ⟨fun _ _ _ => Segment.NoLater.trans⟩

/-- Puts a segment behind all that start no later. -/
def behind (s : Segment) (list : List Segment) : List Segment :=
  list.takeWhile (fun r => r.NoLater s) ++ s :: list.dropWhile fun r => r.NoLater s

theorem behind_cons_of_noLater {s r : Segment} (hOrder : r.NoLater s) (list : List Segment) :
    behind s (r :: list) = r :: behind s list := by
  simp [behind, hOrder]

theorem behind_cons_of_not {s r : Segment} (hOrder : ¬r.NoLater s) (list : List Segment) :
    behind s (r :: list) = s :: r :: list := by
  simp [behind, hOrder]

/-- Of two segments that are put into a list, the one put in front of its equals and the one put
behind them do not meet. -/
theorem orderedInsert_behind (a s : Segment) (list : List Segment) :
    (behind s list).orderedInsert Segment.NoLater a =
      behind s (list.orderedInsert Segment.NoLater a) := by
  induction list with
  | nil =>
    change ite (a.NoLater s) [a, s] [s, a] = behind s [a]
    split
    · rename_i hOrder
      rw [behind_cons_of_noLater hOrder]
      rfl
    · rename_i hOrder
      rw [behind_cons_of_not hOrder]
  | cons b list ih =>
    by_cases hFront : a.NoLater b
    · rw [List.orderedInsert_cons_of_le _ _ hFront]
      by_cases hBehind : b.NoLater s
      · rw [behind_cons_of_noLater hBehind, List.orderedInsert_cons_of_le _ _ hFront,
          behind_cons_of_noLater (hFront.trans hBehind), behind_cons_of_noLater hBehind]
      · rw [behind_cons_of_not hBehind, List.orderedInsert_cons]
        split
        · rename_i hOrder
          rw [behind_cons_of_noLater hOrder, behind_cons_of_not hBehind]
        · rename_i hOrder
          rw [behind_cons_of_not hOrder, List.orderedInsert_cons_of_le _ _ hFront]
    · rw [List.orderedInsert_of_not_le _ _ hFront]
      by_cases hBehind : b.NoLater s
      · rw [behind_cons_of_noLater hBehind, List.orderedInsert_of_not_le _ _ hFront, ih,
          behind_cons_of_noLater hBehind]
      · have hOrder : ¬a.NoLater s :=
          fun hLe => hBehind ((Segment.NoLater.of_not hFront).trans hLe)
        rw [behind_cons_of_not hBehind, List.orderedInsert_of_not_le _ _ hOrder,
          List.orderedInsert_of_not_le _ _ hFront, behind_cons_of_not hBehind]

theorem insertionSort_concat (list : List Segment) (s : Segment) :
    (list ++ [s]).insertionSort Segment.NoLater =
      behind s (list.insertionSort Segment.NoLater) := by
  induction list with
  | nil => rfl
  | cons a list ih =>
    rw [List.cons_append, List.insertionSort_cons, ih, orderedInsert_behind,
      List.insertionSort_cons]

/-! ## Tracks that keep a record -/

namespace Track

theorem map_insert (o : Opened) (list : List Opened) :
    (insert o list).map Opened.segment = behind o.segment (list.map Opened.segment) := by
  rw [insert, behind, List.map_append, List.map_cons, List.takeWhile_map, List.dropWhile_map]
  rfl

/-- The track after the segments of `log` were opened, the last of which is the latest. -/
structure Recorded (t : Track) (log : List Segment) : Prop where
  settled : t.settled.map Opened.segment =
    (log.dropLast.filter fun s => !s.isEmpty).insertionSort Segment.NoLater
  latest : t.current = log.getLast?

variable {t : Track} {log : List Segment}

theorem recorded_empty : empty.Recorded [] :=
  ⟨rfl, rfl⟩

theorem Recorded.settle (hRecorded : t.Recorded log) : t.settle.map Opened.segment =
    (log.filter fun s => !s.isEmpty).insertionSort Segment.NoLater := by
  obtain ⟨settled, latest⟩ := t
  obtain ⟨hSettled, hLatest⟩ := hRecorded
  cases latest with
  | none =>
    obtain rfl := List.getLast?_eq_none_iff.mp hLatest.symm
    exact hSettled
  | some o =>
    obtain ⟨front, rfl⟩ := List.getLast?_eq_some_iff.mp hLatest.symm
    rw [List.dropLast_concat] at hSettled
    rw [Track.settle]
    dsimp only
    split
    · rename_i hEmpty
      simpa [hEmpty] using hSettled
    · rename_i hNonempty
      rw [map_insert, hSettled, ← insertionSort_concat, List.filter_append]
      simp [hNonempty]

theorem Recorded.openAt (hRecorded : t.Recorded log) (start : UInt32) (serial : Nat) :
    (t.openAt start serial).Recorded (log ++ [.emptyAt start]) := by
  constructor
  · rw [List.dropLast_concat]
    exact hRecorded.settle
  · rw [List.getLast?_concat]
    rfl

theorem Recorded.extend {s : Segment} (hRecorded : t.Recorded (log ++ [s])) (stop : UInt32) :
    (t.extend stop).Recorded (log ++ [s.extend stop]) := by
  obtain ⟨hSettled, hLatest⟩ := hRecorded
  constructor
  · rw [List.dropLast_concat] at hSettled ⊢
    exact hSettled
  · rw [List.getLast?_concat] at hLatest ⊢
    obtain ⟨o, hOpened, rfl⟩ := Option.map_eq_some_iff.mp hLatest
    rw [current, Track.extend, hOpened]
    rfl

theorem Recorded.eq_empty (hRecorded : t.Recorded []) : t = empty := by
  obtain ⟨settled, latest⟩ := t
  obtain ⟨hSettled, hLatest⟩ := hRecorded
  obtain rfl : settled = [] := List.map_eq_nil_iff.mp hSettled
  obtain rfl : latest = none := Option.map_eq_none_iff.mp hLatest
  rfl

theorem Recorded.segments (hRecorded : t.Recorded log) :
    t.segments = (survivors log).insertionSort Segment.NoLater := by
  obtain ⟨settled, latest⟩ := t
  obtain ⟨hSettled, hLatest⟩ := hRecorded
  cases latest with
  | none =>
    obtain rfl := List.getLast?_eq_none_iff.mp hLatest.symm
    exact hSettled
  | some o =>
    obtain ⟨front, rfl⟩ := List.getLast?_eq_some_iff.mp hLatest.symm
    rw [List.dropLast_concat] at hSettled
    rw [survivors_concat, insertionSort_concat, ← hSettled, ← map_insert]
    rfl

end Track

/-! ## One list with a place in it -/

/-- Segments in the order of starts, with the place of the latest one. -/
structure Indexed where
  list : List Segment
  place : Option Nat
  deriving DecidableEq, Repr

namespace Indexed

def empty : Indexed :=
  ⟨[], none⟩

def current (x : Indexed) : Option Segment :=
  x.place.bind fun i => x.list[i]?

/-- The list without the latest segment, if that is empty. -/
def pruned (x : Indexed) : List Segment :=
  match x.place with
  | none => x.list
  | some i => if x.list[i]?.any Segment.isEmpty then x.list.eraseIdx i else x.list

/-- A new segment goes in front of the first that starts later. -/
def openAt (x : Indexed) (start : UInt32) : Indexed :=
  let i := x.pruned.findIdx fun s => !decide (s.start ≤ start)
  ⟨x.pruned.insertIdx i (.emptyAt start), some i⟩

def extend (x : Indexed) (stop : UInt32) : Indexed :=
  match x.place with
  | none => x
  | some i => { x with list := x.list.modify i fun s => s.extend stop }

def answer (x : Indexed) : Call → Indexed
  | .openAt start => x.openAt start
  | .extend stop => x.extend stop

/-- What calls make of an empty list. -/
def afterCalls (calls : List Call) : Indexed :=
  calls.foldl answer empty

end Indexed

/-! ## Places -/

/-- How many segments of a list start no later. -/
def placeOf (s : Segment) (list : List Segment) : Nat :=
  (list.takeWhile fun r => r.NoLater s).length

theorem placeOf_cons (s r : Segment) (list : List Segment) :
    placeOf s (r :: list) = if r.NoLater s then placeOf s list + 1 else 0 := by
  by_cases hOrder : r.NoLater s
  · simp [placeOf, hOrder]
  · simp [placeOf, hOrder]

theorem getElem?_behind (s : Segment) (list : List Segment) :
    (behind s list)[placeOf s list]? = some s := by
  rw [behind, placeOf, List.getElem?_append_right (Nat.le_refl _), Nat.sub_self]
  rfl

theorem eraseIdx_behind (s : Segment) (list : List Segment) :
    (behind s list).eraseIdx (placeOf s list) = list := by
  rw [behind, placeOf, List.eraseIdx_append_of_length_le (Nat.le_refl _), Nat.sub_self,
    List.eraseIdx_cons_zero, List.takeWhile_append_dropWhile]

theorem findIdx_eq_placeOf (start : UInt32) (list : List Segment) :
    (list.findIdx fun r => !decide (r.start ≤ start)) = placeOf (.emptyAt start) list := by
  induction list with
  | nil => rfl
  | cons r list ih =>
    have hSame : r.NoLater (.emptyAt start) ↔ r.start ≤ start := Iff.rfl
    rw [List.findIdx_cons, placeOf_cons, ih]
    by_cases hOrder : r.start ≤ start
    · simp [hSame, hOrder]
    · simp [hSame, hOrder]

theorem insertIdx_placeOf (s : Segment) (list : List Segment) :
    list.insertIdx (placeOf s list) s = behind s list := by
  induction list with
  | nil => rfl
  | cons r list ih =>
    rw [placeOf_cons]
    split
    · rename_i hOrder
      rw [List.insertIdx_succ_cons, ih, behind_cons_of_noLater hOrder]
    · rename_i hOrder
      rw [List.insertIdx_zero, behind_cons_of_not hOrder]

/-- The end of a segment decides nothing about its place. -/
theorem modify_behind (s : Segment) (stop : UInt32) (list : List Segment) :
    (behind s list).modify (placeOf s list) (fun r => r.extend stop) =
      behind (s.extend stop) list := by
  induction list with
  | nil => rfl
  | cons r list ih =>
    have hSame : r.NoLater (s.extend stop) ↔ r.NoLater s := Iff.rfl
    rw [placeOf_cons]
    split
    · rename_i hOrder
      rw [behind_cons_of_noLater hOrder, List.modify_succ_cons, ih,
        behind_cons_of_noLater (hSame.mpr hOrder)]
    · rename_i hOrder
      rw [behind_cons_of_not hOrder, List.modify_zero_cons,
        behind_cons_of_not (mt hSame.mp hOrder)]

namespace Track

def indexed (t : Track) : Indexed :=
  ⟨t.segments, t.current.map fun s => placeOf s (t.settled.map Opened.segment)⟩

theorem indexed_some (settled : List Opened) (o : Opened) : indexed ⟨settled, some o⟩ =
    ⟨behind o.segment (settled.map Opened.segment),
      some (placeOf o.segment (settled.map Opened.segment))⟩ := by
  rw [indexed, segments, entries]
  exact congrArg (Indexed.mk · _) (map_insert o settled)

theorem current_indexed (t : Track) : t.indexed.current = t.current := by
  obtain ⟨settled, latest⟩ := t
  cases latest with
  | none => rfl
  | some o =>
    rw [indexed_some]
    exact getElem?_behind _ _

theorem lt_length_of_place {t : Track} {i : Nat} (hPlace : t.indexed.place = some i) :
    i < t.segments.length := by
  have hFound := t.current_indexed
  rw [Indexed.current, hPlace, Option.bind_some] at hFound
  obtain ⟨s, hCurrent, _⟩ := Option.map_eq_some_iff.mp hPlace
  rw [hCurrent] at hFound
  exact (List.getElem?_eq_some_iff.mp hFound).1

theorem pruned_indexed (t : Track) : t.indexed.pruned = t.settle.map Opened.segment := by
  obtain ⟨settled, latest⟩ := t
  cases latest with
  | none => rfl
  | some o =>
    rw [indexed_some, Indexed.pruned, settle]
    dsimp only
    rw [getElem?_behind, Option.any_some]
    split
    · exact eraseIdx_behind _ _
    · exact (map_insert o settled).symm

theorem indexed_openAt (t : Track) (start : UInt32) (serial : Nat) :
    (t.openAt start serial).indexed = t.indexed.openAt start := by
  rw [openAt, indexed_some, Indexed.openAt, pruned_indexed, findIdx_eq_placeOf]
  exact congrArg (Indexed.mk · _) (insertIdx_placeOf _ _).symm

theorem indexed_extend (t : Track) (stop : UInt32) :
    (t.extend stop).indexed = t.indexed.extend stop := by
  obtain ⟨settled, latest⟩ := t
  cases latest with
  | none => rfl
  | some o =>
    rw [extend, Option.map_some, indexed_some, indexed_some, Indexed.extend]
    exact congrArg (Indexed.mk · _) (modify_behind _ _ _).symm

end Track

/-! ## Edits -/

namespace Track

/-- What a call, if there is one, makes of a track. -/
inductive Answers (t : Track) : Option Call → Track → Prop where
  | kept : Answers t none t
  | opened (start : UInt32) (serial : Nat) : Answers t (some (.openAt start)) (t.openAt start serial)
  | extended (stop : UInt32) : Answers t (some (.extend stop)) (t.extend stop)

theorem Answers.of_eq {t u : Track} (hSame : u = t) : Answers t none u := by
  rw [hSame]
  exact .kept

theorem Answers.grows {t u : Track} {call? : Option Call} (hAnswers : t.Answers call? u) :
    t.Grows u := by
  cases hAnswers with
  | kept => exact Grows.refl t
  | opened start serial => exact t.grows_openAt start serial
  | extended stop => exact t.grows_extend stop

/-- The track shows what the calls tell, in both of its forms. -/
structure Follows (t : Track) (calls : List Call) : Prop where
  recorded : t.Recorded (record calls)
  indexed : t.indexed = Indexed.afterCalls calls

theorem follows_empty : empty.Follows [] :=
  ⟨recorded_empty, rfl⟩

theorem Follows.step {t u : Track} {calls : List Call} {call? : Option Call}
    (hFollows : t.Follows calls) (hAnswers : t.Answers call? u) :
    u.Follows (calls ++ call?.toList) := by
  obtain ⟨hRecorded, hIndexed⟩ := hFollows
  cases hAnswers with
  | kept =>
    rw [Option.toList_none, List.append_nil]
    exact ⟨hRecorded, hIndexed⟩
  | opened start serial =>
    constructor
    · rw [Option.toList_some, record_concat_openAt]
      exact hRecorded.openAt start serial
    · rw [indexed_openAt, hIndexed, Indexed.afterCalls, Indexed.afterCalls, List.foldl_append]
      rfl
  | extended stop =>
    constructor
    · rw [Option.toList_some]
      rcases record_concat_extend calls stop with ⟨hNone, hStill⟩ | ⟨log, s, hLog, hExtended⟩
      · rw [hNone] at hRecorded
        rw [hStill, hRecorded.eq_empty]
        exact recorded_empty
      · rw [hLog] at hRecorded
        rw [hExtended]
        exact hRecorded.extend stop
    · rw [indexed_extend, hIndexed, Indexed.afterCalls, Indexed.afterCalls, List.foldl_append]
      rfl

end Track

namespace Image

theorem answers_writeBytes (m : Image) (address : UInt32) (bytes : List UInt8) (kind : SegmentKind) :
    (m.track kind).Answers none ((m.writeBytes address bytes).track kind) := by
  rw [writeBytes_eq]
  exact .of_eq (by cases kind <;> rfl)

theorem answers_apply (m : Image) (edit : Edit) (kind : SegmentKind) :
    (m.track kind).Answers (edit.call? kind) ((edit.apply m).track kind) := by
  cases edit with
  | openData address =>
    cases kind with
    | data => exact .opened _ _
    | text => exact .kept
  | openText address =>
    cases kind with
    | data => exact .kept
    | text => exact .opened _ _
  | extendData stop =>
    cases kind with
    | data => exact .extended stop
    | text => exact .kept
  | extendText stop =>
    cases kind with
    | data => exact .kept
    | text => exact .extended stop
  | writeBytes address bytes =>
    cases kind <;> exact answers_writeBytes m address bytes _
  | writeHalf address value =>
    cases kind <;> exact answers_writeBytes m address _ _
  | writeWord address value =>
    cases kind <;> exact answers_writeBytes m address _ _
  | _ => cases kind <;> exact .kept

theorem edited_concat (m : Image) (edits : List Edit) (edit : Edit) :
    m.edited (edits ++ [edit]) = edit.apply (m.edited edits) := by
  rw [edited, List.foldl_append]
  rfl

theorem grows_edited (m : Image) (edits : List Edit) : m.Grows (m.edited edits) := by
  induction edits using List.reverseRecOn with
  | nil => exact Grows.refl m
  | append_singleton edits edit ih =>
    rw [edited_concat]
    exact ih.trans fun kind => (answers_apply _ edit kind).grows

theorem follows_edited (capacity : Nat) (endian : Endian) (kind : SegmentKind) (edits : List Edit) :
    (((ofCapacity capacity endian).edited edits).track kind).Follows (calls kind edits) := by
  induction edits using List.reverseRecOn with
  | nil =>
    cases kind with
    | data => exact Track.follows_empty
    | text => exact Track.follows_empty
  | append_singleton edits edit ih =>
    have hCalls : calls kind (edits ++ [edit]) = calls kind edits ++ (edit.call? kind).toList := by
      rw [calls, calls, List.filterMap_append, List.filterMap_cons]
      cases edit.call? kind <;> rfl
    rw [edited_concat, hCalls]
    exact ih.step (answers_apply _ edit kind)

end Image

/-- A track and the calls that concerned it. -/
structure Chronicled (t : Track) (calls : List Call) : Prop where
  segments : t.segments = (Track.survivors (record calls)).insertionSort Segment.NoLater
  current : t.current = (record calls).getLast?
  unopened : record calls = [] → t = .empty
  sorted : t.segments.Pairwise Segment.NoLater
  kept : ((record calls).filter fun s => !s.isEmpty).Subperm t.segments
  list : (Indexed.afterCalls calls).list = t.segments
  place_lt : ∀ i, (Indexed.afterCalls calls).place = some i → i < t.segments.length
  denotes : (Indexed.afterCalls calls).current = (record calls).getLast?

theorem filter_subperm_survivors (log : List Segment) :
    (log.filter fun s => !s.isEmpty).Subperm (Track.survivors log) := by
  rcases List.eq_nil_or_concat' log with rfl | ⟨front, s, rfl⟩
  · exact List.Subperm.refl _
  · rw [Track.survivors_concat, List.filter_append]
    exact ((List.Sublist.refl _).append List.filter_sublist).subperm

theorem Track.Follows.chronicled {t : Track} {calls : List Call} (hFollows : t.Follows calls) :
    Chronicled t calls := by
  obtain ⟨hRecorded, hIndexed⟩ := hFollows
  have hPerm := List.perm_insertionSort Segment.NoLater (survivors (record calls))
  constructor
  · exact hRecorded.segments
  · exact hRecorded.latest
  · intro hNone
    rw [hNone] at hRecorded
    exact hRecorded.eq_empty
  · rw [hRecorded.segments]
    exact List.pairwise_insertionSort _ _
  · rw [hRecorded.segments]
    exact (filter_subperm_survivors (record calls)).trans hPerm.symm.subperm
  · rw [← hIndexed]
    rfl
  · intro i hPlace
    rw [← hIndexed] at hPlace
    exact lt_length_of_place hPlace
  · rw [← hIndexed, current_indexed]
    exact hRecorded.latest

/-- **Segment lists equal their history.** After any edits of a fresh image, the segments of each
kind are those opened for it, with the ends that each was given while it was the latest, in the
order of starts and then of opening; of them only those are gone that were empty when another was
opened. Later edits lose none that holds an address, and cut none. -/
theorem chronicled_of_edits (capacity : Nat) (endian : Endian) (edits : List Edit) :
    (∀ v, ((clampAddress v).toNat : Int) = max 0 (min v 0xFFFFFFFF)) ∧
      (∀ kind, Chronicled (((Image.ofCapacity capacity endian).edited edits).track kind)
        (calls kind edits)) ∧
      ∀ more, ((Image.ofCapacity capacity endian).edited edits).Grows
        ((Image.ofCapacity capacity endian).edited (edits ++ more)) := by
  refine ⟨clampAddress_eq, ?_, ?_⟩
  · intro kind
    exact (Image.follows_edited capacity endian kind edits).chronicled
  · intro more
    rw [Image.edited, Image.edited, List.foldl_append]
    exact Image.grows_edited _ more

end MipsAsm.Memory
