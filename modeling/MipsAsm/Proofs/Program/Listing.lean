import MipsAsm.Listing
import MipsAsm.Proofs.Memory.ByteMap
import MipsAsm.Proofs.Program.Flat
import MipsAsm.Proofs.Program.Image
import MipsAsm.Proofs.Text.Numeral

/-! # What a listing shows

The listing of a finished program has one line for every recorded line of its sources, and every
item of the program stands on one of them. An item that takes space is shown with its first bytes.
The name of a source is printed as it is, so the header above its lines is itself one line just when
the name has no newline.
-/

namespace MipsAsm

open Text (Flat)

/-! ## Sorted lists in parts -/

section

variable {α β : Type}

theorem filter_lt_succ (f : α → Nat) (n : Nat) {xs : List α}
    (hSorted : xs.Pairwise fun x y => f x ≤ f y) :
    xs.filter (fun x => decide (f x < n + 1)) =
      xs.filter (fun x => decide (f x < n)) ++ xs.filter fun x => f x == n := by
  induction xs with
  | nil => rfl
  | cons x xs ih =>
    obtain ⟨hFirst, hRest⟩ := List.pairwise_cons.mp hSorted
    have hTail := ih hRest
    rcases Nat.lt_or_ge (f x) n with hLess | hMore
    · have hBelow : decide (f x < n) = true := decide_eq_true hLess
      have hLower : decide (f x < n + 1) = true := decide_eq_true (Nat.lt_succ_of_lt hLess)
      have hOther : (f x == n) = false := beq_false_of_ne (Nat.ne_of_lt hLess)
      simp only [List.filter_cons, hBelow, hLower, hOther, hTail, if_true, Bool.false_eq_true,
        if_false, List.cons_append]
    · -- from here on nothing is below `n`
      have hNone : xs.filter (fun y => decide (f y < n)) = [] := by
        rw [List.filter_eq_nil_iff]
        intro y hMem
        have hLe := hFirst y hMem
        simp only [decide_eq_true_eq]
        omega
      have hAbove : decide (f x < n) = false := decide_eq_false (Nat.not_lt.mpr hMore)
      have hSame : decide (f x < n + 1) = (f x == n) := by
        rw [Bool.eq_iff_iff, decide_eq_true_eq, beq_iff_eq]
        omega
      simp only [List.filter_cons, hAbove, hSame, hTail, hNone, Bool.false_eq_true, if_false,
        List.nil_append]

/-- A sorted list is put together again from the parts of each rank. -/
theorem flatMap_filter_range {f : α → Nat} {n : Nat} {xs : List α}
    (hSorted : xs.Pairwise fun x y => f x ≤ f y) (hBelow : ∀ x ∈ xs, f x < n) :
    (List.range n).flatMap (fun k => xs.filter fun x => f x == k) = xs := by
  have hParts : ∀ n, (List.range n).flatMap (fun k => xs.filter fun x => f x == k) =
      xs.filter fun x => decide (f x < n) := by
    intro n
    induction n with
    | zero => simp
    | succ n ih =>
      rw [List.range_succ, List.flatMap_append, ih, List.flatMap_singleton,
        filter_lt_succ f n hSorted]
  rw [hParts n, List.filter_eq_self]
  exact fun x hMem => decide_eq_true (hBelow x hMem)

theorem map_mapIdx {γ : Type} (f : β → γ) (g : Nat → α → β) (xs : List α) :
    (xs.mapIdx g).map f = xs.mapIdx fun k x => f (g k x) := by
  apply List.ext_getElem?
  intro k
  rw [List.getElem?_map, List.getElem?_mapIdx, List.getElem?_mapIdx, Option.map_map]
  rfl

theorem mapIdx_eq_map_range {xs : List α} {g : Nat → α → β} {h : Nat → β}
    (hEach : ∀ k x, xs[k]? = some x → g k x = h k) :
    xs.mapIdx g = (List.range xs.length).map h := by
  apply List.ext_getElem?
  intro k
  rw [List.getElem?_mapIdx, List.getElem?_map]
  cases hElem : xs[k]? with
  | none =>
    rw [List.getElem?_eq_none (by simpa using hElem)]
    rfl
  | some x =>
    obtain ⟨hIndex, _⟩ := List.getElem?_eq_some_iff.mp hElem
    rw [List.getElem?_range hIndex, Option.map_some, Option.map_some, hEach k x hElem]

end

/-! ## Lines of a listing -/

namespace Listing

/-- A recorded line with its place and the item that it produced, if any. -/
structure Row where
  source : Nat
  index : Nat
  raw : String
  item : Option Item

/-- The row as it is printed, with the newline at its end. -/
def Row.text (p : Program) (row : Row) : String :=
  match row.item with
  | none => plainLine row.index row.raw
  | some item => itemLine p row.index row.raw item

/-- The rows of a source, one for each of its lines. -/
def rows (p : Program) (source : Nat) (lines : List String) : List Row :=
  lines.mapIdx fun index raw => ⟨source, index, raw, (itemsAt p source index).head?⟩

def allRows (p : Program) : List Row :=
  (p.sources.mapIdx fun source entry => rows p source entry.2).flatten

variable {p : Program}

theorem mem_itemsAt {source index : Nat} {item : Item} (hMem : item ∈ itemsAt p source index) :
    item ∈ p.items.toList ∧ item.pos.source = source ∧ item.pos.line = index := by
  obtain ⟨hItem, hHere⟩ := List.mem_filter.mp hMem
  rw [Bool.and_eq_true, beq_iff_eq, beq_iff_eq] at hHere
  exact ⟨hItem, hHere⟩

theorem itemsAt_cases (hSorted : p.items.toList.Pairwise Item.Before) (source index : Nat) :
    itemsAt p source index = [] ∨ ∃ item, itemsAt p source index = [item] := by
  have hHere : ∀ item ∈ itemsAt p source index, _ := fun _ => mem_itemsAt
  have hPairs : (itemsAt p source index).Pairwise Item.Before := hSorted.sublist List.filter_sublist
  match hItems : itemsAt p source index with
  | [] => exact Or.inl rfl
  | [item] => exact Or.inr ⟨item, rfl⟩
  | first :: second :: rest =>
    rw [hItems] at hHere hPairs
    obtain ⟨_, hSource, hLine⟩ := hHere first (by simp)
    obtain ⟨_, hSource', hLine'⟩ := hHere second (by simp)
    rcases List.rel_of_pairwise_cons hPairs List.mem_cons_self with hLess | ⟨_, hLess⟩ <;> omega

theorem sourceLine_eq (hSorted : p.items.toList.Pairwise Item.Before) (source index : Nat)
    (raw : String) : sourceLine p source index raw =
      Row.text p ⟨source, index, raw, (itemsAt p source index).head?⟩ := by
  rcases itemsAt_cases hSorted source index with hNone | ⟨item, hOne⟩
  · rw [sourceLine, hNone]
    rfl
  · rw [sourceLine, hOne]
    exact String.empty_append

theorem render_eq (hSorted : p.items.toList.Pairwise Item.Before) :
    render p = String.join (p.sources.mapIdx fun source entry =>
      header entry.1 ++ String.join ((rows p source entry.2).map (Row.text p))) ++ footer := by
  have hSource : ∀ source entry, sourceText p source entry =
      header entry.1 ++ String.join ((rows p source entry.2).map (Row.text p)) := by
    intro source entry
    rw [sourceText, rows, map_mapIdx]
    simp only [sourceLine_eq hSorted]
  rw [render]
  simp only [hSource]

theorem filterMap_rows (hSorted : p.items.toList.Pairwise Item.Before) {source : Nat}
    {lines : List String}
    (hLines : ∀ item ∈ p.items.toList, item.pos.source = source → item.pos.line < lines.length) :
    (rows p source lines).filterMap Row.item =
      p.items.toList.filter fun item => item.pos.source == source := by
  have hParts : ∀ index, (itemsAt p source index).head?.toList =
      (p.items.toList.filter fun item => item.pos.source == source).filter
        fun item => item.pos.line == index := by
    intro index
    have hItems : itemsAt p source index =
        (p.items.toList.filter fun item => item.pos.source == source).filter
          fun item => item.pos.line == index := by
      rw [itemsAt, List.filter_filter]
      simp only [Bool.and_comm]
    rw [← hItems]
    rcases itemsAt_cases hSorted source index with hNone | ⟨item, hOne⟩
    · rw [hNone]
      rfl
    · rw [hOne]
      rfl
  have hLocal : (p.items.toList.filter fun item => item.pos.source == source).Pairwise
      fun i j => i.pos.line ≤ j.pos.line := by
    refine (hSorted.sublist List.filter_sublist).imp_of_mem fun {i j} hFirst hSecond hBefore => ?_
    have hSource : i.pos.source = source := by simpa using (List.mem_filter.mp hFirst).2
    have hSource' : j.pos.source = source := by simpa using (List.mem_filter.mp hSecond).2
    rcases hBefore with hLess | ⟨_, hLess⟩ <;> omega
  calc
    (rows p source lines).filterMap Row.item
        = (rows p source lines).flatMap fun row => row.item.toList :=
      List.filterMap_eq_flatMap_toList _ _
    _ = (List.range lines.length).flatMap fun index =>
          (p.items.toList.filter fun item => item.pos.source == source).filter
            fun item => item.pos.line == index := by
      rw [List.flatMap_def, rows, map_mapIdx, mapIdx_eq_map_range fun index _ _ => hParts index,
        List.flatMap_def]
    _ = p.items.toList.filter fun item => item.pos.source == source := by
      refine flatMap_filter_range hLocal fun item hMem => ?_
      obtain ⟨hItem, hSource⟩ := List.mem_filter.mp hMem
      exact hLines item hItem (by simpa using hSource)

theorem filterMap_allRows (hSorted : p.items.toList.Pairwise Item.Before)
    (hLines : ∀ item ∈ p.items.toList, ∃ name lines,
      p.sources[item.pos.source]? = some (name, lines) ∧ item.pos.line < lines.length) :
    (allRows p).filterMap Row.item = p.items.toList := by
  have hEach : ∀ source entry, p.sources[source]? = some entry →
      (rows p source entry.2).filterMap Row.item =
        p.items.toList.filter fun item => item.pos.source == source := by
    intro source entry hEntry
    refine filterMap_rows hSorted fun item hMem hSource => ?_
    obtain ⟨name, lines, hSome, hLine⟩ := hLines item hMem
    rw [hSource, hEntry] at hSome
    cases hSome
    exact hLine
  have hSources : p.items.toList.Pairwise fun i j => i.pos.source ≤ j.pos.source := by
    refine hSorted.imp fun {i j} hBefore => ?_
    rcases hBefore with hLess | ⟨hSame, _⟩ <;> omega
  rw [allRows, List.filterMap_flatten, map_mapIdx, mapIdx_eq_map_range hEach, ← List.flatMap_def]
  refine flatMap_filter_range hSources fun item hMem => ?_
  obtain ⟨_, _, hSome, _⟩ := hLines item hMem
  exact (List.getElem?_eq_some_iff.mp hSome).1

/-! ## Newlines -/

/-- One line, with the newline that ends it. -/
def OneLine (s : String) : Prop :=
  ∃ line, Flat line ∧ s = line ++ "\n"

theorem flat_hexBytes (bs : List UInt8) : Flat (hexBytes bs) := by
  apply Flat.intercalate (by decide)
  intro s hMem
  obtain ⟨b, _, rfl⟩ := List.mem_map.mp hMem
  exact Text.flat_paddedHex 2 _

theorem flat_byteColumn (p : Program) (item : Item) : Flat (byteColumn p item) := by
  rw [byteColumn]
  split
  · exact (flat_hexBytes _).padRight 11 (by decide)
  · exact Flat.paint _ (by decide)

theorem flat_labelColumn (hLabels : ∀ label ∈ p.labels.labels, Flat label.name) (item : Item) :
    Flat (labelColumn p item) := by
  rw [labelColumn]
  split
  · split
    · rename_i name hName
      obtain ⟨label, hFound, rfl⟩ := Option.map_eq_some_iff.mp hName
      have hColon : Flat (label.name ++ ":") :=
        (hLabels label (List.mem_of_find?_eq_some hFound)).append (by decide)
      exact (hColon.paint [.green]).append (by decide)
    · decide
  · decide

theorem flat_contentColumn {item : Item} {raw : String} (hItem : item.Flat) (hRaw : Flat raw) :
    Flat (contentColumn item raw) := by
  rw [contentColumn]
  split
  · rename_i i hCode
    exact hItem i hCode
  · exact hRaw.trimmed.paint [.cyan]

theorem flat_lineNumber (index : Nat) : Flat (lineNumber index) :=
  (Text.flat_toString (index + 1)).padLeft 4 (by decide)

theorem oneLine_row {row : Row} (hLabels : ∀ label ∈ p.labels.labels, Flat label.name)
    (hRaw : Flat row.raw) (hItem : ∀ item ∈ row.item, item.Flat) : OneLine (row.text p) := by
  have hBar : Flat "| " := by decide
  have hColon : Flat ": " := by decide
  have hNumber := flat_lineNumber row.index
  rw [Row.text]
  split
  · exact ⟨_, ((((Text.flat_repeated 22 (by decide)).append hBar).append hNumber).append
      hColon).append hRaw, rfl⟩
  · rename_i item hSome
    have hOpen : Flat "[" := by decide
    have hClose : Flat "] " := by decide
    have hAddress := (hOpen.append (Text.flat_paddedHex 8 item.address.toNat)).append hClose
    have hMargin := (hAddress.append (flat_byteColumn p item)).append hBar
    exact ⟨_, (((hMargin.append hNumber).append hColon).append
      (flat_labelColumn hLabels item)).append (flat_contentColumn (hItem item hSome) hRaw), rfl⟩

/-- The name is all that can break a header. -/
theorem oneLine_header_iff (name : String) : OneLine (header name) ↔ Flat name := by
  constructor
  · rintro ⟨line, hFlat, hLine⟩
    obtain rfl := (String.append_left_inj "\n").mp hLine
    intro hMem
    apply hFlat
    simp only [String.toList_append, List.mem_append]
    exact Or.inl (Or.inl (Or.inr hMem))
  · intro hName
    have hOpen : Flat "+------[" := by decide
    have hClose : Flat "]" := by decide
    have hRule := fun n => Text.flat_repeated n (c := '-') (by decide)
    exact ⟨_, ((((hRule 22).append hOpen).append hName).append hClose).append (hRule _), rfl⟩

theorem oneLine_footer : OneLine footer := by
  have hRule := fun n => Text.flat_repeated n (c := '-') (by decide)
  exact ⟨_, ((hRule 22).append (t := "+") (by decide)).append (hRule 53), rfl⟩

theorem mem_allRows {row : Row} (hMem : row ∈ allRows p) :
    ∃ entry, p.sources[row.source]? = some entry ∧ entry.2[row.index]? = some row.raw ∧
      row.item = (itemsAt p row.source row.index).head? := by
  obtain ⟨block, hBlock, hRow⟩ := List.mem_flatten.mp hMem
  obtain ⟨source, hSource⟩ := List.getElem?_of_mem hBlock
  obtain ⟨index, hIndex⟩ := List.getElem?_of_mem hRow
  rw [List.getElem?_mapIdx] at hSource
  obtain ⟨entry, hEntry, rfl⟩ := Option.map_eq_some_iff.mp hSource
  rw [rows, List.getElem?_mapIdx] at hIndex
  obtain ⟨raw, hRaw, rfl⟩ := Option.map_eq_some_iff.mp hIndex
  exact ⟨entry, hEntry, hRaw, rfl⟩

theorem mem_items_of_mem_allRows {row : Row} (hMem : row ∈ allRows p) {item : Item}
    (hItem : item ∈ row.item) :
    item ∈ p.items ∧ item.pos.source = row.source ∧ item.pos.line = row.index := by
  obtain ⟨_, _, _, hFirst⟩ := mem_allRows hMem
  rw [hFirst] at hItem
  obtain ⟨hListed, hHere⟩ := mem_itemsAt (List.mem_of_mem_head? hItem)
  exact ⟨Array.mem_toList_iff.mp hListed, hHere⟩

/-! ## Columns -/

/-- Two digits for each byte and a blank between neighbours, with blanks behind them up to eleven
columns. -/
def ShowsBytes (bs : List UInt8) (column : String) : Prop :=
  ∃ pairs shown, List.Forall₂ (fun b digits => Text.SpellsHex 2 (UInt8.toNat b) digits) bs pairs ∧
    shown = [' '].intercalate pairs ∧
    column = String.ofList (shown ++ List.replicate (11 - shown.length) ' ')

theorem showsBytes_hexBytes (bs : List UInt8) :
    ShowsBytes bs (Text.padRight 11 ' ' (hexBytes bs)) := by
  refine ⟨bs.map fun b => (Text.paddedHex 2 b.toNat).toList, (hexBytes bs).toList, ?_, ?_, rfl⟩
  · rw [List.forall₂_map_right_iff, List.forall₂_same]
    exact fun b _ => Text.spellsHex_paddedHex (by decide) b.toNat_lt
  · rw [hexBytes, String.toList_intercalate, List.map_map]
    rfl

/-- A number in decimal, with blanks in front of it up to four columns. -/
def numberText (n : Nat) : String :=
  String.ofList (List.replicate (4 - (Nat.toDigits 10 n).length) ' ' ++ Nat.toDigits 10 n)

theorem lineNumber_eq (index : Nat) : lineNumber index = numberText (index + 1) := by
  rw [lineNumber, Text.padLeft, List.leftpad, Nat.toString_eq_repr, Nat.toList_repr]
  rfl

end Listing

/-! ## Listings of finished runs -/

open Listing

/-- The bytes that an image holds for an item, as many as a listing has room for. -/
def FirstBytes (p : Program) (item : Item) (bs : List UInt8) : Prop :=
  bs.length = min item.size 4 ∧ ∀ k < bs.length, p.memory.bytes[item.address.toNat + k]? = bs[k]?

/-- What the listing of a program consists of. -/
structure Lists (p : Program) : Prop where
  text : render p = String.join (p.sources.mapIdx fun source entry =>
    header entry.1 ++ String.join ((rows p source entry.2).map (Row.text p))) ++ footer
  headers : ∀ entry ∈ p.sources, header entry.1 =
      String.ofList (List.replicate 22 '-') ++ "+------[" ++ entry.1 ++ "]" ++
        String.ofList (List.replicate (45 - entry.1.utf8ByteSize) '-') ++ "\n" ∧
    (OneLine (header entry.1) ↔ Flat entry.1)
  rows : ∀ row ∈ allRows p, OneLine (row.text p)
  plain : ∀ row ∈ allRows p, row.item = none → row.text p =
    String.ofList (List.replicate 22 ' ') ++ "| " ++ numberText (row.index + 1) ++ ": " ++
      row.raw ++ "\n"
  shown : ∀ row ∈ allRows p, ∀ item ∈ row.item, ∃ address column,
    Text.SpellsHex 8 item.address.toNat address ∧
    (0 < item.size → ∃ bs, FirstBytes p item bs ∧ ShowsBytes bs column) ∧
    row.text p = "[" ++ String.ofList address ++ "] " ++ column ++ "| " ++
      numberText (row.index + 1) ++ ": " ++ labelColumn p item ++ contentColumn item row.raw ++ "\n"
  footer : footer = String.ofList (List.replicate 22 '-') ++ "+" ++
    String.ofList (List.replicate 53 '-') ++ "\n" ∧ OneLine footer
  /-- Every item is on one row, and no row has two. -/
  items : (allRows p).filterMap Row.item = p.items.toList
  placed : ∀ row ∈ allRows p, ∀ item ∈ row.item,
    item.pos.source = row.source ∧ item.pos.line = row.index

theorem flat_of_recorded {added : List (String × String)} {entry : String × List String}
    (hMem : entry ∈ added.map recorded) : ∀ raw ∈ entry.2, Flat raw := by
  obtain ⟨source, _, rfl⟩ := List.mem_map.mp hMem
  intro raw hRaw
  obtain ⟨line, hLine, rfl⟩ := List.mem_map.mp hRaw
  rw [Flat, String.toList_ofList]
  exact fun hNewline => Text.newline_not_mem_of_mem_lines hLine
    ((Text.prefix_shown line).subset hNewline)

/-- The first bytes of an item that takes space can be read, because it was stored. -/
theorem Run.Reached.byteColumn_eq {options : Options} {r : Run} {log : List (Section × Item)}
    {program : Program} (hReached : Run.Reached options r log) (hFinish : r.finish = .ok program)
    {item : Item} (hMem : item ∈ program.items) (hSize : 0 < item.size) :
    ∃ bs, FirstBytes program item bs ∧
      byteColumn program item = Text.padRight 11 ' ' (hexBytes bs) := by
  have hWithin := hReached.within hFinish hMem hSize
  have hRead : program.memory.readBytes item.address (min item.size 4) = some _ :=
    (program.memory.readBytes_eq item.address (min item.size 4)).trans (if_pos (by omega))
  refine ⟨_, ⟨?_, ?_⟩, by rw [byteColumn, hRead]⟩
  · simp
  · intro k hIndex
    have hBound : k < min item.size 4 := by simpa using hIndex
    rw [program.memory.getElem?_of_lt_capacity (by omega)]
    simp [hBound]

/-- **Listings are complete.** The listing of a finished run has a header and one line for each
recorded line of every source, and a rule at the end. Every item is on just one of these lines, that
of its position, and is shown with the bytes that the image holds for it. -/
theorem lists_of_finish (options : Options) (calls : List (String × Option String))
    (program : Program) (hFinish : ((Run.start options).addAll calls).finish = .ok program) :
    Lists program := by
  obtain ⟨log, hReached⟩ := Run.exists_reached options calls
  obtain ⟨_, _, _, hLabels, hItems, _⟩ := Run.finish_ok hFinish
  have hSources := Run.sources_of_finish hFinish
  have hSourced := Run.sourced_addAll options calls
  have hFlat := Run.flat_addAll options calls
  have hSorted := (Run.orderly_addAll options calls).sorted
  rw [← hItems] at hSorted
  constructor
  · exact render_eq hSorted
  · exact fun entry _ => ⟨rfl, oneLine_header_iff entry.1⟩
  · intro row hMem
    obtain ⟨entry, hEntry, hRaw, _⟩ := mem_allRows hMem
    apply oneLine_row
    · rw [hLabels]
      exact hFlat.assembly.labels
    · rw [hSources, hSourced.sources] at hEntry
      exact flat_of_recorded (List.mem_of_getElem? hEntry) _ (List.mem_of_getElem? hRaw)
    · intro item hSome
      have hListed := (mem_items_of_mem_allRows hMem hSome).1
      exact hFlat.items item (hItems ▸ Array.mem_toList_iff.mpr hListed)
  · intro row _ hNone
    rw [Row.text, hNone, ← lineNumber_eq]
    rfl
  · intro row hMem item hSome
    have hListed := (mem_items_of_mem_allRows hMem hSome).1
    refine ⟨_, byteColumn program item,
      Text.spellsHex_paddedHex (by decide) item.address.toNat_lt, ?_, ?_⟩
    · intro hSize
      obtain ⟨bs, hFirst, hColumn⟩ := hReached.byteColumn_eq hFinish hListed hSize
      exact ⟨bs, hFirst, hColumn ▸ showsBytes_hexBytes bs⟩
    · rw [Row.text, Option.mem_def.mp hSome, String.ofList_toList, ← lineNumber_eq]
      rfl
  · exact ⟨rfl, oneLine_footer⟩
  · apply filterMap_allRows hSorted
    intro item hMem
    obtain ⟨name, _, _, lines, _, hSource, hLine, _⟩ := (hSourced.items item (hItems ▸ hMem)).cited
    rw [hSources, hSourced.sources]
    exact ⟨name, lines, hSource, (List.getElem?_eq_some_iff.mp hLine).1⟩
  · exact fun row hMem item hSome => (mem_items_of_mem_allRows hMem hSome).2

/-- A run whose second source fails behind an item, and whose last item takes no space. -/
def interrupted : Run :=
  (Run.start ⟨.little, 4, 0, 8, false⟩).addAll
    [("a", some "main: nop\r\n\n.data\n.byte 1, 2, 3, 4, 5\n"), ("b", some ".byte 9\n?"),
      ("c", some ".ascii \"\"")]

def interruptedMemory : Memory.Image :=
  ⟨#[0, 0, 0, 0, 0, 0, 0, 0, 1, 2, 3, 4, 5, 0, 0, 0, 0, 0, 0, 0, 0, 0, 0, 0], .little, 0,
    ⟨[], some ⟨.ofBounds 8 14, 2⟩⟩, ⟨[], some ⟨.ofBounds 0 4, 1⟩⟩, 2⟩

def interruptedText : String :=
  "----------------------+------[a]--------------------------------------------\n" ++
  "[00000000] 00 00 00 00|    1: \x1b[32mmain:\x1b[39m \x1b[31mnop     \x1b[34m\x1b[39m\n" ++
  "                      |    2: \n" ++
  "                      |    3: .data\n" ++
  "[00000008] 01 02 03 04|    4: \x1b[36m.byte 1, 2, 3, 4, 5\x1b[39m\n" ++
  "----------------------+------[b]--------------------------------------------\n" ++
  "                      |    1: .byte 9\n" ++
  "                      |    2: ?\n" ++
  "----------------------+------[c]--------------------------------------------\n" ++
  "[0000000E]            |    1: \x1b[36m.ascii \"\"\x1b[39m\n" ++
  "----------------------+-----------------------------------------------------\n"

theorem lists_of_interrupted : ∃ program, interrupted.finish = .ok program ∧
    render program = interruptedText ∧
    ((allRows program).map fun row => (row.source, row.index, row.item.map Item.address)) =
      [(0, 0, some 0), (0, 1, none), (0, 2, none), (0, 3, some 8), (1, 0, none), (1, 1, none),
        (2, 0, some 14)] ∧
    Lists program := by
  have hStore : Store.items interrupted.assembly.labels interrupted.items.toList
      interrupted.assembly.memory = .ok () interruptedMemory := by
    decide +kernel
  have hOptions : interrupted.options = ⟨.little, 4, 0, 8, false⟩ :=
    Run.options_addAll _ _
  have hCheck : Run.checkLayout ⟨.little, 4, 0, 8, false⟩ interruptedMemory = .ok [] :=
    Run.checkLayout_of_singletons rfl rfl rfl
  have hFinish := Run.finish_eq_ok hStore (by decide +kernel) (hOptions ▸ hCheck)
  exact ⟨_, hFinish, by decide +kernel, by decide +kernel, lists_of_finish _ _ _ hFinish⟩

/-- A source whose name has a newline. -/
def divided : Run :=
  (Run.start ⟨.little, 4, 0, 8, false⟩).addAll [("a\nb", some "main: nop\n.data\n.byte 7\n")]

def dividedMemory : Memory.Image :=
  ⟨#[0, 0, 0, 0, 0, 0, 0, 0, 7, 0, 0, 0, 0, 0, 0, 0, 0, 0, 0, 0, 0, 0, 0, 0], .little, 0,
    ⟨[], some ⟨.ofBounds 8 9, 2⟩⟩, ⟨[], some ⟨.ofBounds 0 4, 1⟩⟩, 2⟩

def dividedLines : List String :=
  ["----------------------+------[a",
    "b]------------------------------------------",
    "[00000000] 00 00 00 00|    1: \x1b[32mmain:\x1b[39m \x1b[31mnop     \x1b[34m\x1b[39m",
    "                      |    2: .data",
    "[00000008] 07         |    3: \x1b[36m.byte 7\x1b[39m",
    "----------------------+-----------------------------------------------------"]

/-- The header takes two lines, so the listing has one more than the headers, the recorded lines and
the rule together. -/
theorem header_of_divided : ∃ program, divided.finish = .ok program ∧
    render program = String.join (dividedLines.map (· ++ "\n")) ∧
    (∀ line ∈ dividedLines, Flat line) ∧
    dividedLines.length ≠ (program.sources.map fun entry => 1 + entry.2.length).sum + 1 ∧
    ¬ ∀ entry ∈ program.sources, OneLine (header entry.1) := by
  have hStore : Store.items divided.assembly.labels divided.items.toList
      divided.assembly.memory = .ok () dividedMemory := by
    decide +kernel
  have hOptions : divided.options = ⟨.little, 4, 0, 8, false⟩ :=
    Run.options_addAll _ _
  have hCheck : Run.checkLayout ⟨.little, 4, 0, 8, false⟩ dividedMemory = .ok [] :=
    Run.checkLayout_of_singletons rfl rfl rfl
  have hFinish := Run.finish_eq_ok hStore (by decide +kernel) (hOptions ▸ hCheck)
  have hSources : divided.sources = [("a\nb", ["main: nop", ".data", ".byte 7"])] := by
    decide +kernel
  rw [hSources] at hFinish
  refine ⟨_, hFinish, by decide +kernel, by decide +kernel, by decide, ?_⟩
  intro hHeaders
  have hHeader := hHeaders _ List.mem_cons_self
  rw [oneLine_header_iff] at hHeader
  exact absurd hHeader (by decide)

end MipsAsm
