import MipsAsm.Proofs.Program.Provenance

/-! # Items in the order of their lines

The items of a run stand in the order of sources and, within a source, of lines. No two of them
stand on the same line. A source that fails leaves no items but keeps its number.
-/

namespace MipsAsm

open Outcome (final)

/-- On an earlier line of the same source, or in an earlier source. -/
def Item.Before (i j : Item) : Prop :=
  i.pos.source < j.pos.source ∨ i.pos.source = j.pos.source ∧ i.pos.line < j.pos.line

namespace Assemble

variable {source : Nat}

theorem pairwise_before {stop : Nat} {items : List Item} (hRising : Rising source stop items) :
    items.Pairwise Item.Before := by
  refine hRising.sorted.imp_of_mem fun {i j} hFirst hSecond hLine => Or.inr ⟨?_, hLine⟩
  exact (hRising.placed i hFirst).1.trans (hRising.placed j hSecond).1.symm

theorem rising_lines (source : Nat) (raw : List Token.RawLine) (a : Assembly) :
    ∃ stop, Rising source stop
      (final (lines source 0 raw) { a with staged := #[] }).staged.toList := by
  refine lines_induction (J := fun index b => Rising source index b.staged.toList) ?_ ?_ raw 0
    { a with staged := #[] } ⟨.nil, List.forall_mem_nil _⟩
  · intro index cs ts hScan b hRising
    refine rising_line (fun t hMem => ?_) hRising
    obtain ⟨hSource, hLine, _⟩ := (Token.Marks.token hScan hMem rfl).bounds
    exact ⟨hSource, hLine⟩
  · intro index b hRising
    obtain ⟨labels, hFinal⟩ := final_define [] b
    rw [hFinal]
    exact hRising

end Assemble

theorem Assembly.exists_rising {a b : Assembly} {source : Nat} {raw : List Token.RawLine}
    {items : Array Item} (hParse : a.parse source raw = (.ok items, b)) :
    ∃ stop, Assemble.Rising source stop items.toList := by
  rw [← map_snd_log_of_ok hParse, map_snd_log]
  exact Assemble.rising_lines source raw a

namespace Run

/-- The items stand in the order of their lines, in sources that the run has recorded. -/
structure Orderly (r : Run) : Prop where
  sorted : r.items.toList.Pairwise Item.Before
  below : ∀ item ∈ r.items.toList, item.pos.source < r.sources.length

namespace Orderly

variable {r : Run}

theorem parseSource (hOrderly : Orderly r) {name : String} (text : String)
    (hNew : r.sources.contains name = false) : Orderly (r.parseSource name text).2 := by
  have hLength : (r.sources.insert name (Text.shownLines text)).length = r.sources.length + 1 := by
    rw [SourceTable.insert, hNew]
    exact List.length_append
  rw [Run.parseSource]
  cases hParse : r.assembly.parse r.sources.length (Token.linesOfText text) with
  | mk outcome assembly =>
    cases outcome with
    | ok items =>
      obtain ⟨stop, hRising⟩ := Assembly.exists_rising hParse
      constructor
      · rw [Array.toList_append]
        refine List.pairwise_append.mpr
          ⟨hOrderly.sorted, Assemble.pairwise_before hRising, fun i hFirst j hSecond => Or.inl ?_⟩
        rw [(hRising.placed j hSecond).1]
        exact hOrderly.below i hFirst
      · rw [Array.toList_append, hLength]
        refine List.forall_mem_append.mpr ⟨fun item hMem => ?_, fun item hMem => ?_⟩
        · exact Nat.lt_succ_of_lt (hOrderly.below item hMem)
        · rw [(hRising.placed item hMem).1]
          exact Nat.lt_succ_self _
    | error e =>
      refine ⟨hOrderly.sorted, fun item hMem => ?_⟩
      rw [hLength]
      exact Nat.lt_succ_of_lt (hOrderly.below item hMem)

end Orderly

theorem orderly_addAll (options : Options) (calls : List (String × Option String)) :
    Orderly ((start options).addAll calls) :=
  addAll_induction (fun _ _ text hNew hOrderly => hOrderly.parseSource text hNew) calls
    ⟨.nil, List.forall_mem_nil _⟩

end Run

end MipsAsm
