import MipsAsm.Text.Blank
import MipsAsm.Text.Lines

/-! # Texts on one line

A text that holds no newline and has no blank at either end can be written on a line and read back
by cutting and trimming. Whatever is read that way is such a text.
-/

namespace MipsAsm.Text

/-! ## Blank ends -/

/-- Neither end of the text is blank. -/
def Trimmed (cs : List Char) : Prop :=
  (∀ c ∈ cs.head?, isBlank c = false) ∧ ∀ c ∈ cs.getLast?, isBlank c = false

-- the ends are looked at, and never all characters
instance decidableTrimmed (cs : List Char) : Decidable (Trimmed cs) :=
  @instDecidableAnd _ _ (Option.decidableForallMem cs.head?) (Option.decidableForallMem cs.getLast?)

theorem trimmed_of_forall {cs : List Char} (hBlank : ∀ c ∈ cs, isBlank c = false) : Trimmed cs :=
  ⟨fun c hHead => hBlank c (List.mem_of_mem_head? hHead),
    fun c hLast => hBlank c (List.mem_of_getLast? hLast)⟩

theorem dropWhile_eq_self {p : Char → Bool} {cs : List Char} (hHead : ∀ c ∈ cs.head?, p c = false) :
    cs.dropWhile p = cs := by
  cases cs with
  | nil => rfl
  | cons c cs => exact List.dropWhile_cons_of_neg (by simp [hHead c rfl])

theorem eq_false_of_mem_head?_dropWhile {p : Char → Bool} {cs : List Char} {c : Char}
    (hHead : c ∈ (cs.dropWhile p).head?) : p c = false := by
  have hNot := List.head?_dropWhile_not p cs
  rw [Option.mem_def.mp hHead] at hNot
  exact hNot

theorem trim_of_trimmed {cs : List Char} (hTrimmed : Trimmed cs) : trim cs = cs := by
  rw [trim, dropWhile_eq_self hTrimmed.1, dropTrailing, dropWhile_eq_self, List.reverse_reverse]
  rw [List.head?_reverse]
  exact hTrimmed.2

theorem prefix_dropTrailing (p : Char → Bool) (cs : List Char) : dropTrailing p cs <+: cs := by
  rw [dropTrailing, ← List.reverse_suffix, List.reverse_reverse]
  exact List.dropWhile_suffix p

theorem dropTrailing_append (p : Char → Bool) (cs ds : List Char) :
    dropTrailing p (cs ++ ds) =
      if (dropTrailing p ds).isEmpty then dropTrailing p cs else cs ++ dropTrailing p ds := by
  simp only [dropTrailing, List.reverse_append, List.dropWhile_append, List.isEmpty_reverse]
  split
  · rfl
  · rw [List.reverse_append, List.reverse_reverse]

theorem exists_append_dropTrailing (p : Char → Bool) (cs : List Char) :
    ∃ tail, cs = dropTrailing p cs ++ tail ∧ ∀ c ∈ tail, p c = true := by
  refine ⟨(cs.reverse.takeWhile p).reverse, ?_, fun c hMem => ?_⟩
  · rw [dropTrailing, ← List.reverse_append, List.takeWhile_append_dropWhile, List.reverse_reverse]
  · exact List.all_eq_true.mp (List.all_takeWhile) c (List.mem_reverse.mp hMem)

theorem trimmed_trim (cs : List Char) : Trimmed (trim cs) := by
  constructor
  · intro c hHead
    obtain ⟨tail, hSplit⟩ := prefix_dropTrailing isBlank (cs.dropWhile isBlank)
    -- what is cut off behind leaves the first character in its place
    apply eq_false_of_mem_head?_dropWhile
    have hFirst : (trim cs).head? = some c := hHead
    rw [← hSplit, List.head?_append, ← trim, hFirst]
    rfl
  · intro c hLast
    rw [trim, dropTrailing, List.getLast?_reverse] at hLast
    exact eq_false_of_mem_head?_dropWhile hLast

theorem mem_of_mem_trim {cs : List Char} {c : Char} (hMem : c ∈ trim cs) : c ∈ cs :=
  (List.dropWhile_suffix isBlank).subset ((prefix_dropTrailing _ _).subset hMem)

theorem trim_append_blank {c : Char} (cs : List Char) (hBlank : isBlank c = true) :
    trim (cs ++ [c]) = trim cs := by
  rw [trim, trim, List.dropWhile_append]
  split
  · rename_i hEmpty
    rw [List.isEmpty_iff.mp hEmpty, List.dropWhile_cons_of_pos hBlank]
    rfl
  · rw [dropTrailing, List.reverse_append, List.reverse_singleton, List.singleton_append,
      List.dropWhile_cons_of_pos hBlank, dropTrailing]

theorem trimmed_append_cons {front back : List Char} {c : Char}
    (hFront : ∀ d ∈ front.head?, isBlank d = false) (hMiddle : isBlank c = false)
    (hBack : ∀ d ∈ back.getLast?, isBlank d = false) : Trimmed (front ++ c :: back) := by
  constructor
  · intro d hHead
    cases front with
    | nil =>
      cases hHead
      exact hMiddle
    | cons x front => exact hFront d hHead
  · intro d hLast
    rw [List.getLast?_append, List.getLast?_cons, Option.some_or, Option.mem_some_iff] at hLast
    cases hEnd : back.getLast? with
    | none =>
      rw [hEnd] at hLast
      exact hLast ▸ hMiddle
    | some e =>
      rw [hEnd] at hLast
      exact hLast ▸ hBack e hEnd

/-! ## Lines -/

theorem cutLines_append {newline : Char} {content : List Char} (hContent : newline ∉ content)
    (current rest : List Char) :
    cutLines newline current (content ++ newline :: rest) =
      ⟨current.reverse ++ content, true⟩ :: cutLines newline [] rest := by
  induction content generalizing current with
  | nil => rw [List.nil_append, cutLines, if_pos (beq_self_eq_true _), List.append_nil]
  | cons c content ih =>
    obtain ⟨hHead, hTail⟩ := not_or.mp (mt List.mem_cons.mpr hContent)
    rw [List.cons_append, cutLines, if_neg (by simpa using Ne.symm hHead), ih hTail,
      List.reverse_cons, List.append_assoc, List.singleton_append]

theorem lines_append {content : List Char} (hContent : '\n' ∉ content) (rest : List Char) :
    lines (content ++ '\n' :: rest) = ⟨content, true⟩ :: lines rest :=
  cutLines_append hContent [] rest

theorem lines_flatMap {contents : List (List Char)} (hContents : ∀ cs ∈ contents, '\n' ∉ cs) :
    lines (contents.flatMap (· ++ ['\n'])) = contents.map (⟨·, true⟩) := by
  induction contents with
  | nil => rfl
  | cons cs contents ih =>
    rw [List.flatMap_cons, List.append_assoc, List.singleton_append,
      lines_append (hContents cs List.mem_cons_self), List.map_cons,
      ih fun ds hMem => hContents ds (List.mem_cons_of_mem _ hMem)]

/-- A newline ends the last line of the text, if there is one. -/
def Ended (s : String) : Prop :=
  ∀ c ∈ s.toList.getLast?, c = '\n'

instance decidableEnded (s : String) : Decidable (Ended s) :=
  Option.decidableForallMem s.toList.getLast?

theorem cutLines_append_cons (newline : Char) (current cs rest : List Char) :
    cutLines newline current (cs ++ newline :: rest) =
      cutLines newline current (cs ++ [newline]) ++ cutLines newline [] rest := by
  induction cs generalizing current with
  | nil => simp [cutLines]
  | cons c cs ih =>
    rw [List.cons_append, List.cons_append, cutLines, cutLines]
    split
    · rw [ih, List.cons_append]
    · exact ih _

theorem lines_append_of_ended {front : String} (hFront : Ended front) (rest : List Char) :
    lines (front.toList ++ rest) = lines front.toList ++ lines rest := by
  cases hLast : front.toList.getLast? with
  | none =>
    rw [List.getLast?_eq_none_iff.mp hLast]
    rfl
  | some c =>
    obtain ⟨cs, hSplit⟩ := List.getLast?_eq_some_iff.mp hLast
    rw [hSplit, hFront c hLast, List.append_assoc]
    exact cutLines_append_cons '\n' [] cs rest

theorem newline_not_mem_cutLines {newline : Char} {current cs : List Char} {line : Line Char}
    (hCurrent : newline ∉ current) (hMem : line ∈ cutLines newline current cs) :
    newline ∉ line.content := by
  induction cs generalizing current with
  | nil =>
    rw [cutLines] at hMem
    split at hMem
    · cases hMem
    · cases List.mem_singleton.mp hMem
      simpa using hCurrent
  | cons c cs ih =>
    rw [cutLines] at hMem
    split at hMem
    · rcases List.mem_cons.mp hMem with rfl | hRest
      · simpa using hCurrent
      · exact ih List.not_mem_nil hRest
    · rename_i hNe
      refine ih ?_ hMem
      rw [List.mem_cons, not_or]
      exact ⟨fun hEq => hNe (by simp [hEq]), hCurrent⟩

theorem newline_not_mem_of_mem_lines {cs : List Char} {line : Line Char}
    (hMem : line ∈ lines cs) : '\n' ∉ line.content :=
  newline_not_mem_cutLines List.not_mem_nil hMem

theorem prefix_shown (line : Line Char) : line.shown <+: line.content := by
  rw [Line.shown]
  split
  · exact List.dropLast_prefix _
  · exact List.prefix_rfl

/-- The carriage return that a shown line loses would be trimmed anyway. -/
theorem trim_shown (line : Line Char) : trim line.shown = trim line.content := by
  rw [Line.shown]
  split
  · rename_i hLast
    obtain ⟨front, hSplit⟩ := List.getLast?_eq_some_iff.mp hLast
    rw [hSplit, List.dropLast_concat, trim_append_blank front (by decide)]
  · rfl

/-- What is shown of a line and what is scanned of it differ in carriage returns at the end only. -/
theorem dropTrailing_shown (line : Line Char) :
    dropTrailing (· == '\r') line.shown = dropTrailing (· == '\r') line.content := by
  rw [Line.shown]
  split
  · rename_i hLast
    obtain ⟨front, hSplit⟩ := List.getLast?_eq_some_iff.mp hLast
    rw [hSplit, List.dropLast_concat, dropTrailing_append, if_pos (by decide)]
  · rfl

/-! ## Texts that a line can hold -/

def FitsLine (s : String) : Prop :=
  '\n' ∉ s.toList ∧ Trimmed s.toList

instance decidableFitsLine (s : String) : Decidable (FitsLine s) :=
  inferInstanceAs (Decidable ('\n' ∉ s.toList ∧ Trimmed s.toList))

theorem fitsLine_of_forall {s : String} (hBlank : ∀ c ∈ s.toList, isBlank c = false) :
    FitsLine s := by
  refine ⟨fun hMem => ?_, trimmed_of_forall hBlank⟩
  exact absurd (hBlank _ hMem) (by decide)

theorem fitsLine_trim {cs : List Char} (hCs : '\n' ∉ cs) : FitsLine (String.ofList (trim cs)) := by
  rw [FitsLine, String.toList_ofList]
  exact ⟨fun hMem => hCs (mem_of_mem_trim hMem), trimmed_trim cs⟩

end MipsAsm.Text
