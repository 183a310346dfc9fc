import MipsAsm.Proofs.Assembly.Alike
import MipsAsm.Proofs.Text.Lines

/-! # One source or two

A text that is assembled in two parts has the effect of the whole, provided the cut is between
lines and no label waits there. Only positions tell the two apart.
-/

namespace MipsAsm

open Outcome (AgreeAt final_of_ok)
open Token (linesOfText RawLine)

/-! ## Positions -/

/-- The place that far behind the start of another source. -/
def Position.moved (source count : Nat) (p : Position) : Position :=
  ⟨source, p.line + count, p.col⟩

def Label.moved (source count : Nat) (l : Label) : Label :=
  { l with pos := l.pos.moved source count }

def Item.moved (source count : Nat) (i : Item) : Item :=
  { i with pos := i.pos.moved source count }

theorem map_moved_labels {source count : Nat} {ls ks : List Label}
    (hAlike : List.Forall₂ (Label.Alike fun p q => p.moved source count = q) ls ks) :
    ls.map (Label.moved source count) = ks := by
  rw [← List.forall₂_eq_eq_eq, List.forall₂_map_left_iff]
  refine hAlike.imp ?_
  rintro ⟨name, pos, address⟩ ⟨name', pos', address'⟩ ⟨rfl, rfl, rfl⟩
  rfl

theorem map_moved_items {source count : Nat} {is js : List Item}
    (hAlike : List.Forall₂ (Item.Alike fun p q => p.moved source count = q) is js) :
    is.map (Item.moved source count) = js := by
  rw [← List.forall₂_eq_eq_eq, List.forall₂_map_left_iff]
  refine hAlike.imp ?_
  rintro ⟨address, pos, payload⟩ ⟨address', pos', payload'⟩ ⟨rfl, rfl, rfl⟩
  rfl

/-! ## Lines in two parts -/

namespace Token

theorem linesOfText_append {front : String} (hFront : Text.Ended front) (back : String) :
    linesOfText (front ++ back) = linesOfText front ++ linesOfText back := by
  rw [linesOfText, linesOfText, linesOfText, String.toList_append,
    Text.lines_append_of_ended hFront, List.map_append]

end Token

namespace Assemble

theorem body_append (source : Nat) (front back : List RawLine) (index : Nat) :
    body source index (front ++ back) =
      (do body source index front; body source (index + front.length) back) := by
  induction front generalizing index with
  | nil => rfl
  | cons raw front ih =>
    cases raw with
    | undecodable => rfl
    | text cs =>
      rw [List.cons_append, body, body, List.length_cons, ← Nat.add_assoc, Nat.add_right_comm]
      simp only [ih, bind_assoc]

theorem lines_append (source : Nat) (front back : List RawLine) (index : Nat) :
    lines source index (front ++ back) =
      (do body source index front; lines source (index + front.length) back) := by
  rw [lines_eq_body, body_append, lines_eq_body, bind_assoc]

theorem define_nil_of_pending {a : Assembly} (hPending : a.pending = []) :
    define [] a = .ok () a := by
  obtain ⟨active, text, data, pending, labels, memory, staged⟩ := a
  cases hPending
  rfl

theorem pending_of_lines {source index : Nat} {raw : List RawLine} {a b : Assembly} {u : Unit}
    (hRun : lines source index raw a = .ok u b) : b.pending = [] := by
  rw [lines_eq_body] at hRun
  obtain ⟨_, c, _, hDefine⟩ := Outcome.run_bind_eq_ok.mp hRun
  rcases define_cases [] c with hOk | ⟨_, _, hError⟩
  · cases hOk.symm.trans hDefine
    rfl
  · cases hError.symm.trans hDefine

end Assemble

namespace Assembly

variable {a b : Assembly} {source : Nat} {front : List RawLine}

theorem parse_of_body_error {e : Error} (back : List RawLine)
    (hFront : Assemble.body source 0 front { a with staged := #[] } = .error e b) :
    a.parse source (front ++ back) = (.error e, { b with staged := #[] }) := by
  rw [parse_eq, Assemble.lines_append, Outcome.run_bind_of_error hFront, concluded]

theorem parse_of_body_ok (back : List RawLine)
    (hFront : Assemble.body source 0 front { a with staged := #[] } = .ok () b) :
    a.parse source (front ++ back) = concluded (Assemble.lines source front.length back b) := by
  rw [parse_eq, Assemble.lines_append, Outcome.run_bind_of_ok hFront, Nat.zero_add]

theorem parse_of_settled (hFront : Assemble.body source 0 front { a with staged := #[] } = .ok () b)
    (hPending : b.pending = []) :
    a.parse source front = (.ok b.staged, { b with staged := #[] }) := by
  rw [← List.append_nil front, parse_of_body_ok [] hFront, Assemble.lines,
    Assemble.define_nil_of_pending hPending, concluded]

/-- A state alike up to moved positions is the same state with some positions moved. -/
theorem Alike.eq_moved {source count : Nat} {e : Memory.Endian} {labels : List Label}
    {items : List Item} {a b : Assembly} (hPending : a.pending = [])
    (hState : Alike (fun p q => p.moved source count = q) ⟨e, e, labels, [], items⟩ a b) :
    ∃ new, a.labels = ⟨labels ++ new⟩ ∧
      b = { a with
        labels := ⟨labels ++ new.map (Label.moved source count)⟩
        staged := items.toArray ++ a.staged.map (Item.moved source count) } := by
  obtain ⟨hActive, hText, hData, hWaiting, ⟨new, new', hNew, hNew', hLabels⟩, hMemory,
    ⟨fresh, fresh', hFresh, hFresh', hItems⟩⟩ := hState
  refine ⟨new, congrArg LabelTable.mk hNew, ?_⟩
  have hStaged : b.staged = items.toArray ++ a.staged.map (Item.moved source count) := by
    apply Array.toList_inj.mp
    rw [hFresh', Array.toList_append, Array.toList_map, hFresh, ← map_moved_items hItems]
    rfl
  have hTable : b.labels = ⟨labels ++ new.map (Label.moved source count)⟩ := by
    rw [map_moved_labels hLabels]
    exact congrArg LabelTable.mk hNew'
  have hNone : b.pending = a.pending := by
    rw [hPending, List.forall₂_nil_left_iff] at hWaiting
    rw [hWaiting, hPending]
  calc
    b = ⟨b.active, b.text, b.data, b.pending, b.labels, b.memory, b.staged⟩ := rfl
    _ = _ := by rw [← hActive, ← hText, ← hData, hNone, hTable, ← hMemory.eq, hStaged]

/-- The same lines in a source of their own and behind others. -/
theorem parse_relocated (source source' count : Nat) (raw : List RawLine) {a : Assembly}
    (hPending : a.pending = []) :
    let own := a.parse source' raw
    let later := concluded (Assemble.lines source count raw a)
    ((∃ items, own.1 = .ok items) ↔ ∃ items, later.1 = .ok items) ∧
      ∀ items, own.1 = .ok items → ∃ new, own.2.labels = a.labels.extend new ∧
        later = (.ok (a.staged ++ items.map (Item.moved source count)),
          { own.2 with labels := a.labels.extend (new.map (Label.moved source count)) }) := by
  intro own later
  have hStart : Alike (fun p q => p.moved source count = q)
      ⟨a.memory.endian, a.memory.endian, a.labels.labels, [], a.staged.toList⟩
      { a with staged := #[] } a := by
    refine ⟨rfl, rfl, rfl, ?_, Extends.self _ _ _, .refl _, Extends.self _ _ _⟩
    rw [hPending]
    exact .nil
  have hRuns : AgreeAt _ _ _ (Assemble.lines source' 0 raw { a with staged := #[] })
      (Assemble.lines source (0 + count) raw a) :=
    Assemble.lines_keeps (fun _ _ => rfl) raw 0 _ _ hStart
  have hOwn : own = concluded (Assemble.lines source' 0 raw { a with staged := #[] }) :=
    parse_eq a source' raw
  rw [Nat.zero_add] at hRuns
  cases hRun : Assemble.lines source' 0 raw { a with staged := #[] } with
  | ok _ b =>
    rw [hRun] at hRuns hOwn
    obtain ⟨_, c, hLater, _, hState⟩ := hRuns.exists_of_ok rfl
    obtain ⟨new, hLabels, rfl⟩ := hState.eq_moved (Assemble.pending_of_lines hRun)
    have hWhole : later = _ := congrArg concluded hLater
    rw [hWhole, hOwn]
    refine ⟨⟨fun _ => ⟨_, rfl⟩, fun _ => ⟨_, rfl⟩⟩, ?_⟩
    rintro items ⟨⟩
    exact ⟨new, hLabels, rfl⟩
  | error e b =>
    rw [hRun] at hRuns hOwn
    obtain ⟨_, c, hLater, _⟩ := hRuns.exists_of_error rfl
    have hWhole : later = _ := congrArg concluded hLater
    rw [hWhole, hOwn]
    refine ⟨⟨?_, ?_⟩, ?_⟩
    · rintro ⟨_, ⟨⟩⟩
    · rintro ⟨_, ⟨⟩⟩
    · rintro _ ⟨⟩

end Assembly

open Assembly

/-- Assembling a text in two parts and at once comes to the same but for positions, if a newline
ends the first part and no label waits behind its lines. Items and labels of the second part are
then counted as lines behind the first. -/
theorem parse_append (a : Assembly) (source source' : Nat) (front back : String)
    (hFront : Text.Ended front)
    (hPending : ∀ b, Assemble.body source 0 (linesOfText front) { a with staged := #[] } = .ok () b →
      b.pending = []) :
    let count := (linesOfText front).length
    let first := a.parse source (linesOfText front)
    let second := first.2.parse source' (linesOfText back)
    let whole := a.parse source (linesOfText (front ++ back))
    ((∃ i₁ i₂, first.1 = .ok i₁ ∧ second.1 = .ok i₂) ↔ ∃ items, whole.1 = .ok items) ∧
      ∀ i₁ i₂, first.1 = .ok i₁ → second.1 = .ok i₂ →
        ∃ new, second.2.labels = first.2.labels.extend new ∧
          whole = (.ok (i₁ ++ i₂.map (Item.moved source count)),
            { second.2 with
              labels := first.2.labels.extend (new.map (Label.moved source count)) }) := by
  intro count first second whole
  have hWhole : whole = a.parse source (linesOfText front ++ linesOfText back) :=
    congrArg (a.parse source) (Token.linesOfText_append hFront back)
  cases hBody : Assemble.body source 0 (linesOfText front) { a with staged := #[] } with
  | error e b =>
    have hFirst : first = (.error e, { b with staged := #[] }) := by
      have hAlone := parse_of_body_error [] hBody
      rw [List.append_nil] at hAlone
      exact hAlone
    rw [parse_of_body_error _ hBody] at hWhole
    rw [hFirst, hWhole]
    refine ⟨⟨?_, ?_⟩, ?_⟩
    · rintro ⟨_, _, ⟨⟩, _⟩
    · rintro ⟨_, ⟨⟩⟩
    · rintro _ _ ⟨⟩
  | ok _ b =>
    have hSettled := hPending b hBody
    have hFirst : first = (.ok b.staged, { b with staged := #[] }) := parse_of_settled hBody hSettled
    -- a source starts without staged items, whatever was staged before
    have hSecond : second = b.parse source' (linesOfText back) := by
      have hStart : second = first.2.parse source' (linesOfText back) := rfl
      rw [hStart, hFirst]
      rfl
    obtain ⟨hOk, hSame⟩ := parse_relocated source source' count (linesOfText back) hSettled
    rw [parse_of_body_ok _ hBody] at hWhole
    rw [hFirst, hSecond, hWhole]
    refine ⟨⟨?_, ?_⟩, ?_⟩
    · rintro ⟨_, i₂, _, hBack⟩
      exact hOk.mp ⟨i₂, hBack⟩
    · intro hItems
      obtain ⟨i₂, hBack⟩ := hOk.mpr hItems
      exact ⟨b.staged, i₂, rfl, hBack⟩
    · rintro _ i₂ ⟨⟩ hBack
      exact hSame i₂ hBack

/-- A label that waits over a line, a change of section, and a jump ahead into the second part. -/
def upperPart : String :=
  "a:\n\nj c\n.data\n.byte 7\n"

def lowerPart : String :=
  "b: .half a\n.text\nc: nop\n"

def partsStart : Assembly :=
  .ofBases 2 16 (.ofCapacity 4 .little)

theorem parse_append_parts :
    Text.Ended upperPart ∧
    (∀ b, Assemble.body 3 0 (linesOfText upperPart) partsStart = .ok () b → b.pending = []) ∧
    ∃ (i₁ i₂ : Array Item) (new : List Label),
      (partsStart.parse 3 (linesOfText upperPart)).1 = .ok i₁ ∧
      ((partsStart.parse 3 (linesOfText upperPart)).2.parse 8 (linesOfText lowerPart)).1 = .ok i₂ ∧
      (partsStart.parse 3 (linesOfText (upperPart ++ lowerPart))).1 =
        .ok (i₁ ++ i₂.map (Item.moved 3 5)) ∧
      (partsStart.parse 3 (linesOfText (upperPart ++ lowerPart))).2.labels.labels =
        ⟨"a", ⟨3, 0, 0⟩, 4⟩ :: new.map (Label.moved 3 5) := by
  have hFront : Text.Ended upperPart := by decide +kernel
  have hPending : ∀ b, Assemble.body 3 0 (linesOfText upperPart) partsStart = .ok () b →
      b.pending = [] := by
    intro b hRun
    rw [← final_of_ok hRun]
    decide +kernel
  have hFirst : (partsStart.parse 3 (linesOfText upperPart)).1 =
      .ok #[⟨4, ⟨3, 2, 0⟩, .code (.jump .j (.symbol "c"))⟩,
        ⟨16, ⟨3, 4, 0⟩, .data .byte [.literal 7]⟩] := by
    decide +kernel
  have hLabels : (partsStart.parse 3 (linesOfText upperPart)).2.labels =
      ⟨[⟨"a", ⟨3, 0, 0⟩, 4⟩]⟩ := by
    decide +kernel
  have hSecond : ((partsStart.parse 3 (linesOfText upperPart)).2.parse 8
      (linesOfText lowerPart)).1 =
      .ok #[⟨18, ⟨8, 0, 3⟩, .data .half [.symbol "a"]⟩, ⟨8, ⟨8, 2, 3⟩, .code (.bare .nop)⟩] := by
    decide +kernel
  have hCount : (linesOfText upperPart).length = 5 := by decide +kernel
  obtain ⟨_, hSame⟩ := parse_append partsStart 3 8 upperPart lowerPart hFront hPending
  obtain ⟨new, _, hWhole⟩ := hSame _ _ hFirst hSecond
  rw [hCount, hLabels] at hWhole
  refine ⟨hFront, hPending, _, _, new, hFirst, hSecond, ?_, ?_⟩
  · rw [hWhole]
  · rw [hWhole]
    rfl

end MipsAsm
