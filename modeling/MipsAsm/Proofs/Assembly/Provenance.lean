import MipsAsm.Proofs.Assembly.Alike
import MipsAsm.Proofs.Assembly.Content
import MipsAsm.Proofs.Token.Blame
import MipsAsm.Proofs.Token.Span

/-! # Where positions come from

Every position is that of a token, or of what keeps a line from being scanned. Statements hand on
the positions of their tokens and make none of their own, so that labels, items and errors all have
positions of scanned lines.
-/

namespace MipsAsm

open Outcome (Agree AgreeAt Respects)

/-! ## Positions in a line -/

namespace Token

variable {options : Options} {source index : Nat} {cs : List Char} {p : Position}

/-- The position of a token of the line, or of what keeps the line from being scanned. -/
inductive Marks (options : Options) (source index : Nat) (cs : List Char) (p : Position) :
    Prop where
  | token {ts : List Token} {t : Token} (hScan : scanLine options source index cs = .ok ts)
      (hMem : t ∈ ts) (hPos : t.pos = p)
  | error {e : LexicalError} (hScan : scanLine options source index cs = .error e)
      (hPos : e.pos = p)

namespace Scanner

variable {s : Scanner} {e : LexicalError}

theorem pos_of_next_error (hNext : s.next.1 = .error e) :
    ∃ k ≤ s.rest.length, e.pos = ⟨s.source, s.line, s.col + k⟩ := by
  obtain ⟨read, rest, state, d, hWalks⟩ := s.exists_walks
  have hSplit := hWalks.split
  rcases hWalks.next_cases with ⟨_, hAccept⟩ | ⟨_, _, hNone⟩ | ⟨_, _, hReject⟩
  · -- the label that begins with a dot is blamed where it begins
    obtain ⟨blanks, spelling, text, _, _, _, hDrafted, _⟩ := reading_of_walk hWalks.walk
    refine ⟨blanks.length, by simp [hSplit], ?_⟩
    rw [hNext, hDrafted.accept] at hAccept
    split at hAccept
    · cases hAccept
    · split at hAccept
      · cases hAccept
        rfl
      · cases hAccept
  · cases hNext.symm.trans hNone
  · cases hNext.symm.trans hReject
    rcases (marked_of_walk hWalks.walk).2 with ⟨_, hNone⟩ | ⟨_, good, c, more, _, hRead, hTrapped⟩
    · refine ⟨read.length, by simp [hSplit], ?_⟩
      rw [hNone]
      rfl
    · refine ⟨good.length, by simp [hSplit, hRead], ?_⟩
      rw [hTrapped.2.2.2.2]
      rfl

theorem pos_of_tokens_error (hTokens : s.tokens = .error e) :
    ∃ k ≤ s.rest.length, e.pos = ⟨s.source, s.line, s.col + k⟩ := by
  fun_induction tokens s with
  | case1 s e' hNext =>
    cases hTokens
    exact pos_of_next_error hNext
  | case2 => cases hTokens
  | case3 s t hNext e' hRest ih =>
    cases hTokens
    obtain ⟨blanks, spelling, rest, hSplit, _, _, _, hState⟩ := exists_of_next_token hNext
    obtain ⟨k, hLe, hPos⟩ := ih hRest
    rw [hState] at hLe hPos
    refine ⟨blanks.length + spelling.length + k, ?_, ?_⟩
    · simp only [hSplit, List.length_append] at hLe ⊢
      omega
    · rw [hPos, ← Nat.add_assoc, ← Nat.add_assoc]
  | case4 => cases hTokens

end Scanner

theorem Tiles.pos_of_mem {col : Nat} {ts : List Token} {t : Token}
    (hTiles : Tiles options source index col cs ts) (hMem : t ∈ ts) :
    ∃ k ≤ cs.length, t.pos = ⟨source, index, col + k⟩ := by
  induction hTiles with
  | done => cases hMem
  | token blanks spelling rest _ _ hPos _ ih =>
    rcases List.mem_cons.mp hMem with rfl | hLater
    · exact ⟨blanks.length, by simp, hPos⟩
    · obtain ⟨k, hLe, hPos⟩ := ih hLater
      refine ⟨blanks.length + spelling.length + k, ?_, ?_⟩
      · simp only [List.length_append]
        omega
      · rw [hPos, ← Nat.add_assoc, ← Nat.add_assoc]

/-- Marks stand in their line, or just behind it. -/
theorem Marks.bounds (hMarks : Marks options source index cs p) :
    p.source = source ∧ p.line = index ∧ p.col ≤ cs.length := by
  have hPlace : ∃ k ≤ cs.length, p = ⟨source, index, 0 + k⟩ := by
    cases hMarks with
    | token hScan hMem hPos => exact hPos ▸ (Scanner.tiles_of_tokens hScan).pos_of_mem hMem
    | error hScan hPos => exact hPos ▸ Scanner.pos_of_tokens_error hScan
  obtain ⟨k, hLe, rfl⟩ := hPlace
  exact ⟨rfl, rfl, (Nat.zero_add k).symm ▸ hLe⟩

end Token

/-! ## Positions of a state -/

/-- Positions with a property, each of which corresponds to itself only. -/
def Confined (G : Position → Prop) (p q : Position) : Prop :=
  p = q ∧ G p

variable {G : Position → Prop} {e : Memory.Endian}

theorem Error.Alike.confined {error error' : Error} {p : Position}
    (hAlike : Error.Alike (Confined G) error error') (hPos : error.pos? = some p) : G p := by
  cases hAlike with
  | lexical hAlike =>
    cases hPos
    exact hAlike.pos.2
  | located hAlike cause =>
    cases hPos
    exact hAlike.2
  | same hNone => cases hNone.symm.trans hPos

theorem forall_of_forall₂ {α β : Type} {R : α → β → Prop} {holds : α → Prop} {xs : List α}
    {ys : List β} (hRel : List.Forall₂ R xs ys) (hHolds : ∀ x y, R x y → holds x) :
    ∀ x ∈ xs, holds x :=
  ((List.forall₂_and_left xs ys).mp (hRel.imp fun x y h => ⟨hHolds x y h, h⟩)).1

theorem tokens_alike_self {ts : List Token} (hTokens : ∀ t ∈ ts, G t.pos) :
    List.Forall₂ (Token.Alike (Confined G)) ts ts :=
  List.forall₂_same.mpr fun t hMem => ⟨rfl, rfl, rfl, hTokens t hMem⟩

theorem items_alike_self {items : List Item} (hItems : ∀ item ∈ items, G item.pos) :
    List.Forall₂ (Item.Alike (Confined G)) items items :=
  List.forall₂_same.mpr fun item hMem => ⟨rfl, ⟨rfl, hItems item hMem⟩, rfl⟩

namespace Assembly

/-- All positions that a state keeps have a property. -/
abbrev Within (G : Position → Prop) (a : Assembly) : Prop :=
  a.Content 0 (fun t => G t.pos) (fun label => G label.pos) fun item => G item.pos

variable {a b : Assembly}

theorem Content.alike (hWithin : a.Within G) :
    a.Alike (Confined G) (.ofOrders a.memory.endian a.memory.endian) a := by
  have hLabels : List.Forall₂ (Label.Alike (Confined G)) a.labels.labels a.labels.labels :=
    List.forall₂_same.mpr fun label hMem => ⟨rfl, ⟨rfl, hWithin.labels label hMem⟩, rfl⟩
  exact ⟨rfl, rfl, rfl, tokens_alike_self hWithin.pending, ⟨_, _, rfl, rfl, hLabels⟩, .refl _,
    ⟨_, _, rfl, rfl, items_alike_self hWithin.staged⟩⟩

theorem Alike.within (hState : a.Alike (Confined G) (.ofOrders e e) b) : a.Within G :=
  ⟨forall_of_forall₂ hState.pending fun _ _ hToken => hToken.pos.2,
    forall_of_forall₂ hState.labels.forall₂ fun _ _ hLabel => hLabel.pos.2,
    forall_of_forall₂ hState.staged.forall₂ fun _ _ hItem => hItem.pos.2⟩

end Assembly

/-! ## Lines and sources -/

namespace Assemble

variable {source index : Nat} {raw : List Token.RawLine} {o : Origin}

theorem scanLine_agree {cs : List Char}
    (hMarks : ∀ p, Token.Marks streamOptions source index cs p → G p) :
    Agree (Error.Alike (Confined G)) (List.Forall₂ (Token.Alike (Confined G)))
      ((Token.scanLine streamOptions source index cs).mapError Error.lexical)
      ((Token.scanLine streamOptions source index cs).mapError Error.lexical) := by
  cases hScan : Token.scanLine streamOptions source index cs with
  | ok ts => exact .ok (tokens_alike_self fun t hMem => hMarks _ (.token hScan hMem rfl))
  | error e => exact .error (.lexical ⟨rfl, rfl, hMarks _ (.error hScan rfl)⟩)

/-- Lines give a run no positions but those that they are marked with. -/
theorem lines_confined (raw : List Token.RawLine) (index : Nat)
    (hMarks : ∀ k cs p, raw[k]? = some (.text cs) →
      Token.Marks streamOptions source (index + k) cs p → G p) :
    Keeps (Confined G) o Eq (lines source index raw) (lines source index raw) := by
  induction raw generalizing index with
  | nil => exact define_keeps .nil
  | cons first rest ih =>
    cases first with
    | undecodable => exact .throw (.same rfl)
    | text cs =>
      refine (liftExcept_keeps (scanLine_agree fun p => hMarks 0 cs p rfl)).bind ?_
      intro ts us hTokens
      refine (line_keeps hTokens).bind fun _ _ _ => ih (index + 1) ?_
      intro k ds p hLine hMark
      rw [Nat.add_assoc, Nat.add_comm 1] at hMark
      exact hMarks (k + 1) ds p hLine hMark

end Assemble

namespace Assembly

variable {source : Nat} {raw : List Token.RawLine} {a : Assembly}

/-- What a source leaves behind has positions of earlier sources or of its own lines. -/
theorem Content.parse (hWithin : a.Within G)
    (hMarks : ∀ k cs p, raw[k]? = some (.text cs) →
      Token.Marks Assemble.streamOptions source (0 + k) cs p → G p) :
    (∀ error p, (a.parse source raw).1 = .error error → error.pos? = some p → G p) ∧
      (∀ items, (a.parse source raw).1 = .ok items → ∀ item ∈ items.toList, G item.pos) ∧
      (a.parse source raw).2.Within G := by
  have hLines : AgreeAt _ _ _ (Assemble.lines source 0 raw { a with staged := #[] })
      (Assemble.lines source 0 raw { a with staged := #[] }) :=
    Assemble.lines_confined raw 0 hMarks _ _ hWithin.alike.cleared
  obtain ⟨hOutcome, hState⟩ := concluded_alike hLines
  rw [← parse_eq] at hOutcome hState
  refine ⟨?_, ?_, hState.within⟩
  · intro error p hError hPos
    obtain ⟨_, _, hAlike⟩ := hOutcome.exists_of_error hError
    exact hAlike.confined hPos
  · intro items hItems
    obtain ⟨_, _, hAlike⟩ := hOutcome.exists_of_ok hItems
    exact forall_of_forall₂ hAlike fun _ _ hItem => hItem.pos.2

end Assembly

end MipsAsm
