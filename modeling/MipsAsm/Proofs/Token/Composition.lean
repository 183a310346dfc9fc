import MipsAsm.Proofs.Token.Alike
import MipsAsm.Proofs.Token.Continuation

/-! # Lines put together

A blank between two lines keeps them apart. Whatever token the first line ends with, a blank ends
it just as the end of the line does, so that the tokens of the first line stay and the second line
is scanned as if it stood alone, with its columns counted from further left.
-/

namespace MipsAsm

def Position.shifted (n : Nat) (p : Position) : Position :=
  { p with col := p.col + n }

namespace Token

open Automaton

def shifted (n : Nat) (t : Token) : Token :=
  { t with pos := t.pos.shifted n }

def LexicalError.shifted (n : Nat) (e : LexicalError) : LexicalError :=
  { e with pos := e.pos.shifted n }

/-- What a scan gives, at columns further to the right. -/
def shiftedScan (n : Nat) : Except LexicalError (List Token) → Except LexicalError (List Token)
  | .ok ts => .ok (ts.map (shifted n))
  | .error e => .error (e.shifted n)

theorem Alike.eq_shifted {r : Relocation} {t u : Token} (hSource : r.source' = r.source)
    (hLine : r.line' = r.line) (hAlike : Alike r.Maps t u) : u = t.shifted r.shift := by
  obtain ⟨kind, text, pos⟩ := u
  obtain ⟨rfl, rfl, hPos, rfl⟩ := hAlike
  rw [shifted, hSource, hLine, hPos]
  rfl

theorem eq_map_shifted {r : Relocation} {ts us : List Token} (hSource : r.source' = r.source)
    (hLine : r.line' = r.line) (hAlike : List.Forall₂ (Alike r.Maps) ts us) :
    us = ts.map (shifted r.shift) := by
  induction hAlike with
  | nil => rfl
  | cons hHead _ ih => rw [hHead.eq_shifted hSource hLine, ih, List.map_cons]

theorem LexicalError.Alike.eq_shifted {r : Relocation} {e f : LexicalError}
    (hSource : r.source' = r.source) (hLine : r.line' = r.line) (hAlike : e.Alike r.Maps f) :
    f = e.shifted r.shift := by
  obtain ⟨pos, cause⟩ := f
  obtain ⟨rfl, hPos, rfl⟩ := hAlike
  rw [shifted, hSource, hLine, hPos]
  rfl

/-! ## Without comments -/

/-- The options under which `#` begins nothing. -/
def Options.commentless (options : Options) : Options :=
  { options with comments := false }

variable {options : Options} {state : State}

theorem accepting_commentless (options : Options) (state : State) :
    state.accepting options.commentless = state.accepting options := by
  cases state <;> rfl

theorem edges_commentless (options : Options) (hState : state ≠ .start) :
    edges options.commentless state = edges options state := by
  cases state with
  | start => exact absurd rfl hState
  | _ => rfl

/-- Comments add an edge, behind all that are there without them. -/
theorem edge?_of_commentless {c : Char} {e : Edge State Kind}
    (hEdge : (machine options.commentless).edge? state c = some e) :
    (machine options).edge? state c = some e := by
  by_cases hState : state = .start
  · subst hState
    have hEdges : edges options .start =
        edges options.commentless .start ++ commentEdges options := by
      simp [edges, commentEdges, Options.commentless]
    change (edges options .start).find? _ = some e
    rw [hEdges, List.find?_append]
    change ((machine options.commentless).edge? .start c).or _ = some e
    rw [hEdge]
    rfl
  · rw [Machine.edge?] at hEdge ⊢
    change (edges options.commentless state).find? _ = some e at hEdge
    rw [edges_commentless options hState] at hEdge
    exact hEdge

theorem walk_of_commentless {cs : List Char} :
    ∀ {state : State} {col : Nat} {d : Draft} {result : State × Draft},
      (machine options.commentless).walk Draft.react state col d cs = some result →
        (machine options).walk Draft.react state col d cs = some result := by
  induction cs with
  | nil =>
    intro state col d result hWalk
    exact hWalk
  | cons c cs ih =>
    intro state col d result hWalk
    rw [Machine.walk, Option.bind_eq_some_iff] at hWalk
    obtain ⟨e, hEdge, hRest⟩ := hWalk
    rw [Machine.walk, edge?_of_commentless hEdge]
    exact ih hRest

theorem stuck_of_commentless {cs : List Char} (hState : state ≠ .start)
    (hStuck : (machine options.commentless).Stuck state cs) : (machine options).Stuck state cs := by
  intro c hHead
  have hNone := hStuck c hHead
  change (edges options.commentless state).find? _ = none at hNone
  rw [edges_commentless options hState] at hNone
  exact hNone

/-! ## Scanners -/

namespace Scanner

def commentless (s : Scanner) : Scanner :=
  { s with options := s.options.commentless }

variable {s : Scanner} {ts : List Token} {tail : List Char}

/-- A token that the scanner reads without comments is read also with them, and ends in front of
the added text. -/
theorem Walks.extended_of_commentless {read rest : List Char} {d : Draft}
    (hWalks : s.commentless.Walks read rest state d)
    (hAccepting : state.accepting s.options = true) (hState : state ≠ .comment)
    (hDelimiter : ∀ c ∈ tail.head?, isDelimiter c = true) :
    (s.extended tail).Walks read (rest ++ tail) state d := by
  refine ⟨?_, walk_of_commentless hWalks.walk, ?_⟩
  · change s.rest ++ tail = _
    rw [show s.rest = read ++ rest from hWalks.split, List.append_assoc]
  · cases rest with
    | nil => exact stuck_of_delimiter hAccepting hState hDelimiter
    | cons c rest =>
      have hStart : state ≠ .start := by
        rintro rfl
        cases hAccepting
      have hStuck : (machine s.options).Stuck state (c :: (rest ++ tail)) :=
        stuck_of_commentless hStart hWalks.stuck
      exact hStuck

/-- Text added behind a line without a comment is scanned as it would be alone, at its columns. -/
theorem tokens_extended_eq (hTokens : s.commentless.tokens = .ok ts)
    (hDelimiter : ∀ c ∈ tail.head?, isDelimiter c = true) :
    (s.extended tail).tokens = (s.behind tail).tokens.map (ts ++ ·) := by
  induction hLength : s.rest.length using Nat.strong_induction_on generalizing s ts with
  | _ length ih =>
    subst hLength
    obtain ⟨read, rest, state, d, hWalks⟩ := s.commentless.exists_walks
    have hSplit : s.rest = read ++ rest := hWalks.split
    obtain ⟨blanks, spelling, text, hBlank, _, hFrames, hDrafted, hComment⟩ :=
      reading_of_walk hWalks.walk
    have hState : state ≠ .comment := by
      intro hComment'
      cases hComment hComment'
    rcases hWalks.next_cases with ⟨hAccepting, hNext⟩ | ⟨rfl, rfl, hNext⟩ | ⟨_, _, hNext⟩
    · obtain ⟨first, hFirst⟩ := exists_next_of_tokens hTokens
      have hAccept := hNext.symm.trans hFirst
      cases first with
      | none =>
        exact absurd (eq_comment_of_accepting hAccepting (hDrafted.kind?_of_accept hAccept)) hState
      | some t =>
        change state.accepting s.options.commentless = true at hAccepting
        rw [accepting_commentless] at hAccepting
        have hExtended := hWalks.extended_of_commentless hAccepting hState hDelimiter
        rw [tokens_of_some hFirst] at hTokens
        obtain ⟨ts', hRest, rfl⟩ := Outcome.map_eq_ok.mp hTokens
        have hShorter := s.commentless.length_next_rest_lt t hFirst
        rw [hWalks.next_eq] at hRest hShorter
        have hLater := ih rest.length hShorter
          (s := { s with col := s.col + (blanks ++ spelling).length, rest := rest }) hRest rfl
        rw [behind_of_split hSplit] at hLater
        have hSame : (s.extended tail).next.2 =
            Scanner.extended { s with col := s.col + (blanks ++ spelling).length, rest := rest }
              tail := by
          rw [hExtended.next_eq]
          rfl
        rw [tokens_of_some ((hExtended.next_of_accepting hAccepting).trans hAccept), hSame, hLater]
        cases (s.behind tail).tokens <;> rfl
    · -- nothing but blanks was left
      obtain ⟨rfl, _⟩ := hFrames
      cases (tokens_of_none hNext).symm.trans hTokens
      rw [extended, behind, hSplit, List.append_nil, List.append_nil, tokens_append_blanks hBlank]
      cases tokens { s with col := s.col + blanks.length, rest := tail } <;> rfl
    · cases (tokens_of_error hNext).symm.trans hTokens

/-- Where a line starts does not matter but for the columns. -/
theorem tokens_at_column (options : Options) (source line n : Nat) (cs : List Char) :
    tokens ⟨options, source, line, n, cs⟩ = shiftedScan n (scanLine options source line cs) := by
  have hAlike : Scanner.Alike ⟨source, line, source, line, n⟩ (.ofLine options source line cs)
      ⟨options, source, line, n, cs⟩ := by
    refine ⟨rfl, rfl, ?_⟩
    simp [ofLine]
  cases hScan : scanLine options source line cs with
  | error e =>
    obtain ⟨f, hTokens, hError⟩ := hAlike.tokens.exists_of_error hScan
    rw [hTokens, hError.eq_shifted rfl rfl]
    rfl
  | ok ts =>
    obtain ⟨us, hTokens, hSame⟩ := hAlike.tokens.exists_of_ok hScan
    rw [hTokens, eq_map_shifted rfl rfl hSame]
    rfl

end Scanner

/-- **Scanning is compositional at blanks.** A line that scans without regard to comments keeps its
tokens when a blank and a second line follow, and the second line gives its own tokens or its own
error, moved to the right by the first line and the blank. -/
theorem scanLine_append_blank {source line : Nat} {front : List Char} {ts : List Token}
    {blank : Char} (hFront : scanLine options.commentless source line front = .ok ts)
    (hBlank : Text.isBlank blank = true) (back : List Char) :
    scanLine options source line (front ++ blank :: back) =
      match scanLine options source line back with
      | .ok us => .ok (ts ++ us.map (shifted (front.length + 1)))
      | .error e => .error (e.shifted (front.length + 1)) := by
  have hDelimiter : ∀ c ∈ (blank :: back).head?, isDelimiter c = true := by
    rintro c ⟨⟩
    simp [isDelimiter, hBlank]
  have hTokens : scanLine options source line (front ++ blank :: back) =
      (Scanner.tokens ⟨options, source, line, 0 + front.length, blank :: back⟩).map (ts ++ ·) :=
    Scanner.tokens_extended_eq (s := .ofLine options source line front) hFront hDelimiter
  rw [hTokens, Nat.zero_add, Scanner.tokens_cons_blank hBlank, Scanner.tokens_at_column]
  cases scanLine options source line back <;> rfl

/-- The first line holds a number sign in a string, and a wide blank stands between the lines. -/
theorem scanLine_append_blank_wide :
    scanLine ⟨false, false⟩ 3 7 "s: .ascii \"a # b\"".toList =
        .ok [⟨.label, "s:", ⟨3, 7, 0⟩⟩, ⟨.directive, ".ascii", ⟨3, 7, 3⟩⟩,
          ⟨.stringLiteral, "a # b", ⟨3, 7, 10⟩⟩] ∧
      Text.isBlank '\u3000' = true ∧
      scanLine ⟨false, true⟩ 3 7 "s: .ascii \"a # b\"\u3000(-1 # )".toList =
        .ok [⟨.label, "s:", ⟨3, 7, 0⟩⟩, ⟨.directive, ".ascii", ⟨3, 7, 3⟩⟩,
          ⟨.stringLiteral, "a # b", ⟨3, 7, 10⟩⟩, ⟨.separator, "(", ⟨3, 7, 18⟩⟩,
          ⟨.integerConstant, "-1", ⟨3, 7, 19⟩⟩] ∧
      scanLine ⟨false, true⟩ 3 7 "s: .ascii \"a # b\"\u3000, 0x1G2".toList =
        .error ⟨⟨3, 7, 23⟩, .unexpectedChar 'G' (some "malformed integer constant")⟩ := by
  have hFront : scanLine (Options.commentless ⟨false, true⟩) 3 7 "s: .ascii \"a # b\"".toList =
      .ok [⟨.label, "s:", ⟨3, 7, 0⟩⟩, ⟨.directive, ".ascii", ⟨3, 7, 3⟩⟩,
        ⟨.stringLiteral, "a # b", ⟨3, 7, 10⟩⟩] := by
    decide +kernel
  have hBlank : Text.isBlank '\u3000' = true := by decide
  have hBack : scanLine ⟨false, true⟩ 3 7 "(-1 # )".toList =
      .ok [⟨.separator, "(", ⟨3, 7, 0⟩⟩, ⟨.integerConstant, "-1", ⟨3, 7, 1⟩⟩] := by
    decide +kernel
  have hSpoiled : scanLine ⟨false, true⟩ 3 7 ", 0x1G2".toList =
      .error ⟨⟨3, 7, 5⟩, .unexpectedChar 'G' (some "malformed integer constant")⟩ := by
    decide +kernel
  have hJoined := scanLine_append_blank hFront hBlank "(-1 # )".toList
  have hFailed := scanLine_append_blank hFront hBlank ", 0x1G2".toList
  rw [hBack] at hJoined
  rw [hSpoiled] at hFailed
  exact ⟨hFront, hBlank, hJoined, hFailed⟩

end Token

end MipsAsm
