import MipsAsm.Isa.Mnemonic
import MipsAsm.Isa.Register
import MipsAsm.Text.Quoted
import MipsAsm.Token.Grammar

/-! # Scanning a line

A scanner stands at a column of a line and gives one token at a time. Main statements: a token
always costs at least one character (`length_next_rest_lt`), and no call leaves the line or goes
back in it (`next_split`).
-/

namespace MipsAsm.Token

open Automaton

inductive LexicalCause where
  /-- No token goes on with this character; inside a token, its state is named. -/
  | unexpectedChar (c : Char) (within : Option String)
  | unexpectedEnd (within : String)
  | dottedLabel (text : String)
  deriving DecidableEq, Repr

def LexicalCause.message : LexicalCause → String
  | unexpectedChar c none => "unexpected character " ++ Text.quoted c
  | unexpectedChar c (some within) => "unexpected character " ++ Text.quoted c ++ " in " ++ within
  | unexpectedEnd within => "unexpected end of line in " ++ within
  | dottedLabel text => "label `" ++ text ++ "` cannot start with '.'"

structure LexicalError where
  pos : Position
  cause : LexicalCause
  deriving DecidableEq, Repr

/-- An identifier that names a register or an operation is one. -/
def classify (text : String) : Kind :=
  if (Isa.Register.ofName? text).isSome then .register
  else if (Isa.Mnemonic.ofName? text).isSome then .mnemonic
  else .identifier

structure Scanner where
  options : Options
  source : Nat
  line : Nat
  col : Nat
  rest : List Char
  deriving DecidableEq, Repr

namespace Scanner

def ofLine (options : Options) (source line : Nat) (cs : List Char) : Scanner :=
  ⟨options, source, line, 0, cs⟩

/-- Blames a column at or after the scanner's own. -/
def reject (s : Scanner) (state : State) (col : Nat) : LexicalError :=
  let cause := match s.rest[col - s.col]?, state with
    | some c, .start => .unexpectedChar c none
    | some c, _ => .unexpectedChar c (some state.name)
    | none, _ => .unexpectedEnd state.name
  ⟨⟨s.source, s.line, col⟩, cause⟩

def run (s : Scanner) : Stop State Draft :=
  (machine s.options).run Draft.react s.col (.fresh s.source s.line) s.rest

/-- The token that an accepted draft stands for; a comment begins none. -/
def accept (draft : Draft) : Except LexicalError (Option Token) :=
  match draft.build? with
  | none => .ok none
  | some token =>
    match token.kind with
    | .identifier => .ok (some { token with kind := classify token.text })
    | .label =>
      if token.text.toList.head? == some '.' then .error ⟨token.pos, .dottedLabel token.text⟩
      else .ok (some token)
    | _ => .ok (some token)

def conclude (s : Scanner) (stop : Stop State Draft) : Except LexicalError (Option Token) :=
  if stop.state.accepting s.options then accept stop.result
  else if stop.state == .start && stop.rest.isEmpty then .ok none
  else .error (s.reject stop.state (stop.result.marked.getD stop.col))

/-- The next token, or `none` once the rest of the line holds no more. After an error the scanner
stands where the automaton stopped. -/
def next (s : Scanner) : Except LexicalError (Option Token) × Scanner :=
  if s.rest.isEmpty then (.ok none, s)
  else
    let stop := s.run
    (s.conclude stop, { s with col := stop.col, rest := stop.rest })

theorem next_split (s : Scanner) : ∃ read, s.rest = read ++ s.next.2.rest ∧
    s.next.2.col = s.col + read.length := by
  rw [next]
  split
  · exact ⟨[], rfl, rfl⟩
  · exact (machine s.options).runFrom_split Draft.react s.rest .start s.col _

theorem run_of_length_eq (s : Scanner) (hLength : s.run.rest.length = s.rest.length) :
    s.run = ⟨.start, s.col, s.rest, .fresh s.source s.line⟩ :=
  (machine s.options).runFrom_of_length_eq Draft.react .start s.col _ s.rest hLength

/-- A scanner that did not move has found no token. -/
theorem conclude_start_ne (s : Scanner) (token : Token) :
    s.conclude ⟨.start, s.col, s.rest, .fresh s.source s.line⟩ ≠ .ok (some token) := by
  simp only [conclude, State.accepting, Bool.false_eq_true, if_false]
  split <;> simp

theorem length_next_rest_lt (s : Scanner) (token : Token) (hToken : s.next.1 = .ok (some token)) :
    s.next.2.rest.length < s.rest.length := by
  rw [next] at hToken ⊢
  split
  · simp_all
  · rename_i hRest
    rw [if_neg hRest] at hToken
    refine Nat.lt_of_le_of_ne ((machine s.options).length_run_rest_le _ _ _ _) ?_
    intro hLength
    rw [s.run_of_length_eq hLength] at hToken
    exact s.conclude_start_ne token hToken

/-- All tokens up to the end of the line. -/
def tokens (s : Scanner) : Except LexicalError (List Token) :=
  match _h : s.next.1 with
  | .error e => .error e
  | .ok none => .ok []
  | .ok (some token) =>
    match tokens s.next.2 with
    | .error e => .error e
    | .ok rest => .ok (token :: rest)
termination_by s.rest.length
decreasing_by exact s.length_next_rest_lt token _h

end Scanner

def scanLine (options : Options) (source line : Nat) (cs : List Char) :
    Except LexicalError (List Token) :=
  (Scanner.ofLine options source line cs).tokens

end MipsAsm.Token
