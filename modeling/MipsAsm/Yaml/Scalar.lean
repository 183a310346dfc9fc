import MipsAsm.Text.Numeral

/-! # Scalars of YAML

The readers of plain, quoted and block scalars. Line breaks are single characters here: the ways
to write a newline are made one before reading. A single break between two words of a flow scalar
becomes a space, and of several breaks the first is dropped.
-/

namespace MipsAsm.Yaml

inductive Style where
  | plain
  | quoted
  | literal
  | folded
  deriving DecidableEq, Repr

def isBreak (c : Char) : Bool :=
  c == '\n' || c == '\u2028' || c == '\u2029'

def isBlank (c : Char) : Bool :=
  c == ' ' || c == '\t'

/-- A place in the text, with the number of octets of UTF-8 in front of it. -/
structure Mark where
  line : Nat
  col : Nat
  index : Nat
  deriving DecidableEq, Repr

def Mark.past (m : Mark) (c : Char) : Mark :=
  if isBreak c then ⟨m.line + 1, 0, m.index + c.utf8Size⟩
  else ⟨m.line, m.col + 1, m.index + c.utf8Size⟩

def Mark.pastAll (m : Mark) (cs : List Char) : Mark :=
  cs.foldl Mark.past m

/-- Whether a word ends in front of `cs`. -/
def endsWord : List Char → Bool
  | [] => true
  | c :: _ => isBlank c || isBreak c

/-- Whether a document starts or ends here. -/
def atDocumentMark (m : Mark) : List Char → Bool
  | '-' :: '-' :: '-' :: rest => m.col == 0 && endsWord rest
  | '.' :: '.' :: '.' :: rest => m.col == 0 && endsWord rest
  | _ => false

/-! ## Folding -/

/-- The blanks between two words. -/
inductive Gap where
  | blanks (cs : List Char)
  /-- A line break and the breaks behind it. -/
  | broken (first : Char) (more : List Char)
  /-- A line break that was escaped and the breaks behind it. -/
  | escaped (more : List Char)
  deriving DecidableEq, Repr

namespace Gap

def none : Gap := .blanks []

def isBroken : Gap → Bool
  | .blanks _ => false
  | _ => true

def isNone : Gap → Bool
  | .blanks cs => cs.isEmpty
  | _ => false

/-- What stands for the gap in the scalar. -/
def folded : Gap → List Char
  | .blanks cs => cs
  | .broken '\n' [] => [' ']
  | .broken '\n' more => more
  | .broken first more => first :: more
  | .escaped more => more

def addBlank (c : Char) : Gap → Gap
  | .blanks cs => .blanks (cs ++ [c])
  | gap => gap

def addBreak (c : Char) : Gap → Gap
  | .blanks _ => .broken c []
  | .broken first more => .broken first (more ++ [c])
  | .escaped more => .escaped (more ++ [c])

end Gap

/-- The words read so far, in reverse, and the gap behind them. -/
structure Folding where
  reversed : List Char
  gap : Gap
  deriving DecidableEq, Repr

namespace Folding

def empty : Folding :=
  ⟨[], .none⟩

def flush (f : Folding) : Folding :=
  ⟨f.gap.folded.reverse ++ f.reversed, .none⟩

def push (f : Folding) (c : Char) : Folding :=
  ⟨c :: f.flush.reversed, .none⟩

def blank (f : Folding) (c : Char) : Folding :=
  { f with gap := f.gap.addBlank c }

def lineBreak (f : Folding) (c : Char) : Folding :=
  { f with gap := f.gap.addBreak c }

def escapedBreak (f : Folding) : Folding :=
  { f.flush with gap := .escaped [] }

def text (f : Folding) : String :=
  String.ofList f.reversed.reverse

end Folding

/-- A scalar and the place behind it. -/
structure Read where
  text : String
  mark : Mark
  rest : List Char
  /-- Whether the reader went on to another line. -/
  broken : Bool
  deriving DecidableEq, Repr

/-! ## Plain scalars -/

def isFlowIndicator (c : Char) : Bool :=
  c == ',' || c == '[' || c == ']' || c == '\x7b' || c == '\x7d'

/-- Whether the word at the head of the list is no longer part of the scalar. -/
def plainStops (inFlow : Bool) (indent : Int) (f : Folding) (m : Mark) (cs : List Char) : Bool :=
  (!f.gap.isNone && !inFlow && m.col < indent) || atDocumentMark m cs || cs.head? == some '#'

/-- `fresh` tells that no word is being read. -/
def plainFrom (inFlow : Bool) (indent : Int) (fresh : Bool) (f : Folding) (m : Mark) :
    List Char → Option Read
  | [] => some ⟨f.text, m, [], f.gap.isBroken⟩
  | c :: cs =>
    let stop := some ⟨f.text, m, c :: cs, f.gap.isBroken⟩
    if isBlank c then
      if f.gap.isBroken && c == '\t' && m.col < indent then none
      else plainFrom inFlow indent true (f.blank c) (m.past c) cs
    else if isBreak c then plainFrom inFlow indent true (f.lineBreak c) (m.past c) cs
    else if fresh && plainStops inFlow indent f m (c :: cs) then stop
    else if inFlow && c == ':' && cs.head?.any (fun d => isFlowIndicator d || d == '?') then none
    else if (c == ':' && endsWord cs) || (inFlow && isFlowIndicator c) then stop
    else plainFrom inFlow indent false (f.push c) (m.past c) cs

/-! ## Quoted scalars -/

inductive Quote where
  | single
  | double
  deriving DecidableEq, Repr

def escapedChar? : Char → Option Char
  | '0' => some '\x00'
  | 'a' => some '\x07'
  | 'b' => some '\x08'
  | 't' => some '\t'
  | '\t' => some '\t'
  | 'n' => some '\n'
  | 'v' => some '\x0b'
  | 'f' => some '\x0c'
  | 'r' => some '\r'
  | 'e' => some '\x1b'
  | ' ' => some ' '
  | '"' => some '"'
  | '/' => some '/'
  | '\\' => some '\\'
  | 'N' => some '\u0085'
  | '_' => some '\u00a0'
  | 'L' => some '\u2028'
  | 'P' => some '\u2029'
  | _ => none

/-- How many hexadecimal digits an escape takes. -/
def escapeDigits? : Char → Option Nat
  | 'x' => some 2
  | 'u' => some 4
  | 'U' => some 8
  | _ => none

def scalarValue? (n : Nat) : Option Char :=
  if n.isValidChar then some (Char.ofNat n) else none

/-- `pending` holds the digits still to come of an escape and its value so far. -/
def quotedFrom (quote : Quote) (pending : Option (Nat × Nat)) (f : Folding) (m : Mark) :
    List Char → Option Read
  | [] => none
  | c :: cs =>
    match pending with
    | some (left, value) =>
      match Text.digit? 16 c with
      | none => none
      | some d =>
        if left ≤ 1 then
          match scalarValue? (value * 16 + d) with
          | none => none
          | some v => quotedFrom quote none (f.push v) (m.past c) cs
        else quotedFrom quote (some (left - 1, value * 16 + d)) f (m.past c) cs
    | none =>
      if atDocumentMark m (c :: cs) then none
      else if isBlank c then quotedFrom quote none (f.blank c) (m.past c) cs
      else if isBreak c then quotedFrom quote none (f.lineBreak c) (m.past c) cs
      else
        match quote with
        | .single =>
          if c == '\'' then
            match cs with
            | '\'' :: cs => quotedFrom quote none (f.push '\'') ((m.past c).past c) cs
            | _ => some ⟨f.flush.text, m.past c, cs, false⟩
          else quotedFrom quote none (f.push c) (m.past c) cs
        | .double =>
          if c == '"' then some ⟨f.flush.text, m.past c, cs, false⟩
          else if c == '\\' then
            match cs with
            | [] => none
            | e :: cs =>
              let m := (m.past c).past e
              if isBreak e then quotedFrom quote none f.escapedBreak m cs
              else
                match escapeDigits? e, escapedChar? e with
                | some n, _ => quotedFrom quote (some (n, 0)) f m cs
                | none, some v => quotedFrom quote none (f.push v) m cs
                | none, none => none
          else quotedFrom quote none (f.push c) (m.past c) cs

/-! ## Block scalars -/

/-- What happens to the line breaks at the end. -/
inductive Chomping where
  | strip
  | clip
  | keep
  deriving DecidableEq, Repr

def chomping? : Char → Option Chomping
  | '-' => some .strip
  | '+' => some .keep
  | _ => none

def increment? (c : Char) : Option Nat :=
  (Text.digit? 10 c).filter (0 < ·)

/-- Chomping and indentation in either order, and the characters behind them. -/
def blockHeader (cs : List Char) : Chomping × Nat × List Char :=
  match cs with
  | a :: b :: rest =>
    match chomping? a, increment? b, increment? a, chomping? b with
    | some chomping, some n, _, _ => (chomping, n, rest)
    | _, _, some n, some chomping => (chomping, n, rest)
    | some chomping, none, _, _ => (chomping, 0, b :: rest)
    | _, _, some n, none => (.clip, n, b :: rest)
    | _, _, _, _ => (.clip, 0, cs)
  | [a] =>
    match chomping? a, increment? a with
    | some chomping, _ => (chomping, 0, [])
    | none, some n => (.clip, n, [])
    | none, none => (.clip, 0, cs)
  | [] => (.clip, 0, [])

/-- Empty lines in front of content, with the deepest indentation met. -/
structure EmptyLines where
  depth : Nat
  breaks : List Char
  mark : Mark
  rest : List Char
  deriving DecidableEq, Repr

/-- Skips indentation up to `indent`, or any if that is still 0. -/
def emptyLines (indent depth : Nat) (breaks : List Char) (m : Mark) : List Char → Option EmptyLines
  | [] => some ⟨max depth m.col, breaks, m, []⟩
  | c :: cs =>
    let inIndent := indent == 0 || m.col < indent
    if inIndent && c == ' ' then emptyLines indent depth breaks (m.past c) cs
    else if inIndent && c == '\t' then none
    else if isBreak c then emptyLines indent (max depth m.col) (breaks ++ [c]) (m.past c) cs
    else some ⟨max depth m.col, breaks, m, c :: cs⟩

structure BlockText where
  reversed : List Char
  leading : List Char
  trailing : List Char
  /-- Whether the last line starts with a blank. -/
  indented : Bool
  mark : Mark
  rest : List Char
  deriving DecidableEq, Repr

/-- Appends lines as long as they are indented; `fuel` bounds their number. -/
def blockLines (style : Style) (indent : Nat) : Nat → BlockText → Option BlockText
  | 0, t => some t
  | fuel + 1, t =>
    if t.mark.col != indent || t.rest.isEmpty then some t
    else
      let blankAhead := t.rest.head?.any isBlank
      let joins := style == .folded && t.leading == ['\n'] && !t.indented && !blankAhead
      let gap := if joins then (if t.trailing.isEmpty then [' '] else []) else t.leading
      let line := t.rest.takeWhile fun c => !isBreak c
      let ahead := t.rest.dropWhile fun c => !isBreak c
      let leading := ahead.take 1
      match emptyLines indent 0 [] (t.mark.pastAll (line ++ leading)) (ahead.drop 1) with
      | none => none
      | some e =>
        blockLines style indent fuel
          ⟨(gap ++ t.trailing ++ line).reverse ++ t.reversed, leading, e.breaks, blankAhead,
            e.mark, e.rest⟩

def chomp (chomping : Chomping) (t : BlockText) : List Char :=
  match chomping with
  | .strip => []
  | .clip => t.leading
  | .keep => t.leading ++ t.trailing

/-- Reads behind the indicator of a block scalar inside a block indented by `parent`. -/
def blockScalar (style : Style) (parent : Int) (m : Mark) (cs : List Char) : Option Read :=
  let (chomping, increment, rest) := blockHeader cs
  let afterBlanks := rest.dropWhile isBlank
  let comment := if afterBlanks.head? == some '#' then afterBlanks.takeWhile (fun c => !isBreak c)
    else []
  let ahead := afterBlanks.drop comment.length
  if !(ahead.isEmpty || ahead.head?.any isBreak) then none
  else
    let m := m.pastAll (cs.take (cs.length - ahead.length) ++ ahead.take 1)
    let given := if increment = 0 then 0 else (max parent 0).toNat + increment
    match emptyLines given 0 [] m (ahead.drop 1) with
    | none => none
    | some e =>
      let indent := if given = 0 then max e.depth (max (parent + 1) 1).toNat else given
      match blockLines style indent (e.rest.length + 1) ⟨[], [], e.breaks, false, e.mark, e.rest⟩ with
      | none => none
      | some t =>
        some ⟨String.ofList (t.reversed.reverse ++ chomp chomping t), t.mark, t.rest, true⟩

end MipsAsm.Yaml
