import MipsAsm.Yaml.Tag

/-! # Tokens of YAML

Indentation and simple keys are made explicit: a block collection has tokens at its start and end,
and a key that is recognised only by the colon behind it gets its token put in front.
-/

namespace MipsAsm.Yaml

inductive Token where
  | version (major minor : Nat)
  | tagHandle (handle : String) (start : List UInt8)
  | documentStart
  | documentEnd
  | streamEnd
  | blockSequence
  | blockMapping
  | blockEnd
  | flowSequence
  | flowSequenceEnd
  | flowMapping
  | flowMappingEnd
  | flowEntry
  | blockEntry
  | key
  | value
  | alias (name : String)
  | anchor (name : String)
  | tag (handle : String) (suffix : List UInt8)
  | scalar (style : Style) (text : String)
  deriving DecidableEq, Repr

/-- A place where a key may turn out to begin. -/
structure SimpleKey where
  position : Nat
  /-- Without a colon the text would be no YAML. -/
  required : Bool
  mark : Mark
  deriving DecidableEq, Repr

structure Scanner where
  rest : List Char
  mark : Mark
  tokens : Array Token
  /-- The possible key of each flow level, the innermost first, and of the block around them. -/
  simpleKey : Option SimpleKey
  outerKeys : List (Option SimpleKey)
  indent : Int
  outerIndents : List Int
  keyAllowed : Bool

abbrev Scan : Type → Type :=
  StateT Scanner Option

namespace Scan

def ofOption {α : Type} : Option α → Scan α
  | some a => pure a
  | none => failure

def require (b : Bool) : Scan Unit :=
  if b then pure () else failure

def inFlow : Scan Bool :=
  return !(← get).outerKeys.isEmpty

def skip (n : Nat) : Scan Unit :=
  modify fun s => { s with rest := s.rest.drop n, mark := s.mark.pastAll (s.rest.take n) }

def emit (t : Token) : Scan Unit :=
  modify fun s => { s with tokens := s.tokens.push t }

def emitAt (position : Nat) (t : Token) : Scan Unit :=
  modify fun s => { s with tokens := s.tokens.insertIdxIfInBounds position t }

def allowKey (b : Bool) : Scan Unit :=
  modify fun s => { s with keyAllowed := b }

/-- Skips blanks, comments and line breaks. A tab may not indent a line of a block. A byte order
mark may start any line, and takes a column there. -/
def trivia (flow comment : Bool) (s : Scanner) : List Char → Scanner
  | [] => { s with rest := [] }
  | c :: cs =>
    let next := { s with mark := s.mark.past c }
    if isBreak c then trivia flow false { next with keyAllowed := s.keyAllowed || !flow } cs
    else if comment then trivia flow true next cs
    else if c == ' ' || (c == '\t' && (flow || !s.keyAllowed)) then trivia flow false next cs
    else if c == '#' then trivia flow true next cs
    else if c == '\ufeff' && s.mark.col == 0 then trivia flow false next cs
    else { s with rest := c :: cs }

def skipTrivia : Scan Unit :=
  modify fun s => trivia (!s.outerKeys.isEmpty) false s s.rest

/-! ## Simple keys -/

def isStale (m : Mark) (k : SimpleKey) : Bool :=
  k.mark.line < m.line || k.mark.index + 1024 < m.index

/-- A key is over at the end of its line. -/
def dropStale (m : Mark) (k : Option SimpleKey) : Option (Option SimpleKey) :=
  match k with
  | none => some none
  | some key => if !isStale m key then some k else if key.required then none else some none

def dropStaleKeys : Scan Unit := do
  let s ← get
  let simpleKey ← ofOption (dropStale s.mark s.simpleKey)
  let outerKeys ← ofOption (s.outerKeys.mapM (dropStale s.mark))
  set { s with simpleKey, outerKeys }

def removeKey : Scan Unit := do
  let s ← get
  require !(s.simpleKey.any SimpleKey.required)
  set { s with simpleKey := none }

def saveKey : Scan Unit := do
  let s ← get
  if s.keyAllowed then
    removeKey
    let required := s.outerKeys.isEmpty && s.indent == s.mark.col
    modify fun s => { s with simpleKey := some ⟨s.tokens.size, required, s.mark⟩ }

/-! ## Indentation -/

def roll (col : Nat) (position : Nat) (t : Token) : Scan Unit := do
  let s ← get
  if s.outerKeys.isEmpty && s.indent < col then
    set { s with indent := (col : Int), outerIndents := s.indent :: s.outerIndents }
    emitAt position t

def unrolled (col : Int) (indent : Int) (tokens : Array Token) :
    List Int → Int × List Int × Array Token
  | [] => (indent, [], tokens)
  | outer :: rest =>
    if indent > col then unrolled col outer (tokens.push .blockEnd) rest
    else (indent, outer :: rest, tokens)

def unroll (col : Int) : Scan Unit :=
  modify fun s =>
    if s.outerKeys.isEmpty then
      let (indent, outerIndents, tokens) := unrolled col s.indent s.tokens s.outerIndents
      { s with indent, outerIndents, tokens }
    else s

/-! ## Tokens -/

def documentMark (t : Token) : Scan Unit := do
  unroll (-1)
  removeKey
  allowKey false
  skip 3
  emit t

def flowStart (t : Token) : Scan Unit := do
  saveKey
  modify fun s => { s with simpleKey := none, outerKeys := s.simpleKey :: s.outerKeys }
  allowKey true
  skip 1
  emit t

def flowEnd (t : Token) : Scan Unit := do
  removeKey
  modify fun s =>
    match s.outerKeys with
    | [] => s
    | k :: outer => { s with simpleKey := k, outerKeys := outer }
  allowKey false
  skip 1
  emit t

def flowEntry : Scan Unit := do
  removeKey
  allowKey true
  skip 1
  emit .flowEntry

/-- An indicator of a block is allowed only where a key is. -/
def blockIndicator (start : Token) : Scan Unit := do
  let s ← get
  if s.outerKeys.isEmpty then
    require s.keyAllowed
    roll s.mark.col s.tokens.size start

def blockEntry : Scan Unit := do
  blockIndicator .blockSequence
  removeKey
  allowKey true
  skip 1
  emit .blockEntry

def explicitKey : Scan Unit := do
  blockIndicator .blockMapping
  removeKey
  allowKey !(← inFlow)
  skip 1
  emit .key

def value : Scan Unit := do
  let s ← get
  match s.simpleKey with
  | some k =>
    emitAt k.position .key
    roll k.mark.col k.position .blockMapping
    modify fun s => { s with simpleKey := none, keyAllowed := false }
  | none =>
    blockIndicator .blockMapping
    allowKey !(← inFlow)
  skip 1
  emit .value

def endsName : List Char → Bool
  | [] => true
  | c :: _ => isBlank c || isBreak c || "?:,]\x7d%@`".toList.contains c

/-- An anchor or an alias, named behind its indicator. -/
def named (t : String → Token) : Scan Unit := do
  saveKey
  allowKey false
  let cs := (← get).rest.drop 1
  let name := cs.takeWhile Tag.isNameChar
  require (!name.isEmpty && endsName (cs.dropWhile Tag.isNameChar))
  skip (1 + name.length)
  emit (t (String.ofList name))

def tag : Scan Unit := do
  saveKey
  allowKey false
  let cs := (← get).rest
  let (handle, suffix, rest) ← ofOption (Tag.parts? cs)
  require (endsWord rest || ((← inFlow) && rest.head? == some ','))
  skip (cs.length - rest.length)
  emit (.tag handle suffix)

def place (style : Style) (r : Read) : Scan Unit := do
  modify fun s => { s with mark := r.mark, rest := r.rest, keyAllowed := s.keyAllowed || r.broken }
  emit (.scalar style r.text)

def blockScalar (style : Style) : Scan Unit := do
  removeKey
  allowKey true
  skip 1
  let s ← get
  place style (← ofOption (Yaml.blockScalar style s.indent s.mark s.rest))

def quotedScalar (quote : Quote) : Scan Unit := do
  saveKey
  allowKey false
  skip 1
  let s ← get
  place .quoted (← ofOption (quotedFrom quote none .empty s.mark s.rest))

def plainScalar : Scan Unit := do
  saveKey
  allowKey false
  let s ← get
  place .plain
    (← ofOption (plainFrom (!s.outerKeys.isEmpty) (s.indent + 1) true .empty s.mark s.rest))

/-! ## Directives -/

/-- A version number has at most nine digits. -/
def versionNumber? (cs : List Char) : Option (Nat × List Char) :=
  let digits := cs.takeWhile Char.isDigit
  if digits.length ≤ 9 then (Text.natural? 10 digits).map (·, cs.dropWhile Char.isDigit) else none

def version? (cs : List Char) : Option (Token × List Char) := do
  let (major, rest) ← versionNumber? (cs.dropWhile isBlank)
  match rest with
  | '.' :: rest =>
    let (minor, rest) ← versionNumber? rest
    return (.version major minor, rest)
  | _ => none

def tagHandle? (cs : List Char) : Option (Token × List Char) := do
  let (handle, rest) ← Tag.handle? (cs.dropWhile isBlank)
  let (start, after) ← Tag.uri true rest.length (rest.dropWhile isBlank)
  if rest.head?.any isBlank && !start.isEmpty && endsWord after then
    some (.tagHandle handle start, after)
  else none

/-- Reads behind the percent sign, where the name has to follow at once. -/
def directiveToken? (cs : List Char) : Option (Token × List Char) :=
  let rest := cs.dropWhile Tag.isNameChar
  if !endsWord rest then none
  else
    match String.ofList (cs.takeWhile Tag.isNameChar) with
    | "YAML" => version? rest
    | "TAG" => tagHandle? rest
    | _ => none

/-- A directive takes the break of its line, so that no key is allowed behind it. -/
def directive : Scan Unit := do
  unroll (-1)
  removeKey
  allowKey false
  let cs := (← get).rest
  let (t, rest) ← ofOption (directiveToken? (cs.drop 1))
  let rest := rest.dropWhile isBlank
  let rest := if rest.head? == some '#' then rest.dropWhile (fun c => !isBreak c) else rest
  require (rest.isEmpty || rest.head?.any isBreak)
  skip (cs.length - rest.length + 1)
  emit t

/-! ## The whole text -/

/-- Characters that begin no plain scalar, unless a word goes on behind them. -/
def isIndicator (c : Char) : Bool :=
  isFlowIndicator c || "-?:#&*!|>'\"%@`".toList.contains c

def startsPlain (flow : Bool) (cs : List Char) : Bool :=
  match cs with
  | [] => false
  | c :: rest =>
    (!isIndicator c && !endsWord cs) || (c == '-' && !endsWord rest) ||
      (!flow && (c == '?' || c == ':') && !endsWord rest)

def dispatch (flow : Bool) (m : Mark) (cs : List Char) : Scan Unit :=
  match cs with
  | [] => failure
  | c :: rest =>
    if m.col == 0 && c == '%' then directive
    else if atDocumentMark m cs then documentMark (if c == '-' then .documentStart else .documentEnd)
    else if c == '[' then flowStart .flowSequence
    else if c == '\x7b' then flowStart .flowMapping
    else if c == ']' then flowEnd .flowSequenceEnd
    else if c == '\x7d' then flowEnd .flowMappingEnd
    else if c == ',' then flowEntry
    else if c == '-' && endsWord rest then blockEntry
    else if c == '?' && (flow || endsWord rest) then explicitKey
    else if c == ':' && (flow || endsWord rest) then value
    else if c == '*' then named .alias
    else if c == '&' then named .anchor
    else if c == '!' then tag
    else if c == '|' && !flow then blockScalar .literal
    else if c == '>' && !flow then blockScalar .folded
    else if c == '\'' then quotedScalar .single
    else if c == '"' then quotedScalar .double
    else if startsPlain flow cs then plainScalar
    else failure

/-- Reads tokens up to the end; every one takes a character, so `fuel` is their bound. -/
def all : Nat → Scan Unit
  | 0 => failure
  | fuel + 1 => do
    skipTrivia
    dropStaleKeys
    let s ← get
    unroll s.mark.col
    if s.rest.isEmpty then
      unroll (-1)
      removeKey
      emit .streamEnd
    else
      dispatch (← inFlow) s.mark s.rest
      all fuel

end Scan

/-- Makes one newline of each way to write it. -/
def normalize : List Char → List Char
  | '\r' :: '\n' :: cs => '\n' :: normalize cs
  | c :: cs => (if c == '\r' || c == '\u0085' then '\n' else c) :: normalize cs
  | [] => []

/-- Characters that may stand in the text at all. -/
def isPrintable (c : Char) : Bool :=
  let n := c.toNat
  n == 0x09 || n == 0x0A || n == 0x0D || (0x20 ≤ n && n ≤ 0x7E) || n == 0x85 ||
    (0xA0 ≤ n && n ≤ 0xFFFD) || 0x10000 ≤ n

def tokens? (s : String) : Option (List Token) :=
  let cs := s.toList
  if cs.all isPrintable then
    let start : Scanner := ⟨normalize cs, ⟨0, 0, 0⟩, #[], none, [], -1, [], true⟩
    (Scan.all (cs.length + 1) start).map fun r => r.2.tokens.toList
  else none

end MipsAsm.Yaml
