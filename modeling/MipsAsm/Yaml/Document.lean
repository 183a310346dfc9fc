import MipsAsm.Yaml.Node
import MipsAsm.Yaml.Token

/-! # Documents of YAML

The grammar of a stream of tokens that holds one document at most.
-/

namespace MipsAsm.Yaml

structure Parser where
  tokens : List Token
  anchors : Anchors
  handles : List (String × List UInt8)

abbrev Parse : Type → Type :=
  StateT Parser Option

namespace Parse

def empty : Node :=
  .scalar .plain none ""

def peek : Parse Token :=
  return (← get).tokens.headD .streamEnd

def skip : Parse Unit :=
  modify fun p => { p with tokens := p.tokens.drop 1 }

def expect (t : Token) : Parse Unit := do
  if (← peek) = t then skip else failure

/-- Skips a token if it is there. -/
def accept (t : Token) : Parse Bool := do
  if (← peek) = t then
    skip
    return true
  else return false

def tagOf (handle : String) (suffix : List UInt8) : Parse Tag := do
  if handle.isEmpty then return .ofParts [] suffix
  else
    match (← get).handles.lookup handle with
    | some start => return .ofParts start suffix
    | none => failure

/-- The anchor and the tag in front of a node, in either order. -/
def properties : Parse (Option String × Option Tag) := do
  match ← peek with
  | .anchor name => do
    skip
    match ← peek with
    | .tag handle suffix => do
      skip
      return (some name, some (← tagOf handle suffix))
    | _ => return (some name, none)
  | .tag handle suffix => do
    skip
    let tag ← tagOf handle suffix
    match ← peek with
    | .anchor name => do
      skip
      return (some name, some tag)
    | _ => return (none, some tag)
  | _ => return (none, none)

/-- Reads a node and keeps it for the aliases of its anchor. -/
def anchored (anchor : Option String) (content : Parse Node) : Parse Node := do
  match anchor with
  | none => content
  | some name => do
    let number := (← get).anchors.next
    modify fun p => { p with anchors := p.anchors.start name }
    let node ← content
    modify fun p => { p with anchors := p.anchors.finish number node }
    return node

/-- Whether the next token ends an entry of a block collection. -/
def endsEntry (t : Token) : Bool :=
  t == .key || t == .value || t == .blockEnd

def endsFlowEntry (close t : Token) : Bool :=
  t == .value || t == .flowEntry || t == close

mutual

/-- A node; `fuel` bounds the depth and length of what is read. -/
def node (fuel : Nat) (block indentless : Bool) : Parse Node :=
  match fuel with
  | 0 => failure
  | fuel + 1 => do
    match ← peek with
    | .alias name => do
      skip
      match (← get).anchors.slot? name with
      | some slot => return .alias slot
      | none => failure
    | _ => do
      let (anchor, tag) ← properties
      anchored anchor (content fuel block indentless (anchor.isSome || tag.isSome) tag)

def content (fuel : Nat) (block indentless decorated : Bool) (tag : Option Tag) : Parse Node :=
  match fuel with
  | 0 => failure
  | fuel + 1 => do
    let t ← peek
    match t with
    | .scalar style text => do
      skip
      return .scalar style tag text
    | .flowSequence => do
      skip
      return .sequence tag (← flowItems fuel true)
    | .flowMapping => do
      skip
      return .mapping tag (← flowEntries fuel true)
    | _ =>
      if indentless && t == .blockEntry then return .sequence tag (← indentlessItems fuel)
      else if block && t == .blockSequence then do
        skip
        return .sequence tag (← blockItems fuel)
      else if block && t == .blockMapping then do
        skip
        return .mapping tag (← blockEntries fuel)
      else if decorated then return .scalar .plain tag ""
      else failure

/-- The rest of a sequence whose entries are indented. -/
def blockItems (fuel : Nat) : Parse (List Node) :=
  match fuel with
  | 0 => failure
  | fuel + 1 => do
    if ← accept .blockEnd then return []
    expect .blockEntry
    let t ← peek
    let item ← if t == .blockEntry || t == .blockEnd then pure empty else node fuel true false
    return item :: (← blockItems fuel)

/-- The rest of a sequence that is no further indented than the key in front of it. -/
def indentlessItems (fuel : Nat) : Parse (List Node) :=
  match fuel with
  | 0 => failure
  | fuel + 1 => do
    if !(← accept .blockEntry) then return []
    let t ← peek
    let item ← if t == .blockEntry || endsEntry t then pure empty else node fuel true false
    return item :: (← indentlessItems fuel)

def blockEntries (fuel : Nat) : Parse (List (Node × Node)) :=
  match fuel with
  | 0 => failure
  | fuel + 1 => do
    if ← accept .blockEnd then return []
    expect .key
    let key ← if endsEntry (← peek) then pure empty else node fuel true true
    let value ← if ← accept .value then
        if endsEntry (← peek) then pure empty else node fuel true true
      else pure empty
    return (key, value) :: (← blockEntries fuel)

/-- A value behind a key in a flow collection that `close` ends. -/
def flowValue (fuel : Nat) (close : Token) : Parse Node :=
  match fuel with
  | 0 => failure
  | fuel + 1 => do
    if ← accept .value then
      let t ← peek
      if t == .flowEntry || t == close then return empty else node fuel false false
    else return empty

/-- A pair inside a flow sequence is a mapping of its own. If its key is left out, the token behind
the question mark is dropped. -/
def flowItems (fuel : Nat) (first : Bool) : Parse (List Node) :=
  match fuel with
  | 0 => failure
  | fuel + 1 => do
    if ← accept .flowSequenceEnd then return []
    unless first do expect .flowEntry
    if ← accept .flowSequenceEnd then return []
    let item ← if ← accept .key then do
        let key ← if endsFlowEntry .flowSequenceEnd (← peek) then do
            skip
            pure empty
          else node fuel false false
        let value ← flowValue fuel .flowSequenceEnd
        pure (Node.mapping none [(key, value)])
      else node fuel false false
    return item :: (← flowItems fuel false)

def flowEntries (fuel : Nat) (first : Bool) : Parse (List (Node × Node)) :=
  match fuel with
  | 0 => failure
  | fuel + 1 => do
    if ← accept .flowMappingEnd then return []
    unless first do expect .flowEntry
    if ← accept .flowMappingEnd then return []
    if ← accept .key then
      let key ← if endsFlowEntry .flowMappingEnd (← peek) then pure empty else node fuel false false
      let value ← flowValue fuel .flowMappingEnd
      return (key, value) :: (← flowEntries fuel false)
    else
      let key ← node fuel false false
      return (key, empty) :: (← flowEntries fuel false)

end

/-- Directives in front of a document: at most one version, and handles that differ. -/
def directives (versioned : Bool) (own : List String) : Nat → Parse Bool
  | 0 => failure
  | fuel + 1 => do
    match ← peek with
    | .version major minor =>
      if versioned || major != 1 || (minor != 1 && minor != 2) then failure
      else do
        skip
        directives true own fuel
    | .tagHandle handle start =>
      if own.contains handle then failure
      else do
        skip
        modify fun p => { p with handles := (handle, start) :: p.handles }
        directives versioned (handle :: own) fuel
    | _ => return versioned || !own.isEmpty

def endsDocument : Token → Bool
  | .version .. | .tagHandle .. | .documentStart | .documentEnd | .streamEnd => true
  | _ => false

def endMarks : Nat → Parse Unit
  | 0 => pure ()
  | fuel + 1 => do
    if ← accept .documentEnd then endMarks fuel

/-- The only document of a stream, or `none` if the stream has no content. -/
def document (fuel : Nat) : Parse (Option Node) := do
  let directed ← directives false [] fuel
  if directed || (← peek) == .documentStart then
    expect .documentStart
    let root ← if endsDocument (← peek) then pure empty else node fuel true false
    endMarks fuel
    expect .streamEnd
    return some root
  else if ← accept .streamEnd then return none
  else
    let root ← node fuel true false
    endMarks fuel
    expect .streamEnd
    return some root

end Parse

/-- The document of a text that holds one; a text without any gives an empty scalar. -/
def document? (s : String) : Option Document := do
  let tokens ← tokens? s
  let handles := [("!", Tag.octetsOfText "!"), ("!!", Tag.octetsOfText Tag.standardStart)]
  let (root, p) ← Parse.document (4 * tokens.length + 4) ⟨tokens, .empty, handles⟩
  return ⟨root.getD Parse.empty, p.anchors⟩

end MipsAsm.Yaml
