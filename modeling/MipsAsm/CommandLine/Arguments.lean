/-! # Command line arguments

Options may be long with `=` or a following word for their value, or short and then combined and
with the value attached. Each may be given once. `--` ends the options. Options are taken from left
to right, so that a request for the version answers before any mistake to its right.
-/

namespace MipsAsm.CommandLine

/-- Options without a value. -/
inductive Flag where
  | bigEndian
  | strict
  | dump
  | gui
  | about
  deriving DecidableEq, Repr

/-- Options with a value. -/
inductive Parameter where
  | output
  | cfg
  | settings
  | config
  deriving DecidableEq, Repr

inductive Switch where
  | flag (f : Flag)
  | parameter (p : Parameter)
  | version
  | help
  deriving DecidableEq, Repr

def long? : String → Option Switch
  | "output" => some (.parameter .output)
  | "cfg" => some (.parameter .cfg)
  | "settings" => some (.parameter .settings)
  | "config" => some (.parameter .config)
  | "big-endian" => some (.flag .bigEndian)
  | "strict" => some (.flag .strict)
  | "dump" => some (.flag .dump)
  | "gui" => some (.flag .gui)
  | "about" => some (.flag .about)
  | "version" => some .version
  | "help" => some .help
  | _ => none

def short? : Char → Option Switch
  | 'o' => some (.parameter .output)
  | 'c' => some (.parameter .config)
  | 'd' => some (.flag .dump)
  | 'g' => some (.flag .gui)
  | 'V' => some .version
  | 'h' => some .help
  | _ => none

structure Arguments where
  inputs : List String
  flags : List Flag
  values : List (Parameter × String)
  deriving DecidableEq, Repr

namespace Arguments

def empty : Arguments :=
  ⟨[], [], []⟩

def has (a : Arguments) (f : Flag) : Bool :=
  a.flags.contains f

def value? (a : Arguments) (p : Parameter) : Option String :=
  a.values.lookup p

def setFlag? (a : Arguments) (f : Flag) : Option Arguments :=
  if a.has f then none else some { a with flags := f :: a.flags }

def setValue? (a : Arguments) (p : Parameter) (value : String) : Option Arguments :=
  if (a.value? p).isSome then none else some { a with values := (p, value) :: a.values }

def addInput (a : Arguments) (input : String) : Arguments :=
  { a with inputs := a.inputs ++ [input] }

end Arguments

inductive Request where
  | run (arguments : Arguments)
  | version
  | help
  | usageError
  deriving DecidableEq, Repr

/-- What one word leaves to do. -/
inductive Step where
  | next (arguments : Arguments)
  /-- The next word is the value of a parameter. -/
  | awaits (p : Parameter) (arguments : Arguments)
  | done (request : Request)
  deriving DecidableEq, Repr

def Step.ofOption : Option Arguments → Step
  | some a => .next a
  | none => .done .usageError

def longStep (a : Arguments) (name : String) (value : Option String) : Step :=
  match long? name, value with
  | some (.flag f), none => .ofOption (a.setFlag? f)
  | some (.parameter p), some v => .ofOption (a.setValue? p v)
  | some (.parameter p), none => .awaits p a
  | some .version, none => .done .version
  | some .help, none => .done .help
  | _, _ => .done .usageError

/-- Short options; the first that takes a value has the rest of the word attached. -/
def shortStep (a : Arguments) : List Char → Step
  | [] => .next a
  | c :: rest =>
    match short? c with
    | none => .done .usageError
    | some .version => .done .version
    | some .help => .done .help
    | some (.flag f) =>
      match a.setFlag? f with
      | some a => shortStep a rest
      | none => .done .usageError
    | some (.parameter p) =>
      match rest with
      | [] => .awaits p a
      | '=' :: value => .ofOption (a.setValue? p (String.ofList value))
      | value => .ofOption (a.setValue? p (String.ofList value))

def longOf (cs : List Char) : String × Option String :=
  let name := cs.takeWhile (· != '=')
  match cs.dropWhile (· != '=') with
  | [] => (String.ofList name, none)
  | _ :: value => (String.ofList name, some (String.ofList value))

def step (a : Arguments) (word : String) : Step :=
  match word.toList with
  | '-' :: '-' :: cs => longStep a (longOf cs).1 (longOf cs).2
  | '-' :: c :: cs => shortStep a (c :: cs)
  | _ => .next (a.addInput word)

/-- A word that cannot be the value of the option before it. -/
def looksLikeOption (word : String) : Bool :=
  match word.toList with
  | '-' :: _ :: _ => true
  | _ => false

/-- A configuration to run leaves no room for sources to assemble. -/
def finish (a : Arguments) : Request :=
  if (a.value? .config).isSome && !a.inputs.isEmpty then .usageError else .run a

def parseFrom (a : Arguments) : List String → Request
  | [] => finish a
  | word :: rest =>
    if word == "--" then finish { a with inputs := a.inputs ++ rest }
    else
      match step a word with
      | .done request => request
      | .next a => parseFrom a rest
      | .awaits p a =>
        match rest with
        | [] => .usageError
        | value :: rest =>
          if looksLikeOption value then .usageError
          else
            match a.setValue? p value with
            | some a => parseFrom a rest
            | none => .usageError

/-- The spelling `-about` is kept for existing scripts. -/
def parse (words : List String) : Request :=
  parseFrom .empty (words.map fun word => if word == "-about" then "--about" else word)

end MipsAsm.CommandLine
