import MipsAsm.Program
import MipsAsm.Proofs.Assembly.Alike

/-! # Programs that differ in positions and byte order only

Items alike, under label tables that give the same addresses, are stored alike. So runs alike are
finished to programs alike, or fail for the same cause.
-/

namespace MipsAsm

open Memory (Endian Image)
open Outcome (Agree AgreeAt Respects)

variable {P : Position → Position → Prop} {e e' : Endian}

/-! ## Values that hang on labels -/

/-- Every name has the same address in both tables, if it has any. -/
def LabelTable.Same (t u : LabelTable) : Prop :=
  ∀ name, t.address? name = u.address? name

theorem LabelTable.Alike.same {front : List Label} {t u : LabelTable} (hTable : t.Alike P front u) :
    t.Same u :=
  hTable.address?_eq

variable {t u : LabelTable}

theorem Immediate.resolve_same (hSame : t.Same u) (v : Immediate) : v.resolve t = v.resolve u := by
  cases v with
  | literal v => rfl
  | symbol name => rw [resolve, resolve, hSame name]

theorem Instruction.encode_same (hSame : t.Same u) (pc : UInt32) (i : Instruction) :
    i.encode pc t = i.encode pc u := by
  cases i <;> simp only [encode, branchTarget, Immediate.resolve_same hSame]

/-! ## Storing -/

namespace Store

/-- The computations take images alike to images alike. -/
abbrev Keeps (P : Position → Position → Prop) (e e' : Endian) (x y : Store Unit) : Prop :=
  Respects (Error.Alike P) (Image.Alike e e') Eq x y

variable {pos pos' : Position}

theorem words_keeps (address : UInt32) (ws : List Isa.Fields) :
    Keeps P e e' (words address ws) (words address ws) := by
  induction ws generalizing address with
  | nil => exact .pure rfl
  | cons w ws ih =>
    refine (Respects.modify fun m n hImage => ?_).bind fun _ _ _ => ih (address + 4)
    exact hImage.writeNumber address 4 w.toWord.toNat

theorem value_keeps (hSame : t.Same u) (hPos : P pos pos') (width : Width) (address : UInt32)
    (v : Immediate) : Keeps P e e' (value t pos width address v) (value u pos' width address v) := by
  intro m n hImage
  rw [value, value, Immediate.resolve_same hSame]
  cases v.resolve u >>= width.fit with
  | ok k => exact .ok rfl (hImage.writeNumber address width.bytes k)
  | error cause => exact .error (.located hPos cause) hImage

theorem values_keeps (hSame : t.Same u) (hPos : P pos pos') (width : Width) (address : UInt32)
    (vs : List Immediate) :
    Keeps P e e' (values t pos width address vs) (values u pos' width address vs) := by
  induction vs generalizing address with
  | nil => exact .pure rfl
  | cons v vs ih => exact (value_keeps hSame hPos width address v).bind fun _ _ _ => ih _

theorem instruction_keeps (hSame : t.Same u) (hPos : P pos pos') (address : UInt32)
    (i : Instruction) :
    Keeps P e e' (instruction t pos address i) (instruction u pos' address i) := by
  intro m n hImage
  rw [instruction, instruction, Instruction.encode_same hSame]
  cases i.encode address u with
  | ok ws => exact words_keeps address ws m n hImage
  | error cause => exact .error (.located hPos cause) hImage

theorem item_keeps {it it' : Item} (hSame : t.Same u) (hItem : it.Alike P it') :
    Keeps P e e' (item t it) (item u it') := by
  rw [item, item, ← hItem.payload, ← hItem.address]
  cases it.payload with
  | code i => exact instruction_keeps hSame hItem.pos it.address i
  | data width vs => exact values_keeps hSame hItem.pos width it.address vs
  | bytes content => exact .modify fun m n hImage => hImage.writeBytes it.address rfl fun _ => rfl
  | space count => exact .modify fun m n hImage => hImage.writeBytes it.address rfl fun _ => rfl

theorem items_keeps {its its' : List Item} (hSame : t.Same u)
    (hItems : List.Forall₂ (Item.Alike P) its its') :
    Keeps P e e' (items t its) (items u its') := by
  induction hItems with
  | nil => exact .pure rfl
  | cons hItem _ ih => exact (item_keeps hSame hItem).bind fun _ _ _ => ih

end Store

/-! ## Runs -/

structure Run.Alike (P : Position → Position → Prop) (e e' : Endian) (r s : Run) : Prop where
  strict : r.options.strict = s.options.strict
  assembly : r.assembly.Alike P (.ofOrders e e') s.assembly
  items : List.Forall₂ (Item.Alike P) r.items.toList s.items.toList
  names : r.sources.map Prod.fst = s.sources.map Prod.fst

structure Program.Alike (P : Position → Position → Prop) (e e' : Endian) (p q : Program) :
    Prop where
  memory : p.memory.Alike e e' q.memory
  labels : List.Forall₂ (Label.Alike P) p.labels.labels q.labels.labels
  items : List.Forall₂ (Item.Alike P) p.items.toList q.items.toList
  warnings : p.warnings = q.warnings

namespace SourceTable

variable {t u : SourceTable}

theorem contains_eq (t : SourceTable) (name : String) :
    t.contains name = (t.map Prod.fst).any (· == name) := by
  rw [contains, List.any_map]
  rfl

theorem contains_of_names (hNames : t.map Prod.fst = u.map Prod.fst) (name : String) :
    t.contains name = u.contains name := by
  rw [contains_eq, contains_eq, hNames]

theorem names_insert {name : String} (hNew : t.contains name = false) (lines : List String) :
    (t.insert name lines).map Prod.fst = t.map Prod.fst ++ [name] := by
  rw [insert, hNew]
  exact List.map_append

end SourceTable

namespace Run

theorem start_alike (options : Options) (e e' : Endian) :
    Alike P e e' (start { options with endian := e }) (start { options with endian := e' }) :=
  ⟨rfl, ⟨rfl, rfl, rfl, .nil, .self _ _ _, Image.ofCapacity_alike _ _ _, .self _ _ _⟩, .nil, rfl⟩

namespace Alike

variable {r s : Run}

theorem sources_length (hRun : Alike P e e' r s) : r.sources.length = s.sources.length := by
  have hLength := congrArg List.length hRun.names
  rwa [List.length_map, List.length_map] at hLength

/-- A source was assembled in both runs. -/
theorem extended (hRun : Alike P e e' r s) {a b : Assembly} {is js : Array Item} {name : String}
    (hNew : r.sources.contains name = false) (lines lines' : List String)
    (hState : a.Alike P (.ofOrders e e') b)
    (hItems : List.Forall₂ (Item.Alike P) is.toList js.toList) :
    Alike P e e'
      { r with assembly := a, sources := r.sources.insert name lines, items := r.items ++ is }
      { s with assembly := b, sources := s.sources.insert name lines', items := s.items ++ js } := by
  refine ⟨hRun.strict, hState, ?_, ?_⟩
  · rw [Array.toList_append, Array.toList_append]
    exact List.rel_append hRun.items hItems
  · have hNew' : s.sources.contains name = false := by
      rw [← SourceTable.contains_of_names hRun.names, hNew]
    rw [SourceTable.names_insert hNew, SourceTable.names_insert hNew', hRun.names]

theorem addTexts (texts : List (String × String))
    (hPlace : ∀ source index col, P ⟨source, index, col⟩ ⟨source, index, col⟩) :
    ∀ {r s : Run}, Alike P e e' r s →
      Agree (Error.Alike P) (Alike P e e') (r.addTexts texts) (s.addTexts texts) := by
  induction texts with
  | nil =>
    intro r s hRun
    exact .ok hRun
  | cons named texts ih =>
    intro r s hRun
    obtain ⟨name, text⟩ := named
    rw [Run.addTexts, Run.addTexts, addSource, addSource,
      ← SourceTable.contains_of_names hRun.names]
    cases hNew : r.sources.contains name with
    | true => exact .error (.same rfl)
    | false =>
      obtain ⟨hItems, hState⟩ := hRun.assembly.parse (hPlace s.sources.length)
        (Token.linesOfText text)
      simp only [Bool.false_eq_true, if_false, parseSource, hRun.sources_length]
      cases hLeft : r.assembly.parse s.sources.length (Token.linesOfText text) with
      | mk outcome a =>
        cases hRight : s.assembly.parse s.sources.length (Token.linesOfText text) with
        | mk outcome' b =>
          rw [hLeft, hRight] at hItems hState
          cases hItems with
          | ok hItems => exact ih (hRun.extended hNew _ _ hState hItems)
          | error hError => exact .error hError

theorem checkLayout_eq (hRun : Alike P e e' r s) {m n : Image} (hImage : m.Alike e e' n) :
    checkLayout r.options m = checkLayout s.options n := by
  rw [checkLayout, checkLayout, hImage.overlap?_eq, hRun.strict]

theorem checkLayout_unplaced {options : Options} {m : Image} {error : Error}
    (hCheck : checkLayout options m = .error error) : error.pos? = none := by
  rw [checkLayout] at hCheck
  split at hCheck
  · cases hCheck
  · split at hCheck
    · cases hCheck
      rfl
    · cases hCheck

theorem finish (hRun : Alike P e e' r s) :
    Agree (Error.Alike P) (Program.Alike P e e') r.finish s.finish := by
  have hSame : r.assembly.labels.Same s.assembly.labels := hRun.assembly.labels.same
  have hStore := Store.items_keeps hSame hRun.items _ _ hRun.assembly.memory
  rw [Run.finish, Run.finish]
  cases hLeft : Store.items r.assembly.labels r.items.toList r.assembly.memory with
  | error error m =>
    obtain ⟨error', n, hRight, hError, _⟩ := hStore.exists_of_error hLeft
    rw [hRight]
    exact .error hError
  | ok _ m =>
    obtain ⟨_, n, hRight, _, hImage⟩ := hStore.exists_of_ok hLeft
    rw [hRight]
    dsimp only
    rw [hSame entryLabel]
    cases s.assembly.labels.address? entryLabel with
    | none => exact .error (.same rfl)
    | some entry =>
      have hFinal := hImage.withEntry entry
      dsimp only
      rw [hRun.checkLayout_eq hFinal]
      cases hCheck : checkLayout s.options { n with entry } with
      | error error => exact .error (.same (checkLayout_unplaced hCheck))
      | ok warnings => exact .ok ⟨hFinal, hRun.assembly.labels.forall₂, hRun.items, rfl⟩

end Alike

end Run

end MipsAsm
