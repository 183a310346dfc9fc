import MipsAsm.Proofs.Assembly.Effect

/-! # Histories of assembly

The history of a run lists every item that was ever staged, also those of sources that failed
later, with the section that was active. A property of a state and its history that survives the
effects of lines holds after any sources.
-/

namespace MipsAsm

open Outcome (final final_of_ok final_of_error final_bind_of_ok final_bind_of_error)

/-- The items that are staged in `b` but were not in `a`, with the section active in `a`. -/
def staging (a b : Assembly) : List (Section × Item) :=
  (b.staged.toList.drop a.staged.size).map fun item => (a.active, item)

/-- The items that the lines of a source stage, up to the line that fails. A line that stages an
item leaves the section as it is. -/
def Assemble.log (source : Nat) : Nat → List Token.RawLine → Assembly → List (Section × Item)
  | _, [], _ => []
  | _, .undecodable :: _, _ => []
  | index, .text cs :: rest, a =>
    match Token.scanLine streamOptions source index cs with
    | .error _ => []
    | .ok ts =>
      match line ts a with
      | .ok _ b => staging a b ++ log source (index + 1) rest b
      | .error _ b => staging a b

namespace Assembly

def log (a : Assembly) (source : Nat) (lines : List Token.RawLine) : List (Section × Item) :=
  Assemble.log source 0 lines { a with staged := #[] }

/-- The state after sources, each of which may have failed. -/
def parseAll (a : Assembly) : List (Nat × List Token.RawLine) → Assembly
  | [] => a
  | (source, lines) :: rest => (a.parse source lines).2.parseAll rest

/-- Every item ever staged. -/
def history (a : Assembly) : List (Nat × List Token.RawLine) → List (Section × Item)
  | [] => []
  | (source, lines) :: rest => a.log source lines ++ (a.parse source lines).2.history rest

theorem parse_snd (a : Assembly) (source : Nat) (lines : List Token.RawLine) :
    (a.parse source lines).2 =
      { final (Assemble.lines source 0 lines) { a with staged := #[] } with staged := #[] } := by
  rw [parse, final]
  split <;> rename_i hRun <;> rw [hRun]

end Assembly

/-! ## Staged items -/

theorem staging_eq_nil {a b : Assembly} (hStaged : b.staged = a.staged) : staging a b = [] := by
  rw [staging, hStaged, ← Array.length_toList, List.drop_length, List.map_nil]

theorem staging_push {a b : Assembly} {item : Item} (hStaged : b.staged = a.staged.push item) :
    staging a b = [(a.active, item)] := by
  rw [staging, hStaged, Array.toList_push, ← Array.length_toList, List.drop_left]
  rfl

namespace Effect

theorem staged_movedTo (a : Assembly) (pc : UInt32) : (a.movedTo pc).staged = a.staged :=
  Assembly.staged_withCursor _ _

theorem staged_switch (a : Assembly) (target : Section) (address : Option Int) :
    (a.switch target address).staged = a.staged := by
  cases address with
  | none => rfl
  | some v => exact Assembly.staged_withCursor _ _

theorem staged_place (a : Assembly) (item : Item) (stop : UInt32) :
    (a.place item stop).staged = a.staged.push item :=
  Assembly.staged_withCursor _ _

theorem staged_movedTo_place (a : Assembly) (item : Item) (stop : UInt32) :
    ((a.movedTo item.address).place item stop).staged = a.staged.push item := by
  rw [staged_place, staged_movedTo]

theorem toList_staged {a b : Assembly} (hEffect : Effect a b) :
    b.staged.toList = a.staged.toList ++ (staging a b).map Prod.snd := by
  cases hEffect with
  | idle => rw [staging_eq_nil rfl, List.map_nil, List.append_nil]
  | moved pc hPc =>
    have hStaged := staged_movedTo a pc
    rw [staging_eq_nil hStaged, List.map_nil, List.append_nil, hStaged]
  | switched target address =>
    have hStaged := staged_switch a target address
    rw [staging_eq_nil hStaged, List.map_nil, List.append_nil, hStaged]
  | staged item stop hStart hStop hPlaced =>
    have hStaged := staged_movedTo_place a item stop
    rw [staging_push hStaged, hStaged, Array.toList_push]
    rfl

end Effect

/-! ## Induction over runs -/

/-- A property of a state and the items staged so far that lines preserve. Labels do not matter
to it, and neither does the handing over of staged items at the end of a source. -/
structure Lasting (P : Assembly → List (Section × Item) → Prop) : Prop where
  relabel : ∀ {a log}, P a log → ∀ labels pending, P (a.relabel labels pending) log
  effect : ∀ {a b log}, P a log → Effect a b → P b (log ++ staging a b)

namespace Lasting

variable {P : Assembly → List (Section × Item) → Prop}

theorem line (hLasting : Lasting P) {a : Assembly} {log : List (Section × Item)} (h : P a log)
    (ts : List Token) :
    P (final (Assemble.line ts) a) (log ++ staging a (final (Assemble.line ts) a)) := by
  obtain ⟨b, labels, pending, hEffect, hFinal⟩ := Assemble.final_line ts a
  rw [hFinal]
  exact hLasting.relabel (hLasting.effect h hEffect) labels pending

theorem lines (hLasting : Lasting P) (source : Nat) (ls : List Token.RawLine) :
    ∀ (index : Nat) (a : Assembly) (log : List (Section × Item)), P a log →
      P (final (Assemble.lines source index ls) a) (log ++ Assemble.log source index ls a) := by
  -- the state in front of the lines and what was staged before stay general
  induction ls with
  | nil =>
    intro index a log h
    obtain ⟨labels, hFinal⟩ := Assemble.final_define [] a
    rw [Assemble.lines, hFinal, Assemble.log, List.append_nil]
    exact hLasting.relabel h labels []
  | cons l ls ih =>
    intro index a log h
    cases l with
    | undecodable =>
      rw [Assemble.log, List.append_nil]
      exact h
    | text cs =>
      rw [Assemble.lines]
      cases hScan : Token.scanLine Assemble.streamOptions source index cs with
      | error e =>
        have hLog : Assemble.log source index (.text cs :: ls) a = [] := by
          simp only [Assemble.log, hScan]
        rw [hLog, List.append_nil]
        exact h
      | ok ts =>
        have hLine := hLasting.line h ts
        change P (final (do Assemble.line ts; Assemble.lines source (index + 1) ls) a) _
        cases hRun : Assemble.line ts a with
        | ok _ b =>
          have hLog : Assemble.log source index (.text cs :: ls) a =
              staging a b ++ Assemble.log source (index + 1) ls b := by
            simp only [Assemble.log, hScan, hRun]
          rw [final_of_ok hRun] at hLine
          rw [final_bind_of_ok hRun, hLog, ← List.append_assoc]
          exact ih (index + 1) b _ hLine
        | error e b =>
          have hLog : Assemble.log source index (.text cs :: ls) a = staging a b := by
            simp only [Assemble.log, hScan, hRun]
          rw [final_of_error hRun] at hLine
          rw [final_bind_of_error hRun, hLog]
          exact hLine

theorem parse (hLasting : Lasting P)
    (hClear : ∀ {a log}, P a log → P { a with staged := #[] } log) {a : Assembly}
    {log : List (Section × Item)} (h : P a log) (source : Nat) (ls : List Token.RawLine) :
    P (a.parse source ls).2 (log ++ a.log source ls) := by
  rw [Assembly.parse_snd]
  exact hClear (hLasting.lines source ls 0 _ log (hClear h))

theorem parseAll (hLasting : Lasting P)
    (hClear : ∀ {a log}, P a log → P { a with staged := #[] } log)
    (streams : List (Nat × List Token.RawLine)) :
    ∀ (a : Assembly) (log : List (Section × Item)), P a log →
      P (a.parseAll streams) (log ++ a.history streams) := by
  induction streams with
  | nil =>
    intro a log h
    rw [Assembly.history, List.append_nil]
    exact h
  | cons stream streams ih =>
    intro a log h
    obtain ⟨source, ls⟩ := stream
    rw [Assembly.parseAll, Assembly.history, ← List.append_assoc]
    exact ih _ _ (hLasting.parse hClear h source ls)

end Lasting

namespace Assembly

/-- The log of a source lists just what was staged when the source ended, in any case. -/
theorem map_snd_log (a : Assembly) (source : Nat) (ls : List Token.RawLine) :
    (a.log source ls).map Prod.snd =
      (final (Assemble.lines source 0 ls) { a with staged := #[] }).staged.toList := by
  have hLasting : Lasting fun a log => a.staged.toList = log.map Prod.snd := by
    constructor
    · intro a log h labels pending
      exact h
    · intro a b log h hEffect
      rw [hEffect.toList_staged, h, List.map_append]
  have hStaged := hLasting.lines source ls 0 { a with staged := #[] } [] rfl
  rw [List.nil_append] at hStaged
  exact hStaged.symm

theorem map_snd_log_of_ok {a b : Assembly} {source : Nat} {ls : List Token.RawLine}
    {items : Array Item} (hParse : a.parse source ls = (.ok items, b)) :
    (a.log source ls).map Prod.snd = items.toList := by
  rw [map_snd_log]
  rw [parse] at hParse
  split at hParse
  · rename_i c hRun
    rw [final_of_ok hRun]
    cases hParse
    rfl
  · cases hParse

end Assembly

end MipsAsm
