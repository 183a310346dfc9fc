/-! # Settings of the pipeline engine -/

namespace MipsAsm

inductive Predictor where
  | off
  | notTaken
  | taken
  | bimodal
  deriving DecidableEq, Repr

namespace Predictor

def name : Predictor → String
  | off => "off"
  | notTaken => "not_taken"
  | taken => "taken"
  | bimodal => "bimodal"

def ofName? : String → Option Predictor
  | "off" => some off
  | "not_taken" => some notTaken
  | "taken" => some taken
  | "bimodal" => some bimodal
  | _ => none

theorem ofName?_name (p : Predictor) : ofName? p.name = some p := by
  cases p <;> rfl

end Predictor

structure Settings where
  forwarding : Bool
  loadStallBubble : Bool
  branchDelaySlot : Bool
  branchPredictor : Predictor
  predictorBits : UInt32
  predictorEntries : UInt32
  maxCycles : UInt64
  output : String
  log : String
  deriving DecidableEq, Repr

def Settings.default : Settings where
  forwarding := true
  loadStallBubble := true
  branchDelaySlot := false
  branchPredictor := .notTaken
  predictorBits := 2
  predictorEntries := 64
  maxCycles := 100000
  output := "pipeline.out"
  log := "pipeline.log"

end MipsAsm
