import KeyTransparency.Error

/-!
The settings of a directory: how often its epochs end and how it is laid out.
-/

namespace KeyTransparency

structure Config where
  verificationPeriodMs : Nat
  updatePeriodMs : Nat
  /-- The number of partitions that identifiers are spread over. -/
  partitions : Nat
  /-- Whether partitions keep a history forest. -/
  aggregatedHistory : Bool
  /-- A history forest holds at most `2^historyDepth` periods. -/
  historyDepth : Nat
deriving DecidableEq, Repr

namespace Config

def default : Config := ⟨10000, 1000, 1, false, 31⟩

instance : Inhabited Config := ⟨default⟩

def maxHistoryDepth : Nat := 48

def validate (config : Config) : Except Error Unit :=
  if config.partitions = 0 then .error (.config .noPartitions)
  else if config.updatePeriodMs = 0 ∨ config.verificationPeriodMs = 0 then .error (.config .zeroPeriod)
  else if config.verificationPeriodMs < config.updatePeriodMs then
    .error (.config (.updateLongerThanVerification config.updatePeriodMs config.verificationPeriodMs))
  else if maxHistoryDepth < config.historyDepth then
    .error (.config (.historyTooDeep config.historyDepth maxHistoryDepth))
  else .ok ()

end Config

end KeyTransparency
