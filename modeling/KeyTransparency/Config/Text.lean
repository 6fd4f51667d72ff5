import KeyTransparency.Config
import KeyTransparency.Text.Toml
import KeyTransparency.Text.Utf8

/-!
Settings as a TOML document.

A setting that the document leaves out has its default, and what is no setting is ignored.  The
document is written with one setting a line; TOML has no integers of 2^63 and above.
-/

namespace KeyTransparency.Config

/-- A natural number below `bound`, or `absent` if it is not set. -/
def natSetting (root : Toml.Members) (name : String) (bound absent : Nat) : Except Error Nat :=
  match root.lookup name with
  | none => .ok absent
  | some (.value (.integer n)) =>
    if 0 ≤ n ∧ n < bound then .ok n.toNat else .error .configFormat
  | some _ => .error .configFormat

def boolSetting (root : Toml.Members) (name : String) (absent : Bool) : Except Error Bool :=
  match root.lookup name with
  | none => .ok absent
  | some (.value (.boolean b)) => .ok b
  | some _ => .error .configFormat

def ofToml (document : String) : Except Error Config := do
  let some root := Toml.parse? document | throw .configFormat
  pure
    { verificationPeriodMs :=
        ← natSetting root "verification_period_ms" UInt64.size default.verificationPeriodMs
      updatePeriodMs := ← natSetting root "update_period_ms" UInt64.size default.updatePeriodMs
      partitions := ← natSetting root "partitions" UInt64.size default.partitions
      aggregatedHistory := ← boolSetting root "aggregated_history" default.aggregatedHistory
      historyDepth := ← natSetting root "history_depth" UInt32.size default.historyDepth }

def toToml (config : Config) : Except Error String :=
  let numbers := [config.verificationPeriodMs, config.updatePeriodMs, config.partitions,
    config.historyDepth]
  if numbers.any (UInt64.size / 2 ≤ ·) then .error .configNotWritable
  else
    .ok <| String.join <| [
      s!"verification_period_ms = {config.verificationPeriodMs}\n",
      s!"update_period_ms = {config.updatePeriodMs}\n",
      s!"partitions = {config.partitions}\n",
      s!"aggregated_history = {config.aggregatedHistory}\n",
      s!"history_depth = {config.historyDepth}\n"]

/-- The valid settings in a file, `path` being its name for messages. -/
def ofBytes (path : String) (bytes : Bytes) : Except Error Config := do
  let some document := Utf8.decode? bytes | throw (.config (.notText path))
  let config ← ofToml document
  config.validate
  pure config

end KeyTransparency.Config
