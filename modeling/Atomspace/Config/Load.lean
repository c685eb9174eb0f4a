import Atomspace.Config
import Atomspace.Files
import Atomspace.Toml.Document
/-!
# Loading a configuration

A configuration comes from a TOML document and a few variables of the environment. What they do not
mention keeps its default, and names they mention without meaning are passed over. A section is a
table, or a list of values in the order of its fields. What a list holds beyond the fields is not
looked at, while what a table holds under other names has at least to stand for something.
-/

namespace Atomspace

/-- Why a configuration cannot be loaded. -/
inductive ConfigError where
  /-- The file cannot be read. -/
  | unreadable (error : FileError)
  /-- The text is not a document, or a value in it is of the wrong kind. -/
  | malformed

namespace ConfigError

/-- What went wrong. -/
def message : ConfigError → String
  | unreadable _ => "failed to read config file"
  | malformed => "failed to parse config TOML"

/-- Why it went wrong. -/
def cause : ConfigError → String
  | unreadable error => error.message
  | malformed => "the document is not valid"

end ConfigError

namespace Config

/-! ## Values -/

/-- One more than the greatest size. -/
def sizeLimit : Nat := UInt64.size

/-- A number; whole numbers count. -/
def real? : Toml.Value → Option Double
  | .float x => some x
  | .integer n => if Int64.minValue.toInt ≤ n ∧ n < sizeLimit then some (Scalar.ofInt n) else none
  | _ => none

/-- A size. -/
def size? : Toml.Value → Option Nat
  | .integer n => if 0 ≤ n ∧ n < sizeLimit then some n.toNat else none
  | _ => none

/-- A text. -/
def text? : Toml.Value → Option String
  | .text s => some s
  | _ => none

/-- A truth value. -/
def bool? : Toml.Value → Option Bool
  | .boolean b => some b
  | _ => none

/-! ## Sections -/

/-- A field of a section: its name in a document, and how a value of the document is put into it. -/
structure Field (σ : Type) where
  name : String
  /-- Puts in a value, if it is of the right kind. -/
  put? : σ → Toml.Value → Option σ

/-- A field with a reader for its values. -/
def Field.of {σ α : Type} (name : String) (read? : Toml.Value → Option α) (put : σ → α → σ) :
    Field σ where
  name := name
  put? c v := (read? v).map (put c)

/-- Reads a section with defaults for the fields that it does not mention. -/
def readFields {σ : Type} (fields : List (Field σ)) (default : σ) : Toml.Value → Option σ
  | .table entries =>
    let put (c : σ) (entry : String × Toml.Value) : Option σ :=
      match fields.find? fun f => f.name == entry.1 with
      | some f => f.put? c entry.2
      | none => if entry.2.isReadable then some c else none
    entries.foldlM put default
  | .array items => (fields.zip items).foldlM (fun c (f, v) => f.put? c v) default
  | .dateTime => some default
  | _ => none

/-- The fields of the space. -/
def spaceFields : List (Field (SpaceConfig Double)) := [
  .of "initial_sti" real? fun c x => { c with initialShortTerm := x },
  .of "initial_lti" real? fun c x => { c with initialLongTerm := x },
  .of "access_boost" real? fun c x => { c with accessBoost := x },
  .of "sti_decay" real? fun c x => { c with shortTermDecay := x },
  .of "lti_transfer" real? fun c x => { c with transfer := x },
  .of "lti_decay" real? fun c x => { c with longTermDecay := x },
  .of "lti_learning_rate" real? fun c x => { c with longTermRate := x },
  .of "revision_boost" real? fun c x => { c with revisionBoost := x },
  .of "revision_epsilon" real? fun c x => { c with revisionThreshold := x },
  .of "min_confidence" real? fun c x => { c with minConfidence := x },
  .of "max_candidates" size? fun c n => { c with maxCandidates := n },
  .of "max_results" size? fun c n => { c with maxResults := n },
  .of "min_forget_priority" real? fun c x => { c with minPriority := x },
  .of "forget_trigger_size" size? fun c n => { c with triggerSize := n },
  .of "forget_target_ratio" real? fun c x => { c with targetRatio := x },
  .of "forget_candidate_fraction" real? fun c x => { c with candidateFraction := x },
  .of "recency_tau" real? fun c x => { c with recencyTau := x }]

/-- The fields of evaluation. -/
def evalFields : List (Field EvalConfig) := [
  .of "max_depth" size? fun c n => { c with maxDepth := n },
  .of "max_results" size? fun c n => { c with maxResults := n }]

/-- The fields of the agent. -/
def agentFields : List (Field (AgentConfig Double)) := [
  .of "exploration" real? fun c x => { c with exploration := x },
  .of "learning_rate" real? fun c x => { c with learningRate := x },
  .of "utility_threshold" real? fun c x => { c with utilityThreshold := x },
  .of "perception_count" real? fun c x => { c with perceptionCount := x },
  .of "perception_boost" real? fun c x => { c with perceptionBoost := x },
  .of "reward_boost" real? fun c x => { c with rewardBoost := x },
  .of "max_cycles" size? fun c n => { c with maxCycles := n }]

/-- The fields of background maintenance. -/
def maintenanceFields : List (Field MaintenanceConfig) := [
  .of "enabled" bool? fun c b => { c with enabled := b },
  .of "interval_ms" size? fun c n => { c with intervalMs := n }]

/-- The fields of the log. -/
def logFields : List (Field String) := [.of "level" text? fun _ s => s]

/-- The sections of a document. -/
def fields : List (Field (Config Double)) := [
  .of "log" (readFields logFields (default : Config Double).logLevel)
    fun c s => { c with logLevel := s },
  .of "memory" (readFields spaceFields default) fun c s => { c with space := s },
  .of "interpreter" (readFields evalFields default) fun c s => { c with eval := s },
  .of "agent" (readFields agentFields default) fun c s => { c with agent := s },
  .of "maintenance" (readFields maintenanceFields default) fun c s => { c with maintenance := s }]

/-- The configuration that a document stands for. -/
def ofToml? (v : Toml.Value) : Option (Config Double) :=
  readFields fields default v

/-! ## Sources -/

/-- A size as a variable of the environment gives it: digits behind an optional plus sign. -/
def sizeOfText? (s : String) : Option Nat :=
  let digits := match s.toList with
    | '+' :: cs => cs
    | cs => cs
  let n := Decimal.ofDigits digits
  if !digits.isEmpty && digits.all Char.isDigit && decide (n < sizeLimit) then some n else none

/-- Lets variables of the environment override a configuration. Sizes that are not numbers are
passed over. -/
def override (env : String → Option String) (c : Config Double) : Config Double :=
  let depth := (env "COGSPACE_MAX_DEPTH").bind sizeOfText?
  let trigger := (env "COGSPACE_FORGET_TRIGGER").bind sizeOfText?
  { c with
    logLevel := (env "COGSPACE_LOG_LEVEL").getD c.logLevel
    eval := { c.eval with maxDepth := depth.getD c.eval.maxDepth }
    space := { c.space with triggerSize := trigger.getD c.space.triggerSize } }

/-- Loads the configuration from what reading its file gave, and the environment. There need not be
a file. -/
def load (file : Except FileError ByteArray) (env : String → Option String) :
    Except ConfigError (Config Double) :=
  match file with
  | .error .missing | .error .notDirectory => .ok (override env default)
  | .error error => .error (.unreadable error)
  | .ok bytes =>
    match decodeText bytes with
    | .error error => .error (.unreadable error)
    | .ok text =>
      match (Toml.parse? text).bind fun entries => ofToml? (.table entries) with
      | none => .error .malformed
      | some c => .ok (override env c)

end Config

end Atomspace
