/-
The timing and batching of a node, with its defaults, its rules and its
reading from JSON.  All durations are in milliseconds.
-/
import SessionRaft.Json.Reader
import SessionRaft.Word

namespace SessionRaft

/-- The knobs of a node. -/
structure Config where
  electionTimeoutMin : Nat := 150
  electionTimeoutMax : Nat := 300
  heartbeatInterval : Nat := 50
  /-- The timeout of a session whose client asks for none. -/
  sessionTimeout : Nat := 5000
  /-- The most entries shipped in one append request. -/
  maxEntriesPerAppend : Nat := 64
deriving DecidableEq

/-- Why a configuration is refused. -/
inductive ConfigError where
  | invalidElectionRange (min max : Nat)
  | heartbeatTooSlow (heartbeat min : Nat)
  | emptyBatch
  | zeroSessionTimeout
  /-- The text is no JSON, or its fields have wrong types. -/
  | json
deriving DecidableEq

/-- The text that reports the error; a fault of the JSON has no fixed one. -/
def ConfigError.message? : ConfigError → Option String
  | invalidElectionRange min max =>
      some ("election timeout range is empty or inverted: " ++ toString min ++
        "..=" ++ toString max)
  | heartbeatTooSlow heartbeat min =>
      some ("heartbeat interval " ++ toString heartbeat ++
        "ms must be below the election timeout " ++ toString min ++ "ms")
  | emptyBatch => some "max_entries_per_append must be at least 1"
  | zeroSessionTimeout => some "session timeout must be non-zero"
  | json => none

namespace Config

/-- The first rule that a configuration breaks. -/
def validate (config : Config) : Except ConfigError Unit :=
  if config.electionTimeoutMin = 0 ∨
      config.electionTimeoutMax < config.electionTimeoutMin then
    .error (.invalidElectionRange config.electionTimeoutMin
      config.electionTimeoutMax)
  else if config.heartbeatInterval = 0 ∨
      config.electionTimeoutMin ≤ config.heartbeatInterval then
    .error (.heartbeatTooSlow config.heartbeatInterval
      config.electionTimeoutMin)
  else if config.maxEntriesPerAppend = 0 then .error .emptyBatch
  else if config.sessionTimeout = 0 then .error .zeroSessionTimeout
  else .ok ()

/-- A request may carry entries. -/
theorem maxEntriesPerAppend_pos {config : Config}
    (hvalid : config.validate = .ok ()) : 0 < config.maxEntriesPerAppend := by
  refine Nat.pos_of_ne_zero (fun hzero => ?_)
  simp only [validate, hzero, ↓reduceIte] at hvalid
  split at hvalid
  · simp at hvalid
  · split at hvalid <;> simp at hvalid

/-- The longest timeout that can be drawn: an inverted range collapses to its
lower bound. -/
def electionTimeoutBound (config : Config) : Nat :=
  max config.electionTimeoutMax config.electionTimeoutMin

/-- The election timeout that a choice in [0, 1, 2, …] draws from the range. -/
def electionTimeout (config : Config) (choice : Nat) : Nat :=
  config.electionTimeoutMin + choice %
    (config.electionTimeoutBound - config.electionTimeoutMin + 1)

theorem electionTimeout_mem_range (config : Config) (choice : Nat) :
    config.electionTimeoutMin ≤ config.electionTimeout choice ∧
      config.electionTimeout choice ≤ config.electionTimeoutBound := by
  have hbound : config.electionTimeoutMin ≤ config.electionTimeoutBound :=
    Nat.le_max_right _ _
  have hmod : choice %
      (config.electionTimeoutBound - config.electionTimeoutMin + 1) <
        config.electionTimeoutBound - config.electionTimeoutMin + 1 :=
    Nat.mod_lt _ (Nat.succ_pos _)
  simp only [electionTimeout]
  omega

def fieldNames : List String :=
  ["election_timeout_min", "election_timeout_max", "heartbeat_interval",
    "session_timeout", "max_entries_per_append"]

/-- A field that is absent has its default. -/
def fieldOr (fallback : Nat) : Option Json → Option Nat
  | none => some fallback
  | some value => value.natural? wordBound

def ofJson? (value : Json) : Option Config := do
  match ← value.record? fieldNames with
  | [min, max, heartbeat, session, batch] =>
      let standard : Config := {}
      return {
        electionTimeoutMin := ← fieldOr standard.electionTimeoutMin min
        electionTimeoutMax := ← fieldOr standard.electionTimeoutMax max
        heartbeatInterval := ← fieldOr standard.heartbeatInterval heartbeat
        sessionTimeout := ← fieldOr standard.sessionTimeout session
        maxEntriesPerAppend := ← fieldOr standard.maxEntriesPerAppend batch }
  | _ => none

/-- Read a configuration from JSON and check it. -/
def parse (input : String) : Except ConfigError Config :=
  match (Json.read? input.toList).bind ofJson? with
  | none => .error .json
  | some config => do
      config.validate
      return config

end Config

end SessionRaft
