/-
Residency/Journal.lean

The journal: what the operations of this library tell about their work.  A record has a
level, the component it comes from and a message.  Whether a record is kept is decided by
the sink that takes it; without a sink nothing is kept.

`Console` is the set-up under which records are printed: a verbosity chosen by the user
sets the threshold, and the first choice attaches the printer.  A printer loses a record that
cannot be worded.  Only a sink that the user attaches can be strict and stop whoever made the
record.
-/
namespace Residency

/-- How important a record is. -/
inductive Level where
  | debug
  | info
  | warning
  | error
deriving DecidableEq, Repr

namespace Level

/-- Levels in ascending order of importance. -/
def rank : Level → Nat
  | debug => 0
  | info => 1
  | warning => 2
  | error => 3

/-- The word for a level. -/
def word : Level → String
  | debug => "DEBUG"
  | info => "INFO"
  | warning => "WARNING"
  | error => "ERROR"

/-- The word for a level in five columns. -/
def column : Level → String
  | debug => "DEBUG"
  | info => "INFO "
  | warning => "WARNI"
  | error => "ERROR"

end Level

/-- The parts of the library that keep a journal. -/
inductive Component where
  | geometry
  | settings
  | functionTable
  | lruCache
  | directMapped
  | scratchpad
  | policy
  | selection
  | verdict
  | solver
deriving DecidableEq, Repr

/-- The name under which a component's records appear. -/
def Component.title : Component → String
  | geometry => "wcet_memstate.memory_params"
  | settings => "wcet_memstate.config"
  | functionTable => "wcet_memstate.function_table"
  | lruCache => "wcet_memstate.lru_cache"
  | directMapped => "wcet_memstate.direct_mapped"
  | scratchpad => "wcet_memstate.lru_disp"
  | policy => "wcet_memstate.replacement_policy"
  | selection => "wcet_memstate.policy_factory"
  | verdict => "wcet_memstate.classification"
  | solver => "wcet_memstate.dfa"

/-- One message of the journal. -/
structure Record where
  level : Level
  component : Component
  message : String
deriving DecidableEq, Repr

/-- A record as the console prints it. -/
def Record.line (r : Record) : String :=
  "[" ++ r.level.column ++ "] " ++ r.component.title ++ ": " ++ r.message

/-! ### Sinks -/

/-- What takes the records. -/
structure Sink where
  /-- The least level that is kept. -/
  least : Level
  /-- Does a record that cannot be worded stop the analysis that makes it? -/
  strict : Bool
deriving DecidableEq, Repr

/-- The sink for the records, if there is one. -/
abbrev Journal := Option Sink

namespace Journal

/-- Are records of the level kept? -/
def admits (j : Journal) (l : Level) : Bool :=
  match j with
  | none => false
  | some sink => sink.least.rank ≤ l.rank

/-- Does a record that cannot be worded stop the analysis? -/
def isStrict (j : Journal) : Bool :=
  match j with
  | none => false
  | some sink => sink.strict

end Journal

/-- The least level that is kept, if any is. -/
abbrev Threshold := Option Level

/-- What the library attaches itself: from the threshold on, records are kept if they can be
worded. -/
def Threshold.journal (t : Threshold) : Journal :=
  t.map fun least => ⟨least, false⟩

instance : Coe Threshold Journal := ⟨Threshold.journal⟩

/-! ### The console -/

/-- How records are printed. -/
structure Console where
  /-- The level that was set, if one was. -/
  level : Option Level
  /-- The number of printers that are attached. -/
  printers : Nat
deriving DecidableEq, Repr

namespace Console

/-- Nothing was set and nothing is printed. -/
def fresh : Console :=
  ⟨none, 0⟩

/-- The level for a verbosity: 1 for information, 2 and above for everything, and otherwise
warnings. -/
def levelFor (verbosity : Int) : Level :=
  if verbosity = 1 then .info else if 2 ≤ verbosity then .debug else .warning

/-- Chooses a verbosity.  The first choice attaches a printer; later ones change the level only. -/
def setVerbosity (c : Console) (verbosity : Int) : Console :=
  ⟨some (levelFor verbosity), if c.printers = 0 then 1 else c.printers⟩

/-- What is printed at present. -/
def threshold (c : Console) : Threshold :=
  if c.printers = 0 then none else c.level

/-- The word for the level that was set. -/
def levelWord (c : Console) : String :=
  match c.level with
  | none => "NOTSET"
  | some l => l.word

end Console

end Residency
