/-
Residency/Fault.lean

Faults: every reason for which an operation of this library stops.

A fault is a cause, with the values that explain it.  What a user sees of it is its
`Diagnostic`: a kind, a code of the form `MEMS-1234`, a message, a hint that may be empty
and, for malformed text, the place.  `Fault.diagnostic` gives the wording of all causes in
one place; `Diagnostic.text` is the line that is shown.

An operation stops only with a fault that can be worded.  Where the message would hold a
number that is too long to be written, `Fault.stated` puts this fault in its place.
-/
import Residency.Text.Quoted
import Residency.Memory.Kind
import Residency.Flow.NodeId

namespace Residency

open Text (Phrase counted decimal hex8 quoted)

/-! ### Codes -/

/-- Coarse categories of faults. -/
inductive Category where
  | configuration
  | parse
  | unknownEntity
  | outsizedEntity
  | invariant
  | internal
deriving DecidableEq, Repr

/-- The word for a category. -/
def Category.word : Category → String
  | .configuration => "CONFIGURATION"
  | .parse => "PARSE"
  | .unknownEntity => "UNKNOWN_ENTITY"
  | .outsizedEntity => "OUTSIZED_ENTITY"
  | .invariant => "INVARIANT"
  | .internal => "INTERNAL"

/-- A fault code: a family, a number and the category it belongs to. -/
structure Code where
  family : String
  number : Int
  category : Category
deriving DecidableEq, Repr

namespace Code

/-- The text of a code: the family and at least four places for the number. -/
def text (c : Code) : String :=
  c.family ++ "-" ++ Text.numeral 10 4 c.number

/-- A code with its category, as a programmer sees it. -/
def describe (c : Code) : String :=
  "ErrorCode(" ++ quoted c.text ++ ", " ++ c.category.word ++ ")"

/-- Two codes are the same code if family and number agree; the category follows from them. -/
def same (c d : Code) : Bool :=
  c.family == d.family && c.number == d.number

/-- A code may also be compared with its text. -/
def isWritten (c : Code) (s : String) : Bool :=
  c.text == s

end Code

/-- The codes in use. -/
inductive StandardCode where
  | zeroSizedMemory
  | invalidLineSize
  | invalidBlockSize
  | misalignedCapacity
  | unsupportedPolicy
  | unsupportedMemoryType
  | missingOption
  | invalidOptionValue
  | missingFunctionSizes
  | malformedText
  | unknownFunction
  | unknownNode
  | outsizedFunction
  | duplicateAddress
  | mustOverflow
  | joinArity
  | missingEntry
  | internal
deriving DecidableEq, Repr

namespace StandardCode

/-- The number of a code in use. -/
def number : StandardCode → Int
  | zeroSizedMemory => 1000
  | invalidLineSize => 1001
  | invalidBlockSize => 1002
  | misalignedCapacity => 1003
  | unsupportedPolicy => 1010
  | unsupportedMemoryType => 1011
  | missingOption => 1020
  | invalidOptionValue => 1021
  | missingFunctionSizes => 1030
  | malformedText => 1100
  | unknownFunction => 2000
  | unknownNode => 2001
  | outsizedFunction => 3000
  | duplicateAddress => 9000
  | mustOverflow => 9001
  | joinArity => 9002
  | missingEntry => 9003
  | internal => 9999

/-- The category of a code in use. -/
def category : StandardCode → Category
  | malformedText => .parse
  | unknownFunction | unknownNode => .unknownEntity
  | outsizedFunction => .outsizedEntity
  | duplicateAddress | mustOverflow | joinArity | missingEntry => .invariant
  | internal => .internal
  | _ => .configuration

/-- A code in use as a code of the family `MEMS`. -/
def code (c : StandardCode) : Code :=
  ⟨"MEMS", c.number, c.category⟩

end StandardCode

/-! ### Diagnostics -/

/-- The kinds of faults, each a special case of its parent. -/
inductive FaultKind where
  | general
  | configuration
  | malformedText
  | unknownFunction
  | unknownNode
  | outsizedFunction
  | invariant
  /-- A request that makes no sense to the library, outside the hierarchy of the others. -/
  | misuse
  /-- A number that cannot be used where it stands, outside the hierarchy of the others. -/
  | badNumber
deriving DecidableEq, Repr

namespace FaultKind

/-- The kinds that a kind is a special case of, itself first. -/
def lineage : FaultKind → List FaultKind
  | general => [general]
  | configuration => [configuration, general]
  | malformedText => [malformedText, configuration, general]
  | unknownFunction => [unknownFunction, general]
  | unknownNode => [unknownNode, general]
  | outsizedFunction => [outsizedFunction, general]
  | invariant => [invariant, general]
  | misuse => [misuse]
  | badNumber => [badNumber]

/-- The code of a kind where no other is given. -/
def defaultCode : FaultKind → StandardCode
  | general => .internal
  | configuration => .zeroSizedMemory
  | malformedText => .malformedText
  | unknownFunction => .unknownFunction
  | unknownNode => .unknownNode
  | outsizedFunction => .outsizedFunction
  | invariant => .mustOverflow
  | misuse => .internal
  | badNumber => .internal

end FaultKind

/-- Where in a text something is wrong. -/
structure Place where
  source : String
  line : Option Int
  column : Option Int
deriving DecidableEq, Repr

/-- The source of a text that has no name of its own. -/
def unnamedSource : String := "<string>"

/-- What a user sees of a fault. -/
structure Diagnostic where
  kind : FaultKind
  code : Code
  message : Phrase
  hint : String
  place : Option Place
deriving DecidableEq, Repr

namespace Diagnostic

/-- A diagnostic with the code of its kind and no hint. -/
def ofKind (kind : FaultKind) (message : Phrase) : Diagnostic :=
  ⟨kind, kind.defaultCode.code, message, "", none⟩

/-- Something is wrong in a text.  The message starts with the place if the line is known; an
unknown column is shown as 0. -/
def malformed (place : Place) (message : Phrase) : Diagnostic :=
  let located := match place.line with
    | none => message
    | some line =>
      place.source ++ ":" ++ decimal line ++ ":" ++ decimal (place.column.getD 0) ++ ": " ++ message
  { ofKind .malformedText located with place := some place }

/-- No function starts at `address`. -/
def unknownFunction (address : Int) : Diagnostic :=
  { ofKind .unknownFunction ("No function found for address " ++ hex8 address) with
    hint := "the CFG references a function missing from the function table" }

/-- No node is called `node`. -/
def unknownNode (node : NodeId) : Diagnostic :=
  ofKind .unknownNode ("unknown node " ++ node.text)

/-- A function of `size` bytes never fits into a memory of `capacity` bytes. -/
def outsizedFunction (address size capacity : Int) : Diagnostic :=
  { ofKind .outsizedFunction ("function " ++ hex8 address ++ " has size of " ++ decimal size ++
      " bytes, but memory has size of " ++ decimal capacity ++ " bytes") with
    hint := "set memory_disp_ignore_outsized_functions to fetch it off-chip" }

/-- The diagnostic with another code. -/
def withCode (d : Diagnostic) (c : StandardCode) : Diagnostic :=
  { d with code := c.code }

/-- The diagnostic with a hint. -/
def withHint (d : Diagnostic) (hint : String) : Diagnostic :=
  { d with hint := hint }

/-- The line that is shown: code, message, and the hint if there is one. -/
def text (d : Diagnostic) : Phrase :=
  "[" ++ d.code.text ++ "] " ++ d.message ++
    if d.hint = "" then "" else " (hint: " ++ d.hint ++ ")"

end Diagnostic

/-! ### Causes -/

/-- Everything that can go wrong. -/
inductive Fault where
  /-- A cache of no bytes. -/
  | cacheSize (capacity : Int)
  /-- A cache line whose size is not a power of two. -/
  | lineSize (lineSize : Int)
  /-- A cache that is not made of whole lines. -/
  | cacheAlignment (capacity lineSize : Int)
  /-- A given number of offset bits that the line size does not have. -/
  | lineBits (given lineSize : Int)
  /-- A given number of lines that the cache does not have. -/
  | lineCount (given capacity lineSize : Int)
  /-- A fully associative cache without lines. -/
  | noLruLine
  /-- A direct-mapped cache without lines. -/
  | noDirectMappedLine
  /-- A scratchpad of no bytes. -/
  | scratchpadSize (capacity : Int)
  /-- A scratchpad block of no bytes. -/
  | scratchpadBlock (blockSize : Int)
  /-- A scratchpad that is not made of whole blocks. -/
  | scratchpadAlignment (capacity blockSize : Int)
  /-- A word that names no memory type. -/
  | memoryType (text : String)
  /-- A word that names no policy. -/
  | policyKind (text : String)
  /-- An option that must be given and is not. -/
  | missingOption (key : String)
  /-- An option that should be an integer. -/
  | notInteger (key text : String)
  /-- An option that should be a truth value. -/
  | notBoolean (key text : String)
  /-- The geometry of a cache asked of settings for another memory. -/
  | notCacheSettings (type : MemoryType)
  /-- The geometry of a scratchpad asked of settings for another memory. -/
  | notScratchpadSettings (type : MemoryType)
  /-- A policy that has no model for the memory. -/
  | unsupportedPolicy (policy : PolicyKind) (memory : MemoryType)
  /-- A scratchpad without a table of function sizes. -/
  | missingFunctionSizes
  /-- A policy asked for on the ground of something that describes no memory. -/
  | foreignSource (description : String)
  /-- A line of settings that is neither an option nor a comment. -/
  | malformedOption (source : String) (line : Nat)
  /-- A line of a function table that is neither a function nor a comment. -/
  | malformedFunction (source : String) (line : Nat)
  /-- A function size with too many digits. -/
  | longNumeral (source : String) (digits : Nat)
  /-- A function table in both formats. -/
  | mixedFormats (source : String)
  /-- A listed function of no bytes. -/
  | emptyFunction (source : String) (line : Nat) (name : String)
  /-- A listed function whose successor does not lie above it. -/
  | unboundedFunction (source : String) (line : Nat) (name : String)
  /-- A function table with blocks of no bytes. -/
  | tableBlock (blockSize : Int)
  /-- A registered function of no bytes. -/
  | functionSize (address size : Int)
  /-- An address at which no function starts. -/
  | unknownFunction (address : Int)
  /-- A function that is larger than the scratchpad. -/
  | outsizedFunction (address size capacity : Int)
  /-- A node that is not in the graph. -/
  | unknownNode (node : NodeId)
  /-- An entry node that is not in the graph. -/
  | missingEntry (node : NodeId)
  /-- An address that a set holds twice. -/
  | duplicateAddress (address : Int)
  /-- A surely resident entry that a hit would push out of the memory. -/
  | mustOverflow (address age size capacity hit : Int)
  /-- A join of fewer than two states. -/
  | joinArity (count : Nat)
  /-- A slot asked of a direct-mapped cache whose line offsets have fewer than no bits. -/
  | negativeLineBits
  /-- A number that is too long to be written. -/
  | unwritableNumber
deriving DecidableEq, Repr

namespace Fault

/-- A configuration diagnostic with its code. -/
def configuration (code : StandardCode) (message : Phrase) : Diagnostic :=
  (Diagnostic.ofKind .configuration message).withCode code

/-- An invariant diagnostic with its code. -/
def invariant (code : StandardCode) (message : Phrase) : Diagnostic :=
  (Diagnostic.ofKind .invariant message).withCode code

/-- A diagnostic for a whole line. -/
def atLine (source : String) (line : Nat) (column : Option Int) (message : Phrase) : Diagnostic :=
  Diagnostic.malformed ⟨source, some line, column⟩ message

/-- A diagnostic for a text as a whole. -/
def inText (source : String) (message : Phrase) : Diagnostic :=
  Diagnostic.malformed ⟨source, none, none⟩ message

/-- The memories in the plural. -/
def memories : MemoryType → String
  | .cache => "instruction caches"
  | .scratchpad => "scratchpads"

/-- What a user sees of each cause. -/
def diagnostic : Fault → Diagnostic
  | cacheSize capacity =>
    configuration .zeroSizedMemory ("cache size must be positive, got " ++ decimal capacity)
  | lineSize size =>
    configuration .invalidLineSize
      ("cache line size must be a power of two, got " ++ decimal size)
  | cacheAlignment capacity size =>
    configuration .misalignedCapacity ("cache size " ++ decimal capacity ++
      " is not a multiple of the line size " ++ decimal size)
  | lineBits given size =>
    configuration .invalidLineSize ("line_size_bits " ++ decimal given ++
      " does not match line size " ++ decimal size)
  | lineCount given capacity size =>
    configuration .misalignedCapacity ("num_lines " ++ decimal given ++ " does not match " ++
      decimal capacity ++ "/" ++ decimal size)
  | noLruLine =>
    configuration .zeroSizedMemory "LRU cache needs at least one line"
  | noDirectMappedLine =>
    configuration .zeroSizedMemory "direct-mapped cache needs at least one line"
  | scratchpadSize capacity =>
    configuration .zeroSizedMemory ("scratchpad size must be positive, got " ++ decimal capacity)
  | scratchpadBlock size =>
    configuration .invalidBlockSize
      ("scratchpad block size must be positive, got " ++ decimal size)
  | scratchpadAlignment capacity size =>
    configuration .misalignedCapacity ("scratchpad size " ++ decimal capacity ++
      " is not a multiple of the block size " ++ decimal size)
  | memoryType text =>
    (configuration .unsupportedMemoryType ("unsupported memory type " ++ quoted text)).withHint
      "use ICACHE or DISP"
  | policyKind text =>
    (configuration .unsupportedPolicy ("unknown replacement policy " ++ quoted text)).withHint
      "use LRU or DIRECT_MAPPED"
  | missingOption key =>
    configuration .missingOption ("missing configuration option " ++ quoted key)
  | notInteger key text =>
    configuration .invalidOptionValue
      ("option " ++ quoted key ++ " expects an integer, got " ++ quoted text)
  | notBoolean key text =>
    (configuration .invalidOptionValue
      ("option " ++ quoted key ++ " expects a boolean, got " ++ quoted text)).withHint
      "use 0/1 or true/false"
  | notCacheSettings type =>
    configuration .unsupportedMemoryType
      ("cache parameters requested for a " ++ type.word ++ " configuration")
  | notScratchpadSettings type =>
    configuration .unsupportedMemoryType
      ("scratchpad parameters requested for a " ++ type.word ++ " configuration")
  | unsupportedPolicy policy memory =>
    configuration .unsupportedPolicy
      ("replacement policy " ++ policy.word ++ " is not supported for " ++ memories memory)
  | missingFunctionSizes =>
    (configuration .missingFunctionSizes
      "a scratchpad policy needs the sizes of the program's functions").withHint
      "pass a FunctionTable as function_sizes"
  | foreignSource description =>
    Diagnostic.ofKind .misuse ("cannot build a replacement policy from " ++ description)
  | malformedOption source line => atLine source line (some 1) "expected 'key = value'"
  | malformedFunction source line =>
    atLine source line (some 1) "malformed function table entry"
  | longNumeral source digits =>
    inText source ("cannot read function table: ValueError: Exceeds the limit (4300 digits) for " ++
      "integer string conversion: value has " ++ counted digits ++
      " digits; use sys.set_int_max_str_digits() to increase the limit")
  | mixedFormats source => inText source "function table mixes the old and the current format"
  | emptyFunction source line name =>
    atLine source line none ("function " ++ quoted name ++ " has size 0")
  | unboundedFunction source line name =>
    atLine source line none
      ("function " ++ quoted name ++ " is not followed by a higher address")
  | tableBlock size =>
    configuration .invalidBlockSize ("block size must be positive, got " ++ decimal size)
  | functionSize address size =>
    configuration .invalidOptionValue
      ("function " ++ hex8 address ++ " must have a positive size, got " ++ decimal size)
  | unknownFunction address => Diagnostic.unknownFunction address
  | outsizedFunction address size capacity => Diagnostic.outsizedFunction address size capacity
  | unknownNode node => Diagnostic.unknownNode node
  | missingEntry node =>
    invariant .missingEntry ("entry node " ++ node.text ++ " is not part of the graph")
  | duplicateAddress address =>
    invariant .duplicateAddress
      ("address " ++ hex8 address ++ " present twice in one memory set")
  | mustOverflow address age size capacity hit =>
    invariant .mustOverflow ("MUST entry " ++ hex8 address ++ " pushed to age " ++ decimal age ++
      " (size " ++ decimal size ++ ") beyond capacity " ++ decimal capacity ++ " by a hit on " ++
      hex8 hit)
  | joinArity count =>
    invariant .joinArity ("join needs at least two states, got " ++ counted count)
  | negativeLineBits => Diagnostic.ofKind .badNumber "the bits of a line offset are negative"
  | unwritableNumber => Diagnostic.ofKind .badNumber "a number is too long to be written"

/-- The fault, if its message can be written; otherwise that it cannot. -/
def stated (e : Fault) : Fault :=
  match e.diagnostic.message.text? with
  | some _ => e
  | none => unwritableNumber

end Fault

/-- Stops with a fault. -/
def refuse {α : Type} (e : Fault) : Except Fault α :=
  .error e.stated

end Residency
