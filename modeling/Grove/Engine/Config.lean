import Grove.Json.Reader
import Grove.Json.Fields
import Grove.Position.Span
/-!
# Configuration
-/

set_option autoImplicit false

namespace Grove

/-- The format of positions, and the index of a parent's first child. With an index of zero a first
child would share the left boundary of its parent. -/
structure StoreOptions where
  format : Format
  firstChildIndex : UInt64
  deriving DecidableEq

namespace StoreOptions

def standard : StoreOptions := ⟨.standard, 1⟩

instance : Inhabited StoreOptions := ⟨standard⟩

end StoreOptions

structure Config where
  integerDigits : UInt64
  fractionDigits : UInt64
  firstChildIndex : UInt64
  logFilter : String
  deriving DecidableEq

inductive ConfigError where
  | noIntegerDigits
  | noFractionDigits
  | firstChildAtZero
  deriving DecidableEq

namespace ConfigError

def message : ConfigError → String
  | noIntegerDigits => "integer_digits must be at least 1"
  | noFractionDigits => "fraction_digits must be at least 1"
  | firstChildAtZero => "first_child_index must be at least 1 for nested-set containment"

end ConfigError

namespace Config

def standard : Config := ⟨4, 32, 1, "info"⟩

instance : Inhabited Config := ⟨standard⟩

def validate (c : Config) : Except ConfigError Unit :=
  if c.integerDigits = 0 then .error .noIntegerDigits
  else if c.fractionDigits = 0 then .error .noFractionDigits
  else if c.firstChildIndex = 0 then .error .firstChildAtZero
  else .ok ()

def format (c : Config) : Format := ⟨c.integerDigits, c.fractionDigits⟩

def storeOptions (c : Config) : StoreOptions := ⟨c.format, c.firstChildIndex⟩

def toJson (c : Config) : Json :=
  .object [("integer_digits", Json.ofWord c.integerDigits),
    ("fraction_digits", Json.ofWord c.fractionDigits),
    ("first_child_index", Json.ofWord c.firstChildIndex), ("log_filter", .string c.logFilter)]

/-- Fields that are not given keep their standard values. -/
def ofJson? (tree : Json) : Option Config := do
  let fields ← Json.fields?
    ["integer_digits", "fraction_digits", "first_child_index", "log_filter"] tree
  let integerDigits ← fields.withDefault "integer_digits" standard.integerDigits Json.word?
  let fractionDigits ← fields.withDefault "fraction_digits" standard.fractionDigits Json.word?
  let firstChildIndex ← fields.withDefault "first_child_index" standard.firstChildIndex Json.word?
  let logFilter ← fields.withDefault "log_filter" standard.logFilter Json.string?
  pure ⟨integerDigits, fractionDigits, firstChildIndex, logFilter⟩

end Config

end Grove
