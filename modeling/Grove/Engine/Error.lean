import Grove.Engine.Config
import Grove.Forest.Error
import Grove.Selector.Error
/-!
# Why a backend or the engine gives no result
-/

set_option autoImplicit false

namespace Grove

inductive EngineError where
  | selector (cause : SyntaxError)
  | encode (cause : EncodeError)
  | store (cause : StoreError)
  | config (cause : ConfigError)
  | unknownTarget (uid : String)
  deriving DecidableEq

namespace EngineError

def message : EngineError → String
  | selector cause => "selector syntax error: " ++ cause.message
  | encode cause => "position encoding failed: " ++ cause.message
  | store cause => "store error: " ++ cause.message
  | config cause => "invalid configuration: " ++ cause.message
  | unknownTarget uid => "no model with diggerid " ++ uid

end EngineError

end Grove
