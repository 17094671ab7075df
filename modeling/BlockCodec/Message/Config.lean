/-!
# Limits of the codec
-/

namespace BlockCodec

/-- Nesting allowed when nothing else is said; the top-level message is at depth 0. -/
def defaultMaxDepth : Nat := 32

structure DecodeConfig where
  maxDepth : Nat := defaultMaxDepth
  /-- Fields that the table does not have fail instead of being skipped. -/
  strictUnknown : Bool := false
  /-- Fields with a wire type that does not suit them are skipped instead of failing. -/
  skipMismatched : Bool := false
  /-- Text must be well-formed UTF-8. -/
  validateUtf8 : Bool := true
deriving Repr, DecidableEq

structure EncodeConfig where
  maxDepth : Nat := defaultMaxDepth
deriving Repr, DecidableEq

end BlockCodec
