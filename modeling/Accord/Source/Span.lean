/-!
# Source positions

A span is a pair of byte offsets in a numbered file.  Positions are 64-bit words.
-/

namespace Accord

/-- A range of a source file. -/
structure Span where
  start : UInt64 := 0
  stop : UInt64 := 0
  file : UInt64 := 0
deriving DecidableEq

/-- A span that starts and stops at offset zero stands for an unknown position. -/
def Span.isUnknown (span : Span) : Bool :=
  span.start == 0 && span.stop == 0

end Accord
