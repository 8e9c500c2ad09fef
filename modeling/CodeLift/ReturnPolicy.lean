import CodeLift.Address

/-!
# Return policies

Whether execution goes on after a call is not visible in the code. A policy decides it for every
call.
-/

namespace CodeLift

/-- Whether the call at `site` returns, given the callee unless the call is indirect, and the
decoder's opinion if it has one. -/
abbrev ReturnPolicy := (site : Address) → (callee : Option Address) → (hint : Option Bool) → Bool

namespace ReturnPolicy

/-- Every call returns. -/
def always : ReturnPolicy := fun _ _ _ => true

/-- The decoder's opinion counts; a call on which it has none returns. -/
def decoderHint : ReturnPolicy := fun _ _ hint => hint.getD true

/-- Calls of the listed addresses do not return, all others do. -/
def noReturn (callees : List Address) : ReturnPolicy := fun _ callee _ =>
  match callee with
  | some addr => !callees.contains addr
  | none => true

end ReturnPolicy

end CodeLift
