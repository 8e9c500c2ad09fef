import CodeLift.FlowGraph

/-!
# Events

What happens while a region is lifted, in order: every attempt to decode, every block, every cut.
The log is written from these events, and the questions put to the decoder can be read off them.
-/

namespace CodeLift

/-- Something that happens while a region is lifted. -/
inductive Event where
  /-- A region of `size` bytes is entered at `entry`. -/
  | started (size : Nat) (entry : Address)
  /-- The decoder is asked for the instruction at `pc`. -/
  | attempted (pc : Address)
  /-- The block at `entry` is full with `limit` instructions. -/
  | limitReached (entry : Address) (limit : Nat)
  /-- The block from `entry` to `stop` has been read. -/
  | scanned (entry stop : Address) (insns exits : Nat)
  /-- An instruction could not be decoded. -/
  | failed (failure : DecodeFailure)
  /-- A transfer goes to `target`, outside the region. -/
  | outside (target : Address)
  /-- The block at `head` is cut at `addr`. -/
  | split (head addr : Address)
  /-- The exit is dropped, because no block begins at its target. -/
  | dropped (source target : Address) (kind : EdgeKind)
  /-- The function is complete. -/
  | finished (entry : Address) (blocks edges diagnostics : Nat)
deriving DecidableEq, Repr

/-- The address that the decoder is asked for, if that is what happens. -/
def Event.attempt? : Event → Option Address
  | attempted pc => some pc
  | _ => none

/-- The addresses that the decoder was asked for, in order. -/
def attempts (events : List Event) : List Address := events.filterMap Event.attempt?

end CodeLift
