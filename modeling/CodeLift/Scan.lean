import CodeLift.Decoder
import CodeLift.Event
import CodeLift.ReturnPolicy

/-!
# Scanning a block

Starting from an address, instructions are decoded one after the other until one of them transfers
control, decoding fails, an address comes up that is known already, or the block is full.
-/

namespace CodeLift

/-- What scanning depends on. -/
structure Scanner where
  /-- The instruction at an address. -/
  decode : Address → Except Fault Decoded
  /-- Which calls return. -/
  policy : ReturnPolicy
  /-- The most instructions in a block; at least one is always taken. -/
  limit : Nat

/-- Why a straight run of instructions ends. -/
inductive RunEnd where
  /-- Its last instruction transfers control. -/
  | transfer (flow : ControlFlow)
  /-- The next instruction is known already. -/
  | boundary
  /-- The block is full. -/
  | full
  /-- The next instruction cannot be decoded. -/
  | failure (failure : DecodeFailure)
deriving DecidableEq, Repr

/-- An instruction together with the address that the decoder was asked for. -/
structure Step where
  /-- The address. -/
  pc : Address
  /-- The instruction that was found there. -/
  insn : Insn

/-- A straight run of instructions. -/
structure Run where
  /-- The instructions. -/
  insns : List Insn
  /-- The address at which the run ends. -/
  stop : Address
  /-- Why it ends there. -/
  reason : RunEnd
  /-- The addresses that the decoder was asked for. -/
  attempts : List Address

/-- Where control can go from an instruction at `pc` that is followed by `next`. -/
def exitsFor (policy : ReturnPolicy) (flow : ControlFlow) (pc next : Address) : List Exit :=
  let onward : Exit := ⟨pc, .fallthrough, some next⟩
  match flow with
  | .jump target => [⟨pc, .direct, some target⟩]
  | .condJump target => [⟨pc, .conditional, some target⟩, onward]
  | .call target returns =>
    ⟨pc, .call, some target⟩ :: if policy pc (some target) returns then [onward] else []
  | .indirectCall => ⟨pc, .indirect, none⟩ :: if policy pc none none then [onward] else []
  | .ret => [⟨pc, .indirect, none⟩]
  | .indirectJump => [⟨pc, .indirect, none⟩]
  | .halt => []

/-- A transfer has at most two ways to go on. -/
theorem length_exitsFor_le (policy : ReturnPolicy) (flow : ControlFlow) (pc next : Address) :
    (exitsFor policy flow pc next).length ≤ 2 := by
  unfold exitsFor
  split <;> (try split) <;> simp

namespace Run

/-- The run of the steps `before`, last first, that ends at `stop`. -/
def ofSteps (before : List Step) (stop : Address) (reason : RunEnd) : Run :=
  { insns := before.reverse.map (·.insn)
    stop
    reason
    attempts := before.reverse.map (·.pc) }

/-- The run of the steps `before`, last first, that ends because nothing can be decoded at `pc`. -/
def failed (before : List Step) (pc : Address) (failure : DecodeFailure) : Run :=
  let r := ofSteps before pc (.failure failure)
  { r with attempts := r.attempts ++ [pc] }

/-- The failure that ended the run, if one did. -/
def failure? (r : Run) : Option DecodeFailure :=
  match r.reason with
  | .failure f => some f
  | _ => none

/-- The block that a run from `entry` makes. A failure leaves an operation that says so. -/
def block (r : Run) (entry : Address) : Block :=
  let b := { (Block.empty entry).appendAll r.insns with stop := r.stop }
  match r.reason with
  | .failure _ => b.pushOp (.unreachable r.stop)
  | _ => b

/-- The exits of a run: those of its last instruction, or a fall through to what follows. -/
def exits (r : Run) (policy : ReturnPolicy) : List Exit :=
  match r.insns.getLast? with
  | none => []
  | some last =>
    match r.reason with
    | .transfer flow => exitsFor policy flow last.addr r.stop
    | .boundary => [⟨last.addr, .fallthrough, some r.stop⟩]
    | .full => [⟨last.addr, .fallthrough, some r.stop⟩]
    | .failure _ => []

/-- A run has at most two exits. -/
theorem length_exits_le (r : Run) (policy : ReturnPolicy) : (r.exits policy).length ≤ 2 := by
  unfold exits
  split
  · simp
  · split
    · exact length_exitsFor_le ..
    · simp
    · simp
    · simp

end Run

namespace Scanner

/-- The instruction at `pc`, an empty one counting as a failure. -/
def decodeProper (s : Scanner) (pc : Address) : Except Fault Decoded := do
  match ← s.decode pc with
  | .error failure => return .error failure
  | .ok i => return if i.isEmpty then .error (.invalid pc "empty instruction") else .ok i

/-- The straight run that begins with the steps `before`, last first, and goes on at `pc`, with room
for `room` instructions after the next one. What is known already is asked only after an
instruction: the first one is decoded in any case. -/
def follow (s : Scanner) (known : Address → Bool) (before : List Step) (room : Nat)
    (pc : Address) : Except Fault Run := do
  match ← s.decodeProper pc with
  | .error failure => return .failed before pc failure
  | .ok i =>
    let next ← i.next
    let before := ⟨pc, i⟩ :: before
    match i.flow with
    | some flow => return .ofSteps before next (.transfer flow)
    | none =>
      if known next then return .ofSteps before next .boundary
      else
        match room with
        | 0 => return .ofSteps before next .full
        | room + 1 => s.follow known before room next

/-- The run of a block that begins at `entry`. -/
def run (s : Scanner) (known : Address → Bool) (entry : Address) : Except Fault Run :=
  s.follow known [] (s.limit - 1) entry

/-- What happens when the block at `entry` is scanned. -/
def events (s : Scanner) (entry : Address) (r : Run) : List Event :=
  r.attempts.map .attempted ++
    (if r.reason = .full then [.limitReached entry (max s.limit 1)] else []) ++
    [.scanned entry r.stop r.insns.length (r.exits s.policy).length] ++
    (r.failure?.map .failed).toList

end Scanner

end CodeLift
