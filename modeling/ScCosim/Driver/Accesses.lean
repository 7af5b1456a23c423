import ScCosim.Driver.Requests
import ScCosim.Driver.UserMode
import ScCosim.Kernel.Realises

/-!
# The device accesses of a user call

What a user call is for, without the way it takes: writes and reads of device words at byte
addresses, where only a read waits for the device. Both stacks realise this program. The
requests of the virtual driver show one access each. The kernel driver's registers have byte
addresses, its copies to user memory show nothing, and of what it reads the values that only
the log shows are left out.
-/
namespace ScCosim.Driver

open Kernel Program Async Firewall

/-- A data word written to an address, or an address read. -/
inductive Access where
  | write (w : Word × BitVec 32)
  | read (address : BitVec 32)
  deriving DecidableEq, Repr

def Access.written : Access → Option (Word × BitVec 32)
  | .write w => some w
  | .read _ => none

/-- What the request for an access carries. -/
def Access.content : Access → Content
  | .write w => writeContent w
  | .read address => (AsyncCommand.read.code, address, 0)

/-! ### The calls -/

/-- Programs that access the device; the replies are the words read. -/
abbrev Spec (α : Type) := Program Unit Access Word α

namespace Spec

def write (w : Word × BitVec 32) : Spec Unit := emit (.write w)

def read (address : BitVec 32) : Spec Word := do
  emit (.read address)
  receive

def setupFW (a : ScFwDs) : Spec Unit := (setupWrites a).forM write

def pollResponce (port : Word) : Spec (Option Word) :=
  match iobram port with
  | some base => do
    let testData ← read (base + 7 * 4)
    return if testData = 0x80000000 then none else some testData
  | none => return none

def writePacket (a : ScAccessDs) : Spec Unit :=
  match iobram a.inputPort with
  | some base => write (writeValue a, base + 5 * 4)
  | none => return ()

def accessBramFW (a : ScAccessDs) : Spec ScAccessDs := do
  writePacket a
  if a.opCode = 0x0 then
    return a
  else
    let testData ← untilSome (pollResponce a.inputPort)
    return { a with data := printData testData }

def accessBram (a : ScDirectAccessDs) : Spec ScDirectAccessDs :=
  match iobramDirect a.bramNo with
  | none => return a
  | some base =>
    if a.opCode = 0x0 then do
      write (a.data, base + a.addr * 4)
      return a
    else do
      let testData ← read (base + a.addr * 4)
      return { a with data := testData }

def userAccessBramFW (opCode inport outport addrReg data : Word) : Spec Word := do
  let a ← orExit (scUserAccessBramFW opCode inport outport addrReg data)
  let b ← accessBramFW a
  return if opCode = 0x1 then b.data else data

def userAccessBram (opCode bramNo addrReg data : Word) : Spec Word := do
  let a ← orExit (scUserAccessBram opCode bramNo addrReg data)
  let b ← accessBram a
  return if opCode = 0x1 then b.data else data

/-- Record the group of a port, at an offset of its table. -/
def setGid (c : Caller) (groupName : Option (List Char)) (offset : Word) : Spec Unit := do
  if c.isAdmin then
    let gid := c.groupIdFromName groupName
    exitIf (gid.slt 0)
    let _ ← userAccessBramFW 0x0 adminInputPort adminOutputPort offset gid

def setGidPerNoCInport (c : Caller) (groupName : Option (List Char)) (inport : Word) :
    Spec Unit := do
  exitIf (inport ≤ 0 || inport > userNocInputPorts)
  setGid c groupName (offsetInputPortsBram4 + (inport - 1) * 0x4)

def setGidPerNoCOutport (c : Caller) (groupName : Option (List Char)) (outport : Word) :
    Spec Unit := do
  if outport.sle 0 || userNocOutputPorts.slt outport then
    return ()
  setGid c groupName (offsetOutputPortsBram4 + (outport - 1) * 0x4)

def perform (c : Caller) : UserCall → Spec Unit
  | .setupSFW inport l h rule writeOps readOps => do
    let a ← orExit (scUserSetupSFW 0 inport l h rule writeOps readOps)
    setupFW a
  | .setupCFW inport l h rule writeOps readOps outport => do
    let a ← orExit (scUserSetupCFW inport l h rule writeOps readOps outport)
    setupFW a
  | .accessBramFW opCode inport outport addrReg data => do
    let _ ← userAccessBramFW opCode inport outport addrReg data
  | .accessBram opCode bramNo addrReg data => do
    let _ ← userAccessBram opCode bramNo addrReg data
  | .setGidPerNoCInport groupName inport => setGidPerNoCInport c groupName inport
  | .setGidPerNoCOutport groupName outport => setGidPerNoCOutport c groupName outport

end Spec

/-- A read that returns has taken a word. -/
theorem Spec.fewer_of_read {address : BitVec 32} {s t : Session Unit Access Word} {d : Word}
    (h : Spec.read address s = .ok d t) : t.replies.length < s.replies.length := by
  rcases s with ⟨m, done, _ | ⟨r, rest⟩⟩
  · cases h
  · cases h
    exact Nat.lt_succ_self _

/-! ### Rules for both stacks -/

section rules

variable {σ ε ρ α β : Type} {V : View ε ρ Access Word}

/-- A test of a value read takes the value. -/
theorem takes_of_read {ε' ρ' : Type} {p : Program σ ε' ρ' Word} {test : Word → Option α}
    (fewer : ∀ s d t, p s = .ok d t → t.replies.length < s.replies.length) :
    Takes (do let d ← p; return test d) := by
  intro s t goesOn
  cases read : p s with
  | error u r => rw [bind_error read] at goesOn; cases goesOn
  | ok d r =>
    rw [bind_ok read] at goesOn
    obtain ⟨-, rfl⟩ := EStateM.Result.ok.inj goesOn
    exact fewer s d r read

theorem realises_exitIf (bad : Bool) : Realises V (exitIf bad : Program σ ε ρ Unit) (exitIf bad) := by
  cases bad with
  | false => exact realises_pure ()
  | true => exact realises_stop

/-- Checks that refuse the same, and pass on what the other checks pass on. -/
theorem realises_orExit {γ : Type} {checks : Except Refused α} {checks' : Except Refused γ}
    {m : γ → α} {f : α → Program σ ε ρ β} {g : γ → Spec β} (same : checks = checks'.map m)
    (rest : ∀ a, Realises V (f (m a)) (g a)) :
    Realises V (orExit checks >>= f) (orExit checks' >>= g) := by
  subst same
  cases checks' with
  | error refused => exact realises_stop
  | ok a => exact rest a

theorem map_refuseIf_bind {γ : Type} (bad : Bool) (argument : Refused)
    (next : Unit → Except Refused γ) (m : γ → α) :
    (refuseIf bad argument >>= next).map m = refuseIf bad argument >>= fun u => (next u).map m := by
  cases bad <;> rfl

/-- Events that show nothing may come first. -/
theorem realises_after {p : Program σ ε ρ Unit} {f : Program σ ε ρ β} {g : Spec β}
    (first : Realises V p (pure ())) (rest : Realises V f g) :
    Realises V (do p; f) g :=
  realises_bind (g := fun _ => g) first fun _ => rest

end rules

end ScCosim.Driver
