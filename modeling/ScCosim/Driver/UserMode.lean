import ScCosim.Driver.Ioctl

/-!
# The user calls of the two demos

`sc_user_mode.h` calls the virtual driver, `user_mode.h` calls the kernel driver of the board
through `ioctl`. Both check their arguments and end the process with `exit(1)` if one is
wrong. The device node of the board is opened and closed by each call, and its driver is
loaded. `exit(1)` stops a program; printed texts are left out.
-/
namespace ScCosim.Driver

open Kernel Program Firewall

/-! ### Callers and groups -/

/-- Who calls: `current_gid()`, the groups that `getgrouplist` finds, the group database and
`LONG_MAX` of the machine. -/
structure Caller where
  gid : Word
  groups : List Word
  getgrnam : List Char → Option Word
  longMax : Nat

def isspace (c : Char) : Bool := c.toNat = 32 || (9 ≤ c.toNat && c.toNat ≤ 13)

/-- `strtol(name, &endptr, 10)`: the number and the text `endptr` points to, which is all of
it if there is no number. -/
def strtol (longMax : Nat) (name : List Char) : Int × List Char :=
  let text := name.dropWhile isspace
  let unsigned := if text.head? = some '-' ∨ text.head? = some '+' then text.tail else text
  let digits := unsigned.takeWhile Char.isDigit
  let value : Nat := digits.foldl (fun n c => 10 * n + (c.toNat - 48)) 0
  if digits = [] then (0, name)
  else
    let number : Int := if text.head? = some '-' then -value else value
    (max (-longMax - 1) (min longMax number), unsigned.dropWhile Char.isDigit)

/-- The same in both versions of `user_functions.h`. -/
def Caller.groupIdFromName (c : Caller) : Option (List Char) → Word
  | none => -1
  | some name =>
    if name = [] then -1
    else
      let (g, endptr) := strtol c.longMax name
      if endptr = [] then BitVec.ofInt 32 g else (c.getgrnam name).getD (-1)

/-- `is_admin`, the same in both demos. -/
def Caller.isAdmin (c : Caller) : Bool :=
  c.groups.any fun g => g = c.groupIdFromName (some ['r', 'o', 'o', 't'])

/-- A caller in the root group. -/
structure Root extends Caller where
  root : gid = 0
  admin : toCaller.isAdmin = true

/-! ### What both headers define -/

def offsetInputPortsBram4 : Word := 0x00000000

def offsetOutputPortsBram4 : Word := 0x0000000C

def userNocInputPorts : Word := 3

def userNocOutputPorts : Word := 3

def adminInputPort : Word := 4

def adminOutputPort : Word := 4

section exit

variable {σ ε ρ α : Type}

/-- `exit(1)` under a condition. -/
def exitIf (bad : Bool) : Program σ ε ρ Unit := if bad then stop else pure ()

/-- `exit(1)` for an argument that is refused. -/
def orExit : Except Refused α → Program σ ε ρ α
  | .ok a => pure a
  | .error _ => stop

end exit

/-- `Rule_reg` of a simple setup. -/
def simpleRuleRegister (rule writeOps readOps : Word) : Word :=
  (rule <<< 7) + ((0 : Word) <<< 6) + (writeOps <<< 5) + (readOps <<< 4) + 0x0

/-! ### `sc_user_mode.h` -/

/-- The range check of one memory. -/
def okBram (lAddrReg hAddrReg first last : BitVec 64) : Bool :=
  (lAddrReg ≥ first || lAddrReg < last) || (hAddrReg ≥ first || hAddrReg < last)

/-- The checks of `sc_user_setupSFW` and the structure it passes on, whose output port keeps
what it had before. An `unsigned long` has room for either machine's. -/
def scUserSetupSFW (unset inport : Word) (lAddrReg hAddrReg : BitVec 64)
    (rule writeOps readOps : Word) : Except Refused ScFwDs := do
  refuseIf (inport ≤ 0 || inport > 4) .inputPort
  refuseIf (rule < 0 || rule > 1) .rule
  refuseIf (writeOps < 0 || writeOps > 1) .writeOps
  refuseIf (readOps < 0 || readOps > 1) .readOps
  let okBram1 := okBram lAddrReg hAddrReg 0x40000000 0x40001000
  let okBram2 := !okBram1 && okBram lAddrReg hAddrReg 0x40001000 0x40002000
  let okBram3 := !okBram1 && !okBram2 && okBram lAddrReg hAddrReg 0x40002000 0x40003000
  let okBram4 := !okBram1 && !okBram2 && !okBram3 && okBram lAddrReg hAddrReg 0x40003000 0x40004000
  refuseIf (!okBram1 && !okBram2 && !okBram3 && !okBram4) .range
  return {
    inputPort := inport, outputPort := unset, lAddrReg := lAddrReg.setWidth 32
    hAddrReg := hAddrReg.setWidth 32, ruleReg := simpleRuleRegister rule writeOps readOps }

/-- The checks of `sc_user_accessBram` and the structure it passes on. -/
def scUserAccessBram (opCode bramNo addrReg data : Word) : Except Refused ScDirectAccessDs := do
  refuseIf (bramNo ≤ 0 || bramNo > 4) .outputPort
  refuseIf (opCode < 0 || opCode > 1) .opCode
  return { opCode, bramNo, addr := addrReg, data := if opCode = 0x1 then 0 else data }

namespace Sim

def scUserSetupSFW (unset inport : Word) (lAddrReg hAddrReg : BitVec 64)
    (rule writeOps readOps : Word) : Io Unit := do
  let a ← orExit (Driver.scUserSetupSFW unset inport lAddrReg hAddrReg rule writeOps readOps)
  scSetupFW .tcp a

def scUserSetupCFW (inport lAddrReg hAddrReg rule writeOps readOps outport : Word) : Io Unit := do
  let a ← orExit (Driver.scUserSetupCFW inport lAddrReg hAddrReg rule writeOps readOps outport)
  scSetupFW .tcp a

/-- Returns what `*data` holds afterwards. -/
def scUserAccessBramFW (opCode inport outport addrReg data : Word) : Io Word := do
  let a ← orExit (Driver.scUserAccessBramFW opCode inport outport addrReg data)
  let b ← scAccessBramFW .tcp a
  return if opCode = 0x1 then b.data else data

def scUserAccessBram (opCode bramNo addrReg data : Word) : Io Word := do
  let a ← orExit (Driver.scUserAccessBram opCode bramNo addrReg data)
  let b ← scAccessBram .tcp a
  return if opCode = 0x1 then b.data else data

def scSetGidPerNoCInport (c : Caller) (groupName : Option (List Char)) (inport : Word) :
    Io Unit := do
  exitIf (inport ≤ 0 || inport > userNocInputPorts)
  if c.isAdmin then
    let gid := c.groupIdFromName groupName
    exitIf (gid.slt 0)
    let _ ← scUserAccessBramFW 0x0 adminInputPort adminOutputPort
      (offsetInputPortsBram4 + (inport - 1) * 0x4) gid

/-- The offset is that of the input ports, here as well. -/
def scSetGidPerNoCOutport (c : Caller) (groupName : Option (List Char)) (outport : Word) :
    Io Unit := do
  if outport.sle 0 || userNocOutputPorts.slt outport then
    return ()
  if c.isAdmin then
    let gid := c.groupIdFromName groupName
    exitIf (gid.slt 0)
    let _ ← scUserAccessBramFW 0x0 adminInputPort adminOutputPort
      (offsetInputPortsBram4 + (outport - 1) * 0x4) gid

end Sim

/-! ### `user_mode.h` -/

namespace Hardware

open Kern

/-- User memory after the copies to it. -/
def copied (u : UserWords) (events : List Event) : UserWords :=
  events.foldl (fun u e => match e with
    | .copyToUser words => fun i => words.getD i (u i)
    | _ => u) u

/-- `ioctl` on the device node, with the words at the user's address before and after. -/
def ioctl (init : InitStat) (c : Caller) (request : Command) (words : List Word) :
    Kern.Io (Int × UserWords) := do
  let before := (← get).done.length
  let rc ← myUnlockedIoctl init c.gid request.code fun i => words.getD i 0
  return (rc, copied (fun i => words.getD i 0) ((← get).done.drop before))

/-- The checks of `setupSFW` and the structure it passes on; two of its words are not set. -/
def setupSFWDs (unset inport : Word) (lAddrReg hAddrReg : BitVec 64)
    (rule writeOps readOps : Word) : Except Refused FwDs := do
  refuseIf (inport ≤ 0 || inport > 4) .inputPort
  refuseIf (rule < 0 || rule > 1) .rule
  refuseIf (writeOps < 0 || writeOps > 1) .writeOps
  refuseIf (readOps < 0 || readOps > 1) .readOps
  return {
    opCode := unset, inputPort := inport, outputPort := unset, lAddrReg := lAddrReg.setWidth 32
    hAddrReg := hAddrReg.setWidth 32, ruleReg := simpleRuleRegister rule writeOps readOps }

def setupCFWDs (unset inport lAddrReg hAddrReg rule writeOps readOps outport : Word) :
    Except Refused FwDs := do
  refuseIf (inport ≤ 0 || inport > 4) .inputPort
  refuseIf (outport ≤ 0 || outport > 4) .outputPort
  refuseIf (rule < 0 || rule > 1) .rule
  refuseIf (writeOps < 0 || writeOps > 1) .writeOps
  refuseIf (readOps < 0 || readOps > 1) .readOps
  refuseIf (lAddrReg ≥ hAddrReg || (lAddrReg < 0x00000000 || lAddrReg ≥ 0x00001000) ||
    (hAddrReg < 0x00000000 || hAddrReg > 0x00001000)) .range
  return {
    opCode := unset, inputPort := inport, outputPort := outport, lAddrReg, hAddrReg
    ruleReg := ruleRegister rule writeOps readOps outport }

def accessBramFWDs (opCode inport outport addrReg data : Word) : Except Refused AccessDs := do
  refuseIf (inport ≤ 0 || inport > 4) .inputPort
  refuseIf (outport ≤ 0 || outport > 4) .outputPort
  refuseIf (opCode < 0 || opCode > 1) .opCode
  return {
    opCode, inputPort := inport, outputPort := outport, addr := addrReg
    data := if opCode = 0x1 then 0 else data }

def accessBramDs (opCode bramNo addrReg data : Word) : Except Refused DirectAccessDs := do
  refuseIf (bramNo ≤ 0 || bramNo > 4) .outputPort
  refuseIf (opCode < 0 || opCode > 1) .opCode
  return { opCode, bramNo, addr := addrReg, data := if opCode = 0x1 then 0 else data }

def setupSFW (init : InitStat) (c : Caller) (unset inport : Word) (lAddrReg hAddrReg : BitVec 64)
    (rule writeOps readOps : Word) : Kern.Io Unit := do
  let a ← orExit (setupSFWDs unset inport lAddrReg hAddrReg rule writeOps readOps)
  let (rc, _) ← ioctl init c .setupFwPort a.toUser
  exitIf (rc < 0)

def setupCFW (init : InitStat) (c : Caller)
    (unset inport lAddrReg hAddrReg rule writeOps readOps outport : Word) : Kern.Io Unit := do
  let a ← orExit (setupCFWDs unset inport lAddrReg hAddrReg rule writeOps readOps outport)
  let (rc, _) ← ioctl init c .setupFwPort a.toUser
  exitIf (rc < 0)

/-- Returns the return code and what `*data` holds afterwards. -/
def accessBramFW (init : InitStat) (c : Caller) (opCode inport outport addrReg data : Word) :
    Kern.Io (Int × Word) := do
  let a ← orExit (accessBramFWDs opCode inport outport addrReg data)
  let (rc, u) ← ioctl init c .accessBram (accessDsToUser a)
  exitIf (rc < 0)
  return (rc, if opCode = 0x1 then (accessDsOfUser u).data else data)

def accessBram (init : InitStat) (c : Caller) (opCode bramNo addrReg data : Word) :
    Kern.Io (Int × Word) := do
  let a ← orExit (accessBramDs opCode bramNo addrReg data)
  let (rc, u) ← ioctl init c .directAccessBram (directAccessDsToUser a)
  exitIf (rc < 0)
  return (rc, if opCode = 0x1 then (directAccessDsOfUser u).data else data)

def setGidPerNoCInport (init : InitStat) (c : Caller) (groupName : Option (List Char))
    (inport : Word) : Kern.Io Unit := do
  exitIf (inport ≤ 0 || inport > userNocInputPorts)
  if c.isAdmin then
    let gid := c.groupIdFromName groupName
    exitIf (gid.slt 0)
    let (rc, _) ← accessBramFW init c 0x0 adminInputPort adminOutputPort
      (offsetInputPortsBram4 + (inport - 1) * 0x4) gid
    exitIf (rc < 0)

def setGidPerNoCOutport (init : InitStat) (c : Caller) (groupName : Option (List Char))
    (outport : Word) : Kern.Io Unit := do
  if outport.sle 0 || userNocOutputPorts.slt outport then
    return ()
  if c.isAdmin then
    let gid := c.groupIdFromName groupName
    exitIf (gid.slt 0)
    let (rc, _) ← accessBramFW init c 0x0 adminInputPort adminOutputPort
      (offsetOutputPortsBram4 + (outport - 1) * 0x4) gid
    exitIf (rc < 0)

end Hardware

/-! ### Corresponding calls -/

/-- A call with its arguments, which either demo can make. -/
inductive UserCall where
  | setupSFW (inport : Word) (lAddrReg hAddrReg : BitVec 64) (rule writeOps readOps : Word)
  | setupCFW (inport lAddrReg hAddrReg rule writeOps readOps outport : Word)
  | accessBramFW (opCode inport outport addrReg data : Word)
  | accessBram (opCode bramNo addrReg data : Word)
  | setGidPerNoCInport (groupName : Option (List Char)) (inport : Word)
  | setGidPerNoCOutport (groupName : Option (List Char)) (outport : Word)
  deriving DecidableEq, Repr

/-- The call through the virtual driver. -/
def Sim.perform (c : Caller) (unset : Word) : UserCall → Io Unit
  | .setupSFW inport l h rule writeOps readOps =>
    scUserSetupSFW unset inport l h rule writeOps readOps
  | .setupCFW inport l h rule writeOps readOps outport =>
    scUserSetupCFW inport l h rule writeOps readOps outport
  | .accessBramFW opCode inport outport addrReg data => do
    let _ ← scUserAccessBramFW opCode inport outport addrReg data
  | .accessBram opCode bramNo addrReg data => do
    let _ ← scUserAccessBram opCode bramNo addrReg data
  | .setGidPerNoCInport groupName inport => scSetGidPerNoCInport c groupName inport
  | .setGidPerNoCOutport groupName outport => scSetGidPerNoCOutport c groupName outport

/-- The call through the kernel driver. -/
def Hardware.perform (init : Kern.InitStat) (c : Caller) (unset : Word) : UserCall → Kern.Io Unit
  | .setupSFW inport l h rule writeOps readOps =>
    setupSFW init c unset inport l h rule writeOps readOps
  | .setupCFW inport l h rule writeOps readOps outport =>
    setupCFW init c unset inport l h rule writeOps readOps outport
  | .accessBramFW opCode inport outport addrReg data => do
    let _ ← accessBramFW init c opCode inport outport addrReg data
  | .accessBram opCode bramNo addrReg data => do
    let _ ← accessBram init c opCode bramNo addrReg data
  | .setGidPerNoCInport groupName inport => setGidPerNoCInport init c groupName inport
  | .setGidPerNoCOutport groupName outport => setGidPerNoCOutport init c groupName outport

end ScCosim.Driver
