import ScCosim.Driver.Calls

/-!
# The kernel driver of the hardware demo

`kernel_mode.c` serves the same structures as the virtual driver, for callers of any group.
A program here writes and reads device registers and copies to user memory; a reply is what
the registers of the device hold at the time of a read. A register is named by the pointer
it is reached through and its offset in words. The user's memory can be read and written, and
a `BUG_ON` that strikes does not return.
-/
namespace ScCosim.Driver.Kern

open Kernel Program Firewall

/-- What `ioremap` has mapped: `iobram1_direct` to `iobram4_direct`, `noc_setup_registers`,
`iobram1` to `iobram4`. -/
inductive Window where
  | iobramDirect (bram : Fin 4)
  | nocSetupRegisters
  | iobram (port : Fin 4)
  deriving DecidableEq, Repr

/-- A pointer plus a number of words. -/
structure Register where
  window : Window
  offset : Word
  deriving DecidableEq, Repr

inductive Event where
  | iowrite32 (value : Word) (r : Register)
  | ioread32 (r : Register)
  | copyToUser (words : List Word)
  deriving DecidableEq, Repr

/-- What the registers hold. -/
abbrev Contents := Register → Word

abbrev Io (α : Type) := Program Unit Event Contents α

def iowrite32 (value : Word) (r : Register) : Io Unit := emit (.iowrite32 value r)

def ioread32 (r : Register) : Io Word := do
  emit (.ioread32 r)
  (fun contents => contents r) <$> receive

def copyToUser (words : List Word) : Io Unit := emit (.copyToUser words)

/-- `BUG_ON` -/
def bugOn (condition : Bool) : Io Unit := if condition then stop else pure ()

/-- `ioctl_fw.h`: the structures that the virtual driver has as well. -/
abbrev AccessDs := ScAccessDs

abbrev DirectAccessDs := ScDirectAccessDs

structure FwDs where
  opCode : Word
  inputPort : Word
  outputPort : Word
  lAddrReg : Word
  hAddrReg : Word
  ruleReg : Word
  deriving DecidableEq, Repr

structure StatDs where
  port : Word
  totalPassed : Word
  fifoDropped : Word
  fwDropped : Word
  deriving DecidableEq, Repr

/-- The statistics at the time the module was loaded. -/
structure InitStat where
  total : Fin 4 → Word
  fifo : Fin 4 → Word
  fw : Fin 4 → Word

/-- The numbers 1 to 4, as the `switch` statements tell them apart. -/
def numbered (n : Word) : Option (Fin 4) :=
  if n = 1 then some 0 else if n = 2 then some 1 else if n = 3 then some 2
  else if n = 4 then some 3 else none

/-! ### The handlers -/

def startingLowerReg : Word := 5

def startingHighReg : Word := 13

def startingRuleReg : Word := 21

/-- The register of a port in the setup window. -/
def setupRegister (starting inport : Word) : Register :=
  ⟨.nocSetupRegisters, starting + (inport - 1) * 2⟩

def setupFW (gid : Word) (a : FwDs) : Io Unit :=
  if gid = 0 then do
    iowrite32 0x00000000 (setupRegister startingRuleReg a.inputPort)
    iowrite32 a.lAddrReg (setupRegister startingLowerReg a.inputPort)
    iowrite32 a.hAddrReg (setupRegister startingHighReg a.inputPort)
    iowrite32 a.ruleReg (setupRegister startingRuleReg a.inputPort)
  else bugOn (gid ≠ 0)

def readFWRegs (gid : Word) (a : FwDs) : Io FwDs :=
  if gid = 0 then do
    let l ← ioread32 (setupRegister startingLowerReg a.inputPort)
    let h ← ioread32 (setupRegister startingHighReg a.inputPort)
    let r ← ioread32 (setupRegister startingRuleReg a.inputPort)
    return { a with lAddrReg := l, hAddrReg := h, ruleReg := r }
  else do
    bugOn (gid ≠ 0)
    return a

/-- The flag, which the caller overwrites, and the structure. -/
def checkFWRegs (gid : Word) (a : FwDs) : Io (Int × FwDs) :=
  if gid = 0 then do
    let b ← readFWRegs gid a
    let same : Bool := a.lAddrReg = b.lAddrReg && a.hAddrReg = b.hAddrReg && a.ruleReg = b.ruleReg
    return (if same then 1 else -1, b)
  else do
    bugOn (gid ≠ 0)
    return (0, a)

/-- Direct access; a write is read back for the log. -/
def accessBram (gid : Word) (a : DirectAccessDs) : Io DirectAccessDs := do
  (if gid ≠ 0 ∧ (a.opCode = 0x0 ∨ a.opCode = 0x1) then bugOn (gid ≠ 0 && a.opCode = 0x0)
    else pure ())
  match numbered a.bramNo with
  | none => return a
  | some n =>
    if a.opCode = 0x0 then
      iowrite32 a.data ⟨.iobramDirect n, a.addr⟩
      let _ ← ioread32 ⟨.iobramDirect n, a.addr⟩
      return a
    else
      let testData ← ioread32 ⟨.iobramDirect n, a.addr⟩
      return { a with data := testData }

/-- The `switch` that writes the packet register. -/
def writePacket (a : AccessDs) : Io Unit :=
  match numbered a.inputPort with
  | some n => iowrite32 (writeValue a) ⟨.iobram n, 5⟩
  | none => return ()

/-- One round of the loop that waits for the answer. -/
def pollResponce (port : Word) : Io (Option Word) :=
  match numbered port with
  | some n => do
    let testData ← ioread32 ⟨.iobram n, 7⟩
    return if testData = 0x80000000 then none else some testData
  | none => return none

def accessBramFW (gid : Word) (a : AccessDs) : Io AccessDs := do
  (if gid ≠ 0 ∧ a.opCode = 0x0 then bugOn (gid ≠ 0 && a.opCode = 0x0) else pure ())
  writePacket a
  if a.opCode = 0x0 then
    return a
  else
    let testData ← untilSome (pollResponce a.inputPort)
    return { a with data := printData testData }

/-- The three statistics of a port, less those at the time the module was loaded. -/
def portStats (init : InitStat) (n : Fin 4) : Io (Word × Word × Word) := do
  let total ← ioread32 ⟨.iobram n, 9⟩
  let fifo ← ioread32 ⟨.iobram n, 11⟩
  let fw ← ioread32 ⟨.iobram n, 13⟩
  return (total - init.total n, fifo - init.fifo n, fw - init.fw n)

def readStatsPerPort (init : InitStat) (gid : Word) (a : StatDs) : Io StatDs := do
  (if gid ≠ 0 then bugOn (gid ≠ 0) else pure ())
  match numbered a.port with
  | none => return { a with totalPassed := 0x0, fifoDropped := 0x0, fwDropped := 0x0 }
  | some n =>
    let (total, fifo, fw) ← portStats init n
    return { a with totalPassed := total, fifoDropped := fifo, fwDropped := fw }

def readStatsPerAllPorts (init : InitStat) (gid : Word) (a : StatDs) : Io StatDs := do
  (if gid ≠ 0 then bugOn (gid ≠ 0) else pure ())
  let (total1, fifo1, fw1) ← portStats init 0
  let (total2, fifo2, fw2) ← portStats init 1
  let (total3, fifo3, fw3) ← portStats init 2
  let (total4, fifo4, fw4) ← portStats init 3
  return { a with
    totalPassed := total1 + total2 + total3 + total4
    fifoDropped := fifo1 + fifo2 + fifo3 + fifo4
    fwDropped := fw1 + fw2 + fw3 + fw4 }

/-! ### The entry point -/

/-- The cases of the `switch` in `my_unlocked_ioctl`. -/
inductive Command where
  | setupFwPort
  | checkFwPort
  | directAccessBram
  | accessBram
  | readFwPort
  | readStats
  | readStatsAll
  deriving DecidableEq, Repr

/-- `MYIOC_TYPE`, the character `k`. -/
def myiocType : Word := 0x6b

/-- `_IOC(dir, type, nr, size)` -/
def ioc (dir nr size : Word) : Word := (dir <<< 30) ||| (size <<< 16) ||| (myiocType <<< 8) ||| nr

/-- `_IO(MYIOC_TYPE, nr)`, which the header passes on as a number. -/
def io (nr : Word) : Word := ioc 0 nr 0

/-- The codes of `ioctl_fw.h`, with the sizes of the structures in bytes. -/
def Command.code : Command → Word
  | .setupFwPort => ioc 1 (io 1) 24
  | .checkFwPort => ioc 2 (io 2) 24
  | .readFwPort => ioc 2 (io 1) 24
  | .readStats => ioc 2 (io 3) 16
  | .readStatsAll => ioc 2 (io 4) 16
  | .accessBram => ioc 1 (io 2) 20
  | .directAccessBram => ioc 1 (io 3) 16

def Command.all : List Command :=
  [.setupFwPort, .checkFwPort, .directAccessBram, .accessBram, .readFwPort, .readStats,
    .readStatsAll]

/-- `switch (cmd)`, once `_IOC_TYPE(cmd)` is right. -/
def Command.ofCode (cmd : Word) : Option Command :=
  if (cmd >>> 8) &&& 0xff ≠ myiocType then none else Command.all.find? fun c => c.code = cmd

/-- The words at the user's address, as the structures lay them out. -/
abbrev UserWords := Nat → Word

def FwDs.ofUser (u : UserWords) : FwDs := ⟨u 0, u 1, u 2, u 3, u 4, u 5⟩

def FwDs.toUser (a : FwDs) : List Word :=
  [a.opCode, a.inputPort, a.outputPort, a.lAddrReg, a.hAddrReg, a.ruleReg]

def StatDs.ofUser (u : UserWords) : StatDs := ⟨u 0, u 1, u 2, u 3⟩

def StatDs.toUser (a : StatDs) : List Word := [a.port, a.totalPassed, a.fifoDropped, a.fwDropped]

def accessDsOfUser (u : UserWords) : AccessDs := ⟨u 0, u 1, u 2, u 3, u 4⟩

def accessDsToUser (a : AccessDs) : List Word :=
  [a.opCode, a.inputPort, a.outputPort, a.addr, a.data]

def directAccessDsOfUser (u : UserWords) : DirectAccessDs := ⟨u 0, u 1, u 2, u 3⟩

def directAccessDsToUser (a : DirectAccessDs) : List Word := [a.opCode, a.bramNo, a.addr, a.data]

/-- `-EINVAL` -/
def einval : Int := -22

def serve (init : InitStat) (gid : Word) (u : UserWords) : Command → Io Int
  | .setupFwPort => do
    setupFW gid (.ofUser u)
    return 0
  | .checkFwPort => do
    let (_, a) ← checkFWRegs gid (.ofUser u)
    copyToUser a.toUser
    return 0
  | .directAccessBram => do
    let a ← accessBram gid (directAccessDsOfUser u)
    copyToUser (directAccessDsToUser a)
    return 0
  | .accessBram => do
    let a ← accessBramFW gid (accessDsOfUser u)
    copyToUser (accessDsToUser a)
    return 0
  | .readFwPort => do
    let a ← readFWRegs gid (.ofUser u)
    copyToUser a.toUser
    return 0
  | .readStats => do
    let a ← readStatsPerPort init gid (.ofUser u)
    copyToUser a.toUser
    return 0
  | .readStatsAll => do
    let a ← readStatsPerAllPorts init gid (.ofUser u)
    copyToUser a.toUser
    return 0

def myUnlockedIoctl (init : InitStat) (gid cmd : Word) (u : UserWords) : Io Int :=
  match Command.ofCode cmd with
  | some c => serve init gid u c
  | none => return einval

/-- The codes are told apart. -/
theorem ofCode_code (c : Command) : Command.ofCode c.code = some c := by
  cases c <;> decide

end ScCosim.Driver.Kern
