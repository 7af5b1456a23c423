import ScCosim.Driver.Ioctl

/-!
# The events of the kernel driver's handlers

One lemma for each handler: if the register accesses that it can make are of some kind, then
it makes accesses of that kind only.
-/
namespace ScCosim.Driver.Kern

open Kernel Program Firewall

/-- Where the registers of a rule start in the setup window. -/
def ruleStarts : List Word := [startingLowerReg, startingHighReg, startingRuleReg]

/-- Total, FIFO and firewall statistics of a port. -/
def statisticsOffsets : List Word := [9, 11, 13]

variable {P : Event → Prop} {gid : Word}

theorem only_iowrite32 {value : Word} {r : Register} (write : P (.iowrite32 value r)) :
    Only P (iowrite32 value r) := only_emit write

theorem only_ioread32 {r : Register} (read : P (.ioread32 r)) : Only P (ioread32 r) :=
  only_bind (only_emit read) fun _ => only_map _ only_receive

theorem only_copyToUser {words : List Word} (copy : P (.copyToUser words)) :
    Only P (copyToUser words) := only_emit copy

theorem only_bugOn (condition : Bool) : Only P (bugOn condition) := by
  cases condition
  · exact only_pure ()
  · exact only_stop

/-- A `BUG_ON` that does not strike. -/
theorem bugOn_if_passes {refused : Prop} [Decidable refused] {condition : Bool}
    (passes : condition = false) :
    ((if refused then bugOn condition else pure ()) : Io Unit) = pure () := by
  rw [passes]
  exact ite_self _

theorem only_bugOn_if (refused : Prop) [Decidable refused] (condition : Bool) :
    Only P (if refused then bugOn condition else pure ()) := by
  split
  · exact only_bugOn condition
  · exact only_pure ()

theorem only_setupFW {a : FwDs}
    (write : ∀ starting ∈ ruleStarts, ∀ v, P (.iowrite32 v (setupRegister starting a.inputPort))) :
    Only P (setupFW gid a) := by
  have lower := write startingLowerReg (by simp [ruleStarts])
  have high := write startingHighReg (by simp [ruleStarts])
  have rule := write startingRuleReg (by simp [ruleStarts])
  unfold setupFW
  split
  · exact only_bind (only_iowrite32 (rule _)) fun _ =>
      only_bind (only_iowrite32 (lower _)) fun _ =>
        only_bind (only_iowrite32 (high _)) fun _ => only_iowrite32 (rule _)
  · exact only_bugOn _

theorem only_readFWRegs {a : FwDs}
    (read : ∀ starting ∈ ruleStarts, P (.ioread32 (setupRegister starting a.inputPort))) :
    Only P (readFWRegs gid a) := by
  have lower := read startingLowerReg (by simp [ruleStarts])
  have high := read startingHighReg (by simp [ruleStarts])
  have rule := read startingRuleReg (by simp [ruleStarts])
  unfold readFWRegs
  split
  · exact only_bind (only_ioread32 lower) fun _ => only_bind (only_ioread32 high) fun _ =>
      only_bind (only_ioread32 rule) fun _ => only_pure _
  · exact only_bind (only_bugOn _) fun _ => only_pure a

theorem only_checkFWRegs {a : FwDs}
    (read : ∀ starting ∈ ruleStarts, P (.ioread32 (setupRegister starting a.inputPort))) :
    Only P (checkFWRegs gid a) := by
  unfold checkFWRegs
  split
  · exact only_bind (only_readFWRegs read) fun _ => only_pure _
  · exact only_bind (only_bugOn _) fun _ => only_pure _

theorem only_accessBram {a : DirectAccessDs}
    (write : a.opCode = 0x0 → ∀ n ∈ numbered a.bramNo,
      P (.iowrite32 a.data ⟨.iobramDirect n, a.addr⟩))
    (read : ∀ n ∈ numbered a.bramNo, P (.ioread32 ⟨.iobramDirect n, a.addr⟩)) :
    Only P (accessBram gid a) := by
  unfold accessBram
  refine only_bind (only_bugOn_if _ _) fun _ => ?_
  split
  next => exact only_pure a
  next n known =>
    split
    -- a write is read back
    next zero =>
      exact only_bind (only_iowrite32 (write zero n known)) fun _ =>
        only_bind (only_ioread32 (read n known)) fun _ => only_pure a
    next => exact only_bind (only_ioread32 (read n known)) fun _ => only_pure _

theorem only_pollResponce {port : Word}
    (read : ∀ n ∈ numbered port, P (.ioread32 ⟨.iobram n, 7⟩)) : Only P (pollResponce port) := by
  unfold pollResponce
  split
  next n known => exact only_bind (only_ioread32 (read n known)) fun _ => only_pure _
  next => exact only_pure none

theorem only_accessBramFW {a : AccessDs}
    (write : ∀ n ∈ numbered a.inputPort, P (.iowrite32 (writeValue a) ⟨.iobram n, 5⟩))
    (read : ∀ n ∈ numbered a.inputPort, P (.ioread32 ⟨.iobram n, 7⟩)) :
    Only P (accessBramFW gid a) := by
  have packet : Only P (writePacket a) := by
    unfold writePacket
    split
    next n known => exact only_iowrite32 (write n known)
    next => exact only_pure ()
  unfold accessBramFW
  refine only_bind (only_bugOn_if _ _) fun _ => only_bind packet fun _ => ?_
  split
  -- only a read polls for its answer
  · exact only_pure a
  · exact only_bind (only_untilSome (only_pollResponce read)) fun _ => only_pure _

theorem only_portStats {init : InitStat} {n : Fin 4}
    (read : ∀ offset ∈ statisticsOffsets, P (.ioread32 ⟨.iobram n, offset⟩)) :
    Only P (portStats init n) :=
  only_bind (only_ioread32 (read 9 (by simp [statisticsOffsets]))) fun _ =>
    only_bind (only_ioread32 (read 11 (by simp [statisticsOffsets]))) fun _ =>
      only_bind (only_ioread32 (read 13 (by simp [statisticsOffsets]))) fun _ => only_pure _

theorem only_readStatsPerPort {init : InitStat} {a : StatDs}
    (read : ∀ n, ∀ offset ∈ statisticsOffsets, P (.ioread32 ⟨.iobram n, offset⟩)) :
    Only P (readStatsPerPort init gid a) := by
  refine only_bind (only_bugOn_if _ _) fun _ => ?_
  split
  -- a port that does not exist is not looked at
  · exact only_pure _
  · exact only_bind (only_portStats (read _)) fun _ => only_pure _

theorem only_readStatsPerAllPorts {init : InitStat} {a : StatDs}
    (read : ∀ n, ∀ offset ∈ statisticsOffsets, P (.ioread32 ⟨.iobram n, offset⟩)) :
    Only P (readStatsPerAllPorts init gid a) :=
  only_bind (only_bugOn_if _ _) fun _ => only_bind (only_portStats (read 0)) fun _ =>
    only_bind (only_portStats (read 1)) fun _ => only_bind (only_portStats (read 2)) fun _ =>
      only_bind (only_portStats (read 3)) fun _ => only_pure _

end ScCosim.Driver.Kern
