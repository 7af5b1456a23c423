import ScCosim.Driver.Events
import Mathlib.Algebra.Group.Nat.Defs

/-!
# Where the driver's accesses end up

`mfd_init` maps one region for each window. An access adds words to the pointer of a window,
and pointers have 32 bits on the board, so a large index comes round to the region again. An
access is confined if its four bytes lie in the region that its pointer starts from.
-/
namespace ScCosim.Driver.Kern

open Kernel Program Firewall

/-- `DRV_PAGE_SIZE` -/
def drvPageSize : Nat := 1024

/-- The size of the region, as `mfd_init` asks `ioremap` for it. -/
def Window.length : Window → Nat
  | .iobramDirect _ => 4 * drvPageSize
  | .nocSetupRegisters | .iobram _ => drvPageSize

/-- Where `ioremap` has put the regions. None of them runs past the last address. -/
structure Mapping where
  base : Window → BitVec 32
  whole : ∀ w, (base w).toNat + w.length ≤ 2 ^ 32

def Mapping.address (m : Mapping) (r : Register) : BitVec 32 := m.base r.window + 4 * r.offset

def Mapping.Inside (m : Mapping) (r : Register) : Prop :=
  (m.base r.window).toNat ≤ (m.address r).toNat ∧
    (m.address r).toNat + 4 ≤ (m.base r.window).toNat + r.window.length

def Event.register : Event → Option Register
  | .iowrite32 _ r | .ioread32 r => some r
  | .copyToUser _ => none

/-- The register accessed, if any, lies in its region. -/
def Event.Confined (m : Mapping) (e : Event) : Prop := ∀ r ∈ e.register, m.Inside r

/-! ### Offsets that fit -/

/-- Pointers take a number of words modulo 2^30. -/
def Register.Fits (r : Register) : Prop := 4 * (r.offset.toNat % 2 ^ 30) + 4 ≤ r.window.length

variable (m : Mapping)

theorem inside_iff (r : Register) : m.Inside r ↔ r.Fits := by
  have whole := m.whole r.window
  have low := (m.base r.window).isLt
  have four : (4 : Word).toNat = 4 := rfl
  unfold Mapping.Inside Mapping.address Register.Fits
  rw [BitVec.toNat_add, BitVec.toNat_mul, four]
  -- past the last address the pointer comes out below the region
  omega

theorem fits_constant {port : Fin 4} {offset : Word} (small : offset.toNat < 256) :
    Register.Fits ⟨.iobram port, offset⟩ := by
  simp only [Register.Fits, Window.length, drvPageSize]
  omega

theorem fits_direct_iff (bram : Fin 4) (addr : Word) :
    Register.Fits ⟨.iobramDirect bram, addr⟩ ↔ addr.toNat % 2 ^ 30 < 1024 := by
  simp only [Register.Fits, Window.length, drvPageSize]
  omega

/-- The ports whose three registers lie in the setup region: 1 to 118, and 0 and -1, whose
registers begin in front of the first. -/
def PortFits (port : Word) : Prop := (port + 1).toNat % 2 ^ 29 ≤ 119

theorem toNat_setupRegister (starting port : Word) :
    (setupRegister starting port).offset.toNat =
      (starting.toNat + 2 * (port.toNat + (2 ^ 32 - 1))) % 2 ^ 32 := by
  have one : (1 : Word).toNat = 1 := rfl
  have two : (2 : Word).toNat = 2 := rfl
  simp only [setupRegister, BitVec.toNat_add, BitVec.toNat_mul, BitVec.toNat_sub, one, two]
  omega

theorem fits_setupRegister_iff (starting port : Word) :
    (setupRegister starting port).Fits ↔
      (starting.toNat + 2 * (port.toNat + (2 ^ 32 - 1))) % 2 ^ 30 < 256 := by
  have window : (setupRegister starting port).window = .nocSetupRegisters := rfl
  rw [Register.Fits, toNat_setupRegister, window]
  simp only [Window.length, drvPageSize]
  omega

/-- The lowest and the highest of the three registers decide. -/
theorem portFits_iff (port : Word) :
    PortFits port ↔ ∀ starting ∈ ruleStarts, (setupRegister starting port).Fits := by
  have one : (1 : Word).toNat = 1 := rfl
  have lower : startingLowerReg.toNat = 5 := rfl
  have high : startingHighReg.toNat = 13 := rfl
  have rule : startingRuleReg.toNat = 21 := rfl
  simp only [ruleStarts, List.forall_mem_cons, List.not_mem_nil, false_imp_iff, implies_true,
    and_true, fits_setupRegister_iff, lower, high, rule]
  rw [PortFits, BitVec.toNat_add, one]
  -- the registers of a port are eight words apart, from the fifth word on
  omega

/-! ### Accesses that fit -/

variable {m}

theorem confined_iowrite32 {value : Word} {r : Register} (fits : r.Fits) :
    (Event.iowrite32 value r).Confined m := by
  intro r' same
  obtain rfl := Option.some.inj same
  exact (inside_iff m r).mpr fits

theorem confined_ioread32 {r : Register} (fits : r.Fits) : (Event.ioread32 r).Confined m := by
  intro r' same
  obtain rfl := Option.some.inj same
  exact (inside_iff m r).mpr fits

theorem confined_copyToUser (words : List Word) : (Event.copyToUser words).Confined m :=
  fun _ absent => by cases absent

theorem confined_statistics (n : Fin 4) :
    ∀ offset ∈ statisticsOffsets, (Event.ioread32 ⟨.iobram n, offset⟩).Confined m := by
  intro offset member
  have small : ∀ offset ∈ statisticsOffsets, offset.toNat < 256 := by simp [statisticsOffsets]
  exact confined_ioread32 (fits_constant (small offset member))

/-! ### The calls of the root group -/

/-- What the structure may hold: a port whose registers fit, for the commands that set up or
read a rule; no memory at all or a word of the memory, for the direct access. -/
def Confined (cmd : Word) (u : UserWords) : Prop :=
  match Command.ofCode cmd with
  | some .setupFwPort | some .checkFwPort | some .readFwPort => PortFits (FwDs.ofUser u).inputPort
  | some .directAccessBram =>
    numbered (directAccessDsOfUser u).bramNo = none ∨
      (directAccessDsOfUser u).addr.toNat % 2 ^ 30 < 1024
  | _ => True

theorem only_serve (init : InitStat) (gid : Word) {u : UserWords} {cmd : Word} {c : Command}
    (code : Command.ofCode cmd = some c) (confined : Confined cmd u) :
    Only (Event.Confined m) (serve init gid u c) := by
  unfold Confined at confined
  rw [code] at confined
  have shown {words : List Word} :
      Only (Event.Confined m) (do copyToUser words; return 0 : Io Int) :=
    only_bind (only_copyToUser (confined_copyToUser words)) fun _ => only_pure 0
  cases c with
  -- the setup window: the three registers of the port
  | setupFwPort =>
    have fits := (portFits_iff _).mp confined
    exact only_bind (only_setupFW fun starting member _ => confined_iowrite32 (fits starting member))
      fun _ => only_pure 0
  | checkFwPort =>
    have fits := (portFits_iff _).mp confined
    exact only_bind (only_checkFWRegs fun starting member => confined_ioread32 (fits starting member))
      fun _ => shown
  | readFwPort =>
    have fits := (portFits_iff _).mp confined
    exact only_bind (only_readFWRegs fun starting member => confined_ioread32 (fits starting member))
      fun _ => shown
  | directAccessBram =>
    have fits (n : Fin 4) (known : n ∈ numbered (directAccessDsOfUser u).bramNo) :
        Register.Fits ⟨.iobramDirect n, (directAccessDsOfUser u).addr⟩ :=
      (fits_direct_iff n _).mpr (confined.resolve_left fun none => by simp [none] at known)
    exact only_bind (only_accessBram (fun _ n known => confined_iowrite32 (fits n known))
      fun n known => confined_ioread32 (fits n known)) fun _ => shown
  -- the other offsets are constants
  | accessBram =>
    exact only_bind (only_accessBramFW
      (fun _ _ => confined_iowrite32 (fits_constant (by decide)))
      fun _ _ => confined_ioread32 (fits_constant (by decide))) fun _ => shown
  | readStats => exact only_bind (only_readStatsPerPort confined_statistics) fun _ => shown
  | readStatsAll => exact only_bind (only_readStatsPerAllPorts confined_statistics) fun _ => shown

/-- If the three registers of a rule have been accessed, they fit. -/
theorem portFits_of_accessed {port : Word} {es : List Event} (each : ∀ e ∈ es, e.Confined m)
    (accessed : ∀ starting ∈ ruleStarts, ∃ e ∈ es, setupRegister starting port ∈ e.register) :
    PortFits port := by
  rw [portFits_iff]
  intro starting member
  obtain ⟨e, done, register⟩ := accessed starting member
  exact (inside_iff m _).mp (each e done _ register)

/-- The three registers are written, or read if there are replies. -/
theorem accessed_of_rule (init : InitStat) (u : UserWords) {c : Command}
    (rule : c = .setupFwPort ∨ c = .checkFwPort ∨ c = .readFwPort) :
    ∀ starting ∈ ruleStarts,
      ∃ e ∈ (after (serve init 0 u c ⟨(), [], List.replicate 3 fun _ => 0⟩)).done,
        setupRegister starting (FwDs.ofUser u).inputPort ∈ e.register := by
  intro starting member
  simp only [ruleStarts, List.mem_cons, List.not_mem_nil, or_false] at member
  rcases rule with rfl | rfl | rfl
  · rcases member with rfl | rfl | rfl
    · exact ⟨.iowrite32 (u 3) _, List.mem_of_getElem? (i := 1) rfl, rfl⟩
    · exact ⟨.iowrite32 (u 4) _, List.mem_of_getElem? (i := 2) rfl, rfl⟩
    · exact ⟨.iowrite32 (u 5) _, List.mem_of_getElem? (i := 3) rfl, rfl⟩
  all_goals
    refine ⟨.ioread32 (setupRegister starting (FwDs.ofUser u).inputPort), ?_, rfl⟩
    rcases member with rfl | rfl | rfl
    · exact List.mem_of_getElem? (i := 0) rfl
    · exact List.mem_of_getElem? (i := 1) rfl
    · exact List.mem_of_getElem? (i := 2) rfl

/-- A direct access to a memory that exists reaches its register. -/
theorem accessed_direct (init : InitStat) (u : UserWords) {n : Fin 4}
    (known : numbered (directAccessDsOfUser u).bramNo = some n) :
    ∃ e ∈ (after (serve init 0 u .directAccessBram ⟨(), [], []⟩)).done,
      ⟨.iobramDirect n, (directAccessDsOfUser u).addr⟩ ∈ e.register := by
  by_cases write : (directAccessDsOfUser u).opCode = 0x0
  · refine ⟨.iowrite32 (directAccessDsOfUser u).data _, ?_, rfl⟩
    simp only [serve, accessBram, known, write]
    exact List.mem_of_getElem? (i := 0) rfl
  · refine ⟨.ioread32 _, ?_, rfl⟩
    simp only [serve, accessBram, known, write]
    exact List.mem_of_getElem? (i := 0) rfl

variable (m) in
/-- The accesses of a call of the root group are confined for those structures, and for no
others. -/
theorem confined_iff (init : InitStat) (cmd : Word) (u : UserWords) :
    Only (Event.Confined m) (myUnlockedIoctl init 0 cmd u) ↔ Confined cmd u := by
  cases code : Command.ofCode cmd with
  | none => simp only [myUnlockedIoctl, Confined, code, only_pure]
  | some c =>
    have served : myUnlockedIoctl init 0 cmd u = serve init 0 u c := by
      simp only [myUnlockedIoctl, code]
    rw [served]
    constructor
    swap
    · exact only_serve init 0 code
    intro only
    simp only [Confined, code]
    -- one run with its accesses decides
    cases c with
    | setupFwPort | checkFwPort | readFwPort =>
      exact portFits_of_accessed (fun _ => only.of_run) (accessed_of_rule init u (by simp))
    | directAccessBram =>
      cases known : numbered (directAccessDsOfUser u).bramNo with
      | none => exact Or.inl rfl
      | some n =>
        obtain ⟨e, done, register⟩ := accessed_direct init u known
        exact Or.inr ((fits_direct_iff n _).mp ((inside_iff m _).mp (only.of_run done _ register)))
    | accessBram | readStats | readStatsAll => exact trivial

/-- One page for each region, the direct windows first. -/
def pagedMapping : Mapping where
  base
    | .iobramDirect n => 0xf0000000 + 0x1000 * BitVec.ofFin (n.castLE (by decide))
    | .nocSetupRegisters => 0xf0004000
    | .iobram n => 0xf0005000 + 0x1000 * BitVec.ofFin (n.castLE (by decide))
  whole
    | .iobramDirect n => by decide +revert
    | .nocSetupRegisters => by decide
    | .iobram n => by decide +revert

/-- The root group reads the word behind memory 1. -/
theorem direct_read_leaves_region :
    ¬ ∀ (m : Mapping) (init : InitStat) (cmd : Word) (u : UserWords),
      Only (Event.Confined m) (myUnlockedIoctl init 0 cmd u) := by
  intro claim
  have only := claim pagedMapping ⟨fun _ => 0, fun _ => 0, fun _ => 0⟩
    Command.directAccessBram.code fun i => [1, 1, 1024, 0].getD i 0
  have done : Event.ioread32 ⟨.iobramDirect 0, 1024⟩ ∈ (after (myUnlockedIoctl
      ⟨fun _ => 0, fun _ => 0, fun _ => 0⟩ 0 Command.directAccessBram.code
      (fun i => [1, 1, 1024, 0].getD i 0) ⟨(), [], []⟩)).done := by decide
  have inside := (inside_iff pagedMapping _).mp (only.of_run done _ rfl)
  exact absurd ((fits_direct_iff 0 1024).mp inside) (by decide)

end ScCosim.Driver.Kern
