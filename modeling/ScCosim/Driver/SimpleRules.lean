import ScCosim.Driver.Board
import ScCosim.Driver.Encoding

/-!
# Simple rules

A simple rule works in compatibility mode, on addresses. Both demos mean to accept only a
range of addresses inside one of the four memories.
-/
namespace ScCosim.Driver

open Firewall

/-- The range lies in one memory: that of number `k`, from 0x40000000 + 0x1000 * `k` on. -/
def InOneBram (l h : BitVec 64) : Prop :=
  ∃ k < 4, 0x40000000 + 0x1000 * k ≤ l.toNat ∧ l.toNat ≤ h.toNat ∧
    h.toNat < 0x40000000 + 0x1000 * (k + 1)

/-- The word's operation is one that a flag denies. -/
def Denied (writeOps readOps w : Word) : Prop :=
  (writeOps = 1 ∧ opcode w = 0) ∨ (readOps = 1 ∧ opcode w = 1)

/-- In compatibility mode an enabled rule hits the denied operations on the addresses from `l`
to `h`, and no other word; a disabled one hits nothing. -/
structure CoversExactly (l h : BitVec 64) (rule writeOps readOps : Word) (t : Triple) : Prop where
  compatibility : t.nocMode = false
  hits : ∀ w, fwHit t w = true ↔ rule = 1 ∧ Denied writeOps readOps w ∧
    ∃ a, physicalAddress w = some a ∧ l.toNat ≤ a.toNat ∧ a.toNat ≤ h.toNat

/-- The registers of port `p` after the four writes for the structure. -/
def programmed (p : Port) (old : Triple) (a : ScFwDs) : Triple :=
  registersAfter p old ((setupWrites a).map fun w => (w.2.zeroExtend 64, w.1))

theorem programmed_eq {p : Port} {a : ScFwDs} (input : a.inputPort = inport p) (old : Triple) :
    programmed p old a = a.triple := by
  rw [programmed, setupWrites_eq, input]
  exact (registersAfter_scSetupFW p old a.triple).2.2.2

theorem bits_simpleRuleRegister (rule writeOps readOps : Bool) :
    let r := simpleRuleRegister (flagWord rule) (flagWord writeOps) (flagWord readOps)
    r.getLsbD 7 = rule ∧ r.getLsbD 6 = false ∧ r.getLsbD 5 = writeOps ∧ r.getLsbD 4 = readOps := by
  revert rule writeOps readOps
  decide

theorem exists_physicalAddress (w : Word) : ∃ a, physicalAddress w = some a := by
  have dests : ∀ d : BitVec 2, d = 0 ∨ d = 1 ∨ d = 2 ∨ d = 3 := by decide
  unfold physicalAddress
  rcases dests (dest w) with h | h | h | h <;> simp [h]

/-- The rule of a simple setup, whatever its bounds. -/
theorem coversExactly_simple {l h : BitVec 64} {rule writeOps readOps : Word}
    (ruleFlag : rule = 0 ∨ rule = 1) (writeFlag : writeOps = 0 ∨ writeOps = 1)
    (readFlag : readOps = 0 ∨ readOps = 1) (lBelow : l.toNat < 2 ^ 32) (hBelow : h.toNat < 2 ^ 32) :
    CoversExactly l h rule writeOps readOps
      ⟨simpleRuleRegister rule writeOps readOps, l.setWidth 32, h.setWidth 32⟩ := by
  obtain ⟨enabled, nocMode, forWrites, forReads⟩ := bits_simpleRuleRegister (decide (rule = 1))
    (decide (writeOps = 1)) (decide (readOps = 1))
  rw [← flagWord_of_cases ruleFlag, ← flagWord_of_cases writeFlag, ← flagWord_of_cases readFlag] at *
  refine ⟨nocMode, fun w => ?_⟩
  -- every word names some address, so the branch without one is not taken
  obtain ⟨a, address⟩ := exists_physicalAddress w
  generalize triple : (⟨simpleRuleRegister rule writeOps readOps, l.setWidth 32,
    h.setWidth 32⟩ : Triple) = t
  have enabled : t.enabled = decide (rule = 1) := by rw [← triple]; exact enabled
  have nocMode : t.nocMode = false := by rw [← triple]; exact nocMode
  have matchesOpcode : t.matchesOpcode w = true ↔ Denied writeOps readOps w := by
    have forWrites : t.forWrites = decide (writeOps = 1) := by rw [← triple]; exact forWrites
    have forReads : t.forReads = decide (readOps = 1) := by rw [← triple]; exact forReads
    simp [Triple.matchesOpcode, forWrites, forReads, Denied]
  have inRange : t.inRange a = true ↔ l.toNat ≤ a.toNat ∧ a.toNat ≤ h.toNat := by
    rw [← triple]
    simp only [Triple.inRange, Bool.and_eq_true, decide_eq_true_eq, BitVec.le_def,
      BitVec.toNat_setWidth, Nat.mod_eq_of_lt lBelow, Nat.mod_eq_of_lt hBelow]
    exact and_comm
  by_cases isEnabled : rule = 1
  · rw [fwHit, enabled, if_pos (decide_eq_true isEnabled), nocMode, if_neg Bool.false_ne_true,
      address]
    by_cases covered : t.matchesOpcode w = true
    · rw [if_pos covered, inRange]
      simp [isEnabled, matchesOpcode.mp covered]
    · rw [if_neg covered]
      simp [mt matchesOpcode.mpr covered]
  · rw [fwHit, enabled, if_neg (by simpa using isEnabled)]
    exact iff_of_false Bool.false_ne_true fun h => isEnabled h.1

/-- What a simple setup is for: it is accepted for the ranges in one memory only, and then the
rule in force covers them. -/
structure SetsUp (l h : BitVec 64) (rule writeOps readOps : Word)
    (outcome : Except Refused Triple) : Prop where
  accepted : (∃ t, outcome = .ok t) ↔ InOneBram l h
  covers : ∀ t, outcome = .ok t → CoversExactly l h rule writeOps readOps t

theorem scUserSetupSFW_ok (unset : Word) (p : Port) (l h : BitVec 64) {rule writeOps readOps : Word}
    (ruleFlag : rule = 0 ∨ rule = 1) (writeFlag : writeOps = 0 ∨ writeOps = 1)
    (readFlag : readOps = 0 ∨ readOps = 1) :
    scUserSetupSFW unset (inport p) l h rule writeOps readOps =
      .ok ⟨inport p, unset, l.setWidth 32, h.setWidth 32,
        simpleRuleRegister rule writeOps readOps⟩ := by
  -- the check of the range passes whatever the range
  have ok : okBram l h 0x40000000 0x40001000 = true := Hardware.okBram_eq l h (by decide)
  have port : (decide (inport p ≤ 0) || decide (inport p > 4)) = false := by
    revert p
    decide
  have flag {x : Word} (h : x = 0 ∨ x = 1) : (decide (x < 0) || decide (x > 1)) = false := by
    rcases h with rfl | rfl <;> decide
  simp only [scUserSetupSFW, refuseIf_bind_ok, port, flag ruleFlag, flag writeFlag, flag readFlag,
    ok, Bool.not_true, Bool.false_and, true_and]
  rfl

section outcomes

variable (unset : Word) (p : Port) (old : Triple) (l h : BitVec 64) (rule writeOps readOps : Word)

/-- The rule of port `p` after a call of `sc_user_setupSFW`, if it goes on. -/
def simOutcome : Except Refused Triple :=
  (scUserSetupSFW unset (inport p) l h rule writeOps readOps).map (programmed p old)

/-- The same for `setupSFW`, whose driver writes the same four words. -/
def hardwareOutcome : Except Refused Triple :=
  (Hardware.setupSFWDs unset (inport p) l h rule writeOps readOps).map fun a =>
    programmed p old ⟨a.inputPort, a.outputPort, a.lAddrReg, a.hAddrReg, a.ruleReg⟩

/-- Either call goes on, whatever the range. -/
theorem outcomes_ok (ruleFlag : rule = 0 ∨ rule = 1) (writeFlag : writeOps = 0 ∨ writeOps = 1)
    (readFlag : readOps = 0 ∨ readOps = 1) :
    let t : Triple := ⟨simpleRuleRegister rule writeOps readOps, l.setWidth 32, h.setWidth 32⟩
    simOutcome unset p old l h rule writeOps readOps = .ok t ∧
      hardwareOutcome unset p old l h rule writeOps readOps = .ok t := by
  constructor
  · rw [simOutcome, scUserSetupSFW_ok unset p l h ruleFlag writeFlag readFlag, Except.map,
      programmed_eq rfl]
    rfl
  · rw [hardwareOutcome, Hardware.setupSFWDs_eq,
      scUserSetupSFW_ok 0 p l h ruleFlag writeFlag readFlag, Except.map, Except.map,
      programmed_eq rfl]
    rfl

/-- A simple setup does what it is for exactly when its range lies in one memory: outside, it
is accepted all the same. -/
theorem simple_setup_iff (ruleFlag : rule = 0 ∨ rule = 1) (writeFlag : writeOps = 0 ∨ writeOps = 1)
    (readFlag : readOps = 0 ∨ readOps = 1) (lBelow : l.toNat < 2 ^ 32)
    (hBelow : h.toNat < 2 ^ 32) :
    (SetsUp l h rule writeOps readOps (simOutcome unset p old l h rule writeOps readOps) ∧
      SetsUp l h rule writeOps readOps (hardwareOutcome unset p old l h rule writeOps readOps)) ↔
    InOneBram l h := by
  obtain ⟨sim, hardware⟩ := outcomes_ok unset p old l h rule writeOps readOps ruleFlag writeFlag
    readFlag
  have covers := coversExactly_simple ruleFlag writeFlag readFlag lBelow hBelow
  rw [sim, hardware]
  constructor
  · -- an accepted call has a range in one memory
    rintro ⟨setsUp, -⟩
    exact setsUp.accepted.mp ⟨_, rfl⟩
  · intro inside
    have setsUp : SetsUp l h rule writeOps readOps
        (.ok ⟨simpleRuleRegister rule writeOps readOps, l.setWidth 32, h.setWidth 32⟩) :=
      ⟨iff_of_true ⟨_, rfl⟩ inside, fun t same => by cases same; exact covers⟩
    exact ⟨setsUp, setsUp⟩

end outcomes

/-- The second memory's first half, writes denied. -/
theorem simple_setup_iff_second :
    (SetsUp 0x40001000 0x400017FF 1 1 0 (simOutcome 0 0 ⟨0, 0, 0⟩ 0x40001000 0x400017FF 1 1 0) ∧
      SetsUp 0x40001000 0x400017FF 1 1 0
        (hardwareOutcome 0 0 ⟨0, 0, 0⟩ 0x40001000 0x400017FF 1 1 0)) ↔
    InOneBram 0x40001000 0x400017FF :=
  simple_setup_iff 0 0 ⟨0, 0, 0⟩ 0x40001000 0x400017FF 1 1 0 (by decide) (by decide) (by decide)
    (by decide) (by decide)

/-- The range from 0 to 0 is in no memory, and both calls go on. -/
theorem simple_setup_accepts_outside :
    ¬ ∀ (unset : Word) (p : Port) (old : Triple) (l h : BitVec 64) (rule writeOps readOps : Word),
      (rule = 0 ∨ rule = 1) → (writeOps = 0 ∨ writeOps = 1) → (readOps = 0 ∨ readOps = 1) →
      l.toNat < 2 ^ 32 → h.toNat < 2 ^ 32 →
      SetsUp l h rule writeOps readOps (simOutcome unset p old l h rule writeOps readOps) ∧
        SetsUp l h rule writeOps readOps (hardwareOutcome unset p old l h rule writeOps readOps) := by
  intro all
  have setsUp := (all 0 0 ⟨0, 0, 0⟩ 0 0 1 1 1 (by decide) (by decide) (by decide) (by decide)
    (by decide)).1
  obtain ⟨k, -, low, -⟩ := setsUp.accepted.mp ⟨⟨0xB0, 0, 0⟩, rfl⟩
  exact absurd low (by simp)

end ScCosim.Driver
