import ScCosim.Firewall.Machine

/-!
# The setup registers

`sc_setupFW` sets a port's rule with four writes. The registers of a port always hold what
the writes served so far have put there, so a fact about them can be read off the log.
-/
namespace ScCosim.Firewall

open Kernel Async

/-! ### The driver's call -/

/-- `noc_setup_registers` -/
def nocSetupRegisters : BitVec 32 := 0x50000000

def startingLowerReg : BitVec 32 := 5 * 4

def startingHighReg : BitVec 32 := 13 * 4

def startingRuleReg : BitVec 32 := 21 * 4

/-- The writes that `sc_setupFW` issues for input port `inport` (1 to 4), in order. -/
def scSetupFW (inport : BitVec 32) (t : Triple) : List (BitVec 64 × Word) :=
  let register (starting : BitVec 32) : BitVec 64 :=
    (nocSetupRegisters + starting + (inport - 1) * (2 * 4)).zeroExtend 64
  [(register startingRuleReg, 0), (register startingLowerReg, t.l),
    (register startingHighReg, t.h), (register startingRuleReg, t.r)]

/-- The driver counts the ports from one. -/
def inport (p : Port) : BitVec 32 := BitVec.ofNat 32 p + 1

/-! ### What a served write does to a port's registers -/

/-- The register triple of port `p` after one more served write. -/
def applyWrite (p : Port) (t : Triple) (e : BitVec 64 × Word) : Triple :=
  if (directPort e.1).isSome then t
  else
    match writeTarget e.1 with
    | .lower i => if i = p then { t with l := e.2 } else t
    | .upper i => if i = p then { t with h := e.2 } else t
    | .rule i => if i = p then { t with r := e.2 } else t
    | _ => t

def registersAfter (p : Port) (t : Triple) (log : List (BitVec 64 × Word)) : Triple :=
  log.foldl (applyWrite p) t

/-- The write goes to a setup register of port `p`. -/
def isSetupOf (p : Port) (e : BitVec 64 × Word) : Bool :=
  !(directPort e.1).isSome &&
    (writeTarget e.1 == .lower p || writeTarget e.1 == .upper p || writeTarget e.1 == .rule p)

def setupEntries (p : Port) (log : List (BitVec 64 × Word)) : List (BitVec 64 × Word) :=
  log.filter (isSetupOf p)

private theorem applyWrite_of_other {p : Port} {e : BitVec 64 × Word} (h : isSetupOf p e = false)
    (t : Triple) : applyWrite p t e = t := by
  unfold applyWrite
  split
  · rfl
  next direct =>
    simp only [isSetupOf, direct, Bool.not_false, Bool.true_and, Bool.or_eq_false_iff,
      beq_eq_false_iff_ne] at h
    obtain ⟨⟨lower, upper⟩, rule⟩ := h
    split <;> simp_all

/-- Writes to other registers do not count. -/
theorem registersAfter_setupEntries (p : Port) (t : Triple) (log : List (BitVec 64 × Word)) :
    registersAfter p t (setupEntries p log) = registersAfter p t log := by
  unfold registersAfter setupEntries
  -- by induction on the log, from its oldest entry
  induction log generalizing t with
  | nil => rfl
  | cons e log ih =>
    cases h : isSetupOf p e with
    | true => simp [h, ih]
    | false => simp [h, ih, applyWrite_of_other h]

theorem registersAfter_append (p : Port) (t : Triple) (log more : List (BitVec 64 × Word)) :
    registersAfter p t (log ++ more) = registersAfter p (registersAfter p t log) more := by
  simp [registersAfter]

/-- The registers at the four points of one call, from the first write on. -/
theorem registersAfter_scSetupFW (p : Port) (t new : Triple) :
    registersAfter p t ((scSetupFW (inport p) new).take 1) = { t with r := 0 } ∧
      registersAfter p t ((scSetupFW (inport p) new).take 2) = { t with r := 0, l := new.l } ∧
      registersAfter p t ((scSetupFW (inport p) new).take 3) = ⟨0, new.l, new.h⟩ ∧
      registersAfter p t (scSetupFW (inport p) new) = new := by
  match p with
  | 0 | 1 | 2 | 3 => exact ⟨rfl, rfl, rfl, rfl⟩

/-- During a call the registers hold the old triple, a disabled rule or the new triple. -/
theorem registersAfter_call (p : Port) (t new : Triple) (n : Nat) :
    registersAfter p t ((scSetupFW (inport p) new).take n) = t ∨
      (registersAfter p t ((scSetupFW (inport p) new).take n)).r = 0 ∨
      registersAfter p t ((scSetupFW (inport p) new).take n) = new := by
  obtain ⟨one, two, three, four⟩ := registersAfter_scSetupFW p t new
  match n with
  | 0 => exact Or.inl rfl
  | 1 => exact Or.inr (Or.inl (by rw [one]))
  | 2 => exact Or.inr (Or.inl (by rw [two]))
  | 3 => exact Or.inr (Or.inl (by rw [three]))
  | n + 4 =>
    have whole : (scSetupFW (inport p) new).take (n + 4) = scSetupFW (inport p) new :=
      List.take_of_length_le (by simp [scSetupFW])
    exact Or.inr (Or.inr (by rw [whole, four]))

/-- During a series of calls the registers hold the first triple, a disabled rule or the
triple of one of the calls. -/
theorem registersAfter_calls (p : Port) (t : Triple) (calls : List Triple)
    {part : List (BitVec 64 × Word)} (h : part <+: calls.flatMap (scSetupFW (inport p))) :
    registersAfter p t part = t ∨ (registersAfter p t part).r = 0 ∨
      registersAfter p t part ∈ calls := by
  rw [List.prefix_iff_eq_take.mp h]
  clear h
  generalize part.length = n
  -- by induction on the calls: the part ends within the first of them or after it
  induction calls generalizing t n with
  | nil => exact Or.inl (by simp [registersAfter])
  | cons new calls ih =>
    rw [List.flatMap_cons, List.take_append, registersAfter_append]
    by_cases within : n < (scSetupFW (inport p) new).length
    · have none : n - (scSetupFW (inport p) new).length = 0 := by omega
      rw [none]
      rcases registersAfter_call p t new n with same | zero | done
      · exact Or.inl same
      · exact Or.inr (Or.inl zero)
      · exact Or.inr (Or.inr (by simp [registersAfter] at done ⊢; exact Or.inl done))
    · have whole : (scSetupFW (inport p) new).take n = scSetupFW (inport p) new :=
        List.take_of_length_le (by omega)
      rw [whole, (registersAfter_scSetupFW p t new).2.2.2]
      -- the first call is complete, and its triple is what the others start from
      rcases ih new (n - (scSetupFW (inport p) new).length) with same | zero | member
      · exact Or.inr (Or.inr (by rw [same]; exact List.mem_cons_self ..))
      · exact Or.inr (Or.inl zero)
      · exact Or.inr (Or.inr (List.mem_cons_of_mem _ member))

/-! ### The registers hold what the log says -/

namespace Setup

/-- What the setup registers will show after the next update. -/
def setupNext (s : Setup) : Triple :=
  ⟨s.setupRuleRange.next, s.setupLowerRange.next, s.setupUpperRange.next⟩

/-- What `setupfw_rule` has sampled, shown after the next update. -/
def fwNext (s : Setup) : Triple :=
  ⟨s.fwRuleRange.next, s.fwLowerRange.next, s.fwUpperRange.next⟩

/-- The registers' new values are written, the samples stay. -/
def writeSetup (s : Setup) (t : Triple) : Setup :=
  { s with
    setupRuleRange := s.setupRuleRange.write t.r
    setupLowerRange := s.setupLowerRange.write t.l
    setupUpperRange := s.setupUpperRange.write t.h }

@[simp] theorem writeSetup_setupNext_self (s : Setup) : s.writeSetup s.setupNext = s := rfl

@[simp] theorem writeSetup_setupNext (s : Setup) (t : Triple) : (s.writeSetup t).setupNext = t := rfl

theorem sample_setupNext (s : Setup) : s.sample.setupNext = s.setupNext := by
  unfold sample
  split <;> rfl

end Setup

namespace Device

/-! ### What the write thread leaves alone -/

section frame

variable (d : Device) (i : Port) (v : Word)

@[simp] theorem writeIn_setup : (d.writeIn i v).setup = d.setup := by
  unfold writeIn; split <;> rfl

@[simp] theorem writeIn_setupPc : (d.writeIn i v).setupPc = d.setupPc := by
  unfold writeIn; split <;> rfl

@[simp] theorem writeIn_served : (d.writeIn i v).bus.served = d.bus.served := by
  unfold writeIn; split <;> rfl

@[simp] theorem writeDirect_setup : (d.writeDirect i v).setup = d.setup := by
  unfold writeDirect; split <;> rfl

@[simp] theorem writeDirect_setupPc : (d.writeDirect i v).setupPc = d.setupPc := by
  unfold writeDirect; split <;> rfl

@[simp] theorem writeDirect_ingress : (d.writeDirect i v).ingress = d.ingress := by
  unfold writeDirect; split <;> rfl

@[simp] theorem writeDirect_served : (d.writeDirect i v).bus.served = d.bus.served := by
  unfold writeDirect; split <;> rfl

end frame

@[simp] theorem notifyWriteEnded_served (b : Bus) : b.notifyWriteEnded.served = b.served := by
  unfold Bus.notifyWriteEnded; split <;> rfl

/-- A new request is logged, and the registers of every port follow the log. -/
theorem decodeWrite_registers (d : Device) :
    ∃ e, d.decodeWrite.bus.served = d.bus.served ++ [e] ∧
      ∀ p, d.decodeWrite.setup p =
        (d.setup p).writeSetup (applyWrite p (d.setup p).setupNext e) := by
  refine ⟨(d.bus.mWriteAddress, d.bus.mRegisterWrite), ?_⟩
  cases direct : directPort d.bus.mWriteAddress with
  | some k => simp [decodeWrite, applyWrite, direct, setDirect, logServed]
  | none =>
    cases target : writeTarget d.bus.mWriteAddress with
    | packet i | unknown => simp [decodeWrite, applyWrite, direct, target, logServed]
    | lower i | upper i | rule i =>
      simp only [decodeWrite, applyWrite, direct, target, decodeSetup]
      refine ⟨by simp [writeSetup, logServed], fun p => ?_⟩
      -- a setup register of another port changes nothing here
      by_cases h : i = p
      · subst h
        simp [writeSetup, Setup.writeSetup, Setup.setupNext]
      · simp [writeSetup, h, Function.update_of_ne (Ne.symm h), logServed]

end Device

end ScCosim.Firewall
