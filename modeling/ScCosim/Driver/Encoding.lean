import Mathlib.Algebra.Group.Nat.Defs
import ScCosim.Driver.Calls
import ScCosim.Firewall.Ingress

/-!
# From the user's arguments to the firewall's verdict

What the two user calls accept, the rule register and the packet word they lead to, and what
`interface_in` makes of the two. A rule's bounds are offsets in bytes, the address of an
access counts words, and the packet has eight bits for it.
-/
namespace ScCosim.Driver

open Kernel Firewall

/-! ### What the user calls accept -/

theorem refuseIf_bind_ok {α : Type} {bad : Bool} {argument : Refused}
    {rest : Unit → Except Refused α} {a : α} :
    (refuseIf bad argument >>= rest) = .ok a ↔ bad = false ∧ rest () = .ok a := by
  cases bad <;> simp [refuseIf, bind, Except.bind]

/-- The range check on port numbers leaves 1 to 4. -/
theorem port_of_accepted {port : Word} (h : (decide (port ≤ 0) || decide (port > 4)) = false) :
    0 < port.toNat ∧ port.toNat ≤ 4 := by
  simp only [Bool.or_eq_false_iff, decide_eq_false_iff_not, gt_iff_lt] at h
  bv_omega

/-- The range check on flags leaves 0 and 1. -/
theorem flag_of_accepted {flag : Word} (h : (decide (flag < 0) || decide (flag > 1)) = false) :
    flag = 0 ∨ flag = 1 := by
  simp only [Bool.or_eq_false_iff, decide_eq_false_iff_not, gt_iff_lt] at h
  have low : flag.toNat = 0 ∨ flag.toNat = 1 := by bv_omega
  exact low.imp (fun n => BitVec.eq_of_toNat_eq n) fun n => BitVec.eq_of_toNat_eq n

theorem toNat_inport (p : Port) : (inport p).toNat = p + 1 := by
  revert p
  decide

theorem inport_of_range {port : Word} (low : 0 < port.toNat) (high : port.toNat ≤ 4) :
    ∃ p, port = inport p := by
  refine ⟨⟨port.toNat - 1, by omega⟩, BitVec.eq_of_toNat_eq ?_⟩
  rw [toNat_inport]
  exact (Nat.sub_add_cancel low).symm

/-- A flag as the user writes it. -/
def flagWord (b : Bool) : Word := if b then 1 else 0

theorem flagWord_of_cases {flag : Word} (h : flag = 0 ∨ flag = 1) :
    flag = flagWord (decide (flag = 1)) := by
  rcases h with rfl | rfl <;> decide

/-- The triple that `sc_setupFW` writes. -/
def ScFwDs.triple (a : ScFwDs) : Triple := ⟨a.ruleReg, a.lAddrReg, a.hAddrReg⟩

/-- What the bits of the rule register say of an accepted rule. -/
structure RuleBits (rule writeOps readOps outport : Word) (t : Triple) : Prop where
  enabled : t.enabled = decide (rule = 1)
  nocMode : t.nocMode = true
  forWrites : t.forWrites = decide (writeOps = 1)
  forReads : t.forReads = decide (readOps = 1)
  matchesDest : ∀ w, t.matchesDest w = decide ((dest w).toNat + 1 = outport.toNat)

/-- `matchesDest` on the destination alone. -/
def destBit (r : Word) (d : BitVec 2) : Bool :=
  (r.getLsbD 3 && d == 3) || (r.getLsbD 2 && d == 2) || (r.getLsbD 1 && d == 1) ||
    (r.getLsbD 0 && d == 0)

theorem bits_ruleRegister (rule writeOps readOps : Bool) (p : Port) :
    let r := ruleRegister (flagWord rule) (flagWord writeOps) (flagWord readOps) (inport p)
    r.getLsbD 7 = rule ∧ r.getLsbD 6 = true ∧ r.getLsbD 5 = writeOps ∧ r.getLsbD 4 = readOps ∧
      ∀ d, destBit r d = decide (d.toNat = p) := by
  revert rule writeOps readOps p
  decide +kernel

/-- What `sc_user_setupCFW` accepts and passes on. -/
theorem ruleBits_of_accepted {inport l h rule writeOps readOps outport : Word} {a : ScFwDs}
    (accepted : scUserSetupCFW inport l h rule writeOps readOps outport = .ok a) :
    a.lAddrReg = l ∧ a.hAddrReg = h ∧ a.inputPort = inport ∧
      RuleBits rule writeOps readOps outport a.triple := by
  simp only [scUserSetupCFW, refuseIf_bind_ok] at accepted
  obtain ⟨-, out, ruleFlag, writeFlag, readFlag, -, result⟩ := accepted
  cases result
  obtain ⟨p, rfl⟩ := inport_of_range (port_of_accepted out).1 (port_of_accepted out).2
  obtain ⟨enabled, nocMode, forWrites, forReads, dests⟩ := bits_ruleRegister (decide (rule = 1))
    (decide (writeOps = 1)) (decide (readOps = 1)) p
  rw [← flagWord_of_cases (flag_of_accepted ruleFlag), ← flagWord_of_cases
    (flag_of_accepted writeFlag), ← flagWord_of_cases (flag_of_accepted readFlag)] at *
  refine ⟨rfl, rfl, rfl, enabled, nocMode, forWrites, forReads, fun w => ?_⟩
  rw [toNat_inport]
  exact (dests (dest w)).trans (decide_eq_decide.mpr (Nat.succ_inj (a := (dest w).toNat)).symm)

/-! ### The packet word -/

theorem toNat_sum (addr source destination payload : Word) :
    ((addr <<< 24) + (source <<< 18) + (destination <<< 16) + payload).toNat =
      (addr.toNat * 2 ^ 24 + source.toNat * 2 ^ 18 + destination.toNat * 2 ^ 16 +
        payload.toNat) % 2 ^ 32 := by
  rw [BitVec.toNat_add, BitVec.toNat_add, BitVec.toNat_add, BitVec.toNat_shiftLeft,
    BitVec.toNat_shiftLeft, BitVec.toNat_shiftLeft, Nat.shiftLeft_eq, Nat.shiftLeft_eq,
    Nat.shiftLeft_eq]
  simp only [Nat.mod_add_mod, Nat.add_mod_mod]

/-- A read adds its opcode where a write adds the data. -/
theorem writeValue_eq (a : ScAccessDs) :
    writeValue a = (a.addr <<< 24) + ((a.inputPort - 1) <<< 18) + ((a.outputPort - 1) <<< 16) +
      if a.opCode = 0 then a.data else 0x100000 := by
  unfold writeValue
  by_cases h : a.opCode = 0
  · rw [if_pos h, if_pos h]
  · have opcodeBit : (0x1 : Word) <<< 20 = 0x100000 := by decide
    have payload (x : Word) : x + 0x0 = x := BitVec.add_zero x
    have swap (x y z : Word) : x + y + z = x + z + y := by
      rw [BitVec.add_assoc, BitVec.add_comm y z, BitVec.add_assoc]
    rw [if_neg h, if_neg h, opcodeBit, payload, swap (a.addr <<< 24), swap (a.addr <<< 24 + _)]

theorem toNat_opcode (w : Word) : (opcode w).toNat = w.toNat / 2 ^ 20 % 4 := by
  simp [opcode, BitVec.extractLsb'_toNat, Nat.shiftRight_eq_div_pow]

theorem toNat_src (w : Word) : (src w).toNat = w.toNat / 2 ^ 18 % 4 := by
  simp [src, BitVec.extractLsb'_toNat, Nat.shiftRight_eq_div_pow]

theorem toNat_dest (w : Word) : (dest w).toNat = w.toNat / 2 ^ 16 % 4 := by
  simp [dest, BitVec.extractLsb'_toNat, Nat.shiftRight_eq_div_pow]

theorem toNat_data (w : Word) : (Firewall.data w).toNat = w.toNat % 2 ^ 16 := by
  simp [Firewall.data, BitVec.extractLsb'_toNat]

theorem toNat_addrOffset (w : Word) : (addrOffset w).toNat = w.toNat / 2 ^ 22 % 2 ^ 10 := by
  simp [addrOffset, BitVec.extractLsb'_toNat, Nat.shiftRight_eq_div_pow]

/-- What `sc_user_accessBramFW` accepts and the packet word that comes of it. -/
structure Accepted (op input output address value : Word) (a : ScAccessDs) : Prop where
  opCode : op = 0 ∨ op = 1
  source : (a.inputPort - 1).toNat + 1 = input.toNat ∧ input.toNat ≤ 4
  destination : (a.outputPort - 1).toNat + 1 = output.toNat ∧ output.toNat ≤ 4
  word : (writeValue a).toNat = (address.toNat * 2 ^ 24 + (a.inputPort - 1).toNat * 2 ^ 18 +
    (a.outputPort - 1).toNat * 2 ^ 16 + if op = 0 then value.toNat else 2 ^ 20) % 2 ^ 32

theorem accepted_of_ok {op input output address value : Word} {a : ScAccessDs}
    (h : scUserAccessBramFW op input output address value = .ok a) :
    Accepted op input output address value a := by
  simp only [scUserAccessBramFW, refuseIf_bind_ok] at h
  obtain ⟨inputs, outputs, flag, result⟩ := h
  cases result
  obtain ⟨p, rfl⟩ := inport_of_range (port_of_accepted inputs).1 (port_of_accepted inputs).2
  obtain ⟨q, rfl⟩ := inport_of_range (port_of_accepted outputs).1 (port_of_accepted outputs).2
  have number (p : Port) : (inport p - 1).toNat + 1 = (inport p).toNat ∧ (inport p).toNat ≤ 4 := by
    revert p
    decide
  refine ⟨flag_of_accepted flag, number p, number q, ?_⟩
  rw [writeValue_eq, toNat_sum]
  rcases flag_of_accepted flag with rfl | rfl <;> rfl

/-- The header and the payload that `interface_in` reads are those asked for exactly when
the call is a read or the data has nothing where the header is. -/
theorem packet_fields_iff {op input output address value : Word} {a : ScAccessDs}
    (accepted : scUserAccessBramFW op input output address value = .ok a) :
    ((opcode (writeValue a)).toNat = op.toNat ∧
      (src (writeValue a)).toNat = input.toNat - 1 ∧
      (dest (writeValue a)).toNat = output.toNat - 1 ∧
      (Firewall.data (writeValue a)).toNat = if op = 0 then value.toNat % 2 ^ 16 else 0) ↔
    (op = 1 ∨ value.extractLsb' 16 6 = 0) := by
  obtain ⟨flag, source, destination, word⟩ := accepted_of_ok accepted
  rw [toNat_opcode, toNat_src, toNat_dest, toNat_data, word]
  have header : value.extractLsb' 16 6 = 0 ↔ value.toNat / 2 ^ 16 % 64 = 0 := by
    rw [← BitVec.toNat_inj, BitVec.extractLsb'_toNat, Nat.shiftRight_eq_div_pow]
    rfl
  rcases flag with rfl | rfl
  · -- a write: the data is added to the header
    rw [if_pos rfl, if_pos rfl, header]
    have write : (0 : Word).toNat = 0 := rfl
    have neverRead : (0 : Word) ≠ 1 := by decide
    simp only [write, neverRead, false_or]
    omega
  · -- a read: nothing but the header is added
    have read : (1 : Word).toNat = 1 := rfl
    have notWrite : (1 : Word) ≠ 0 := by decide
    simp only [read, notWrite, if_false, true_or, iff_true]
    omega

theorem packet_fields_of_write :
    ((opcode (writeValue ⟨0, 2, 3, 5, 0x1234⟩)).toNat = (0 : Word).toNat ∧
      (src (writeValue ⟨0, 2, 3, 5, 0x1234⟩)).toNat = (2 : Word).toNat - 1 ∧
      (dest (writeValue ⟨0, 2, 3, 5, 0x1234⟩)).toNat = (3 : Word).toNat - 1 ∧
      (Firewall.data (writeValue ⟨0, 2, 3, 5, 0x1234⟩)).toNat =
        if (0 : Word) = 0 then (0x1234 : Word).toNat % 2 ^ 16 else 0) ↔
    ((0 : Word) = 1 ∨ (0x1234 : Word).extractLsb' 16 6 = 0) :=
  packet_fields_iff (a := ⟨0, 2, 3, 5, 0x1234⟩) rfl

/-- A write of port 1 with data `0x100000` is a read to the firewall. -/
theorem payload_forges_header :
    ¬ ∀ (op input output address value : Word) (a : ScAccessDs),
      scUserAccessBramFW op input output address value = .ok a →
      (opcode (writeValue a)).toNat = op.toNat ∧
        (src (writeValue a)).toNat = input.toNat - 1 ∧
        (dest (writeValue a)).toNat = output.toNat - 1 ∧
        (Firewall.data (writeValue a)).toNat = if op = 0 then value.toNat % 2 ^ 16 else 0 := by
  intro claim
  exact absurd (claim 0 1 1 0 0x100000 _ rfl).1 (by decide)

/-! ### The verdict -/

/-- `interface_in` is at a word that it has not just seen, with its rule up to date. -/
structure Judging (fw : Triple) (s : IngressStep) (w : Word) (rest : Fifo Word) : Prop where
  pc : s.ingress.pc = .loop
  seen : fw.r = s.ingress.preReadR
  read : s.ingress.in_.nbRead = some (w, rest)
  fresh : w ≠ s.ingress.preval

/-- The word goes on record as a hit exactly when the latched rule says so. -/
theorem hit_iff_of_judging {fw : Triple} {s : IngressStep} {w : Word} {rest : Fifo Word}
    (h : Judging fw s w rest) (i : Port) (source : BitVec 2) (responceS : Word) :
    (IngressStep.run i source fw responceS s).ingress.taken =
        s.ingress.taken ++ [⟨w, s.ingress.fwRead, .hit⟩] ↔
      fwHit s.ingress.fwRead w = true := by
  have spec := IngressStep.run_spec i source fw responceS s
  generalize IngressStep.run i source fw responceS s = t at spec ⊢
  have none : s.ingress.in_.nbRead ≠ none := by simp [h.read]
  have same {w' : Word} {rest' : Fifo Word} (read : s.ingress.in_.nbRead = some (w', rest')) :
      w' = w := (Prod.ext_iff.mp (Option.some.inj (read.symm.trans h.read))).1
  cases spec with
  | reset pc | init pc | wait1 pc | resumeHit pc | resumeForward f pc => simp [h.pc] at pc
  | latch pc new => exact absurd h.seen new
  | idle pc seen read => exact absurd read none
  | repeated w' rest' pc seen read again => exact absurd (same read ▸ again) h.fresh
  | hit w' rest' pc seen read hit =>
    obtain rfl := same read
    simp [hit, IngressStep.finishHit, IngressStep.count, IngressStep.take]
  | hitRead w' rest' pc seen read hit =>
    obtain rfl := same read
    rw [(IngressStep.keeps_writeHit _).taken]
    simp [hit, IngressStep.count, IngressStep.take]
  | drop w' rest' pc seen read miss =>
    obtain rfl := same read
    simp [miss, IngressStep.drop, IngressStep.count, IngressStep.take]
  | forward w' rest' pc seen read miss =>
    obtain rfl := same read
    simp [miss, IngressStep.forward, IngressStep.count, IngressStep.take]
  | forwardRead w' rest' pc seen read miss =>
    obtain rfl := same read
    rw [(IngressStep.keeps_writeForward _ _).taken]
    simp [miss, IngressStep.count, IngressStep.take]

/-- With an enabled rule in NoC mode, the verdict on a word from its parts. -/
theorem fwHit_iff {writeOps readOps outport : Word} {t : Triple}
    (bits : RuleBits 1 writeOps readOps outport t) (w : Word) :
    fwHit t w = true ↔
      ((writeOps = 1 ∧ opcode w = 0) ∨ (readOps = 1 ∧ opcode w = 1)) ∧
        ((addrOffset w).toNat ≤ t.h.toNat ∧ t.l.toNat ≤ (addrOffset w).toNat) ∧
          (dest w).toNat + 1 = outport.toNat := by
  have offset : ((addrOffset w).zeroExtend 32).toNat = (addrOffset w).toNat :=
    BitVec.toNat_setWidth_of_le (by decide)
  have inRange : t.inRange ((addrOffset w).zeroExtend 32) = true ↔
      (addrOffset w).toNat ≤ t.h.toNat ∧ t.l.toNat ≤ (addrOffset w).toNat := by
    simp only [Triple.inRange, Bool.and_eq_true, decide_eq_true_eq, BitVec.le_def, offset]
  have matchesOpcode : t.matchesOpcode w = true ↔
      (writeOps = 1 ∧ opcode w = 0) ∨ (readOps = 1 ∧ opcode w = 1) := by
    simp [Triple.matchesOpcode, bits.forWrites, bits.forReads]
  have enabled : t.enabled = true := by rw [bits.enabled]; rfl
  rw [fwHit, if_pos enabled, bits.nocMode, if_pos rfl]
  by_cases covered : t.matchesOpcode w = true
  · rw [if_pos covered, Bool.and_eq_true, inRange, bits.matchesDest, decide_eq_true_eq,
      ← matchesOpcode]
    exact (and_iff_right covered).symm
  · rw [if_neg covered, ← matchesOpcode]
    exact iff_of_false (by decide) fun h => covered h.1

/-- The four writes of `sc_setupFW` are those of the register model. -/
theorem setupWrites_eq (a : ScFwDs) :
    (setupWrites a).map (fun w => (w.2.zeroExtend 64, w.1)) =
      Firewall.scSetupFW a.inputPort a.triple := rfl

/-- The verdict on the word of an access. The packet carries the low eight bits of the address,
which count words, and the bounds are byte offsets. -/
theorem fwHit_writeValue {inport l h writeOps readOps outport : Word} {a : ScFwDs}
    (rule : scUserSetupCFW inport l h 1 writeOps readOps outport = .ok a)
    {op output address value : Word} {b : ScAccessDs}
    (access : scUserAccessBramFW op inport output address value = .ok b)
    (small : value.toNat < 2 ^ 16) :
    fwHit a.triple (writeValue b) = true ↔
      output = outport ∧ (if op = 0 then writeOps else readOps) = 1 ∧
        l.toNat ≤ 4 * (address.toNat % 2 ^ 8) ∧ 4 * (address.toNat % 2 ^ 8) ≤ h.toNat := by
  obtain ⟨low, high, input, bits⟩ := ruleBits_of_accepted rule
  obtain ⟨flag, source, destination, word⟩ := accepted_of_ok access
  rw [fwHit_iff bits]
  -- each field of the word, from the sum
  have ports : (dest (writeValue b)).toNat + 1 = outport.toNat ↔ output = outport := by
    have numbers : output = outport ↔ output.toNat = outport.toNat := BitVec.toNat_inj.symm
    rw [toNat_dest, word, numbers]
    split <;> omega
  have offset : (addrOffset (writeValue b)).toNat = 4 * (address.toNat % 2 ^ 8) := by
    rw [toNat_addrOffset, word]
    split <;> omega
  have operation : ((writeOps = 1 ∧ opcode (writeValue b) = 0) ∨
      (readOps = 1 ∧ opcode (writeValue b) = 1)) ↔
        (if op = 0 then writeOps else readOps) = 1 := by
    have number : (opcode (writeValue b)).toNat = if op = 0 then 0 else 1 := by
      rw [toNat_opcode, word]
      split <;> omega
    rcases flag with rfl | rfl
    · have zero : opcode (writeValue b) = 0 := BitVec.eq_of_toNat_eq number
      simp [zero]
    · have one : opcode (writeValue b) = 1 := BitVec.eq_of_toNat_eq number
      simp [one]
  rw [operation, ports, offset, ScFwDs.triple, low, high]
  tauto

/-- A rule that `sc_user_setupCFW` accepts ends up in the registers of its port as it is,
and once latched it makes `interface_in` record a hit for the word of an access to one of the
256 words that a packet can address exactly when the access goes to the rule's output port,
its operation is denied and the byte offset of its address is between the bounds. -/
theorem policy_enforced {inport l h writeOps readOps outport : Word} {a : ScFwDs}
    (rule : scUserSetupCFW inport l h 1 writeOps readOps outport = .ok a)
    {op output address value : Word} {b : ScAccessDs}
    (access : scUserAccessBramFW op inport output address value = .ok b)
    (fits : address.toNat < 2 ^ 8) (small : value.toNat < 2 ^ 16) :
    (∃ p, inport = Firewall.inport p ∧ ∀ t, registersAfter p t
      ((setupWrites a).map fun w => (w.2.zeroExtend 64, w.1)) = a.triple) ∧
    ∀ (i : Port) (source : BitVec 2) (fw : Triple) (responceS : Word) (s : IngressStep)
      (rest : Fifo Word), s.ingress.fwRead = a.triple → Judging fw s (writeValue b) rest →
      ((IngressStep.run i source fw responceS s).ingress.taken =
          s.ingress.taken ++ [⟨writeValue b, a.triple, .hit⟩] ↔
        output = outport ∧ (if op = 0 then writeOps else readOps) = 1 ∧
          l.toNat ≤ 4 * address.toNat ∧ 4 * address.toNat ≤ h.toNat) := by
  constructor
  · obtain ⟨-, -, input, -⟩ := ruleBits_of_accepted rule
    obtain ⟨-, source, -, -⟩ := accepted_of_ok access
    have range := source.1
    obtain ⟨p, rfl⟩ := inport_of_range (by omega : 0 < inport.toNat) source.2
    refine ⟨p, rfl, fun t => ?_⟩
    rw [setupWrites_eq, input]
    exact (registersAfter_scSetupFW p t a.triple).2.2.2
  · intro i source fw responceS s rest latched judging
    have verdict := fwHit_writeValue rule access small
    rw [Nat.mod_eq_of_lt fits] at verdict
    rw [← latched, hit_iff_of_judging judging, latched, verdict]

/-- A rule that denies writes of port 1 to memory 2, and a write it is about. -/
theorem policy_enforced_on_write :
    (∃ p, (1 : Word) = Firewall.inport p ∧ ∀ t, registersAfter p t
      ((setupWrites ⟨1, 2, 0, 0x100, 0xE2⟩).map fun w => (w.2.zeroExtend 64, w.1)) =
        (ScFwDs.triple ⟨1, 2, 0, 0x100, 0xE2⟩)) ∧
    ∀ (i : Port) (source : BitVec 2) (fw : Triple) (responceS : Word) (s : IngressStep)
      (rest : Fifo Word), s.ingress.fwRead = ScFwDs.triple ⟨1, 2, 0, 0x100, 0xE2⟩ →
      Judging fw s (writeValue ⟨0, 1, 2, 0x20, 7⟩) rest →
      ((IngressStep.run i source fw responceS s).ingress.taken =
          s.ingress.taken ++
            [⟨writeValue ⟨0, 1, 2, 0x20, 7⟩, ScFwDs.triple ⟨1, 2, 0, 0x100, 0xE2⟩, .hit⟩] ↔
        (2 : Word) = 2 ∧ (if (0 : Word) = 0 then (1 : Word) else 0) = 1 ∧
          (0 : Word).toNat ≤ 4 * (0x20 : Word).toNat ∧
            4 * (0x20 : Word).toNat ≤ (0x100 : Word).toNat) :=
  policy_enforced (a := ⟨1, 2, 0, 0x100, 0xE2⟩) (b := ⟨0, 1, 2, 0x20, 7⟩) rfl rfl (by decide)
    (by decide)

/-- A rule on the addresses 0 and 1 misses the write to address 1, whose byte offset is 4;
and a rule on 0 to 4 hits a write to address 256, which does not fit the packet. -/
theorem policy_misses_address :
    (¬ ∀ (inport l h writeOps readOps outport : Word) (a : ScFwDs),
      scUserSetupCFW inport l h 1 writeOps readOps outport = .ok a →
      ∀ (op output address value : Word) (b : ScAccessDs),
      scUserAccessBramFW op inport output address value = .ok b →
      address.toNat < 0x1000 → value.toNat < 2 ^ 16 →
      (fwHit a.triple (writeValue b) = true ↔
        output = outport ∧ (if op = 0 then writeOps else readOps) = 1 ∧
          l.toNat ≤ address.toNat ∧ address.toNat ≤ h.toNat)) ∧
    fwHit ⟨ruleRegister 1 1 0 1, 0, 4⟩ (writeValue ⟨0, 1, 1, 0x100, 7⟩) = true := by
  refine ⟨fun claim => ?_, by decide⟩
  have hit := (claim 1 0 1 1 0 1 _ rfl 0 1 1 7 _ rfl (by decide) (by decide)).mpr (by decide)
  exact absurd hit (by decide)

end ScCosim.Driver
