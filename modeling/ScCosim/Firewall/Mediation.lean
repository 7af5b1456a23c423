import ScCosim.Firewall.Routing
import ScCosim.Firewall.Rules

/-!
# Writes past an enabled rule

A word is matched only if its opcode field is 0 or 1, and written to memory whenever it is
not 1. So a rule that denies writes keeps the writes of opcode 0 off the cells it covers,
whatever way a packet takes, and those of opcode 2 and 3 it lets through.
-/
namespace ScCosim.Firewall

open Kernel Async

/-! ### What a rule covers -/

/-- The rule is enabled and denies writes. -/
def Triple.deniesWrites (t : Triple) : Bool := t.enabled && t.forWrites

/-- The cell of offset `o` in BRAM `k` is one that the rule is about. -/
def Triple.covers (t : Triple) (k : Port) (o : BitVec 10) : Bool :=
  if t.nocMode then t.r.getLsbD k && t.inRange (o.zeroExtend 32)
  else t.inRange (Device.memBase k + o.zeroExtend 32)

private theorem matchesDest_iff (t : Triple) (w : Word) :
    t.matchesDest w = t.r.getLsbD (portOf (dest w)) := by
  unfold Triple.matchesDest portOf
  generalize dest w = b
  match b with
  | 0 | 1 | 2 | 3 => simp [BitVec.getLsbD_eq_getElem]

private theorem physicalAddress_eq (w : Word) :
    physicalAddress w =
      some (Device.memBase (portOf (dest w)) + (addrOffset w).zeroExtend 32) := by
  unfold physicalAddress Device.memBase portOf
  generalize dest w = b
  match b with
  | 0 | 1 | 2 | 3 => simp [BitVec.add_comm]

/-- A word of opcode 0 for a covered cell is matched by a rule that denies writes. -/
theorem fwHit_of_covers {t : Triple} {w : Word} (denies : t.deniesWrites = true)
    (covered : t.covers (portOf (dest w)) (addrOffset w) = true) (op : opcode w = 0) :
    fwHit t w = true := by
  obtain ⟨enabled, writes⟩ : t.enabled = true ∧ t.forWrites = true := by
    simpa [Triple.deniesWrites] using denies
  have matched : t.matchesOpcode w = true := by simp [Triple.matchesOpcode, writes, op]
  rw [fwHit, if_pos enabled, if_pos matched, matchesDest_iff, physicalAddress_eq]
  unfold Triple.covers at covered
  split
  -- NoC mode checks the offset and the destination bit
  next noc =>
    rw [if_pos noc, Bool.and_comm] at covered
    exact covered
  -- compatibility mode checks the address that the port adds up
  next compatible =>
    rw [if_neg compatible] at covered
    exact covered

namespace Device

/-! ### Mediation -/

/-- If no covered word carries an opcode field of 2 or 3, no write reaches a covered cell.
Every write is of a word on the record of its port, and goes to the cell the word names. -/
theorem writes_uncovered {d : Device} (h : openMachine.Reachable d)
    (plain : ∀ i, ∀ j ∈ (d.ingress i).taken, j.rule.deniesWrites = true →
      j.rule.covers (portOf (dest j.word)) (addrOffset j.word) = true →
      opcode j.word = 0 ∨ opcode j.word = 1) :
    ∀ k, ∀ x ∈ (d.egress k).writes,
      (d.ingress x.flit.origin.port).taken[x.flit.origin.seq]? =
          some ⟨x.flit.origin.word, x.flit.origin.rule, .forwarded⟩ ∧
        portOf (dest x.flit.origin.word) = k ∧
        x.address = memBase k + (addrOffset x.flit.origin.word).zeroExtend 32 ∧
        (x.flit.origin.rule.deniesWrites = true →
          x.flit.origin.rule.covers k (addrOffset x.flit.origin.word) = false) := by
  intro k x member
  -- the word written is the word on record: the switches have restored its destination
  obtain ⟨⟨⟨record, word⟩, routed⟩, op, address⟩ := (placed_of_reachable h).writes k x member
  rw [word, Origin.dest_sent] at routed
  rw [word, Origin.opcode_sent] at op
  rw [word, Origin.addrOffset_sent] at address
  refine ⟨record.taken, routed, address, ?_⟩
  intro denies
  rw [← Bool.not_eq_true]
  intro covered
  rw [← routed] at covered
  rcases plain _ _ (List.mem_of_getElem? record.taken) denies covered with zero | one
  · -- the check would have matched this word
    have hit := fwHit_of_covers denies covered zero
    exact absurd (record.passed.symm.trans hit) (by decide)
  · -- a read is answered, not written
    exact op one

/-- A write of 7 to the cell of offset 0x200 in the first BRAM. -/
def writeBeyond : Word := pack 0x200 0 0 0 7

/-- `denyHalf` is in force, and a packet beyond its bounds goes all the way. -/
def written : List Action :=
  cycle [] ++ cycle [] ++ (scSetupFW (inport 0) denyHalf).flatMap setupWrite ++ cycle [] ++
    cycle [] ++ packetWrite 0 writeBeyond ++ cycle [] ++ cycle [] ++ cycle [] ++ cycle []

/-- The packet is written, and the writes are as they should be. -/
theorem writes_uncovered_of_written :
    ((after written).egress 0).writes.length = 1 ∧ ∀ k, ∀ x ∈ ((after written).egress k).writes,
      ((after written).ingress x.flit.origin.port).taken[x.flit.origin.seq]? =
          some ⟨x.flit.origin.word, x.flit.origin.rule, .forwarded⟩ ∧
        portOf (dest x.flit.origin.word) = k ∧
        x.address = memBase k + (addrOffset x.flit.origin.word).zeroExtend 32 ∧
        (x.flit.origin.rule.deniesWrites = true →
          x.flit.origin.rule.covers k (addrOffset x.flit.origin.word) = false) :=
  ⟨by decide +kernel,
    writes_uncovered (open_of_reachable (reachable_after (by decide +kernel))) (by decide +kernel)⟩

/-- Every write in the first BRAM is denied, and reads are not. -/
def denyWrites : Triple := ⟨0xEF, 0, 0x3FF⟩

/-- A packet of opcode 2 with data 7 for the first cell. -/
def opcodeTwo : Word := pack 0 2 0 0 7

def writtenPast : List Action :=
  cycle [] ++ cycle [] ++ (scSetupFW (inport 0) denyWrites).flatMap setupWrite ++ cycle [] ++
    cycle [] ++ packetWrite 0 opcodeTwo ++ cycle [] ++ cycle [] ++ cycle [] ++ cycle []

/-- A word of opcode 2 is written to a cell that an enabled rule denies. -/
theorem covered_cell_written :
    ¬ ∀ d : Device, machine.Reachable d → ∀ k, ∀ x ∈ (d.egress k).writes,
      x.flit.origin.rule.deniesWrites = true →
        x.flit.origin.rule.covers k (addrOffset x.flit.origin.word) = false := by
  intro claim
  have mediated := claim (after writtenPast) (reachable_after (by decide +kernel)) 0
  exact absurd mediated (by decide +kernel)

end Device

end ScCosim.Firewall
