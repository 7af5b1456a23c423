import ScCosim.Driver.Encoding
import ScCosim.Firewall.Machine

/-!
# Which cell an address names

On the direct path the driver multiplies a word address by four. On the firewall path it
shifts the address to bit 24 of the packet word, and `interface_out` adds the bits from 22
on to the start of its memory. The two agree on the first 256 words; from there on the
packet word has no room for the address.
-/
namespace ScCosim.Driver

open Firewall

/-- The address that `interface_out_k` computes for a packet. -/
def outAddress (k : Port) (w : Word) : Word := Device.memBase k + (addrOffset w).zeroExtend 32

/-- The device address of `sc_accessBram`. -/
def directAddress (a : ScDirectAccessDs) : Option (BitVec 32) :=
  (iobramDirect a.bramNo).map fun base => base + a.addr * 4

/-- `interface_out_k` writes to that address. -/
theorem outAddress_of_write (k : Port) (s : EgressStep) (f : Flit) :
    (EgressStep.write (Device.memBase k) s f).egress.writes =
      s.egress.writes ++ [⟨outAddress k f.word, f⟩] := rfl

/-- The packet that `sc_accessBramFW` builds for a port, a memory and a word address. -/
def packet (op : Word) (port k : Port) (address data : Word) : Word :=
  writeValue ⟨op, inport port, inport k, address, data⟩

theorem inport_sub_one (p : Port) : (inport p - 1).toNat = p := by
  revert p
  decide

theorem toNat_packet {op address data : Word} (port k : Port) (low : data.toNat < 2 ^ 16) :
    (outAddress k (packet op port k address data)).toNat =
      (Device.memBase k).toNat + 4 * (address.toNat % 256) := by
  have base : (Device.memBase k).toNat ≤ 0x40003000 := by
    revert k
    decide
  have source := port.isLt
  have destination := k.isLt
  have offset : (addrOffset (packet op port k address data)).toNat = 4 * (address.toNat % 256) := by
    rw [toNat_addrOffset, packet, writeValue_eq, toNat_sum, inport_sub_one, inport_sub_one]
    -- what is added below bit 22 does not reach it
    have payload : (if op = 0 then data else 0x100000 : Word).toNat ≤ 2 ^ 20 := by
      split
      · omega
      · decide
    simp only
    omega
  rw [outAddress, BitVec.toNat_add, BitVec.toNat_setWidth, offset]
  omega

theorem directAddress_eq (op : Word) (k : Port) (address data : Word) :
    directAddress ⟨op, inport k, address, data⟩ = some (Device.memBase k + address * 4) := by
  have base : iobramDirect (inport k) = some (Device.memBase k) := by
    revert k
    decide
  simp [directAddress, base]

theorem toNat_direct {k : Port} {address : Word} (inside : address.toNat < 0x400) :
    (Device.memBase k + address * 4).toNat = (Device.memBase k).toNat + 4 * address.toNat := by
  have base : (Device.memBase k).toNat ≤ 0x40003000 := by
    revert k
    decide
  bv_omega

/-- The two paths name the same cell, whatever else is in the packet. -/
def SameCell (k : Port) (address : Word) : Prop :=
  ∀ op port data, data.toNat < 2 ^ 16 →
    some (outAddress k (packet op port k address data)) =
      directAddress ⟨op, inport k, address, data⟩

theorem sameCell_iff {k : Port} {address : Word} (inside : address.toNat < 0x400) :
    SameCell k address ↔ address.toNat < 0x100 := by
  have agree {op data : Word} (port : Port) (low : data.toNat < 2 ^ 16) :
      some (outAddress k (packet op port k address data)) =
        directAddress ⟨op, inport k, address, data⟩ ↔ address.toNat < 0x100 := by
    rw [directAddress_eq, Option.some.injEq, ← BitVec.toNat_inj, toNat_packet port k low,
      toNat_direct inside]
    omega
  constructor
  · intro same
    exact (agree 0 (by decide)).mp (same 0 0 0 (by decide))
  · intro low op port data payload
    exact (agree port payload).mpr low

/-- Both addresses name the same cell on either path, and two addresses name two cells. -/
def Agree (k : Port) (a b : Word) : Prop :=
  SameCell k a ∧ SameCell k b ∧
    (a ≠ b → ∀ op port data op' port' data', data.toNat < 2 ^ 16 → data'.toNat < 2 ^ 16 →
      outAddress k (packet op port k a data) ≠ outAddress k (packet op' port' k b data') ∧
        directAddress ⟨op, inport k, a, data⟩ ≠ directAddress ⟨op', inport k, b, data'⟩)

/-- Within a memory of 4 KiB, the paths agree and no two addresses alias, if and only if the
addresses are among the first 256 words. -/
theorem agree_iff {k : Port} {a b : Word} (insideA : a.toNat < 0x400) (insideB : b.toNat < 0x400) :
    Agree k a b ↔ a.toNat < 0x100 ∧ b.toNat < 0x100 := by
  constructor
  · rintro ⟨sameA, sameB, -⟩
    exact ⟨(sameCell_iff insideA).mp sameA, (sameCell_iff insideB).mp sameB⟩
  · rintro ⟨lowA, lowB⟩
    refine ⟨(sameCell_iff insideA).mpr lowA, (sameCell_iff insideB).mpr lowB, ?_⟩
    intro different op port data op' port' data' low low'
    have apart : a.toNat ≠ b.toNat := fun same => different (BitVec.eq_of_toNat_eq same)
    constructor
    · rw [← BitVec.toNat_inj.ne, toNat_packet port k low, toNat_packet port' k low']
      omega
    · rw [directAddress_eq, directAddress_eq, Ne, Option.some.injEq, ← BitVec.toNat_inj,
        toNat_direct insideA, toNat_direct insideB]
      omega

theorem agree_iff_of_first : Agree 0 0x10 0xFF ↔ (0x10 : Word).toNat < 0x100 ∧ (0xFF : Word).toNat < 0x100 :=
  agree_iff (by decide) (by decide)

/-- Word 0x100 of a memory is word 0 on the firewall path. -/
theorem address_aliases :
    ¬ ∀ (k : Port) (a b : Word), a.toNat < 0x400 → b.toNat < 0x400 → Agree k a b := by
  intro claim
  obtain ⟨-, same, -⟩ := claim 0 0 0x100 (by decide) (by decide)
  exact absurd (same 0 0 0 (by decide)) (by decide)

end ScCosim.Driver
