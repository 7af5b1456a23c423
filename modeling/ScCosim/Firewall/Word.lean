import Mathlib.Data.Fin.Basic
import Mathlib.Data.List.Basic

/-!
# Packet words and rules

A packet is one 32-bit word: address offset, opcode, source port, destination port and data,
as in `pkt`. A rule is the triple of the rule register and the two bounds. Writing a field
of a word rebuilds it with `pack`, so what a process keeps and changes can be read off.
-/
namespace ScCosim.Firewall

abbrev Word := BitVec 32

abbrev Port := Fin 4

/-- Port and switch numbers are literals of these types. -/
scoped instance neZeroFour : @NeZero Nat Zero.ofOfNat0 4 := Nat.instNeZeroSucc

scoped instance neZeroTwo : @NeZero Nat Zero.ofOfNat0 2 := Nat.instNeZeroSucc

/-! ### Fields of a word -/

/-- `range(31,22)` -/
def addrOffset (w : Word) : BitVec 10 := w.extractLsb' 22 10

/-- `range(21,20)` -/
def opcode (w : Word) : BitVec 2 := w.extractLsb' 20 2

/-- `range(19,18)` -/
def src (w : Word) : BitVec 2 := w.extractLsb' 18 2

/-- `range(17,16)` -/
def dest (w : Word) : BitVec 2 := w.extractLsb' 16 2

/-- `range(15,0)` -/
def data (w : Word) : BitVec 16 := w.extractLsb' 0 16

def pack (offset : BitVec 10) (op s d : BitVec 2) (v : BitVec 16) : Word :=
  offset ++ op ++ s ++ d ++ v

section fields

variable (offset : BitVec 10) (op s d : BitVec 2) (v : BitVec 16)

@[simp] theorem addrOffset_pack : addrOffset (pack offset op s d v) = offset := by
  unfold addrOffset pack
  grind

@[simp] theorem opcode_pack : opcode (pack offset op s d v) = op := by
  unfold opcode pack
  grind

@[simp] theorem src_pack : src (pack offset op s d v) = s := by
  unfold src pack
  grind

@[simp] theorem dest_pack : dest (pack offset op s d v) = d := by
  unfold dest pack
  grind

@[simp] theorem data_pack : data (pack offset op s d v) = v := by
  unfold data pack
  grind

theorem pack_fields (w : Word) :
    pack (addrOffset w) (opcode w) (src w) (dest w) (data w) = w := by
  unfold pack addrOffset opcode src dest data
  grind

end fields

def setSrc (w : Word) (s : BitVec 2) : Word :=
  pack (addrOffset w) (opcode w) s (dest w) (data w)

def setDest (w : Word) (d : BitVec 2) : Word :=
  pack (addrOffset w) (opcode w) (src w) d (data w)

/-- The number of a port as two bits. -/
def portBits (p : Port) : BitVec 2 := BitVec.ofNat 2 p.val

/-- The port that two bits name. -/
def portOf (b : BitVec 2) : Port := b.toFin

@[simp] theorem portOf_portBits (p : Port) : portOf (portBits p) = p := by
  revert p
  decide

/-! ### The switches' rotation -/

/-- The bit that picks the output of a switch: `dest[1]`. -/
def nextPosition (w : Word) : Bool := w[17]

/-- `new_data[17] = new_data[16]; new_data[16] = next_position;` -/
def rotateDest (w : Word) : Word :=
  setDest w (BitVec.ofBool w[16] ++ BitVec.ofBool (nextPosition w))

theorem dest_bits (w : Word) : dest w = BitVec.ofBool w[17] ++ BitVec.ofBool w[16] := by
  unfold dest
  grind

/-- `responce_s[31]`: an answer is still to come. -/
def pending (w : Word) : Bool := w[31]

/-! ### Rules -/

/-- The rule register with its lower and upper bound. -/
structure Triple where
  r : Word
  l : Word
  h : Word
  deriving DecidableEq, Repr

/-- Bit 7 enables the rule. -/
def Triple.enabled (t : Triple) : Bool := t.r[7]

/-- Bit 6 enables the NoC mode; without it the compatibility mode compares addresses. -/
def Triple.nocMode (t : Triple) : Bool := t.r[6]

/-- Bit 5 enables the rule for writes. -/
def Triple.forWrites (t : Triple) : Bool := t.r[5]

/-- Bit 4 enables the rule for reads. -/
def Triple.forReads (t : Triple) : Bool := t.r[4]

/-- The address that the compatibility mode compares: `none` where the source says that no
input address is valid. -/
def physicalAddress (w : Word) : Option Word :=
  let myAddress := (addrOffset w).zeroExtend 32
  if dest w = 0 then some (myAddress + 0x40000000)
  else if dest w = 1 then some (myAddress + 0x40001000)
  else if dest w = 2 then some (myAddress + 0x40002000)
  else if dest w = 3 then some (myAddress + 0x40003000)
  else none

/-- The range test, on unsigned values. -/
def Triple.inRange (t : Triple) (address : Word) : Bool :=
  address ≤ t.h && t.l ≤ address

/-- The rule has an opcode bit for this word. -/
def Triple.matchesOpcode (t : Triple) (w : Word) : Bool :=
  (t.forWrites && opcode w == 0) || (t.forReads && opcode w == 1)

/-- The rule has the bit of this word's destination. -/
def Triple.matchesDest (t : Triple) (w : Word) : Bool :=
  (t.r[3] && dest w == 3) || (t.r[2] && dest w == 2) || (t.r[1] && dest w == 1) ||
    (t.r[0] && dest w == 0)

/-- `fw_hit` as the four `interface_in` processes compute it. -/
def fwHit (t : Triple) (w : Word) : Bool :=
  if t.enabled then
    if t.matchesOpcode w then
      if t.nocMode then
        t.inRange ((addrOffset w).zeroExtend 32) && t.matchesDest w
      else
        match physicalAddress w with
        | some myAddress => t.inRange myAddress
        | none => true
    else false
  else false

end ScCosim.Firewall
