import ScCosim.Firewall.Bus

/-!
# The port processes

`setupfw_rule` samples the setup registers, the four `interface_in` processes judge the
packets, and the four `interface_out` processes access the memories. Each is one function
from what the process reads to what it leaves, run from one wait to the next.
-/
namespace ScCosim.Firewall

open Kernel

/-! ### `setupfw_rule` -/

namespace Setup

/-- What the setup registers show. -/
def setupRange (s : Setup) : Triple :=
  ⟨s.setupRuleRange.cur, s.setupLowerRange.cur, s.setupUpperRange.cur⟩

/-- What `interface_in` sees of the sampled rule. -/
def fwRange (s : Setup) : Triple :=
  ⟨s.fwRuleRange.cur, s.fwLowerRange.cur, s.fwUpperRange.cur⟩

def writeFwRange (s : Setup) (t : Triple) : Setup :=
  { s with
    fwRuleRange := s.fwRuleRange.write t.r
    fwLowerRange := s.fwLowerRange.write t.l
    fwUpperRange := s.fwUpperRange.write t.h }

/-- One port's part of the loop: only a changed rule value is noticed. -/
def sample (s : Setup) : Setup :=
  -- new bounds under an old rule value are not sampled
  if s.setupRange.r ≠ s.precommand then
    { s.writeFwRange s.setupRange with precommand := s.setupRange.r }
  else s

end Setup

def Device.setupfwRule (d : Device) : Device :=
  match d.setupPc with
  | .start =>
    { d with
      setup := fun p => { d.setup p with precommand := 0 }.writeFwRange ⟨0, 0, 0⟩
      setupPc := .init }
  | .init => { d with setupPc := .loop }
  | .loop => { d with setup := fun p => (d.setup p).sample }

/-! ### `interface_in` -/

/-- What one `interface_in` process reads and writes. -/
structure IngressStep where
  ingress : Ingress
  inFifo : Fifo Flit
  initResponceFifo : Fifo Word
  /-- Has `m_write_ended_event` been notified? -/
  notify : Bool

namespace IngressStep

/-- The part before the first `wait()`. -/
def reset (s : IngressStep) : IngressStep :=
  { s with
    ingress := { s.ingress with
      pc := .init
      preval := 0
      preReadR := 0
      fwRead := ⟨0, 0, 0⟩
      countTotal := 0
      ruleHitCounter := 0
      countDroped := 0
      total := s.ingress.total.write 0
      droped := s.ingress.droped.write 0
      fwRuleHitCounter := s.ingress.fwRuleHitCounter.write 0 } }

/-- A new rule value is latched with its bounds; the packet waits for the next edge. -/
def latch (s : IngressStep) (fw : Triple) : IngressStep :=
  { s with ingress := { s.ingress with preReadR := fw.r, fwRead := fw } }

/-- A word is off `in_i`. -/
def take (s : IngressStep) (rest : Fifo Word) (w : Word) (outcome : Outcome) : IngressStep :=
  { s with
    ingress := { s.ingress with
      in_ := rest
      taken := s.ingress.taken ++ [⟨w, s.ingress.fwRead, outcome⟩] } }

/-- A word that differs from the one before it is counted. -/
def count (s : IngressStep) (w : Word) : IngressStep :=
  { s with
    ingress := { s.ingress with
      preval := w
      countTotal := s.ingress.countTotal + 1
      total := s.ingress.total.write (s.ingress.countTotal + 1) } }

/-- The end of a packet that hit: it is counted and acknowledged. -/
def finishHit (s : IngressStep) : IngressStep :=
  { s with
    ingress := { s.ingress with
      ruleHitCounter := s.ingress.ruleHitCounter + 1
      fwRuleHitCounter := s.ingress.fwRuleHitCounter.write (s.ingress.ruleHitCounter + 1)
      pc := .wait1 }
    notify := true }

/-- `init_responce_fifo_i.write(0x00000000)` for a read that hit, then the end. -/
def writeHit (s : IngressStep) : IngressStep :=
  if 0 < s.initResponceFifo.numFree then
    { s with initResponceFifo := s.initResponceFifo.push 0 }.finishHit
  else { s with ingress := { s.ingress with pc := .writeHit } }

def drop (s : IngressStep) : IngressStep :=
  { s with
    ingress := { s.ingress with
      countDroped := s.ingress.countDroped + 1
      droped := s.ingress.droped.write (s.ingress.countDroped + 1)
      pc := .wait1 }
    notify := true }

/-- `in_fifo_i.write`: a free place has been seen, and no other process writes this FIFO. -/
def forward (s : IngressStep) (f : Flit) : IngressStep :=
  { s with inFifo := s.inFifo.push f, ingress := { s.ingress with pc := .wait1 } }

/-- `init_responce_fifo_i.write(0x80000000)` for a read to forward, then the packet. -/
def writeForward (s : IngressStep) (f : Flit) : IngressStep :=
  if 0 < s.initResponceFifo.numFree then
    { s with initResponceFifo := s.initResponceFifo.push 0x80000000 }.forward f
  else { s with ingress := { s.ingress with pc := .writeForward f } }

/-- The packet with its origin; `source` is put into a read's source field. -/
def flit (s : IngressStep) (i : Port) (source : BitVec 2) (w : Word) : Flit :=
  ⟨if opcode w = 1 then setSrc w source else w,
    ⟨i, s.ingress.taken.length, w, s.ingress.fwRead⟩⟩

/-- One word off `in_i`. -/
def judge (i : Port) (source : BitVec 2) (responceS : Word) (s : IngressStep)
    (rest : Fifo Word) (w : Word) : IngressStep :=
  -- a repeated word is taken off without a count, an acknowledgement or a `wait(1)`
  if w = s.ingress.preval then s.take rest w .repeated
  else if fwHit s.ingress.fwRead w then
    if opcode w = 1 then ((s.take rest w .hit).count w).writeHit
    else ((s.take rest w .hit).count w).finishHit
  -- a read while the result of another is pending
  else if pending responceS ∧ opcode w = 1 then ((s.take rest w .droped).count w).drop
  else if 0 < s.inFifo.numFree then
    if opcode w = 1 then
      ((s.take rest w .forwarded).count w).writeForward (s.flit i source w)
    else ((s.take rest w .forwarded).count w).forward (s.flit i source w)
  -- `in_fifo_i` is full
  else ((s.take rest w .droped).count w).drop

/-- From one wait to the next. -/
def run (i : Port) (source : BitVec 2) (fw : Triple) (responceS : Word) (s : IngressStep) :
    IngressStep :=
  match s.ingress.pc with
  | .start => s.reset
  | .init => { s with ingress := { s.ingress with pc := .loop } }
  | .loop =>
    -- `continue`: the word waits one more edge for its check
    if fw.r ≠ s.ingress.preReadR then s.latch fw
    else
      match s.ingress.in_.nbRead with
      | none => s
      | some (w, rest) => judge i source responceS s rest w
  | .wait1 => { s with ingress := { s.ingress with pc := .loop } }
  | .writeHit => s.writeHit
  | .writeForward f => s.writeForward f

end IngressStep

namespace Device

def interfaceIn (i : Port) (source : BitVec 2) (d : Device) : Device :=
  let s := IngressStep.run i source (d.setup i).fwRange (d.responces.responceS i).cur
    ⟨d.ingress i, d.switch.inFifo i, d.responces.initResponceFifo i, false⟩
  { d with
    ingress := Function.update d.ingress i s.ingress
    switch.inFifo := Function.update d.switch.inFifo i s.inFifo
    responces.initResponceFifo := Function.update d.responces.initResponceFifo i s.initResponceFifo
    bus := if s.notify then d.bus.notifyWriteEnded else d.bus }

def interfaceIn0 : Device → Device := interfaceIn 0 0x0
def interfaceIn1 : Device → Device := interfaceIn 1 0x1
def interfaceIn2 : Device → Device := interfaceIn 2 0x2
def interfaceIn3 : Device → Device := interfaceIn 3 0x3

end Device

/-! ### The handshake with a receiver -/

namespace Handshake

/-- A new address is shown and `ready` raised. -/
def raise (h : Handshake) (address : Word) : Handshake :=
  { h with
    outAddrToRead := h.outAddrToRead.write address
    ready := h.ready.write true
    preready := true }

def lower (h : Handshake) : Handshake :=
  { h with ready := h.ready.write false, preready := false }

/-- The receiver's process: `entry`, and `directentry`, which is the same on its own
signals. It has no part before its loop. -/
def receive (h : Handshake) : Handshake :=
  if h.started then
    if h.ready.cur then
      -- one access is seen once, however long `ready` stays up
      if !h.indone then
        { h with
          indone := true
          done := h.done.write true
          seen := h.seen ++ [h.outAddrToRead.cur] }
      else h
    else { h with indone := false, done := h.done.write false }
  else { h with started := true }

end Handshake

/-! ### `interface_out` -/

/-- What one `interface_out` process reads and writes. -/
structure EgressStep where
  egress : Egress
  outFifo : Fifo Flit
  responceFifo : Fifo Flit
  mem : Word → Word
  notify : Bool

namespace EgressStep

/-- The word that answers a read: the cell's data with opcode 2, source and destination
exchanged. -/
def answer (w cell : Word) : Word := pack (addrOffset w) 2 (dest w) (src w) (data cell)

/-- `responce_fifo_d.write` -/
def writeResponce (s : EgressStep) (f : Flit) : EgressStep :=
  if 0 < s.responceFifo.numFree then
    { s with
      responceFifo := s.responceFifo.push f
      egress := { s.egress with pc := .loop } }
  else { s with egress := { s.egress with pc := .writeResponce f } }

/-- `out_d->write` of the packet's data, then the handshake with the receiver. -/
def write (base : Word) (s : EgressStep) (f : Flit) : EgressStep :=
  let newAddress := base + (addrOffset f.word).zeroExtend 32
  { s with
    mem := Function.update s.mem (newAddress - base) (pack 0 0 0 0 (data f.word))
    egress := { s.egress with
      isWriteOp := true
      handshake := s.egress.handshake.raise newAddress
      writes := s.egress.writes ++ [⟨newAddress, f⟩] } }

def read (base : Word) (s : EgressStep) (f : Flit) : EgressStep :=
  let newAddress := base + (addrOffset f.word).zeroExtend 32
  { s with egress := { s.egress with isWriteOp := false } }.writeResponce
    { f with word := answer f.word (s.mem (newAddress - base)) }

/-- From one wait to the next. -/
def run (base : Word) (s : EgressStep) : EgressStep :=
  match s.egress.pc with
  | .start =>
    { s with egress := { s.egress with
        pc := .init, isWriteOp := false, handshake.preready := false } }
  | .init => { s with egress := { s.egress with pc := .loop } }
  | .loop =>
    if !s.egress.handshake.done.cur && !s.egress.handshake.preready then
      match s.outFifo.nbRead with
      | none => s
      | some (f, rest) =>
        if opcode f.word = 1 then read base { s with outFifo := rest } f
        else write base { s with outFifo := rest } f
    -- the receiver has seen the address
    else if s.egress.handshake.done.cur && s.egress.handshake.preready then
      { s with
        egress := { s.egress with handshake := s.egress.handshake.lower }
        notify := s.egress.isWriteOp }
    else s
  | .writeResponce f => s.writeResponce f

end EgressStep

namespace Device

def interfaceOut (k : Port) (base : Word) (d : Device) : Device :=
  let s := EgressStep.run base
    ⟨d.egress k, d.switch.outFifo k, d.responces.responceFifo k, d.mem k, false⟩
  { d with
    egress := Function.update d.egress k s.egress
    switch.outFifo := Function.update d.switch.outFifo k s.outFifo
    responces.responceFifo := Function.update d.responces.responceFifo k s.responceFifo
    mem := Function.update d.mem k s.mem
    bus := if s.notify then d.bus.notifyWriteEnded else d.bus }

def interfaceOut0 : Device → Device := interfaceOut 0 0x40000000
def interfaceOut1 : Device → Device := interfaceOut 1 0x40001000
def interfaceOut2 : Device → Device := interfaceOut 2 0x40002000
def interfaceOut3 : Device → Device := interfaceOut 3 0x40003000

/-- The receiver on the switched path. -/
def entry (k : Port) (d : Device) : Device :=
  { d with
    egress := Function.update d.egress k
      { d.egress k with handshake := (d.egress k).handshake.receive } }

/-- The receiver on the direct path. -/
def directentry (k : Port) (d : Device) : Device :=
  { d with
    direct := Function.update d.direct k
      { d.direct k with handshake := (d.direct k).handshake.receive } }

end Device

end ScCosim.Firewall
