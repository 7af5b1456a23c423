import ScCosim.Firewall.Ports

/-!
# The switch, the responses and the direct path

`entry_sw_1` to `entry_sw_4` move the packets, `entry_response` publishes read results and
pending markers, and the four `direct_mem_out` processes serve direct accesses.
-/
namespace ScCosim.Firewall

open Kernel

/-! ### The switch -/

/-- What one switch process reads and writes. -/
structure SwitchStep where
  in0 : Fifo Flit
  in1 : Fifo Flit
  out0 : Fifo Flit
  out1 : Fifo Flit
  pc : SwitchPc

namespace SwitchStep

/-- Find the exit, rotate the destination and pass the packet on; the result of `nb_write`
is not looked at. -/
def pass (s : SwitchStep) (f : Flit) : SwitchStep :=
  let moved := { f with word := rotateDest f.word }
  if nextPosition f.word then { s with out1 := s.out1.nbWrite moved }
  else { s with out0 := s.out0.nbWrite moved }

/-- The second input, then the top of the loop. -/
def second (s : SwitchStep) : SwitchStep :=
  match s.in1.nbRead with
  | none => { s with pc := .loop }
  | some (f, rest) => { { s with in1 := rest }.pass f with pc := .loop }

/-- From one wait to the next. -/
def run (s : SwitchStep) : SwitchStep :=
  match s.pc with
  | .start => { s with pc := .init }
  | .init => { s with pc := .loop }
  | .loop =>
    -- after a packet from the first input the process waits before it looks at the second
    match s.in0.nbRead with
    | none => s.second
    | some (f, rest) => { { s with in0 := rest }.pass f with pc := .middle }
  | .middle => s.second

end SwitchStep

namespace Switch

/-- Switch `a` of the first stage, on ports `p` and `q`; it is process `k`. -/
def firstStage (k : Fin 4) (a : Fin 2) (p q : Port) (s : Switch) : Switch :=
  let t := SwitchStep.run ⟨s.inFifo p, s.inFifo q, s.outFifoS a 0, s.outFifoS a 1, s.pc k⟩
  { s with
    inFifo := Function.update (Function.update s.inFifo p t.in0) q t.in1
    outFifoS := Function.update s.outFifoS a fun b => if b = 0 then t.out0 else t.out1
    pc := Function.update s.pc k t.pc }

/-- Switch `b` of the second stage, on ports `p` and `q`; it is process `k`. -/
def secondStage (k : Fin 4) (b : Fin 2) (p q : Port) (s : Switch) : Switch :=
  let t := SwitchStep.run ⟨s.outFifoS 0 b, s.outFifoS 1 b, s.outFifo p, s.outFifo q, s.pc k⟩
  { s with
    outFifoS := fun a c =>
      if c = b then (if a = 0 then t.in0 else t.in1) else s.outFifoS a c
    outFifo := Function.update (Function.update s.outFifo p t.out0) q t.out1
    pc := Function.update s.pc k t.pc }

end Switch

namespace Device

def entrySw1 (d : Device) : Device := { d with switch := d.switch.firstStage 0 0 0 1 }
def entrySw2 (d : Device) : Device := { d with switch := d.switch.firstStage 1 1 2 3 }
def entrySw3 (d : Device) : Device := { d with switch := d.switch.secondStage 2 0 0 1 }
def entrySw4 (d : Device) : Device := { d with switch := d.switch.secondStage 3 1 2 3 }

end Device

/-! ### `entry_response` -/

namespace Responces

/-- `responce_s_n.write(v); in_responce_n.write(v);` -/
def publish (r : Responces) (n : Port) (v : Word) : Responces :=
  { r with
    responceS := Function.update r.responceS n ((r.responceS n).write v)
    inResponce := Function.update r.inResponce n ((r.inResponce n).write v) }

/-- A marker or a denial of port `n` is published there. -/
def publishInit (r : Responces) (n : Port) (rest : Fifo Word) (v : Word) : Responces :=
  { r with
    initResponceFifo := Function.update r.initResponceFifo n rest
    pc := .served n }.publish n v

/-- `responce[31] = false` -/
def clearPending (w : Word) : Word := w &&& 0x7FFFFFFF

/-- The answer of a read is published at the port its destination field names. -/
def publishAnswer (r : Responces) (n : Port) (rest : Fifo Flit) (f : Flit) : Responces :=
  { r with
    responceFifo := Function.update r.responceFifo n rest
    pc := .served n }.publish (portOf (dest (clearPending f.word))) (clearPending f.word)

/-- The blocks of these ports in turn, up to the first `wait()`; the `Bool` tells whether
`m_write_ended_event` has been notified. -/
def serve (r : Responces) : List Port → Responces × Bool
  | [] => ({ r with pc := .loop }, false)
  | n :: ports =>
    -- `nb_read` of the answers comes second: a marker goes first
    match (r.initResponceFifo n).nbRead with
    | some (v, rest) => (r.publishInit n rest v, false)
    | none =>
      match (r.responceFifo n).nbRead with
      | some (f, rest) => (r.publishAnswer n rest f, true)
      | none => r.serve ports

/-- The blocks that follow the block of port `n`. -/
def portsAfter (n : Port) : List Port := ([0, 1, 2, 3] : List Port).filter (n < ·)

/-- The part before the first `wait()`. -/
def reset (r : Responces) : Responces :=
  { r with pc := .init, responceS := fun n => (r.responceS n).write 0 }

/-- From one wait to the next. -/
def run (r : Responces) : Responces × Bool :=
  match r.pc with
  | .start => (r.reset, false)
  | .init => ({ r with pc := .loop }, false)
  | .loop => r.serve [0, 1, 2, 3]
  | .served n => r.serve (portsAfter n)

end Responces

def Device.entryResponse (d : Device) : Device :=
  { d with
    responces := d.responces.run.1
    bus := if d.responces.run.2 then d.bus.notifyWriteEnded else d.bus }

/-! ### `direct_mem_out` -/

/-- What one `direct_mem_out` process reads and writes. -/
structure DirectStep where
  direct : Direct
  mem : Word → Word
  /-- Has `m_read_event_pending` been notified? -/
  notifyRead : Bool
  /-- Has `m_write_ended_event` been notified? -/
  notifyWrite : Bool

namespace DirectStep

/-- `dir_mem_responce_fifo_k.write`, then the notification. -/
def writeResponce (s : DirectStep) (v : Word) : DirectStep :=
  if 0 < s.direct.dirMemResponceFifo.numFree then
    { s with
      direct := { s.direct with
        dirMemResponceFifo := s.direct.dirMemResponceFifo.push v, pc := .loop }
      notifyRead := true }
  else { s with direct := { s.direct with pc := .writeResponce v } }

/-- A request off `dir_mem_out_fifo_k`. -/
def access (base : Word) (s : DirectStep) (v : Word) : DirectStep :=
  let newAddress := s.direct.outAddress
  if s.direct.outRead then s.writeResponce (s.mem (newAddress - base))
  else
    { s with
      mem := Function.update s.mem (newAddress - base) (pack 0 0 0 0 (data v))
      direct := { s.direct with handshake := s.direct.handshake.raise newAddress } }

/-- From one wait to the next. -/
def run (base : Word) (s : DirectStep) : DirectStep :=
  match s.direct.pc with
  | .start => { s with direct := { s.direct with pc := .init, handshake.preready := false } }
  | .init => { s with direct := { s.direct with pc := .loop } }
  | .loop =>
    if !s.direct.handshake.done.cur && !s.direct.handshake.preready then
      match s.direct.dirMemOutFifo.nbRead with
      | none => s
      | some (v, rest) => access base { s with direct.dirMemOutFifo := rest } v
    -- the receiver has seen the address
    else if s.direct.handshake.done.cur && s.direct.handshake.preready then
      { s with
        direct := { s.direct with handshake := s.direct.handshake.lower }
        notifyWrite := true }
    else s
  | .writeResponce v => s.writeResponce v

end DirectStep

namespace Device

def directMemOut (k : Port) (base : Word) (d : Device) : Device :=
  let s := DirectStep.run base ⟨d.direct k, d.mem k, false, false⟩
  -- no run notifies both events
  let bus := if s.notifyRead then d.bus.notifyReadPending else d.bus
  { d with
    direct := Function.update d.direct k s.direct
    mem := Function.update d.mem k s.mem
    bus := if s.notifyWrite then bus.notifyWriteEnded else bus }

def directMemOut0 : Device → Device := directMemOut 0 0x40000000
def directMemOut1 : Device → Device := directMemOut 1 0x40001000
def directMemOut2 : Device → Device := directMemOut 2 0x40002000
def directMemOut3 : Device → Device := directMemOut 3 0x40003000

end Device

end ScCosim.Firewall
