import Mathlib.Tactic.MkIffOfInductiveProp
import ScCosim.Firewall.HandoverTime

/-!
# Writes handed over on both paths

`interface_out` with `entry` and `direct_mem_out` with `directentry`, each on its own with
the FIFOs around it. What is observed is read off the states before and after each step. On
the switched path a packet carries its address; on the direct path the address and the
direction are variables beside the FIFO, which belong to the packet that arrived last.
-/
namespace ScCosim.Firewall

open Kernel Handover

/-! ### A process on the bench -/

/-- A process together with what it shares with its receiver, and the packets sent to it. -/
structure Component (σ π : Type) where
  /-- After elaboration, with this memory. -/
  start : (Word → Word) → σ
  access : π → Access
  handshake : σ → Handshake
  /-- The packets in the process's FIFO. -/
  queued : σ → Nat
  /-- The memory, by address. -/
  content : σ → Word → Word
  /-- Did its last run notify `m_write_ended_event`? -/
  notified : σ → Bool
  /-- Is it blocked in the `write` of its response FIFO? -/
  blocked : σ → Bool
  /-- Has that FIFO a free place? -/
  room : σ → Bool
  /-- A packet is written to the FIFO; `none` if there is no room. -/
  arrive : σ → π → Option σ
  /-- An answer is read; `none` if there is none. -/
  drain : σ → Option σ
  run : σ → σ
  receive : σ → σ
  update : σ → σ

namespace Component

variable {σ π : Type} (c : Component σ π)

/-- What a run of the process is seen to do. Each `out_k->write` comes with a new address and
a raised `ready`; that the memory changes in no other way is shown of it. -/
def observe (before after : σ) : List Event :=
  (if c.queued after < c.queued before then
    [.took (c.handshake before).ready.cur (c.handshake before).done.cur] else []) ++
  (if !(c.handshake before).preready && (c.handshake after).preready then
    [.wrote (c.handshake after).outAddrToRead.next
      (c.content after (c.handshake after).outAddrToRead.next)] else []) ++
  if c.notified after then [.notified] else []

end Component

/-- A component under a clock. -/
structure Bench (σ π : Type) where
  port : σ
  /-- The process has been woken and has not run. -/
  out : Bool
  /-- The receiver has been woken and has not run. -/
  entry : Bool
  /-- Something has run since the last update phase. -/
  dirty : Bool
  arrived : List π
  log : List Event

namespace Bench

variable {σ π : Type} (c : Component σ π)

inductive Action (π : Type) where
  | arrive (p : π)
  | drain
  | run
  | receive
  | delta
  | edge

def isEdge : Action π → Bool
  | .edge => true
  | _ => false

def new (mem : Word → Word) : Bench σ π := ⟨c.start mem, false, false, false, [], []⟩

/-- Blocked with its FIFO free again. -/
def resumes (s : Bench σ π) : Bool := c.blocked s.port && c.room s.port

def step (s : Bench σ π) : Action π → Option (Bench σ π)
  | .arrive p =>
    (c.arrive s.port p).map fun q => { s with port := q, arrived := s.arrived ++ [p], dirty := true }
  | .drain => (c.drain s.port).map fun q => { s with port := q, dirty := true }
  | .run =>
    if s.out || s.resumes c then
      some { s with
        port := c.run s.port
        out := false
        dirty := true
        log := s.log ++ c.observe s.port (c.run s.port) }
    else none
  | .receive =>
    if s.entry then
      some { s with
        port := c.receive s.port
        entry := false
        dirty := true
        log := s.log ++ (c.handshake s.port).presents }
    else none
  | .delta =>
    if !s.out && !s.entry && !s.resumes c then
      some { s with
        port := c.update s.port
        dirty := false
        log := s.log ++ (c.handshake s.port).rises }
    else none
  | .edge =>
    if !s.out && !s.entry && !s.resumes c && !s.dirty then
      some { s with out := !c.blocked s.port, entry := true }
    else none

def machine (mem : Word → Word) : Machine (Bench σ π) (Action π) := ⟨new c mem, step c⟩

end Bench

/-! ### The two components -/

/-- `interface_out` with `entry`. -/
def interfaceOutBench (base : Word) : Component EgressStep Flit where
  start mem := ⟨Egress.new, Fifo.new internalFifoSize, Fifo.new internalFifoSize, mem, false⟩
  access f := ⟨opcode f.word = 1, base + (addrOffset f.word).zeroExtend 32, pack 0 0 0 0 (data f.word)⟩
  handshake s := s.egress.handshake
  queued s := s.outFifo.held
  content s a := s.mem (a - base)
  notified s := s.notify
  blocked s :=
    match s.egress.pc with
    | .writeResponce _ => true
    | _ => false
  room s := 0 < s.responceFifo.numFree
  arrive s f :=
    if 0 < s.outFifo.numFree then some { s with outFifo := s.outFifo.push f } else none
  drain s := s.responceFifo.nbRead.map fun r => { s with responceFifo := r.2 }
  run s := EgressStep.run base { s with notify := false }
  receive s := { s with egress.handshake := s.egress.handshake.receive }
  update s :=
    { s with
      outFifo := s.outFifo.update
      responceFifo := s.responceFifo.update
      egress.handshake := s.egress.handshake.update }

/-- What one of the two bus threads sends to `direct_mem_out`. -/
structure DirectRequest where
  address : Word
  read : Bool
  data : Word
  deriving DecidableEq, Repr

/-- `direct_mem_out` with `directentry`. A request sets the two variables and writes its data
word to the FIFO. -/
def directMemOutBench (base : Word) : Component DirectStep DirectRequest where
  start mem := ⟨Direct.new, mem, false, false⟩
  access r := ⟨r.read, r.address, pack 0 0 0 0 (data r.data)⟩
  handshake s := s.direct.handshake
  queued s := s.direct.dirMemOutFifo.held
  content s a := s.mem (a - base)
  notified s := s.notifyWrite
  blocked s :=
    match s.direct.pc with
    | .writeResponce _ => true
    | _ => false
  room s := 0 < s.direct.dirMemResponceFifo.numFree
  arrive s r :=
    if 0 < s.direct.dirMemOutFifo.numFree then
      some { s with
        direct := { s.direct with
          outAddress := r.address, outRead := r.read
          dirMemOutFifo := s.direct.dirMemOutFifo.push r.data } }
    else none
  drain s :=
    s.direct.dirMemResponceFifo.nbRead.map fun r => { s with direct.dirMemResponceFifo := r.2 }
  run s := DirectStep.run base { s with notifyRead := false, notifyWrite := false }
  receive s := { s with direct.handshake := s.direct.handshake.receive }
  update s :=
    { s with
      direct := { s.direct with
        dirMemOutFifo := s.direct.dirMemOutFifo.update
        dirMemResponceFifo := s.direct.dirMemResponceFifo.update
        handshake := s.direct.handshake.update } }

/-- A request arrives when no other is in the FIFO, or it is to the same address in the same
direction. -/
def InTurn (s : Bench DirectStep DirectRequest) : Bench.Action DirectRequest → Prop
  | .arrive r =>
    s.port.direct.dirMemOutFifo.contents = [] ∨
      (s.port.direct.outAddress = r.address ∧ s.port.direct.outRead = r.read)
  | _ => True

instance decidableInTurn (s : Bench DirectStep DirectRequest) :
    ∀ a : Bench.Action DirectRequest, Decidable (InTurn s a)
  | .arrive _ => inferInstanceAs (Decidable (_ ∨ _))
  | .drain | .run | .receive | .delta | .edge => isTrue trivial

/-- Run alone, with requests that arrive in turn. -/
def directMachine (base : Word) (mem : Word → Word) :
    Machine (Bench DirectStep DirectRequest) (Bench.Action DirectRequest) :=
  (Bench.machine (directMemOutBench base) mem).restrict InTurn

/-! ### A component follows the process of both -/

/-- The memory after the writes of a log. -/
def replay (content : Word → Word) (log : List Event) : Word → Word :=
  log.foldl (fun m e => match e with | .wrote a v => Function.update m a v | _ => m) content

theorem replay_append (content : Word → Word) (log more : List Event) :
    replay content (log ++ more) = replay (replay content log) more := List.foldl_append

namespace Component

variable {σ π : Type}

/-- A run of the component is one of the abstract process, in what it leaves and in what is
observed of it, and its memory changes by the writes that are observed. -/
structure RunFollows (c : Component σ π) (rel : σ → Sender π → Prop) (p : σ) (s : Sender π) : Prop where
  port : rel (c.run p) (s.run c.access !c.room p).1
  observed : c.observe p (c.run p) = (s.run c.access !c.room p).2
  content : c.content (c.run p) = replay (c.content p) (c.observe p (c.run p))

/-- Each operation of the component is one of the abstract process, as long as packets arrive
in `turn`; its memory changes by the writes that are observed, and by nothing else. -/
structure Follows (c : Component σ π) (turn : σ → π → Prop) (size : Nat) (rel : σ → Sender π → Prop) :
    Prop where
  start : ∀ mem, rel (c.start mem) ⟨.start, Fifo.new size, Handshake.new⟩
  handshake : ∀ p s, rel p s → c.handshake p = s.handshake
  queued : ∀ p s, rel p s → c.queued p = s.fifo.held
  blocked : ∀ p s, rel p s → c.blocked p = (s.pc == .blocked)
  arrive : ∀ p s x q, rel p s → turn p x → c.arrive p x = some q →
    0 < s.fifo.numFree ∧ rel q { s with fifo := s.fifo.push x } ∧ c.content q = c.content p
  drain : ∀ p s q, rel p s → c.drain p = some q → rel q s ∧ c.content q = c.content p
  run : ∀ p s, rel p s → c.RunFollows rel p s
  receive : ∀ p s, rel p s → rel (c.receive p) s.receive ∧ c.content (c.receive p) = c.content p
  update : ∀ p s, rel p s → rel (c.update p) s.update ∧ c.content (c.update p) = c.content p

theorem runFollows_iff (c : Component σ π) (rel : σ → Sender π → Prop) (p : σ) (s : Sender π) :
    c.RunFollows rel p s ↔ rel (c.run p) (s.run c.access !c.room p).1 ∧
      c.observe p (c.run p) = (s.run c.access !c.room p).2 ∧
      c.content (c.run p) = replay (c.content p) (c.observe p (c.run p)) :=
  ⟨fun h => ⟨h.port, h.observed, h.content⟩, fun h => ⟨h.1, h.2.1, h.2.2⟩⟩

end Component

namespace Bench

variable {σ π : Type} {c : Component σ π} {turn : σ → π → Prop} {size : Nat}
  {rel : σ → Sender π → Prop}

/-- The bench shows what the abstract machine shows. -/
structure Shows (c : Component σ π) (mem : Word → Word) (rel : σ → Sender π → Prop)
    (s : Bench σ π) (t : Handover π) : Prop where
  port : rel s.port t.sender
  out : t.out = s.out
  entry : t.entry = s.entry
  dirty : t.dirty = true → s.dirty = true
  arrived : t.arrived = s.arrived
  log : t.log = s.log
  content : c.content s.port = replay (c.content (c.start mem)) s.log

variable {mem : Word → Word}

/-- The receiver's events and the kernel's are no writes. -/
theorem replay_presents (content : Word → Word) (h : Handshake) :
    replay content h.presents = content ∧ replay content h.rises = content := by
  constructor
  · unfold Handshake.presents
    generalize h.receive.seen.drop h.seen.length = seen
    induction seen with
    | nil => rfl
    | cons a seen ih => exact ih
  · unfold Handshake.rises
    split <;> rfl

theorem related_new (follows : c.Follows turn size rel) :
    Shows c mem rel (new c mem) (Handover.new size) :=
  ⟨follows.start mem, rfl, rfl, fun h => h, rfl, rfl, rfl⟩

/-- An arrival, or an answer read by someone. -/
theorem related_sent (follows : c.Follows turn size rel) {s t : Bench σ π} {u : Handover π}
    (related : Shows c mem rel s u) {a : Action π} (sent : a = .drain ∨ ∃ x, a = .arrive x)
    (inTurn : ∀ x, a = .arrive x → turn s.port x) (hs : step c s a = some t) :
    (isEdge a = false ∧ Shows c mem rel t u) ∨
      ∃ b v, u.step c.access b = some v ∧ Handover.isEdge b = isEdge a ∧ Shows c mem rel t v := by
  rcases sent with rfl | ⟨x, rfl⟩
  · left
    obtain ⟨q, drained, rfl⟩ := Option.map_eq_some_iff.mp hs
    obtain ⟨port, content⟩ := follows.drain _ _ q related.port drained
    exact ⟨rfl, port, related.out, related.entry, fun _ => rfl, related.arrived, related.log,
      content.trans related.content⟩
  · right
    obtain ⟨q, arrived, rfl⟩ := Option.map_eq_some_iff.mp hs
    obtain ⟨free, port, content⟩ := follows.arrive _ _ x q related.port (inTurn x rfl) arrived
    refine ⟨.arrive x, _, if_pos free, rfl, port, related.out, related.entry, fun _ => rfl, ?_,
      related.log, content.trans related.content⟩
    rw [related.arrived]

/-- A run of one of the two processes. -/
theorem related_ran (follows : c.Follows turn size rel) {s t : Bench σ π} {u : Handover π}
    (related : Shows c mem rel s u) {a : Action π} (ran : a = .run ∨ a = .receive)
    (hs : step c s a = some t) :
    ∃ b v, u.step c.access b = some v ∧ Handover.isEdge b = isEdge a ∧ Shows c mem rel t v := by
  rcases ran with rfl | rfl <;> simp only [step] at hs <;> split at hs
  next enabled =>
    cases hs
    obtain ⟨port, observed, content⟩ := follows.run _ _ related.port
    have enabled' : (u.out || u.sender.pc == .blocked) = true := by
      rw [related.out, ← follows.blocked _ _ related.port]
      simp only [resumes, Bool.or_eq_true, Bool.and_eq_true] at enabled ⊢
      exact enabled.imp id And.left
    refine ⟨.run (!c.room s.port), _, if_pos enabled', rfl, port, rfl, related.entry, fun _ => rfl,
      related.arrived, ?_, ?_⟩
    · simp only [related.log, observed]
    · rw [replay_append, ← related.content]
      exact content
  next => cases hs
  next woken =>
    cases hs
    obtain ⟨port, content⟩ := follows.receive _ _ related.port
    have same := follows.handshake _ _ related.port
    refine ⟨.receive, _, if_pos (related.entry.trans woken), rfl, port, related.out, rfl,
      fun _ => rfl, related.arrived, ?_, ?_⟩
    · simp only [related.log, same]
    · rw [replay_append, ← related.content, (replay_presents _ _).1]
      exact content
  next => cases hs

/-- The update phase, or the clock. -/
theorem related_kernel (follows : c.Follows turn size rel) {s t : Bench σ π} {u : Handover π}
    (related : Shows c mem rel s u) {a : Action π} (kernel : a = .delta ∨ a = .edge)
    (hs : step c s a = some t) :
    ∃ b v, u.step c.access b = some v ∧ Handover.isEdge b = isEdge a ∧ Shows c mem rel t v := by
  rcases kernel with rfl | rfl <;> simp only [step] at hs <;> split at hs
  next quiet =>
    cases hs
    obtain ⟨port, content⟩ := follows.update _ _ related.port
    have same := follows.handshake _ _ related.port
    have quiet' : (!u.out && !u.entry) = true := by
      rw [related.out, related.entry]
      simp only [Bool.and_eq_true] at quiet ⊢
      exact quiet.1
    refine ⟨.delta, _, if_pos quiet', rfl, port, related.out, related.entry, by simp,
      related.arrived, ?_, ?_⟩
    · simp only [related.log, same]
    · rw [replay_append, ← related.content, (replay_presents _ _).2]
      exact content
  next => cases hs
  next quiet =>
    cases hs
    have quiet' : (!u.out && !u.entry && !u.dirty) = true := by
      have clean := related.dirty
      rw [related.out, related.entry]
      simp only [Bool.and_eq_true, Bool.not_eq_true'] at quiet ⊢
      exact ⟨quiet.1.1, by simpa [quiet.2] using clean⟩
    refine ⟨.edge, _, if_pos quiet', rfl, related.port, ?_, rfl, related.dirty, related.arrived,
      related.log, related.content⟩
    simp only [follows.blocked _ _ related.port]
    rfl
  next => cases hs

/-- With packets in turn, the bench refines the abstract machine. -/
theorem refines (follows : c.Follows turn size rel) (m : Machine (Bench σ π) (Action π))
    (init : m.init = new c mem)
    (inTurn : ∀ s a t, m.step s a = some t →
      step c s a = some t ∧ ∀ x, a = .arrive x → turn s.port x) :
    m.Refines (Handover.machine c.access size) isEdge Handover.isEdge (Shows c mem rel) where
  init := init ▸ related_new follows
  step s u a t related hs := by
    obtain ⟨hs, turn⟩ := inTurn s a t hs
    cases a with
    | arrive x => exact related_sent follows related (Or.inr ⟨x, rfl⟩) turn hs
    | drain => exact related_sent follows related (Or.inl rfl) turn hs
    | run => exact Or.inr (related_ran follows related (Or.inl rfl) hs)
    | receive => exact Or.inr (related_ran follows related (Or.inr rfl) hs)
    | delta => exact Or.inr (related_kernel follows related (Or.inl rfl) hs)
    | edge => exact Or.inr (related_kernel follows related (Or.inr rfl) hs)

/-- What is shown of a component in a state that `m` reaches: the log is a first part of what
the packets should cause, every packet has been taken or is in the FIFO, the memory is what
the logged writes make of it, and in so many edges the rest of the log follows, unless the
process has been blocked with an answer. -/
structure Delivered (c : Component σ π) (m : Machine (Bench σ π) (Action π)) (mem : Word → Word)
    (s : Bench σ π) : Prop where
  log : s.log <+: scripts c.access s.arrived
  queued : s.arrived.length = s.log.countP isTook + c.queued s.port
  content : c.content s.port = replay (c.content (c.start mem)) s.log
  time : m.Within isEdge (4 * c.queued s.port + 7)
    (fun t => scripts c.access s.arrived <+: t.log ∨ c.blocked t.port = true) s

theorem delivered_of_refines (follows : c.Follows turn size rel)
    {m : Machine (Bench σ π) (Action π)}
    (refines : m.Refines (Handover.machine c.access size) isEdge Handover.isEdge (Shows c mem rel))
    {s : Bench σ π} (h : m.Reachable s) : Delivered c m mem s := by
  obtain ⟨u, reachable, related⟩ := refines.reachable h
  have stage := Handover.stage_reachable reachable
  have queued := follows.queued _ _ related.port
  constructor
  · rw [← related.log, ← related.arrived]
    exact Handover.log_prefix stage
  · rw [← related.log, ← related.arrived, queued]
    exact Handover.taken_or_queued stage
  · exact related.content
  · rw [queued]
    refine refines.within ?_ related (Handover.through_in_time reachable)
    rintro t v shown (done | blocked)
    · exact Or.inl (by rwa [shown.log, related.arrived] at done)
    · exact Or.inr (by rw [follows.blocked _ _ shown.port, blocked]; rfl)

end Bench

/-- A cell is changed at its index, and so at its address. -/
theorem content_update (mem : Word → Word) (base a v : Word) :
    (fun b => Function.update mem (a - base) v (b - base)) =
      Function.update (fun b => mem (b - base)) a v := by
  funext b
  by_cases here : b = a
  · simp [here]
  · have other : b - base ≠ a - base := by
      intro same
      exact here (by simpa using congrArg (· + base) same)
    simp [here, other]

/-! ### `interface_out` -/

def EgressPc.sender : EgressPc → SenderPc
  | .start => .start
  | .init => .init
  | .loop => .loop
  | .writeResponce _ => .blocked

namespace EgressStep

def sender (p : EgressStep) : Sender Flit := ⟨p.egress.pc.sender, p.outFifo, p.egress.handshake⟩

/-- While the handshake is up the packet in hand is a write. -/
def Follows (p : EgressStep) (s : Sender Flit) : Prop :=
  s = p.sender ∧ (p.egress.handshake.preready = true → p.egress.isWriteOp = true)

variable {base : Word}

theorem follows_run (p : EgressStep) (s : Sender Flit) (h : p.Follows s) :
    (interfaceOutBench base).RunFollows Follows p s := by
  rw [Component.runFollows_iff]
  obtain ⟨rfl, op⟩ := h
  rcases p with ⟨⟨pc, isWriteOp, h, writes⟩, outFifo, responceFifo, mem, notify⟩
  simp only at op
  cases pc with
  | start =>
    simp [interfaceOutBench, EgressStep.run, Component.observe, Follows, sender, Sender.run,
      EgressPc.sender, replay]
  | init =>
    simpa [interfaceOutBench, EgressStep.run, Component.observe, Follows, sender, Sender.run,
      EgressPc.sender, replay] using op
  | writeResponce f =>
    simp only [interfaceOutBench, EgressStep.run, EgressStep.writeResponce]
    by_cases room : 0 < responceFifo.numFree <;>
      simpa [room, Component.observe, Follows, sender, Sender.run, EgressPc.sender, replay] using op
  | loop =>
    rcases h with ⟨preready, ready, ⟨done, next⟩, address, started, indone, seen⟩
    cases done <;> cases preready
    · -- both are down: a packet is looked for
      cases read : outFifo.nbRead with
      | none =>
        simp [interfaceOutBench, EgressStep.run, read, Component.observe, Follows, sender,
          Sender.run, EgressPc.sender, replay]
      | some r =>
        obtain ⟨f, rest⟩ := r
        have one := Fifo.held_of_nbRead read
        by_cases isRead : opcode f.word = 1
        · by_cases room : 0 < responceFifo.numFree <;>
            simp [interfaceOutBench, EgressStep.run, read, isRead, room, EgressStep.read,
              EgressStep.writeResponce, one, Component.observe, Follows, sender, Sender.run,
              EgressPc.sender, replay]
        · have isWrite : ¬ opcode f.word = 1#2 := isRead
          have cell := content_update mem base (base + (addrOffset f.word).zeroExtend 32)
            (pack 0 0 0 0 (data f.word))
          simpa [interfaceOutBench, EgressStep.run, read, isWrite, EgressStep.write, Handshake.raise,
            one, Component.observe, Follows, sender, Sender.run, EgressPc.sender, replay] using cell
    · simpa [interfaceOutBench, EgressStep.run, Component.observe, Follows, sender, Sender.run,
        EgressPc.sender, replay] using op
    · simp [interfaceOutBench, EgressStep.run, Component.observe, Follows, sender, Sender.run,
        EgressPc.sender, replay]
    · -- the receiver has answered: the end of a write
      have isWrite : isWriteOp = true := op rfl
      simp [interfaceOutBench, EgressStep.run, isWrite, Handshake.lower, Component.observe, Follows,
        sender, Sender.run, EgressPc.sender, replay]

theorem follows : (interfaceOutBench base).Follows (fun _ _ => True) internalFifoSize Follows where
  start mem := ⟨rfl, by simp [interfaceOutBench, Egress.new, Handshake.new]⟩
  handshake p s h := by rw [h.1]; rfl
  queued p s h := by rw [h.1]; rfl
  blocked p s h := by
    rw [h.1]
    simp only [interfaceOutBench, sender]
    cases p.egress.pc <;> rfl
  arrive p s f q h _ arrived := by
    simp only [interfaceOutBench] at arrived
    split at arrived
    next free =>
      cases arrived
      rw [h.1]
      exact ⟨free, ⟨rfl, h.2⟩, rfl⟩
    next => cases arrived
  drain p s q h drained := by
    obtain ⟨r, -, rfl⟩ := Option.map_eq_some_iff.mp drained
    exact ⟨h, rfl⟩
  run := follows_run
  receive p s h := by
    obtain ⟨rfl, op⟩ := h
    exact ⟨⟨rfl, fun raised => op ((Device.receive_preready _).symm.trans raised)⟩, rfl⟩
  update p s h := by
    obtain ⟨rfl, op⟩ := h
    exact ⟨⟨rfl, op⟩, rfl⟩

end EgressStep

/-! ### `direct_mem_out` -/

def DirectPc.sender : DirectPc → SenderPc
  | .start => .start
  | .init => .init
  | .loop => .loop
  | .writeResponce _ => .blocked

namespace DirectStep

/-- The FIFO holds the data words of the requests on their way, whose address and direction
are in the variables. -/
@[mk_iff follows_iff]
structure Follows (p : DirectStep) (s : Sender DirectRequest) : Prop where
  pc : s.pc = p.direct.pc.sender
  handshake : s.handshake = p.direct.handshake
  fifo : s.fifo.map DirectRequest.data = p.direct.dirMemOutFifo
  own : ∀ r ∈ s.fifo.contents, r.address = p.direct.outAddress ∧ r.read = p.direct.outRead

variable {base : Word}

/-- A request off the FIFO is served at its own address and in its own direction. -/
theorem follows_run (p : DirectStep) (s : Sender DirectRequest) (h : p.Follows s) :
    (directMemOutBench base).RunFollows Follows p s := by
  rw [Component.runFollows_iff]
  obtain ⟨pc, handshake, queue, own⟩ := h
  rcases p with ⟨⟨outAddress, outRead, dirFifo, respFifo, place, h⟩, mem, notifyRead, notifyWrite⟩
  rcases s with ⟨spc, fifo, sh⟩
  simp only at pc handshake queue own
  subst pc handshake queue
  cases place with
  | start =>
    simpa [directMemOutBench, DirectStep.run, Component.observe, Sender.run, DirectPc.sender,
      replay, follows_iff] using own
  | init =>
    simpa [directMemOutBench, DirectStep.run, Component.observe, Sender.run, DirectPc.sender,
      replay, follows_iff] using own
  | writeResponce v =>
    simp only [directMemOutBench, DirectStep.run, DirectStep.writeResponce]
    by_cases room : 0 < respFifo.numFree
    · simpa [room, Component.observe, Sender.run, DirectPc.sender, replay, follows_iff] using own
    · simpa [room, Component.observe, Sender.run, DirectPc.sender, replay, follows_iff] using own
  | loop =>
    rcases sh with ⟨preready, ready, ⟨done, next⟩, address, started, indone, seen⟩
    cases done <;> cases preready
    · -- both are down: a request is looked for
      cases read : fifo.nbRead with
      | none =>
        simpa [directMemOutBench, DirectStep.run, read, Fifo.map_nbRead, Component.observe,
          Sender.run, DirectPc.sender,
      replay, follows_iff] using own
      | some r =>
        obtain ⟨r, rest⟩ := r
        have one := Fifo.held_of_nbRead read
        have queue := (Fifo.contents_of_nbRead read).1
        obtain ⟨rfl, rfl⟩ := own r (by simp [queue])
        have own' : ∀ q ∈ rest.contents, q.address = r.address ∧ q.read = r.read :=
          fun q member => own q (by simp [queue, member])
        cases isRead : r.read with
        | true =>
          by_cases room : 0 < respFifo.numFree
          · simpa [directMemOutBench, DirectStep.run, read, isRead, room, Fifo.map_nbRead, Fifo.map_held,
              DirectStep.access, DirectStep.writeResponce, one, Component.observe, Sender.run,
              DirectPc.sender, replay, follows_iff] using own'
          · simpa [directMemOutBench, DirectStep.run, read, isRead, room, Fifo.map_nbRead, Fifo.map_held,
              DirectStep.access, DirectStep.writeResponce, one, Component.observe, Sender.run,
              DirectPc.sender, replay, follows_iff] using own'
        | false =>
          simpa [directMemOutBench, DirectStep.run, read, isRead, Fifo.map_nbRead, Fifo.map_held,
            DirectStep.access, Handshake.raise, one, Component.observe, Sender.run,
            DirectPc.sender, replay, follows_iff]
            using ⟨isRead ▸ own', content_update mem base r.address _⟩
    · simpa [directMemOutBench, DirectStep.run, Component.observe, Sender.run, DirectPc.sender,
        replay, follows_iff] using own
    · simpa [directMemOutBench, DirectStep.run, Component.observe, Sender.run, DirectPc.sender,
        replay, follows_iff] using own
    · simpa [directMemOutBench, DirectStep.run, Handshake.lower, Component.observe, Sender.run,
        DirectPc.sender, replay, follows_iff] using own

theorem follows : (directMemOutBench base).Follows
    (fun p r => p.direct.dirMemOutFifo.contents = [] ∨
      (p.direct.outAddress = r.address ∧ p.direct.outRead = r.read)) internalFifoSize Follows where
  start mem := ⟨rfl, rfl, rfl, by simp⟩
  handshake p s h := h.handshake.symm
  queued p s h := (congrArg Fifo.held h.fifo).symm.trans (Fifo.map_held _ _)
  blocked p s h := by
    rw [h.pc]
    simp only [directMemOutBench]
    cases p.direct.pc <;> rfl
  arrive p s r q h turn arrived := by
    simp only [directMemOutBench] at arrived
    split at arrived
    next free =>
      cases arrived
      have contents := congrArg Fifo.contents h.fifo
      rw [Fifo.map_contents] at contents
      rw [← h.fifo, Fifo.map_numFree] at free
      refine ⟨free, ⟨h.pc, h.handshake, ?_, ?_⟩, rfl⟩
      · rw [Fifo.map_push, h.fifo]
      · intro x member
        rw [Fifo.push_contents] at member
        rcases List.mem_append.mp member with old | new
        · -- another request in the FIFO is to the same address in the same direction
          rcases turn with empty | ⟨address, read⟩
          · rw [empty, List.map_eq_nil_iff] at contents
            simp [contents] at old
          · obtain ⟨same, same'⟩ := h.own x old
            exact ⟨same.trans address, same'.trans read⟩
        · rw [List.mem_singleton.mp new]
          exact ⟨rfl, rfl⟩
    next => cases arrived
  drain p s q h drained := by
    obtain ⟨r, -, rfl⟩ := Option.map_eq_some_iff.mp drained
    exact ⟨⟨h.pc, h.handshake, h.fifo, h.own⟩, rfl⟩
  run := follows_run
  receive p s h :=
    ⟨⟨h.pc, congrArg Handshake.receive h.handshake, h.fifo, h.own⟩, rfl⟩
  update p s h := by
    refine ⟨⟨h.pc, congrArg Handshake.update h.handshake, ?_, ?_⟩, rfl⟩
    · rw [Sender.update, Fifo.map_update, h.fifo]
      rfl
    · intro r member
      exact h.own r (by simpa [Sender.update] using member)

end DirectStep

/-! ### Both paths -/

namespace Bench

/-- On the switched path the handshake delivers each write exactly once, whatever arrives and
whenever it does; on the direct path it does for requests that arrive in turn. -/
theorem writes_delivered (base : Word) (mem : Word → Word) :
    (∀ s, (machine (interfaceOutBench base) mem).Reachable s →
      Delivered (interfaceOutBench base) (machine (interfaceOutBench base) mem) mem s) ∧
    ∀ s, (directMachine base mem).Reachable s →
      Delivered (directMemOutBench base) (directMachine base mem) mem s := by
  constructor
  · intro s reachable
    apply delivered_of_refines EgressStep.follows _ reachable
    exact refines EgressStep.follows _ rfl fun _ _ _ hs => ⟨hs, fun _ _ => trivial⟩
  · intro s reachable
    apply delivered_of_refines DirectStep.follows _ reachable
    apply refines DirectStep.follows _ rfl
    intro s a t hs
    obtain ⟨meets, step⟩ := (Machine.restrict_step _).mp hs
    refine ⟨step, ?_⟩
    rintro x rfl
    exact meets

/-- One clock cycle. -/
def cycle {π : Type} : List (Action π) := [.edge, .run, .receive, .delta]

/-- The packets arrive, and both processes come to their loops and take the first. -/
def allAtOnce {π : Type} (ps : List π) : List (Action π) :=
  ps.map .arrive ++ [.delta] ++ cycle ++ cycle ++ cycle

def afterAll {σ π : Type} (c : Component σ π) (ps : List π) : Bench σ π :=
  ((machine c id).run (new c id) (allAtOnce ps)).getD (new c id)

/-- A write of 7 to offset 5. -/
def someWrite : Flit := ⟨0x01400007, ⟨0, 0, 0x01400007, ⟨0, 0, 0⟩⟩⟩

theorem writes_delivered_of_one :
    Delivered (interfaceOutBench 0x40000000) (machine (interfaceOutBench 0x40000000) id) id
        (afterAll (interfaceOutBench 0x40000000) [someWrite]) ∧
      Delivered (directMemOutBench 0x40000000) (directMachine 0x40000000 id) id
        (afterAll (directMemOutBench 0x40000000) [⟨0x40000004, false, 1⟩]) :=
  ⟨(writes_delivered 0x40000000 id).1 _ ⟨allAtOnce [someWrite], rfl⟩,
    (writes_delivered 0x40000000 id).2 _ ⟨allAtOnce [⟨0x40000004, false, 1⟩], rfl⟩⟩

/-- Two writes that arrive together: the first is written and shown at the address of the
second. -/
theorem address_of_other_request :
    ¬ ∀ s, (machine (directMemOutBench 0x40000000) id).Reachable s →
      Delivered (directMemOutBench 0x40000000) (machine (directMemOutBench 0x40000000) id) id s := by
  intro claim
  have log := (claim (afterAll (directMemOutBench 0x40000000)
    [⟨0x40000004, false, 1⟩, ⟨0x40000008, false, 2⟩])
    ⟨allAtOnce [⟨0x40000004, false, 1⟩, ⟨0x40000008, false, 2⟩], rfl⟩).log
  exact absurd log (by decide)

end Bench

end ScCosim.Firewall
