import ScCosim.Firewall.Ports

/-!
# Handing packets over to a receiver

What `interface_out` and `direct_mem_out` have in common: a process takes packets off a FIFO,
answers a read, and shows the address of a write to a receiver with the `ready`/`done`
handshake. Packets can arrive at any time. What happens is put on a log, and the log is at
all times a first part of what each packet should cause, packet after packet.
-/
namespace ScCosim.Firewall

open Kernel

namespace Handover

/-- What a packet asks for. -/
structure Access where
  read : Bool
  address : Word
  /-- What a write leaves in the cell. -/
  cell : Word
  deriving DecidableEq, Repr

inductive Event where
  /-- The process takes a packet while `ready` and `done` show this. -/
  | took (ready done : Bool)
  | wrote (address cell : Word)
  /-- The receiver reads at this address. -/
  | presented (address : Word)
  /-- `done` rises, and the receiver is shown this address. -/
  | rose (address : Word)
  /-- `m_write_ended_event.notify()` -/
  | notified
  deriving DecidableEq, Repr

/-- All that a packet should cause, in order. -/
def script (a : Access) : List Event :=
  if a.read then [.took false false]
  else [.took false false, .wrote a.address a.cell, .presented a.address, .rose a.address, .notified]

/-- `nb_read` and `out_k->write` of a write. -/
def begun (a : Access) : List Event := [.took false false, .wrote a.address a.cell]

end Handover

open Handover

/-! ### The handshake as it is observed -/

namespace Handshake

/-- The update phase. -/
def update (h : Handshake) : Handshake :=
  { h with ready := h.ready.update, done := h.done.update, outAddrToRead := h.outAddrToRead.update }

/-- The addresses that the receiver's next run reads. -/
def presents (h : Handshake) : List Event := (h.receive.seen.drop h.seen.length).map .presented

/-- What the next update phase shows of `done`. -/
def rises (h : Handshake) : List Event :=
  if !h.done.cur && h.done.next then [.rose h.outAddrToRead.next] else []

end Handshake

/-! ### The process -/

inductive SenderPc where
  | start
  | init
  | loop
  /-- Blocked in the `write` of the response FIFO. -/
  | blocked
  deriving DecidableEq, Repr

structure Sender (π : Type) where
  pc : SenderPc
  fifo : Fifo π
  handshake : Handshake

namespace Sender

variable {π : Type} (access : π → Access)

/-- From one wait to the next, and what can be observed of it. A read needs a free place for
its answer. -/
def run (full : Bool) (s : Sender π) : Sender π × List Event :=
  match s.pc with
  | .start => ({ s with pc := .init, handshake.preready := false }, [])
  | .init => ({ s with pc := .loop }, [])
  | .loop =>
    if !s.handshake.done.cur && !s.handshake.preready then
      match s.fifo.nbRead with
      | none => (s, [])
      | some (p, rest) =>
        let took := Event.took s.handshake.ready.cur s.handshake.done.cur
        if (access p).read then
          ({ s with fifo := rest, pc := if full then .blocked else .loop }, [took])
        else
          ({ s with fifo := rest, handshake := s.handshake.raise (access p).address },
            [took, .wrote (access p).address (access p).cell])
    else if s.handshake.done.cur && s.handshake.preready then
      ({ s with handshake := s.handshake.lower }, [.notified])
    else (s, [])
  | .blocked => ({ s with pc := if full then .blocked else .loop }, [])

def receive (s : Sender π) : Sender π := { s with handshake := s.handshake.receive }

def update (s : Sender π) : Sender π :=
  { s with fifo := s.fifo.update, handshake := s.handshake.update }

/-- What one run of the process can do. -/
inductive Run (full : Bool) (s : Sender π) : Sender π × List Event → Prop
  | start (pc : s.pc = .start) :
      Run full s ({ s with pc := .init, handshake.preready := false }, [])
  | init (pc : s.pc = .init) : Run full s ({ s with pc := .loop }, [])
  | rest (pc : s.pc = .loop) : Run full s (s, [])
  | read (p : π) (rest : Fifo π) (pc : s.pc = .loop) (done : s.handshake.done.cur = false)
      (free : s.handshake.preready = false) (read : s.fifo.nbRead = some (p, rest))
      (op : (access p).read = true) :
      Run full s ({ s with fifo := rest, pc := if full then .blocked else .loop },
        [.took s.handshake.ready.cur s.handshake.done.cur])
  | write (p : π) (rest : Fifo π) (pc : s.pc = .loop) (done : s.handshake.done.cur = false)
      (free : s.handshake.preready = false) (read : s.fifo.nbRead = some (p, rest))
      (op : (access p).read = false) :
      Run full s ({ s with fifo := rest, handshake := s.handshake.raise (access p).address },
        [.took s.handshake.ready.cur s.handshake.done.cur,
          .wrote (access p).address (access p).cell])
  | lower (pc : s.pc = .loop) (done : s.handshake.done.cur = true)
      (raised : s.handshake.preready = true) :
      Run full s ({ s with handshake := s.handshake.lower }, [.notified])
  | resume (pc : s.pc = .blocked) :
      Run full s ({ s with pc := if full then .blocked else .loop }, [])

theorem run_spec (full : Bool) (s : Sender π) : Run access full s (s.run access full) := by
  unfold run
  split
  next pc => exact .start pc
  next pc => exact .init pc
  next pc =>
    split
    next free =>
      simp only [Bool.and_eq_true, Bool.not_eq_true'] at free
      cases read : s.fifo.nbRead with
      | none => exact .rest pc
      | some r =>
        obtain ⟨p, rest⟩ := r
        simp only
        split
        next op => exact .read p rest pc free.1 free.2 read op
        next op => exact .write p rest pc free.1 free.2 read (by simpa using op)
    next =>
    split
    next ended =>
      simp only [Bool.and_eq_true] at ended
      exact .lower pc ended.1 ended.2
    next => exact .rest pc
  next pc => exact .resume pc

end Sender

/-! ### The machine -/

/-- The process with its receiver, everything that has arrived for it and everything that has
been observed. -/
structure Handover (π : Type) where
  sender : Sender π
  /-- The process has been woken and has not run. -/
  out : Bool
  /-- The receiver has been woken and has not run. -/
  entry : Bool
  /-- Something has run since the last update phase. -/
  dirty : Bool
  arrived : List π
  log : List Event

namespace Handover

variable {π : Type}

inductive Action (π : Type) where
  | arrive (p : π)
  | run (full : Bool)
  | receive
  | delta
  | edge

def new (size : Nat) : Handover π :=
  ⟨⟨.start, Fifo.new size, Handshake.new⟩, false, false, false, [], []⟩

variable (access : π → Access)

def step (s : Handover π) : Action π → Option (Handover π)
  | .arrive p =>
    if 0 < s.sender.fifo.numFree then
      some { s with sender.fifo := s.sender.fifo.push p, arrived := s.arrived ++ [p], dirty := true }
    else none
  | .run full =>
    if s.out || s.sender.pc == .blocked then
      some { s with
        sender := (s.sender.run access full).1
        out := false
        dirty := true
        log := s.log ++ (s.sender.run access full).2 }
    else none
  | .receive =>
    if s.entry then
      some { s with
        sender := s.sender.receive
        entry := false
        dirty := true
        log := s.log ++ s.sender.handshake.presents }
    else none
  | .delta =>
    if !s.out && !s.entry then
      some { s with
        sender := s.sender.update
        dirty := false
        log := s.log ++ s.sender.handshake.rises }
    else none
  | .edge =>
    if !s.out && !s.entry && !s.dirty then
      some { s with out := s.sender.pc != .blocked, entry := true }
    else none

def machine (size : Nat) : Machine (Handover π) (Action π) := ⟨new size, step access⟩

def isEdge : Action π → Bool
  | .edge => true
  | _ => false

end Handover

/-! ### The phases of the handshake -/

namespace Handshake

/-- No write is being shown. -/
structure Low (h : Handshake) : Prop where
  preready : h.preready = false
  ready : h.ready.next = false
  done : h.done.next = h.indone
  seen : h.ready.cur = true → h.indone = true
  shown : h.indone = true → h.done.cur = true

/-- A write is shown at this address and the receiver has not answered. -/
structure Raised (h : Handshake) (a : Word) : Prop where
  preready : h.preready = true
  ready : h.ready.next = true
  indone : h.indone = false
  done : h.done = Signal.new false
  address : h.outAddrToRead.next = a
  shown : h.ready.cur = true → h.outAddrToRead.cur = a

/-- The receiver has answered: it has read, and `done` is or will be up. -/
structure Answered (h : Handshake) (a : Word) : Prop where
  preready : h.preready = true
  ready : h.ready = Signal.new true
  indone : h.indone = true
  done : h.done.next = true
  address : h.outAddrToRead.next = a

/-- The receiver does not see what is written in the same delta cycle. -/
theorem receive_raise (h : Handshake) (a : Word) : (h.raise a).receive = h.receive.raise a := by
  rcases h with ⟨_, ⟨up, _⟩, _, _, started, indone, _⟩
  cases started <;> cases up <;> cases indone <;> rfl

theorem receive_lower (h : Handshake) : h.lower.receive = h.receive.lower := by
  rcases h with ⟨_, ⟨up, _⟩, _, _, started, indone, _⟩
  cases started <;> cases up <;> cases indone <;> rfl

theorem receive_reset (h : Handshake) :
    { h with preready := false }.receive = { h.receive with preready := false } := by
  rcases h with ⟨_, ⟨up, _⟩, _, _, started, indone, _⟩
  cases started <;> cases up <;> cases indone <;> rfl

variable {h : Handshake} {a : Word}

/-- Where the process takes its next packet both signals are down. -/
theorem Low.down (low : h.Low) (done : h.done.cur = false) : h.ready.cur = false := by
  by_contra up
  have answered := low.shown (low.seen (by simpa using up))
  simp [done] at answered

theorem Low.receive (low : h.Low) : h.receive.Low ∧ h.presents = [] := by
  obtain ⟨preready, ready, done, seen, shown⟩ := low
  unfold presents Handshake.receive
  cases started : h.started with
  | false => exact ⟨⟨preready, ready, done, seen, shown⟩, by simp⟩
  | true =>
    cases up : h.ready.cur with
    | false => exact ⟨⟨preready, ready, rfl, by simp [up], by simp⟩, by simp⟩
    | true =>
      -- the receiver has seen the write before
      have answered := seen up
      simp only [answered, if_true, Bool.not_true, Bool.false_eq_true, if_false, List.drop_length,
        List.map_nil, and_true]
      exact ⟨preready, ready, done, seen, shown⟩

theorem Low.update (low : h.Low) : h.update.Low ∧ h.rises = [] := by
  obtain ⟨preready, ready, done, seen, shown⟩ := low
  refine ⟨⟨preready, ready, done, ?_, ?_⟩, ?_⟩
  · simp [Handshake.update, Signal.update, ready]
  · simp [Handshake.update, Signal.update, done]
  · cases answered : h.indone with
    | false => simp [rises, done, answered]
    | true => simp [rises, shown answered]

/-- The receiver reads the write's own address, or does not look yet. -/
theorem Raised.receive (raised : h.Raised a) :
    (h.receive.Raised a ∧ h.presents = []) ∨
      (h.receive.Answered a ∧ h.receive.done.cur = false ∧ h.presents = [.presented a]) := by
  obtain ⟨preready, ready, indone, done, address, shown⟩ := raised
  unfold presents Handshake.receive
  cases started : h.started with
  | false => exact Or.inl ⟨⟨preready, ready, indone, done, address, shown⟩, by simp⟩
  | true =>
    cases up : h.ready.cur with
    | false =>
      refine Or.inl ⟨⟨preready, ready, rfl, ?_, address, by simp [up]⟩, by simp⟩
      simp [done, Signal.write, Signal.new]
    | true =>
      have both : h.ready = Signal.new true := by
        rcases same : h.ready with ⟨cur, next⟩
        rw [same] at up ready
        cases up
        cases ready
        rfl
      right
      simp only [indone, shown up, if_true, Bool.not_false]
      exact ⟨⟨preready, both, rfl, rfl, address⟩, by simp [done, Signal.new], by simp⟩

theorem Raised.update (raised : h.Raised a) : h.update.Raised a ∧ h.rises = [] := by
  obtain ⟨preready, ready, indone, done, address, shown⟩ := raised
  refine ⟨⟨preready, ready, indone, ?_, address, fun _ => address⟩, ?_⟩
  · simp [Handshake.update, Signal.update, done, Signal.new]
  · simp [rises, done, Signal.new]

/-- One write is presented once. -/
theorem Answered.receive (answered : h.Answered a) : h.receive = { h with started := true } ∧
    h.presents = [] := by
  obtain ⟨preready, ready, indone, done, address⟩ := answered
  rcases h with ⟨_, _, _, _, started, _, _⟩
  simp only at ready indone
  subst ready indone
  cases started <;> simp [Handshake.receive, presents, Signal.new]

theorem Answered.start (answered : h.Answered a) : { h with started := true }.Answered a :=
  ⟨answered.preready, answered.ready, answered.indone, answered.done, answered.address⟩

/-- `done` rises once, while the receiver is shown the write's own address. -/
theorem Answered.update (answered : h.Answered a) : h.update.Answered a ∧
    h.update.done.cur = true ∧ h.rises = if h.done.cur then [] else [.rose a] := by
  obtain ⟨preready, ready, indone, done, address⟩ := answered
  refine ⟨⟨preready, ?_, indone, done, address⟩, ?_, ?_⟩
  · simp [Handshake.update, Signal.update, ready, Signal.new]
  · simp [Handshake.update, Signal.update, done]
  · cases up : h.done.cur <;> simp [rises, up, done, address]

theorem Answered.lower (answered : h.Answered a) (up : h.done.cur = true) : h.lower.Low := by
  obtain ⟨preready, ready, indone, done, address⟩ := answered
  refine ⟨rfl, rfl, ?_, fun _ => indone, fun _ => up⟩
  exact done.trans indone.symm

theorem Low.raise (low : h.Low) (down : h.done.cur = false) (a : Word) : (h.raise a).Raised a := by
  have dark : h.indone = false := by
    by_contra answered
    have up := low.shown (by simpa using answered)
    simp [down] at up
  have off := low.down down
  have next : h.done.next = false := low.done.trans dark
  refine ⟨rfl, rfl, dark, ?_, rfl, ?_⟩
  · rcases h with ⟨_, _, ⟨_, _⟩, _, _, _, _⟩
    cases down
    cases next
    rfl
  · simp [Handshake.raise, off]

end Handshake

/-! ### The log -/

namespace Handover

variable {π : Type} (access : π → Access)

/-- All that a list of packets should cause. -/
def scripts (ps : List π) : List Event := ps.flatMap fun p => script (access p)

/-- Between two packets, or with a write in hand that is shown or answered. -/
inductive Stage (s : Handover π) : Prop
  | between (past : List π) (low : s.sender.handshake.Low)
      (arrived : s.arrived = past ++ s.sender.fifo.contents) (log : s.log = scripts access past)
  | shown (past : List π) (p : π) (pc : s.sender.pc = .loop) (write : (access p).read = false)
      (raised : s.sender.handshake.Raised (access p).address)
      (arrived : s.arrived = past ++ p :: s.sender.fifo.contents)
      (log : s.log = scripts access past ++ begun (access p))
  | answered (past : List π) (p : π) (pc : s.sender.pc = .loop) (write : (access p).read = false)
      (answered : s.sender.handshake.Answered (access p).address)
      (arrived : s.arrived = past ++ p :: s.sender.fifo.contents)
      (log : s.log = scripts access past ++ begun (access p) ++ [.presented (access p).address] ++
        if s.sender.handshake.done.cur then [.rose (access p).address] else [])

variable {access} {s t : Handover π}

theorem scripts_append (ps qs : List π) :
    scripts access (ps ++ qs) = scripts access ps ++ scripts access qs := List.flatMap_append

theorem scripts_cons (p : π) (ps : List π) :
    scripts access (p :: ps) = script (access p) ++ scripts access ps := List.flatMap_cons

theorem scripts_concat (ps : List π) (p : π) :
    scripts access (ps ++ [p]) = scripts access ps ++ script (access p) := by
  simp [scripts]

theorem stage_arrive (h : s.Stage access) (p : π) :
    Stage access { s with
      sender.fifo := s.sender.fifo.push p, arrived := s.arrived ++ [p], dirty := true } := by
  cases h with
  | between past low arrived log => exact .between past low (by simp [arrived]) log
  | shown past q pc write raised arrived log =>
    exact .shown past q pc write raised (by simp [arrived]) log
  | answered past q pc write answered arrived log =>
    exact .answered past q pc write answered (by simp [arrived]) log

/-- Between two packets the process takes the next one, with both signals down. -/
theorem stage_run_between {full : Bool} {r : Sender π × List Event}
    (run : Sender.Run access full s.sender r) {past : List π} (low : s.sender.handshake.Low)
    (arrived : s.arrived = past ++ s.sender.fifo.contents) (log : s.log = scripts access past) :
    Stage access { s with sender := r.1, out := false, dirty := true, log := s.log ++ r.2 } := by
  cases run with
  | start pc =>
    refine .between past ⟨rfl, low.ready, low.done, low.seen, low.shown⟩ arrived ?_
    simpa using log
  | init | rest | resume => exact .between past low arrived (by simpa using log)
  | read p rest pc done free read op =>
    have queue := (Fifo.contents_of_nbRead read).1
    refine .between (past ++ [p]) low (by simp [arrived, queue]) ?_
    simp [scripts_concat, script, op, log, low.down done, done]
  | write p rest pc done free read op =>
    have queue := (Fifo.contents_of_nbRead read).1
    refine .shown past p pc op (low.raise done _) (by simp [arrived, queue]) ?_
    simp [begun, log, low.down done, done]
  | lower pc done raised => simp [low.preready] at raised

/-- With a write in hand the process waits for the answer, and then ends the write. -/
theorem stage_run {full : Bool} (h : s.Stage access) :
    Stage access { s with
      sender := (s.sender.run access full).1
      out := false
      dirty := true
      log := s.log ++ (s.sender.run access full).2 } := by
  have run := s.sender.run_spec access full
  generalize s.sender.run access full = r at run ⊢
  cases h with
  | between past low arrived log => exact stage_run_between run low arrived log
  | shown past p pc write raised arrived log =>
    cases run with
    | rest => exact .shown past p pc write raised arrived (by simpa using log)
    | start here | init here | resume here => simp [pc] at here
    | read _ _ _ _ free | write _ _ _ _ free => simp [raised.preready] at free
    | lower _ done => simp [raised.done, Signal.new] at done
  | answered past p pc write answered arrived log =>
    cases run with
    | rest => exact .answered past p pc write answered arrived (by simpa using log)
    | start here | init here | resume here => simp [pc] at here
    | read _ _ _ _ free | write _ _ _ _ free => simp [answered.preready] at free
    | lower _ done =>
      refine .between (past ++ [p]) (answered.lower done) (by simpa using arrived) ?_
      simp [scripts_concat, script, begun, write, log, done]

theorem stage_receive (h : s.Stage access) :
    Stage access { s with
      sender := s.sender.receive
      entry := false
      dirty := true
      log := s.log ++ s.sender.handshake.presents } := by
  cases h with
  | between past low arrived log =>
    obtain ⟨low, none⟩ := low.receive
    exact .between past low arrived (by simpa [none] using log)
  | shown past p pc write raised arrived log =>
    rcases raised.receive with ⟨raised, none⟩ | ⟨answered, down, presented⟩
    · exact .shown past p pc write raised arrived (by simpa [none] using log)
    · refine .answered past p pc write answered arrived ?_
      simp [Sender.receive, down, presented, log]
  | answered past p pc write answered arrived log =>
    obtain ⟨same, none⟩ := answered.receive
    refine .answered past p pc write ?_ arrived ?_
    · simp only [Sender.receive, same]
      exact answered.start
    · simp [Sender.receive, same, none, log]

theorem stage_update (h : s.Stage access) :
    Stage access { s with
      sender := s.sender.update
      dirty := false
      log := s.log ++ s.sender.handshake.rises } := by
  have contents : s.sender.update.fifo.contents = s.sender.fifo.contents := by
    simp [Sender.update]
  cases h with
  | between past low arrived log =>
    obtain ⟨low, none⟩ := low.update
    exact .between past low (by rw [contents, arrived]) (by simpa [none] using log)
  | shown past p pc write raised arrived log =>
    obtain ⟨raised, none⟩ := raised.update
    exact .shown past p pc write raised (by rw [contents, arrived]) (by simpa [none] using log)
  | answered past p pc write answered arrived log =>
    obtain ⟨answered', up, rises⟩ := answered.update
    refine .answered past p pc write answered' (by rw [contents, arrived]) ?_
    cases done : s.sender.handshake.done.cur <;>
      simp [Sender.update, up, rises, log, done]

/-- Every step of either process, of the kernel and of whoever sends packets. -/
theorem stage_step {a : Action π} (h : s.Stage access) (hs : s.step access a = some t) :
    t.Stage access := by
  cases a with
  | arrive p =>
    simp only [step] at hs
    split at hs
    · cases hs; exact stage_arrive h p
    · cases hs
  | run full =>
    simp only [step] at hs
    split at hs
    · cases hs; exact stage_run h
    · cases hs
  | receive =>
    simp only [step] at hs
    split at hs
    · cases hs; exact stage_receive h
    · cases hs
  | delta =>
    simp only [step] at hs
    split at hs
    · cases hs; exact stage_update h
    · cases hs
  | edge =>
    simp only [step] at hs
    split at hs
    · cases hs
      -- the clock changes nothing that the stages speak of
      cases h with
      | between past low arrived log => exact .between past low arrived log
      | shown past p pc write raised arrived log => exact .shown past p pc write raised arrived log
      | answered past p pc write answered arrived log =>
        exact .answered past p pc write answered arrived log
    · cases hs

theorem stage_reachable {size : Nat} (h : (machine access size).Reachable s) : s.Stage access := by
  refine h.invariant (I := Stage access) ?_ fun _ _ _ stage hs => stage_step stage hs
  refine .between [] ⟨rfl, rfl, rfl, ?_, ?_⟩ rfl rfl <;> simp [machine, new, Handshake.new, Signal.new]

/-- The log is a first part of what the packets should cause. -/
theorem log_prefix (h : s.Stage access) : s.log <+: scripts access s.arrived := by
  cases h with
  | between past low arrived log =>
    rw [log, arrived, scripts_append]
    exact List.prefix_append _ _
  | shown past p pc write raised arrived log =>
    rw [log, arrived, scripts_append, scripts_cons]
    apply List.prefix_append_right_inj _ |>.mpr
    simp [script, begun, write]
  | answered past p pc write answered arrived log =>
    rw [log, arrived, scripts_append, scripts_cons, List.append_assoc, List.append_assoc]
    apply List.prefix_append_right_inj _ |>.mpr
    cases s.sender.handshake.done.cur <;> simp [script, begun, write]

def isTook : Event → Bool
  | .took _ _ => true
  | _ => false

theorem countP_script (a : Access) : (script a).countP isTook = 1 := by
  unfold script
  split <;> rfl

theorem countP_scripts (ps : List π) : (scripts access ps).countP isTook = ps.length := by
  induction ps with
  | nil => rfl
  | cons p ps ih =>
    rw [scripts_cons, List.countP_append, countP_script, ih, List.length_cons, Nat.add_comm]

theorem countP_begun (a : Access) : (begun a).countP isTook = 1 := rfl

/-- Every packet has been taken or is in the FIFO. -/
theorem taken_or_queued (h : s.Stage access) :
    s.arrived.length = s.log.countP isTook + s.sender.fifo.held := by
  cases h with
  | between past low arrived log =>
    simp [arrived, log, countP_scripts, Fifo.held]
  | shown past p pc write raised arrived log =>
    rw [arrived, log, List.countP_append, countP_scripts, countP_begun]
    simp [Fifo.held]
    omega
  | answered past p pc write answered arrived log =>
    rw [arrived, log, List.countP_append, List.countP_append, List.countP_append, countP_scripts,
      countP_begun]
    cases s.sender.handshake.done.cur <;> simp [isTook, Fifo.held] <;> omega

end Handover

end ScCosim.Firewall
