import ScCosim.Firewall.Progress

/-!
# A direct write reaches its receiver

While a write is under way to a direct port, each clock edge brings the handshake with the
receiver closer to its end: a `done` left from the write before is lowered, the request is
shown, the receiver answers, and `direct_mem_out` sees the answer.
-/
namespace ScCosim.Firewall

open Kernel Async

/-! ### How many edges are left -/

def DirectPc.edges : DirectPc → Nat
  | .start => 2
  | .init => 1
  | .loop | .writeResponce _ => 0

/-- The edges of a handshake that is in its loop on both sides. -/
def handshakeEdges : (preready indone : Bool) → Nat
  | false, true => 4
  | false, false => 3
  | true, false => 2
  | true, true => 1

/-! ### The receiver -/

namespace Handshake

variable (h : Handshake)

theorem receive_indone : h.receive.indone = if h.started then h.ready.cur else h.indone := by
  unfold receive
  cases h.started <;> cases h.ready.cur <;> cases answered : h.indone <;> simp [answered]

theorem receive_started : h.receive.started = true := by
  unfold receive
  cases started : h.started
  · rfl
  · cases h.ready.cur <;> cases h.indone <;> simp [started]

/-- The receiver's signal follows its variable. -/
theorem receive_done (same : h.done.next = h.indone) : h.receive.done.next = h.receive.indone := by
  unfold receive
  split
  · split
    · split
      · rfl
      · exact same
    · rfl
  · exact same

theorem receive_ready : h.receive.ready = h.ready ∧ h.receive.done.cur = h.done.cur := by
  unfold receive
  split
  · split
    · split <;> exact ⟨rfl, rfl⟩
    · exact ⟨rfl, rfl⟩
  · exact ⟨rfl, rfl⟩

end Handshake

/-! ### A port with a write -/

namespace Direct

variable (g : Direct)

/-- `direct_mem_out` notifies when it runs next. -/
def answers : Bool := g.pc = .loop && g.handshake.done.cur && g.handshake.preready

/-- `preready` after the next run of `direct_mem_out`, if that does not notify. -/
def nextPreready : Bool :=
  g.handshake.preready ||
    (g.pc = .loop && !g.handshake.done.cur && !g.dirMemOutFifo.readable.isEmpty)

/-- `indone` after the next run of the receiver. -/
def nextIndone : Bool :=
  if g.handshake.started then g.handshake.ready.cur else g.handshake.indone

/-- A bound on the edges before the port notifies. `memOut` and `entry` tell which of
`direct_mem_out` and the receiver have still to run in this cycle. -/
def edges (memOut entry : Bool) : Nat :=
  if memOut && g.answers then 0
  else
    handshakeEdges (if memOut then g.nextPreready else g.handshake.preready)
        (if entry then g.nextIndone else g.handshake.indone) +
      (if memOut then g.pc.edges - 1 else g.pc.edges) +
      (if entry || g.handshake.started then 0 else 1)

/-- The port has a write, not yet shown to the receiver or shown. -/
def Holds : Prop :=
  (g.dirMemOutFifo.held ≠ 0 ∧ g.outRead = false) ∨ g.handshake.preready = true

/-- No read is in the port. -/
structure Unread : Prop where
  pc : ∀ v, g.pc ≠ .writeResponce v
  outRead : g.outRead = true → g.dirMemOutFifo.held = 0

/-- The signals follow the variables, and nothing is raised before the loop. -/
structure Tuned : Prop where
  ready : g.handshake.ready.next = g.handshake.preready
  done : g.handshake.done.next = g.handshake.indone
  start : g.pc = .start → g.handshake.preready = false
  size : g.dirMemOutFifo.size = internalFifoSize

/-- Nothing has been written since the last update. -/
structure Shown : Prop where
  ready : g.handshake.ready.cur = g.handshake.ready.next
  done : g.handshake.done.cur = g.handshake.done.next
  written : g.dirMemOutFifo.written = []
  numRead : g.dirMemOutFifo.numRead = 0

variable {g}

theorem readable_of_unread (unread : g.Unread) (some : g.dirMemOutFifo.readable ≠ []) :
    g.outRead = false := by
  by_contra read
  have none := unread.outRead (by simpa using read)
  rw [Fifo.held_eq_zero, Fifo.contents, List.append_eq_nil_iff] at none
  exact some none.1

/-- The threads leave what lies ahead of a port alone. -/
theorem edges_of_same {g' : Direct} (same : Device.SameDirect g g') (memOut entry : Bool) :
    g'.edges memOut entry = g.edges memOut entry := by
  unfold edges answers nextPreready nextIndone
  rw [same.pc, same.handshake, same.readable]

theorem tuned_of_same {g' : Direct} (same : Device.SameDirect g g') (tuned : g.Tuned) : g'.Tuned := by
  obtain ⟨ready, done, start, size⟩ := tuned
  constructor
  · rw [same.handshake]
    exact ready
  · rw [same.handshake]
    exact done
  · rw [same.handshake, same.pc]
    exact start
  · exact same.size.trans size

end Direct

/-! ### One run of each process -/

namespace DirectStep

variable (base : Word) (mem : Word → Word) (g : Direct)

/-- A run of `direct_mem_out` notifies, or is what lay ahead. -/
theorem run_edges (unread : g.Unread) (tuned : g.Tuned) (entry : Bool) :
    (run base ⟨g, mem, false, false⟩).notifyWrite = true ∨
      (run base ⟨g, mem, false, false⟩).direct.edges false entry = g.edges true entry := by
  have counted {h : Direct} (memOut : Bool) (quiet : (memOut && h.answers) = false) :
      h.edges memOut entry =
        handshakeEdges (if memOut then h.nextPreready else h.handshake.preready)
            (if entry then h.nextIndone else h.handshake.indone) +
          (if memOut then h.pc.edges - 1 else h.pc.edges) +
          (if entry || h.handshake.started then 0 else 1) := by
    simp [Direct.edges, quiet]
  cases pc : g.pc with
  | start =>
    right
    have low := tuned.start pc
    rw [counted false rfl, counted true (by simp [Direct.answers, pc])]
    simp [run, pc, Direct.nextPreready, Direct.nextIndone, DirectPc.edges, low]
  | init =>
    right
    rw [counted false rfl, counted true (by simp [Direct.answers, pc])]
    simp [run, pc, Direct.nextPreready, Direct.nextIndone, DirectPc.edges]
  | writeResponce v => exact absurd pc (unread.pc v)
  | loop =>
    -- in its loop the process tests `done` and `preready`: equal, it acts; different, it waits
    cases done : g.handshake.done.cur <;> cases raised : g.handshake.preready
    · right
      rw [counted false rfl, counted true (by simp [Direct.answers, done])]
      cases readable : g.dirMemOutFifo.readable with
      | nil =>
        have none := (Fifo.nbRead_eq_none_iff _).mpr readable
        simp [run, pc, done, raised, none, Direct.nextPreready, Direct.nextIndone, DirectPc.edges, readable]
      | cons v rest =>
        have out := Direct.readable_of_unread unread (by simp [readable])
        simp [run, pc, done, raised, Fifo.nbRead, readable, access, out, Handshake.raise,
          Direct.nextPreready, Direct.nextIndone, DirectPc.edges]
    · right
      rw [counted false rfl, counted true (by simp [Direct.answers, done])]
      simp [run, pc, done, raised, Direct.nextPreready, Direct.nextIndone, DirectPc.edges]
    · right
      rw [counted false rfl, counted true (by simp [Direct.answers, raised])]
      simp [run, pc, done, raised, Direct.nextPreready, Direct.nextIndone, DirectPc.edges]
    · left
      simp [run, pc, done, raised]

/-- A write in the port stays there until the run that notifies. -/
theorem run_holds (unread : g.Unread) (tuned : g.Tuned) (holds : g.Holds) :
    (run base ⟨g, mem, false, false⟩).notifyWrite = true ∨
      (run base ⟨g, mem, false, false⟩).direct.Holds := by
  have spec := run_spec base ⟨g, mem, false, false⟩
  generalize run base ⟨g, mem, false, false⟩ = t at spec ⊢
  cases spec with
  | lower => exact Or.inl rfl
  -- the reset lowers `preready`, which was not raised
  | start pc =>
    have low := tuned.start pc
    right
    rcases holds with queued | raised
    · exact Or.inl queued
    · simp [low] at raised
  | init | rest => exact Or.inr holds
  | access v rest pc free read =>
    -- the write is off the FIFO, and shown to the receiver
    right
    have taken : g.dirMemOutFifo.readable = v :: rest.readable := (Fifo.contents_of_nbRead read).2.1
    have out := Direct.readable_of_unread unread (by simp [taken])
    right
    simp [access, out, Handshake.raise]
  | resume v pc => exact absurd pc (unread.pc v)

theorem run_tuned (tuned : g.Tuned) : (run base ⟨g, mem, false, false⟩).direct.Tuned := by
  obtain ⟨ready, done, start, size⟩ := tuned
  have answer (s : DirectStep) (v : Word) (tuned : s.direct.Tuned) :
      (s.writeResponce v).direct.Tuned := by
    rcases s.writeResponce_spec v with room | full
    · rw [room]
      exact ⟨tuned.ready, tuned.done, by simp, tuned.size⟩
    · rw [full]
      exact ⟨tuned.ready, tuned.done, by simp, tuned.size⟩
  have spec := run_spec base ⟨g, mem, false, false⟩
  generalize run base ⟨g, mem, false, false⟩ = t at spec ⊢
  cases spec with
  | start pc => exact ⟨ready.trans (start pc), done, fun _ => rfl, size⟩
  | init pc => exact ⟨ready, done, by simp, size⟩
  | rest pc => exact ⟨ready, done, start, size⟩
  | lower pc => exact ⟨rfl, done, fun _ => rfl, size⟩
  | resume v pc => exact answer _ v ⟨ready, done, start, size⟩
  | access v rest pc free read =>
    have kept : rest.size = g.dirMemOutFifo.size := Fifo.size_of_nbRead read
    unfold access
    split
    · exact answer _ _ ⟨ready, done, start, kept.trans size⟩
    · exact ⟨rfl, done, fun start => absurd (pc.symm.trans start) (by simp), kept.trans size⟩

end DirectStep

namespace Direct

variable {g : Direct}

/-- A run of the receiver is what lay ahead. -/
theorem edges_receive (memOut : Bool) :
    { g with handshake := g.handshake.receive }.edges memOut false = g.edges memOut true := by
  obtain ⟨ready, done⟩ := g.handshake.receive_ready
  simp only [edges, answers, nextPreready, nextIndone, done, Device.receive_preready,
    Handshake.receive_indone, Handshake.receive_started]
  simp

theorem tuned_receive (tuned : g.Tuned) :
    { g with handshake := g.handshake.receive }.Tuned := by
  obtain ⟨ready, done, start, size⟩ := tuned
  have same := Device.receive_preready g.handshake
  constructor
  · show g.handshake.receive.ready.next = g.handshake.receive.preready
    rw [g.handshake.receive_ready.1, same]
    exact ready
  · exact g.handshake.receive_done done
  · intro pc
    exact same.trans (start pc)
  · exact size

/-- Each edge brings a port with a write closer to its end. -/
theorem edges_edge (holds : g.Holds) (unread : g.Unread) (tuned : g.Tuned) (shown : g.Shown) :
    g.edges true true + 1 ≤ g.edges false false := by
  -- after the update the signals show what the variables hold
  have ready : g.handshake.ready.cur = g.handshake.preready := shown.ready.trans tuned.ready
  have done : g.handshake.done.cur = g.handshake.indone := shown.done.trans tuned.done
  have readable : g.handshake.preready = false → g.dirMemOutFifo.readable.isEmpty = false := by
    intro low
    have some : g.dirMemOutFifo.held ≠ 0 := by
      rcases holds with queued | raised
      · exact queued.1
      · simp [low] at raised
    simpa [Fifo.held, Fifo.contents, shown.written] using some
  simp only [edges, answers, nextPreready, nextIndone, ready, done]
  cases pc : g.pc with
  | writeResponce v => exact absurd pc (unread.pc v)
  | start =>
    have low := tuned.start pc
    cases g.handshake.indone <;> cases g.handshake.started <;>
      simp [low, DirectPc.edges, handshakeEdges]
  | init =>
    cases g.handshake.preready <;> cases g.handshake.indone <;> cases g.handshake.started <;>
      simp [DirectPc.edges, handshakeEdges]
  | loop =>
    -- the four phases of the handshake, and a receiver that has or has not started
    cases raised : g.handshake.preready <;> cases g.handshake.indone <;>
      cases g.handshake.started <;> simp [readable, raised, DirectPc.edges, handshakeEdges]

end Direct

/-! ### In the device -/

namespace Device

variable {d e : Device} {k : Port}

theorem directMemOut_direct (d : Device) (k : Port) :
    (d.process (.directMemOut k)).direct k =
      (DirectStep.run (memBase k) ⟨d.direct k, d.mem k, false, false⟩).direct := by
  rw [process_directMemOut]
  simp [directMemOut]

theorem directentry_direct (d : Device) (k : Port) :
    (d.process (.directentry k)).direct k =
      { d.direct k with handshake := (d.direct k).handshake.receive } := by
  simp [process, directentry]

/-- The other clocked processes are not at this port. -/
theorem process_direct {q : Proc} (inside : q ∈ clocked) (out : q ≠ .directMemOut k)
    (entry : q ≠ .directentry k) : (d.process q).direct k = d.direct k := by
  cases q with
  | client | executeWriteThread | executeReadThread => simp [clocked] at inside
  | setupfwRule =>
    simp only [process, setupfwRule]
    split <;> rfl
  | interfaceIn i => rw [process_interfaceIn]; rfl
  | interfaceOut j => rw [process_interfaceOut]; rfl
  | entrySw j => rw [process_entrySw]
  | entryResponse | entry j => rfl
  | directMemOut j =>
    have other : k ≠ j := by
      rintro rfl
      exact out rfl
    rw [process_directMemOut]
    simp [directMemOut, other]
  | directentry j =>
    have other : k ≠ j := by
      rintro rfl
      exact entry rfl
    simp [process, directentry, other]

theorem tuned_process (q : Proc) (tuned : (d.direct k).Tuned) :
    ((d.process q).direct k).Tuned := by
  rcases clocked_or_thread q with inside | rfl | rfl | rfl
  · by_cases out : q = .directMemOut k
    · subst out
      rw [directMemOut_direct]
      exact DirectStep.run_tuned _ _ _ tuned
    by_cases entry : q = .directentry k
    · subst entry
      rw [directentry_direct]
      exact Direct.tuned_receive tuned
    · rw [process_direct inside out entry]
      exact tuned
  · exact tuned
  · exact Direct.tuned_of_same (d.executeWriteThread_direct k) tuned
  · exact Direct.tuned_of_same (d.executeReadThread_direct k) tuned

theorem tuned_of_reachable (h : machine.Reachable d) (k : Port) :
    (d.direct k).Tuned ∧ (d.dirty = false → (d.direct k).Shown) := by
  apply h.invariant (I := fun d => (d.direct k).Tuned ∧ (d.dirty = false → (d.direct k).Shown))
  · exact ⟨⟨rfl, rfl, fun _ => rfl, rfl⟩, fun _ => ⟨rfl, rfl, rfl, rfl⟩⟩
  rintro d a e ⟨tuned, shown⟩ hs
  cases move_of_step hs with
  | run q => exact ⟨tuned_process q tuned, by simp [exec]⟩
  | request => exact ⟨tuned, by simp [request]⟩
  | delta =>
    -- the update shows what was written, and clears the flag
    constructor
    · exact ⟨tuned.ready, tuned.done, tuned.start, tuned.size⟩
    · exact fun _ => ⟨rfl, rfl, rfl, rfl⟩
  | edge => exact ⟨tuned, shown⟩

/-- While no read is under way, none is in a direct port. -/
theorem unread_of_reachable (h : machine.Reachable d) (other : d.bus.client ≠ .waitRead)
    (k : Port) : (d.direct k).Unread := by
  have none := ((accounted_of_reachable h).no_read other).2
  have own : (d.direct k).readLoad = 0 := Finset.sum_eq_zero_iff.mp none k (Finset.mem_univ k)
  unfold Direct.readLoad at own
  constructor
  · -- a blocked answer would be a piece of a read
    intro v pc
    simp [pc, DirectPc.load] at own
  · intro out
    simp only [out, if_true] at own
    omega

theorem unblocked_of_pc (free : ∀ v, (d.direct k).pc ≠ .writeResponce v) :
    d.blocked (.directMemOut k) = false := by
  simp only [blocked]

/-- Where the request of a write to direct port `k` can be. -/
def Underway (k : Port) (d : Device) : Prop :=
  d.bus.client = .waitWrite ∧
    ((d.bus.writeThread = .notified ∧ directPort d.bus.mWriteAddress = some k) ∨
      (∃ v, d.bus.writeThread = .writeDirect k v) ∨ (d.direct k).Holds)

/-- A bound on the clock edges before a direct write ends. -/
def edgesLeft (d : Device) (k : Port) : Nat :=
  (d.direct k).edges (d.ready.contains (.directMemOut k)) (d.ready.contains (.directentry k))

/-- The run of one process leaves the others ready. -/
theorem contains_exec (d : Device) {q r : Proc} (other : r ≠ q) :
    (d.exec q).ready.contains r = d.ready.contains r := by
  apply Bool.eq_iff_iff.mpr
  rw [List.contains_iff_mem, List.contains_iff_mem]
  exact List.mem_erase_of_ne other

/-- What a clocked process has to do for the write, whichever process it is. -/
theorem underway_of_signal (underway : Underway k d) {q : Proc} {notify pending : Bool}
    (bus : (d.process q).bus = d.bus.signal notify pending)
    (holds : (d.direct k).Holds → notify = true ∨ ((d.process q).direct k).Holds)
    (edges : notify = true ∨ (d.exec q).edgesLeft k = d.edgesLeft k) :
    (d.exec q).bus.client = .notified ∨
      (Underway k (d.exec q) ∧ (d.exec q).edgesLeft k ≤ d.edgesLeft k) := by
  obtain ⟨waits, place⟩ := underway
  obtain ⟨r, frame⟩ := d.bus.signal_waits notify pending waits
  rw [← bus] at frame
  have client : (d.exec q).bus.client = if notify then .notified else .waitWrite := by
    change (d.process q).bus.client = _
    rw [frame]
  cases notify with
  | true => exact Or.inl client
  | false =>
    right
    refine ⟨⟨client, ?_⟩, (edges.resolve_left (by simp)).le⟩
    change ((d.process q).bus.writeThread = _ ∧ directPort (d.process q).bus.mWriteAddress = _) ∨
      (∃ v, (d.process q).bus.writeThread = _) ∨ _
    rw [frame]
    rcases place with queued | blocked | held
    · exact Or.inl queued
    · exact Or.inr (Or.inl blocked)
    · exact Or.inr (Or.inr ((holds held).resolve_left (by simp)))

/-- A clocked process ends the write, or leaves it where it is. -/
theorem underway_clocked (h : machine.Reachable d) (underway : Underway k d) {q : Proc}
    (inside : q ∈ clocked) (runnable : d.runnable q = true) :
    (d.exec q).bus.client = .notified ∨
      (Underway k (d.exec q) ∧ (d.exec q).edgesLeft k ≤ d.edgesLeft k) := by
  have unread := unread_of_reachable h (by simp [underway.1]) k
  have tuned := (tuned_of_reachable h k).1
  have nodup := ready_nodup (open_of_reachable h)
  have ran : (d.exec q).ready.contains q = false := by
    simpa [exec] using nodup.not_mem_erase
  by_cases out : q = .directMemOut k
  · subst out
    have ready : d.ready.contains (.directMemOut k) = true := by
      have free := unblocked_of_pc unread.pc
      simpa [Device.runnable, free] using runnable
    have bus : (d.process (.directMemOut k)).bus = d.bus.signal
        (DirectStep.run (memBase k) ⟨d.direct k, d.mem k, false, false⟩).notifyWrite
        (DirectStep.run (memBase k) ⟨d.direct k, d.mem k, false, false⟩).notifyRead := by
      rw [process_directMemOut]
      rfl
    apply underway_of_signal underway bus
    · intro held
      rw [directMemOut_direct]
      exact DirectStep.run_holds _ _ _ unread tuned held
    · have left := DirectStep.run_edges (memBase k) (d.mem k) (d.direct k) unread tuned
        (d.ready.contains (.directentry k))
      rw [← directMemOut_direct] at left
      unfold edgesLeft
      rw [ran, ready, d.contains_exec (by simp)]
      exact left
  by_cases entry : q = .directentry k
  · subst entry
    have ready : d.ready.contains (.directentry k) = true := by
      simpa [Device.runnable, blocked] using runnable
    have bus : (d.process (.directentry k)).bus = d.bus.signal false false := rfl
    apply underway_of_signal underway bus
    · intro held
      right
      rw [directentry_direct]
      rcases held with queued | raised
      · exact Or.inl queued
      · exact Or.inr ((receive_preready _).trans raised)
    · right
      unfold edgesLeft
      rw [ran, ready, d.contains_exec (by simp)]
      change ((d.process (.directentry k)).direct k).edges _ _ = _
      rw [directentry_direct]
      exact Direct.edges_receive _
  · have same : (d.process q).direct k = d.direct k := process_direct inside out entry
    obtain ⟨notify, pending, bus⟩ := d.process_signal inside
    apply underway_of_signal underway bus
    · intro held
      exact Or.inr (same.symm ▸ held)
    · right
      unfold edgesLeft
      rw [d.contains_exec (Ne.symm out), d.contains_exec (Ne.symm entry)]
      change ((d.process q).direct k).edges _ _ = _
      rw [same]

/-- The word is in the FIFO, or the thread is blocked with it. -/
theorem underway_writeDirect (waits : d.bus.client = .waitWrite)
    (out : (d.direct k).outRead = false) (v : Word) : Underway k (d.writeDirect k v) := by
  unfold writeDirect
  split
  · refine ⟨waits, Or.inr (Or.inr (Or.inl ⟨?_, ?_⟩))⟩
    · simp
    · simpa using out
  · exact ⟨waits, Or.inr (Or.inl ⟨v, rfl⟩)⟩

theorem underway_executeWriteThread (h : machine.Reachable d) (underway : Underway k d)
    (runnable : d.runnable .executeWriteThread = true) :
    Underway k (d.exec .executeWriteThread) ∧
      (d.exec .executeWriteThread).edgesLeft k = d.edgesLeft k := by
  obtain ⟨waits, place⟩ := underway
  have accounted := accounted_of_reachable h
  have busy : d.bus.writeThread ≠ .wait := by
    intro rests
    simp [Device.runnable, rests] at runnable
  constructor
  · suffices after : Underway k d.executeWriteThread from after
    rcases place with ⟨notified, target⟩ | ⟨v, blocked⟩ | held
    · have decoded : d.executeWriteThread =
          (d.logServed.setDirect k d.bus.mWriteAddress false).writeDirect k
            d.bus.mRegisterWrite := by
        simp [executeWriteThread, notified, decodeWrite, target]
      rw [decoded]
      have out : ((d.logServed.setDirect k d.bus.mWriteAddress false).direct k).outRead = false := by
        simp [setDirect]
      exact underway_writeDirect (d := d.logServed.setDirect k d.bus.mWriteAddress false) waits out _
    · have resumed : d.executeWriteThread = d.writeDirect k v := by
        simp [executeWriteThread, blocked]
      rw [resumed]
      exact underway_writeDirect waits (accounted.writeDirect k v blocked) v
    · -- with the thread busy there is nothing in the port
      obtain ⟨_, path, _, read⟩ := accounted.writing busy
      obtain ⟨empty, low⟩ := direct_empty path read k
      rcases held with queued | raised
      · exact absurd empty queued.1
      · simp [low] at raised
  · have same := Direct.edges_of_same (d.executeWriteThread_direct k)
    unfold edgesLeft
    rw [d.contains_exec (by simp), d.contains_exec (by simp)]
    exact same _ _

/-- Between the phases an empty FIFO has all its places. -/
theorem room_of_clean (h : machine.Reachable d) (clean : d.dirty = false)
    (empty : (d.direct k).dirMemOutFifo.held = 0) : 0 < (d.direct k).dirMemOutFifo.numFree := by
  obtain ⟨tuned, shown⟩ := tuned_of_reachable h k
  rw [Fifo.held_eq_zero, Fifo.contents, List.append_eq_nil_iff] at empty
  simp [Fifo.numFree, empty.1, empty.2, (shown clean).numRead, tuned.size, internalFifoSize]

/-- With the threads at rest and the channels shown, the port has the write. -/
theorem holds_of_quiescent (h : machine.Reachable d) (underway : Underway k d)
    (quiescent : d.quiescent = true) (clean : d.dirty = false) : (d.direct k).Holds := by
  obtain ⟨_, place⟩ := underway
  have rests : d.runnable .executeWriteThread = false := by
    simpa using List.all_eq_true.mp quiescent .executeWriteThread (by decide)
  rcases place with ⟨notified, _⟩ | ⟨v, blocked⟩ | held
  · simp [Device.runnable, notified] at rests
  · -- a blocked thread would find the whole FIFO free
    obtain ⟨_, path, _, read⟩ := (accounted_of_reachable h).writing (by simp [blocked])
    have free := room_of_clean h clean (direct_empty path read k).1
    simp [Device.runnable, blocked, free] at rests
  · exact held

/-- Every step ends the write or leaves it under way, and an edge brings its end closer. -/
theorem underway_step {a : Action} (h : machine.Reachable d) (underway : Underway k d)
    (hs : Move d a e) :
    e.bus.client = .notified ∨
      (Underway k e ∧ e.edgesLeft k + (if isEdge a then 1 else 0) ≤ d.edgesLeft k) := by
  have waits := underway.1
  have out : Proc.directMemOut k ∈ clocked := (clocked_or_thread _).resolve_right (by simp)
  have entry : Proc.directentry k ∈ clocked := (clocked_or_thread _).resolve_right (by simp)
  have settled (quiescent : d.quiescent = true) :
      d.edgesLeft k = (d.direct k).edges false false := by
    have first := not_ready_of_quiescent quiescent out
    have second := not_ready_of_quiescent quiescent entry
    simp [edgesLeft, first, second]
  cases hs with
  | request t idle => simp [waits] at idle
  | run q runnable =>
    rcases clocked_or_thread q with inside | rfl | rfl | rfl
    · exact underway_clocked h underway inside runnable
    · simp [Device.runnable, waits] at runnable
    · -- the write thread moves the write on
      obtain ⟨kept, same⟩ := underway_executeWriteThread h underway runnable
      exact Or.inr ⟨kept, same.le⟩
    · have rests := ((accounted_of_reachable h).no_read (by simp [waits])).1
      simp [Device.runnable, rests] at runnable
  | delta quiescent dirty =>
    right
    refine ⟨⟨by simp [update, waits], ?_⟩, ?_⟩
    · rcases underway.2 with queued | blocked | held
      · exact Or.inl queued
      · exact Or.inr (Or.inl blocked)
      · right; right
        rcases held with queued | raised
        · exact Or.inl ⟨by simpa [update] using queued.1, queued.2⟩
        · exact Or.inr raised
    · -- an update moves what was written to the reader and takes no edge
      have first := not_ready_of_quiescent quiescent out
      have second := not_ready_of_quiescent quiescent entry
      have left : d.update.edgesLeft k = (d.direct k).edges false false := by
        simp [edgesLeft, update, first, second, Direct.edges]
      rw [left, settled quiescent]
      exact le_refl _
  | edge quiescent clean =>
    right
    refine ⟨underway, ?_⟩
    -- at an edge the write is in the port and both processes of the port are woken
    have holds := holds_of_quiescent h underway quiescent clean
    have unread := unread_of_reachable h (by simp [waits]) k
    obtain ⟨tuned, shown⟩ := tuned_of_reachable h k
    have closer := Direct.edges_edge holds unread tuned (shown clean)
    have free := unblocked_of_pc unread.pc
    have left : d.edge.edgesLeft k = (d.direct k).edges true true := by
      have first : Proc.directMemOut k ∈ d.edge.ready := by simp [Device.edge, out, free]
      have second : Proc.directentry k ∈ d.edge.ready := by simp [Device.edge, entry, blocked]
      unfold edgesLeft
      rw [List.contains_iff_mem.mpr first, List.contains_iff_mem.mpr second]
      rfl
    rw [left, settled quiescent]
    exact closer

end Device

end ScCosim.Firewall
