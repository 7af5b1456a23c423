import ScCosim.Firewall.Reads

/-!
# A direct read comes back

The request of a read waits in the port's FIFO until `direct_mem_out` is in its loop and the
`done` of the write before it is low. Each clock edge brings this closer, and from there on no
edge is needed.
-/
namespace ScCosim.Firewall

open Kernel Async

/-! ### A port with a request -/

namespace Direct

variable {g : Direct}

/-- `direct_mem_out` takes a request when it runs next. -/
def takes (g : Direct) : Bool :=
  g.pc = .loop && !g.handshake.done.cur && !g.dirMemOutFifo.readable.isEmpty

/-- A bound on the edges before the request is taken. `memOut` and `entry` tell which of
`direct_mem_out` and the receiver have still to run in this cycle. -/
def readEdges (g : Direct) (memOut entry : Bool) : Nat :=
  if memOut && g.takes then 0
  else
    1 + (if memOut then g.pc.edges - 1 else g.pc.edges) +
      (if (if entry then g.nextIndone else g.handshake.indone) then 1 else 0) +
      (if entry || g.handshake.started then 0 else 1)

/-- The request of a read is in the port's FIFO, and nothing else is in the port. -/
structure Queued (g : Direct) : Prop where
  held : g.dirMemOutFifo.held ≠ 0
  outRead : g.outRead = true
  low : g.handshake.preready = false
  pc : ∀ v, g.pc ≠ .writeResponce v

/-- The threads leave what lies ahead of a port alone. -/
theorem readEdges_of_same {g' : Direct} (same : Device.SameDirect g g') (memOut entry : Bool) :
    g'.readEdges memOut entry = g.readEdges memOut entry := by
  unfold readEdges takes nextIndone
  rw [same.pc, same.handshake, same.readable]

theorem readEdges_receive (memOut : Bool) :
    { g with handshake := g.handshake.receive }.readEdges memOut false =
      g.readEdges memOut true := by
  obtain ⟨ready, done⟩ := g.handshake.receive_ready
  simp only [readEdges, takes, nextIndone, done, Handshake.receive_indone,
    Handshake.receive_started]
  simp

/-- Each edge brings a port with a request closer to taking it. -/
theorem readEdges_edge (queued : g.Queued) (tuned : g.Tuned) (shown : g.Shown) :
    g.readEdges true true + 1 ≤ g.readEdges false false := by
  -- `ready` is low on both sides of the update, so the receiver lowers `done` when it runs
  have ready : g.handshake.ready.cur = false :=
    (shown.ready.trans tuned.ready).trans queued.low
  have done : g.handshake.done.cur = g.handshake.indone := shown.done.trans tuned.done
  have readable : g.dirMemOutFifo.readable.isEmpty = false := by
    simpa [Fifo.held, Fifo.contents, shown.written] using queued.held
  simp only [readEdges, takes, nextIndone, ready, done, readable]
  cases pc : g.pc with
  | writeResponce v => exact absurd pc (queued.pc v)
  | start | init =>
    cases g.handshake.indone <;> cases g.handshake.started <;> simp [DirectPc.edges]
  | loop =>
    cases g.handshake.indone <;> cases g.handshake.started <;> simp [DirectPc.edges]

end Direct

/-- A run of `direct_mem_out` takes the request and answers it, at once or when the FIFO has
room, or is what lay ahead. -/
theorem DirectStep.run_reads (base : Word) (mem : Word → Word) {g : Direct} (queued : g.Queued)
    (entry : Bool) :
    ((run base ⟨g, mem, false, false⟩).notifyRead = true ∧
        (run base ⟨g, mem, false, false⟩).direct.dirMemResponceFifo.held ≠ 0) ∨
      ((run base ⟨g, mem, false, false⟩).notifyRead = false ∧
        ∃ v, (run base ⟨g, mem, false, false⟩).direct.pc = .writeResponce v) ∨
      ((run base ⟨g, mem, false, false⟩).notifyRead = false ∧
        (run base ⟨g, mem, false, false⟩).direct.Queued ∧
        (run base ⟨g, mem, false, false⟩).direct.readEdges false entry = g.readEdges true entry) := by
  obtain ⟨held, outRead, low, free⟩ := queued
  cases pc : g.pc with
  | writeResponce v => exact absurd pc (free v)
  | start =>
    right; right
    have result : run base ⟨g, mem, false, false⟩ =
        ⟨{ g with pc := .init, handshake.preready := false }, mem, false, false⟩ := by
      simp [run, pc]
    rw [result]
    refine ⟨rfl, ⟨held, outRead, rfl, by simp⟩, ?_⟩
    simp [Direct.readEdges, Direct.takes, Direct.nextIndone, DirectPc.edges, pc]
  | init =>
    right; right
    have result : run base ⟨g, mem, false, false⟩ = ⟨{ g with pc := .loop }, mem, false, false⟩ := by
      simp [run, pc]
    rw [result]
    refine ⟨rfl, ⟨held, outRead, low, by simp⟩, ?_⟩
    simp [Direct.readEdges, Direct.takes, Direct.nextIndone, DirectPc.edges, pc]
  | loop =>
    have waits (same : run base ⟨g, mem, false, false⟩ = ⟨g, mem, false, false⟩)
        (not : g.takes = false) :
        (run base ⟨g, mem, false, false⟩).notifyRead = false ∧
          (run base ⟨g, mem, false, false⟩).direct.Queued ∧
          (run base ⟨g, mem, false, false⟩).direct.readEdges false entry =
            g.readEdges true entry := by
      rw [same]
      refine ⟨rfl, ⟨held, outRead, low, free⟩, ?_⟩
      simp [Direct.readEdges, not, DirectPc.edges, pc]
    cases done : g.handshake.done.cur with
    | true =>
      -- the `done` of the write before is still up
      right; right
      exact waits (by simp [run, pc, done, low]) (by simp [Direct.takes, done])
    | false =>
      cases read : g.dirMemOutFifo.nbRead with
      | none =>
        right; right
        have readable := (Fifo.nbRead_eq_none_iff _).mp read
        exact waits (by simp [run, pc, done, low, read]) (by simp [Direct.takes, readable])
      | some r =>
        have taken : run base ⟨g, mem, false, false⟩ =
            DirectStep.writeResponce ⟨{ g with dirMemOutFifo := r.2 }, mem, false, false⟩
              (mem (g.outAddress - base)) := by
          simp [run, pc, done, low, read, access, outRead]
        rw [taken]
        rcases writeResponce_spec ⟨{ g with dirMemOutFifo := r.2 }, mem, false, false⟩
          (mem (g.outAddress - base)) with room | full
        · rw [room]
          exact Or.inl ⟨rfl, by simp⟩
        · rw [full]
          exact Or.inr (Or.inl ⟨rfl, _, rfl⟩)

namespace DirectStep

variable (base : Word) (mem : Word → Word) {g : Direct}

/-- A run that finds no request is what lay ahead. -/
theorem run_idle (low : g.handshake.preready = false) (free : ∀ v, g.pc ≠ .writeResponce v)
    (empty : g.dirMemOutFifo.held = 0) (entry : Bool) :
    (run base ⟨g, mem, false, false⟩).direct.readEdges false entry = g.readEdges true entry := by
  rw [Fifo.held_eq_zero, Fifo.contents, List.append_eq_nil_iff] at empty
  have none := (Fifo.nbRead_eq_none_iff _).mpr empty.1
  cases pc : g.pc with
  | writeResponce v => exact absurd pc (free v)
  | start | init =>
    simp [run, pc, Direct.readEdges, Direct.takes, Direct.nextIndone, DirectPc.edges]
  | loop =>
    have same : run base ⟨g, mem, false, false⟩ = ⟨g, mem, false, false⟩ := by
      simp only [run, pc, none]
      split
      · rfl
      · simp [low]
    rw [same]
    simp [Direct.readEdges, Direct.takes, DirectPc.edges, pc, empty.1]

/-- An answer that was blocked is in the FIFO and announced, or blocked again. -/
theorem run_blocked (blocked : ∃ v, g.pc = .writeResponce v) :
    ((run base ⟨g, mem, false, false⟩).notifyRead = true ∧
        (run base ⟨g, mem, false, false⟩).direct.dirMemResponceFifo.held ≠ 0) ∨
      ((run base ⟨g, mem, false, false⟩).notifyRead = false ∧
        ∃ v, (run base ⟨g, mem, false, false⟩).direct.pc = .writeResponce v) := by
  obtain ⟨v, pc⟩ := blocked
  have resumed : run base ⟨g, mem, false, false⟩ =
      DirectStep.writeResponce ⟨g, mem, false, false⟩ v := by simp [run, pc]
  rw [resumed]
  rcases writeResponce_spec ⟨g, mem, false, false⟩ v with room | full
  · rw [room]
    exact Or.inl ⟨rfl, by simp⟩
  · rw [full]
    exact Or.inr ⟨rfl, v, rfl⟩

/-- An answer in the FIFO stays there. -/
theorem run_held (g : Direct) (held : g.dirMemResponceFifo.held ≠ 0) :
    (run base ⟨g, mem, false, false⟩).direct.dirMemResponceFifo.held ≠ 0 := by
  have respond (t : DirectStep) (v : Word) (held : t.direct.dirMemResponceFifo.held ≠ 0) :
      (t.writeResponce v).direct.dirMemResponceFifo.held ≠ 0 := by
    rcases t.writeResponce_spec v with room | full
    · rw [room]
      simp
    · rw [full]
      exact held
  have spec := run_spec base ⟨g, mem, false, false⟩
  generalize run base ⟨g, mem, false, false⟩ = t at spec ⊢
  cases spec with
  | start | init | rest | lower => exact held
  | resume v => exact respond _ v held
  | access v rest =>
    unfold access
    split
    · exact respond _ _ held
    · exact held

end DirectStep

theorem Bus.signal_pending (b : Bus) (notify : Bool) {k : Port}
    (thread : b.readThread = .pending k) : (b.signal notify true).readThread = .responce k := by
  have woken : b.notifyReadPending = { b with readThread := .responce k } := by
    simp [notifyReadPending, thread]
  unfold signal
  simp only [if_true, woken]
  split
  · unfold notifyWriteEnded
    split <;> rfl
  · rfl

theorem Bus.signal_quiet (b : Bus) (notify : Bool) :
    (b.signal notify false).readThread = b.readThread := by
  cases notify with
  | false => rfl
  | true =>
    obtain ⟨c, same, -⟩ := b.notifyWriteEnded_frame
    change b.notifyWriteEnded.readThread = b.readThread
    rw [same]

namespace Device

variable {d e : Device} {k : Port}

/-! ### The FIFO of the answers -/

private theorem responceSize_update {f f' : Port → Direct} {j : Port} {g : Direct}
    (update : f' = Function.update f j g)
    (same : g.dirMemResponceFifo.size = (f j).dirMemResponceFifo.size) (k : Port) :
    (f' k).dirMemResponceFifo.size = (f k).dirMemResponceFifo.size := by
  rw [update]
  by_cases own : k = j
  · subst own
    simpa using same
  · simp [own]

private theorem responceSize_setDirect (d : Device) (j k : Port) (address : BitVec 64)
    (read : Bool) : ((d.setDirect j address read).direct k).dirMemResponceFifo.size =
      (d.direct k).dirMemResponceFifo.size := by
  apply responceSize_update (j := j) rfl
  rfl

private theorem responceSize_writeResponce (t : DirectStep) (v : Word) :
    (t.writeResponce v).direct.dirMemResponceFifo.size = t.direct.dirMemResponceFifo.size := by
  rcases t.writeResponce_spec v with room | full
  · rw [room]
    rfl
  · rw [full]

private theorem responceSize_directMemOut (d : Device) (k : Port) :
    ((d.process (.directMemOut k)).direct k).dirMemResponceFifo.size =
      (d.direct k).dirMemResponceFifo.size := by
  rw [directMemOut_direct]
  have spec := DirectStep.run_spec (memBase k) ⟨d.direct k, d.mem k, false, false⟩
  generalize DirectStep.run (memBase k) ⟨d.direct k, d.mem k, false, false⟩ = t at spec ⊢
  cases spec with
  | start | init | rest | lower => rfl
  | resume v => exact responceSize_writeResponce _ v
  | access v rest =>
    unfold DirectStep.access
    split
    · exact responceSize_writeResponce _ _
    · rfl

private theorem responceSize_writeDirect (d : Device) (j k : Port) (v : Word) :
    ((d.writeDirect j v).direct k).dirMemResponceFifo.size =
      (d.direct k).dirMemResponceFifo.size := by
  unfold Device.writeDirect
  split
  · apply responceSize_update (j := j) rfl
    rfl
  · rfl

/-- The write thread reaches the FIFO of requests only. -/
private theorem responceSize_executeWriteThread (d : Device) (k : Port) :
    (d.executeWriteThread.direct k).dirMemResponceFifo.size =
      (d.direct k).dirMemResponceFifo.size := by
  unfold executeWriteThread
  cases d.bus.writeThread with
  | wait => rfl
  | writeIn i v =>
    simp only [writeIn]
    split <;> rfl
  | writeDirect j v => exact responceSize_writeDirect d j k v
  | notified =>
    simp only [decodeWrite]
    split
    next j _ =>
      exact (responceSize_writeDirect _ j k _).trans (responceSize_setDirect d.logServed j k _ _)
    next =>
      split
      next i _ =>
        simp only [writeIn]
        split <;> rfl
      all_goals rfl

private theorem responceSize_readDirect (d : Device) (j k : Port) (v : Word) :
    ((d.readDirect j v).direct k).dirMemResponceFifo.size =
      (d.direct k).dirMemResponceFifo.size := by
  unfold Device.readDirect
  split
  · apply responceSize_update (j := j) rfl
    rfl
  · rfl

private theorem responceSize_executeReadThread (d : Device) (k : Port) :
    (d.executeReadThread.direct k).dirMemResponceFifo.size =
      (d.direct k).dirMemResponceFifo.size := by
  unfold executeReadThread
  cases d.bus.readThread with
  | wait | pending => rfl
  | writeDirect j v => exact responceSize_readDirect d j k v
  | responce j =>
    simp only [readResponce]
    split
    · rfl
    next v fifo read =>
      apply responceSize_update (j := j) rfl
      exact Fifo.size_of_nbRead read
  | notified =>
    simp only [decodeRead]
    split
    next j _ => exact (responceSize_readDirect _ j k _).trans (responceSize_setDirect d j k _ _)
    next => rfl

private theorem responceSize_process (d : Device) (q : Proc) (k : Port) :
    ((d.process q).direct k).dirMemResponceFifo.size = (d.direct k).dirMemResponceFifo.size := by
  rcases clocked_or_thread q with inside | rfl | rfl | rfl
  · by_cases out : q = .directMemOut k
    · subst out
      exact responceSize_directMemOut d k
    by_cases entry : q = .directentry k
    · subst entry
      rw [directentry_direct]
    · rw [process_direct inside out entry]
  · rfl
  · exact responceSize_executeWriteThread d k
  · exact responceSize_executeReadThread d k

/-- Between the phases the answers have been shown, and the places read are free again. -/
theorem responce_of_reachable (h : machine.Reachable d) (k : Port) :
    (d.direct k).dirMemResponceFifo.size = internalFifoSize ∧
      (d.dirty = false → (d.direct k).dirMemResponceFifo.written = [] ∧
        (d.direct k).dirMemResponceFifo.numRead = 0) := by
  apply h.invariant (I := fun d => (d.direct k).dirMemResponceFifo.size = internalFifoSize ∧
    (d.dirty = false → (d.direct k).dirMemResponceFifo.written = [] ∧
      (d.direct k).dirMemResponceFifo.numRead = 0))
  · exact ⟨rfl, fun _ => ⟨rfl, rfl⟩⟩
  rintro d a e ⟨size, shown⟩ hs
  cases move_of_step hs with
  | run q => exact ⟨(d.responceSize_process q k).trans size, by simp [exec]⟩
  | request => exact ⟨size, by simp [request]⟩
  | delta => exact ⟨size, fun _ => ⟨rfl, rfl⟩⟩
  | edge => exact ⟨size, shown⟩

/-! ### Where a read can be -/

/-- The answer has been taken from the memory. -/
def Answered (k : Port) (d : Device) : Prop :=
  (d.bus.readThread = .pending k ∧ ∃ v, (d.direct k).pc = .writeResponce v) ∨
    (d.bus.readThread = .responce k ∧
      ((∃ v, (d.direct k).pc = .writeResponce v) ∨ (d.direct k).dirMemResponceFifo.held ≠ 0))

/-- The request of a read at direct port `k` is with the read thread or in the port's FIFO. -/
def Asked (k : Port) (d : Device) : Prop :=
  (d.bus.readThread = .notified ∧ directPort d.bus.mReadAddress = some k) ∨
    (∃ v, d.bus.readThread = .writeDirect k v) ∨
    ((d.bus.readThread = .pending k ∨ d.bus.readThread = .responce k) ∧ (d.direct k).Queued)

/-- A bound on the clock edges before the request is taken. -/
def readEdgesLeft (d : Device) (k : Port) : Nat :=
  (d.direct k).readEdges (d.ready.contains (.directMemOut k)) (d.ready.contains (.directentry k))

/-- While a read is under way no handshake of a write is. -/
theorem low_of_reading (path : d.pathLoad = 0) (k : Port) :
    (d.direct k).handshake.preready = false := by
  have writes : ∑ j, (d.direct j).writeLoad = 0 := by
    unfold pathLoad at path
    omega
  have own := Finset.sum_eq_zero_iff.mp writes k (Finset.mem_univ k)
  unfold Direct.writeLoad Handshake.load at own
  by_contra raised
  simp [raised] at own

theorem readLoad_le (d : Device) (k : Port) : (d.direct k).readLoad ≤ d.readLoad :=
  Finset.single_le_sum (f := fun j => (d.direct j).readLoad) (fun _ _ => Nat.zero_le _)
    (Finset.mem_univ k)

/-- A request that has not been taken has no answer yet. -/
theorem unanswered_of_asked (h : machine.Reachable d) (asked : Asked k d) :
    (d.direct k).pc.load + (d.direct k).dirMemResponceFifo.held = 0 := by
  have sent := (accounted_of_reachable h).sent
  have own := d.readLoad_le k
  unfold Direct.readLoad at own
  rcases asked with ⟨thread, -⟩ | ⟨v, thread⟩ | ⟨-, queued⟩
  · simp only [thread, ReadPc.sent, Bool.false_eq_true, if_false] at sent
    omega
  · simp only [thread, ReadPc.sent, Bool.false_eq_true, if_false] at sent
    omega
  · -- the request itself is the one piece
    have held := queued.held
    rw [if_pos queued.outRead] at own
    have one : (if d.bus.readThread.sent then 1 else 0) ≤ 1 := by split <;> simp
    omega

/-- A process of the device wakes at most the read thread, and that for its answer. -/
private theorem signal_reading {q : Proc} (inside : q ∈ clocked)
    (waits : d.bus.client = .waitRead) :
    (d.process q).bus.client = .waitRead ∧
      (d.process q).bus.mReadAddress = d.bus.mReadAddress ∧
      ((d.process q).bus.readThread = d.bus.readThread ∨
        ∃ j, d.bus.readThread = .pending j ∧ (d.process q).bus.readThread = .responce j) := by
  obtain ⟨notify, pending, bus⟩ := d.process_signal inside
  obtain ⟨c, r, frame, woken⟩ := d.bus.signal_frame notify pending
  have client := d.bus.signal_client notify pending
  rw [frame] at client
  have stays : c = .waitRead := by simpa [waits] using client
  rw [bus, frame]
  exact ⟨stays, rfl, woken⟩

theorem directMemOut_clocked (k : Port) : Proc.directMemOut k ∈ clocked :=
  (clocked_or_thread _).resolve_right (by simp)

theorem directentry_clocked (k : Port) : Proc.directentry k ∈ clocked :=
  (clocked_or_thread _).resolve_right (by simp)

/-- The bus sees what the port's process has notified. -/
private theorem bus_directMemOut (d : Device) (k : Port) :
    (d.process (.directMemOut k)).bus = d.bus.signal
      (DirectStep.run (memBase k) ⟨d.direct k, d.mem k, false, false⟩).notifyWrite
      (DirectStep.run (memBase k) ⟨d.direct k, d.mem k, false, false⟩).notifyRead := by
  rw [process_directMemOut]
  rfl

/-- A thread that has been woken for its answer stays with its port. -/
private theorem responce_process {q : Proc} (inside : q ∈ clocked)
    (waits : d.bus.client = .waitRead) (thread : d.bus.readThread = .responce k) :
    (d.process q).bus.readThread = .responce k := by
  obtain ⟨-, -, same | ⟨j, was, -⟩⟩ := d.signal_reading inside waits
  · exact same.trans thread
  · simp [thread] at was

/-! ### An answer on its way -/

/-- The initiator waits for a read at direct port `k`, and the answer has been taken. -/
structure Responding (k : Port) (d : Device) : Prop where
  reachable : machine.Reachable d
  waits : d.bus.client = .waitRead
  answered : Answered k d

section answering

theorem Responding.update (h : Responding k d) : Answered k d.update := by
  rcases h.answered with blocked | ⟨thread, blocked | held⟩
  · exact Or.inl blocked
  · exact Or.inr ⟨thread, Or.inl blocked⟩
  · exact Or.inr ⟨thread, Or.inr (by simpa [Device.update] using held)⟩

/-- Between the phases the process has found room for its answer. -/
theorem Responding.unblocked (h : Responding k d) (quiescent : d.quiescent = true)
    (clean : d.dirty = false) : ¬ ∃ v, (d.direct k).pc = .writeResponce v := by
  rintro ⟨v, pc⟩
  obtain ⟨size, shown⟩ := responce_of_reachable h.reachable k
  have numRead := (shown clean).2
  have out : Proc.directMemOut k ∈ procs := List.mem_append_right _ (directMemOut_clocked k)
  have rests := List.all_eq_true.mp quiescent _ out
  -- the answer in the process is the one piece, so the FIFO is empty
  have own := (d.readLoad_le k).trans (accounted_of_reachable h.reachable).sent
  have one : (if d.bus.readThread.sent then 1 else 0) ≤ 1 := by split <;> simp
  have empty : (d.direct k).dirMemResponceFifo.held = 0 := by
    simp only [Direct.readLoad, pc, DirectPc.load] at own
    omega
  rw [Fifo.held_eq_zero, Fifo.contents, List.append_eq_nil_iff] at empty
  simp [Device.runnable, blocked, hasRoom, pc, Fifo.numFree, size, numRead, empty.1, empty.2,
    internalFifoSize] at rests

/-- No edge comes before the thread has its answer. -/
theorem Responding.no_edge (h : Responding k d) (quiescent : d.quiescent = true)
    (clean : d.dirty = false) : False := by
  obtain ⟨-, shown⟩ := responce_of_reachable h.reachable k
  have written := (shown clean).1
  rcases h.answered with ⟨-, pc⟩ | ⟨thread, pc | held⟩
  · exact h.unblocked quiescent clean pc
  · exact h.unblocked quiescent clean pc
  · have rests := List.all_eq_true.mp quiescent .executeReadThread (by decide)
    have none : (d.direct k).dirMemResponceFifo.readable = [] := by
      by_contra some
      have available := List.length_pos_iff.mpr some
      simp [Device.runnable, thread, Fifo.numAvailable, available] at rests
    exact held (Fifo.held_eq_zero.mpr (by simp [Fifo.contents, none, written]))

/-- The port's process hands the answer on, or keeps it. -/
theorem Responding.directMemOut (h : Responding k d) : Answered k (d.process (.directMemOut k)) := by
  have resumed (blocked : ∃ v, (d.direct k).pc = .writeResponce v) :=
    DirectStep.run_blocked (memBase k) (d.mem k) blocked
  have kept := DirectStep.run_held (memBase k) (d.mem k) (d.direct k)
  have responce := responce_process (k := k) (directMemOut_clocked k) h.waits
  unfold Answered
  rw [directMemOut_direct]
  rcases h.answered with ⟨thread, pc⟩ | ⟨thread, pc | held⟩
  · rcases resumed pc with ⟨notified, held⟩ | ⟨quiet, blocked⟩
    · refine Or.inr ⟨?_, Or.inr held⟩
      rw [bus_directMemOut, notified]
      exact d.bus.signal_pending _ thread
    · rw [bus_directMemOut, quiet, Bus.signal_quiet]
      exact Or.inl ⟨thread, blocked⟩
  · rcases resumed pc with ⟨-, held⟩ | ⟨-, blocked⟩
    · exact Or.inr ⟨responce thread, Or.inr held⟩
    · exact Or.inr ⟨responce thread, Or.inl blocked⟩
  · exact Or.inr ⟨responce thread, Or.inr (kept held)⟩

/-- The other processes of the device leave the answer where it is. -/
theorem Responding.other (h : Responding k d) {q : Proc} (inside : q ∈ clocked)
    (out : q ≠ .directMemOut k) : Answered k (d.process q) := by
  obtain ⟨-, -, woken⟩ := d.signal_reading inside h.waits
  have same : ((d.process q).direct k).pc = (d.direct k).pc ∧
      ((d.process q).direct k).dirMemResponceFifo = (d.direct k).dirMemResponceFifo := by
    by_cases entry : q = .directentry k
    · subst entry
      rw [directentry_direct]
      exact ⟨rfl, rfl⟩
    · rw [process_direct inside out entry]
      exact ⟨rfl, rfl⟩
  unfold Answered
  rw [same.1, same.2]
  rcases h.answered with ⟨thread, pc⟩ | ⟨thread, place⟩
  · rcases woken with same | ⟨j, was, now⟩
    · exact Or.inl ⟨same.trans thread, pc⟩
    · obtain rfl : j = k := by simpa [thread] using was.symm
      exact Or.inr ⟨now, Or.inl pc⟩
  · exact Or.inr ⟨responce_process inside h.waits thread, place⟩

/-- The read thread finds the answer. -/
theorem Responding.executeReadThread (h : Responding k d)
    (runnable : d.runnable .executeReadThread = true) :
    d.executeReadThread.bus.client = .notified := by
  rcases h.answered with ⟨thread, -⟩ | ⟨thread, -⟩
  · simp [Device.runnable, thread] at runnable
  · have some : (d.direct k).dirMemResponceFifo.readable ≠ [] := by
      intro none
      simp [Device.runnable, thread, Fifo.numAvailable, none] at runnable
    simp only [Device.executeReadThread, thread, readResponce]
    cases read : (d.direct k).dirMemResponceFifo.nbRead with
    | none => exact absurd ((Fifo.nbRead_eq_none_iff _).mp read) some
    | some r => simp [endRead, Bus.notifyReadEnded, h.waits]

end answering

/-- The answer on its way to the read thread needs no edge. -/
theorem answered_step {a : Action} (h : Responding k d) (hs : Move d a e) :
    e.bus.client = .notified ∨
      (e.bus.client = .waitRead ∧ Answered k e ∧ isEdge a = false) := by
  cases hs with
  | request t idle => simp [h.waits] at idle
  | delta => exact Or.inr ⟨by simp [Device.update, h.waits], h.update, rfl⟩
  | edge quiescent clean => exact (h.no_edge quiescent clean).elim
  | run q runnable =>
    rcases clocked_or_thread q with inside | rfl | rfl | rfl
    · refine Or.inr ⟨(d.signal_reading inside h.waits).1, ?_, rfl⟩
      suffices after : Answered k (d.process q) from after
      by_cases out : q = .directMemOut k
      · subst out
        exact h.directMemOut
      · exact h.other inside out
    · simp [Device.runnable, h.waits] at runnable
    · have writer := ((accounted_of_reachable h.reachable).no_write (by simp [h.waits])).1
      simp [Device.runnable, writer] at runnable
    · exact Or.inl (h.executeReadThread runnable)

/-! ### A request that has not been taken -/

/-- In a quiescent state both processes of the port have run. -/
theorem readEdgesLeft_of_quiescent (quiescent : d.quiescent = true) (k : Port) :
    d.readEdgesLeft k = (d.direct k).readEdges false false := by
  have first := not_ready_of_quiescent quiescent (directMemOut_clocked k)
  have second := not_ready_of_quiescent quiescent (directentry_clocked k)
  simp [readEdgesLeft, first, second]

/-- The initiator waits for a read at direct port `k`, and the request has not been taken. -/
structure Requesting (k : Port) (d : Device) : Prop where
  reachable : machine.Reachable d
  waits : d.bus.client = .waitRead
  asked : Asked k d

section asking

theorem Requesting.no_write (h : Requesting k d) : d.bus.writeThread = .wait ∧ d.pathLoad = 0 :=
  (accounted_of_reachable h.reachable).no_write (by simp [h.waits])

theorem Requesting.low (h : Requesting k d) : (d.direct k).handshake.preready = false :=
  low_of_reading h.no_write.2 k

theorem Requesting.free (h : Requesting k d) (v : Word) : (d.direct k).pc ≠ .writeResponce v := by
  have unanswered := unanswered_of_asked h.reachable h.asked
  intro pc
  simp [pc, DirectPc.load] at unanswered

/-- Until the read thread has sent its request the port is empty. -/
theorem Requesting.empty (h : Requesting k d) (sent : d.bus.readThread.sent = false) :
    (d.direct k).dirMemOutFifo.held = 0 := by
  have read := (accounted_of_reachable h.reachable).sent
  rw [sent] at read
  have none : d.readLoad = 0 := Nat.le_zero.mp read
  exact (direct_empty h.no_write.2 none k).1

/-- An update takes no edge: the process that would take the request has run. -/
theorem Requesting.update (h : Requesting k d) (quiescent : d.quiescent = true) :
    Asked k d.update ∧ d.update.readEdgesLeft k = d.readEdgesLeft k := by
  constructor
  · rcases h.asked with early | blocked | ⟨thread, queued⟩
    · exact Or.inl early
    · exact Or.inr (Or.inl blocked)
    · refine Or.inr (Or.inr ⟨thread, ?_⟩)
      exact ⟨by simpa [Device.update] using queued.held, queued.outRead, queued.low, queued.pc⟩
  · have first := not_ready_of_quiescent quiescent (directMemOut_clocked k)
    have second := not_ready_of_quiescent quiescent (directentry_clocked k)
    rw [readEdgesLeft_of_quiescent quiescent]
    simp [readEdgesLeft, Device.update, first, second, Direct.readEdges]

/-- At an edge the request is in the port's FIFO, and one edge closer to being taken. -/
theorem Requesting.edge (h : Requesting k d) (quiescent : d.quiescent = true) (clean : d.dirty = false) :
    d.edge.readEdgesLeft k + 1 ≤ d.readEdgesLeft k := by
  obtain ⟨tuned, shown⟩ := tuned_of_reachable h.reachable k
  have rests : d.runnable .executeReadThread = false := by
    simpa using List.all_eq_true.mp quiescent .executeReadThread (by decide)
  have queued : (d.direct k).Queued := by
    rcases h.asked with ⟨thread, -⟩ | ⟨v, thread⟩ | ⟨-, queued⟩
    · simp [Device.runnable, thread] at rests
    · have free := room_of_clean h.reachable clean (h.empty (by simp [thread, ReadPc.sent]))
      simp [Device.runnable, thread, free] at rests
    · exact queued
  have left : d.edge.readEdgesLeft k = (d.direct k).readEdges true true := by
    have unblocked := unblocked_of_pc h.free
    have first : Proc.directMemOut k ∈ d.edge.ready := by
      simp [Device.edge, directMemOut_clocked, unblocked]
    have second : Proc.directentry k ∈ d.edge.ready := by
      simp [Device.edge, directentry_clocked, blocked]
    unfold readEdgesLeft
    rw [List.contains_iff_mem.mpr first, List.contains_iff_mem.mpr second]
    rfl
  rw [left, readEdgesLeft_of_quiescent quiescent]
  exact Direct.readEdges_edge queued tuned (shown clean)

/-- A process of the device that leaves the request in the port's FIFO leaves it where it is. -/
theorem Requesting.stays (h : Requesting k d) {q : Proc} (inside : q ∈ clocked)
    (queued : (d.direct k).Queued → ((d.process q).direct k).Queued) : Asked k (d.exec q) := by
  obtain ⟨-, address, woken⟩ := d.signal_reading inside h.waits
  rcases h.asked with ⟨thread, port⟩ | ⟨v, thread⟩ | ⟨thread, held⟩
  · rcases woken with same | ⟨j, was, -⟩
    · exact Or.inl ⟨same.trans thread, address ▸ port⟩
    · simp [thread] at was
  · rcases woken with same | ⟨j, was, -⟩
    · exact Or.inr (Or.inl ⟨v, same.trans thread⟩)
    · simp [thread] at was
  · refine Or.inr (Or.inr ⟨?_, queued held⟩)
    rcases woken with same | ⟨j, was, now⟩
    · exact thread.imp same.trans same.trans
    · rcases thread with thread | thread
      · obtain rfl : j = k := by simpa [thread] using was.symm
        exact Or.inr now
      · simp [thread] at was

/-- A process that has run is not ready any more. -/
theorem Requesting.ran (h : Requesting k d) (q : Proc) : (d.exec q).ready.contains q = false := by
  have nodup := ready_nodup (open_of_reachable h.reachable)
  simpa [exec] using nodup.not_mem_erase

/-- The port's process takes the request, or does nothing that matters to it. -/
theorem Requesting.directMemOut (h : Requesting k d) (runnable : d.runnable (.directMemOut k) = true) :
    Answered k (d.exec (.directMemOut k)) ∨
      (Asked k (d.exec (.directMemOut k)) ∧
        (d.exec (.directMemOut k)).readEdgesLeft k ≤ d.readEdgesLeft k) := by
  have left : (d.exec (.directMemOut k)).readEdgesLeft k =
      ((d.process (.directMemOut k)).direct k).readEdges false
        (d.ready.contains (.directentry k)) := by
    unfold readEdgesLeft
    rw [h.ran, d.contains_exec (by simp)]
    rfl
  have before : d.readEdgesLeft k =
      (d.direct k).readEdges true (d.ready.contains (.directentry k)) := by
    have unblocked := unblocked_of_pc h.free
    have ready : d.ready.contains (.directMemOut k) = true := by
      simpa [Device.runnable, unblocked] using runnable
    unfold readEdgesLeft
    rw [ready]
  -- a run that finds no request
  have idles (sent : d.bus.readThread.sent = false) :
      Asked k (d.exec (.directMemOut k)) ∧
        (d.exec (.directMemOut k)).readEdgesLeft k ≤ d.readEdgesLeft k := by
    have held := h.empty sent
    refine ⟨h.stays (directMemOut_clocked k) fun queued => absurd held queued.held, ?_⟩
    rw [left, before, directMemOut_direct]
    exact (DirectStep.run_idle _ _ h.low h.free held _).le
  rcases h.asked with ⟨thread, -⟩ | ⟨v, thread⟩ | ⟨thread, queued⟩
  · exact Or.inr (idles (by simp [thread, ReadPc.sent]))
  · exact Or.inr (idles (by simp [thread, ReadPc.sent]))
  have responce := responce_process (k := k) (directMemOut_clocked k) h.waits
  have runs := DirectStep.run_reads (memBase k) (d.mem k) queued
    (d.ready.contains (.directentry k))
  rw [← directMemOut_direct] at runs
  rcases runs with ⟨notified, held⟩ | ⟨quiet, pc⟩ | ⟨quiet, kept, same⟩
  · refine Or.inl (Or.inr ⟨?_, Or.inr held⟩)
    rcases thread with thread | thread
    · change (d.process (.directMemOut k)).bus.readThread = _
      rw [bus_directMemOut, notified]
      exact d.bus.signal_pending _ thread
    · exact responce thread
  · rcases thread with thread | thread
    · refine Or.inl (Or.inl ⟨?_, pc⟩)
      change (d.process (.directMemOut k)).bus.readThread = _
      rw [bus_directMemOut, quiet, Bus.signal_quiet]
      exact thread
    · exact Or.inl (Or.inr ⟨responce thread, Or.inl pc⟩)
  · refine Or.inr ⟨h.stays (directMemOut_clocked k) fun _ => kept, ?_⟩
    rw [left, before, same]

theorem Requesting.directentry (h : Requesting k d) (runnable : d.runnable (.directentry k) = true) :
    Asked k (d.exec (.directentry k)) ∧
      (d.exec (.directentry k)).readEdgesLeft k ≤ d.readEdgesLeft k := by
  have ready : d.ready.contains (.directentry k) = true := by
    simpa [Device.runnable, blocked] using runnable
  constructor
  · refine h.stays (directentry_clocked k) fun queued => ?_
    rw [directentry_direct]
    exact ⟨queued.held, queued.outRead, (receive_preready _).trans queued.low, queued.pc⟩
  · unfold readEdgesLeft
    rw [h.ran, ready, d.contains_exec (by simp)]
    change ((d.process (.directentry k)).direct k).readEdges _ _ ≤ _
    rw [directentry_direct]
    exact (Direct.readEdges_receive _).le

/-- The processes of the other ports and paths do not reach the request. -/
theorem Requesting.other (h : Requesting k d) {q : Proc} (inside : q ∈ clocked)
    (memOut : q ≠ .directMemOut k) (receiver : q ≠ .directentry k) :
    Asked k (d.exec q) ∧ (d.exec q).readEdgesLeft k ≤ d.readEdgesLeft k := by
  have same : (d.process q).direct k = d.direct k := process_direct inside memOut receiver
  refine ⟨h.stays inside fun queued => same.symm ▸ queued, ?_⟩
  unfold readEdgesLeft
  rw [d.contains_exec (Ne.symm memOut), d.contains_exec (Ne.symm receiver)]
  change ((d.process q).direct k).readEdges _ _ ≤ _
  rw [same]

/-- The request is put into the FIFO, or waits for room in it. -/
private theorem asked_readDirect (v : Word) (client : d.bus.client = .waitRead)
    (outRead : (d.direct k).outRead = true) (low : (d.direct k).handshake.preready = false)
    (free : ∀ v, (d.direct k).pc ≠ .writeResponce v) :
    (d.readDirect k v).bus.client = .waitRead ∧ Asked k (d.readDirect k v) := by
  unfold readDirect
  split
  · refine ⟨client, Or.inr (Or.inr ⟨Or.inl rfl, ?_⟩)⟩
    constructor
    · simp
    · simpa using outRead
    · simpa using low
    · simpa using free
  · exact ⟨client, Or.inr (Or.inl ⟨v, rfl⟩)⟩

/-- The read thread sends the request. -/
theorem Requesting.executeReadThread (h : Requesting k d)
    (runnable : d.runnable .executeReadThread = true) :
    (d.exec .executeReadThread).bus.client = .waitRead ∧ Asked k (d.exec .executeReadThread) ∧
      (d.exec .executeReadThread).readEdgesLeft k ≤ d.readEdgesLeft k := by
  have left : (d.exec .executeReadThread).readEdgesLeft k = d.readEdgesLeft k := by
    have same := Direct.readEdges_of_same (d.executeReadThread_direct k)
    unfold readEdgesLeft
    rw [d.contains_exec (by simp), d.contains_exec (by simp)]
    exact same _ _
  suffices after : d.executeReadThread.bus.client = .waitRead ∧ Asked k d.executeReadThread from
    ⟨after.1, after.2, left.le⟩
  rcases h.asked with ⟨thread, port⟩ | ⟨v, thread⟩ | ⟨thread, queued⟩
  · simp only [Device.executeReadThread, thread, decodeRead, port]
    apply asked_readDirect (d := d.setDirect k d.bus.mReadAddress true) _ h.waits
    · simp [setDirect]
    · simpa [setDirect] using h.low
    · simpa [setDirect] using h.free
  · have outRead := (accounted_of_reachable h.reachable).readDirect k v thread
    simp only [Device.executeReadThread, thread]
    exact asked_readDirect v h.waits outRead h.low h.free
  · rcases thread with thread | thread
    · simp [Device.runnable, thread] at runnable
    · -- there is no answer yet that would wake it
      have unanswered := unanswered_of_asked h.reachable h.asked
      have none : (d.direct k).dirMemResponceFifo.contents = [] :=
        Fifo.held_eq_zero.mp (by omega)
      rw [Fifo.contents, List.append_eq_nil_iff] at none
      simp [Device.runnable, thread, Fifo.numAvailable, none.1] at runnable

end asking

/-- Every step takes the request or leaves it, and an edge brings its taking closer. -/
theorem asked_step {a : Action} (h : Requesting k d) (hs : Move d a e) :
    e.bus.client = .waitRead ∧
      ((Answered k e ∧ isEdge a = false) ∨
        (Asked k e ∧ e.readEdgesLeft k + (if isEdge a then 1 else 0) ≤ d.readEdgesLeft k)) := by
  cases hs with
  | request t idle => simp [h.waits] at idle
  | delta quiescent =>
    obtain ⟨asked, left⟩ := h.update quiescent
    exact ⟨by simp [Device.update, h.waits], Or.inr ⟨asked, left.le⟩⟩
  | edge quiescent clean => exact ⟨h.waits, Or.inr ⟨h.asked, h.edge quiescent clean⟩⟩
  | run q runnable =>
    rcases clocked_or_thread q with inside | rfl | rfl | rfl
    · refine ⟨(d.signal_reading inside h.waits).1, ?_⟩
      by_cases memOut : q = .directMemOut k
      · subst memOut
        exact (h.directMemOut runnable).imp_left fun answered => ⟨answered, rfl⟩
      right
      by_cases receiver : q = .directentry k
      · subst receiver
        exact h.directentry runnable
      · exact h.other inside memOut receiver
    · simp [Device.runnable, h.waits] at runnable
    · simp [Device.runnable, h.no_write.1] at runnable
    · obtain ⟨client, asked, left⟩ := h.executeReadThread runnable
      exact ⟨client, Or.inr ⟨asked, left⟩⟩

/-- While the initiator waits, no call returns. -/
theorem returned_of_waits {a : Action} (waits : d.bus.client = .waitRead) (hs : Move d a e) :
    e.bus.returned = d.bus.returned := by
  cases hs with
  | request t idle => simp [waits] at idle
  | delta | edge => rfl
  | run q runnable =>
    rcases clocked_or_thread q with inside | rfl | rfl | rfl
    · obtain ⟨notify, pending, bus⟩ := d.process_signal inside
      obtain ⟨c, r, frame, -⟩ := d.bus.signal_frame notify pending
      simp [exec, bus, frame]
    · simp [Device.runnable, waits] at runnable
    · obtain ⟨_, _, _, _, _, _, same, _⟩ := d.executeWriteThread_frame
      simp [exec, process, same]
    · obtain ⟨_, _, _, _, same, _⟩ := d.executeReadThread_frame
      simp [exec, process, same]

theorem load_of_answered (answered : Answered k d) :
    (d.direct k).pc.load + (d.direct k).dirMemResponceFifo.held ≠ 0 := by
  rcases answered with ⟨-, v, pc⟩ | ⟨-, ⟨v, pc⟩ | held⟩
  · simp [pc, DirectPc.load]
  · simp [pc, DirectPc.load]
  · omega

/-- A direct read ends after a bounded number of clock edges in every run. -/
theorem within_of_asked (h : machine.Reachable d) (waits : d.bus.client = .waitRead)
    (asked : Asked k d) :
    machine.Within isEdge (d.readEdgesLeft k + 1)
      (fun e => e.bus.client = .notified ∧ e.bus.returned = d.bus.returned) d := by
  -- an answer that has been taken needs no edge
  let rank (e : Device) : Nat :=
    if (e.direct k).pc.load + (e.direct k).dirMemResponceFifo.held = 0 then e.readEdgesLeft k else 0
  have start : rank d = d.readEdgesLeft k := if_pos (unanswered_of_asked h asked)
  rw [← start]
  refine Machine.within_of_rank
    (I := fun e => machine.Reachable e ∧ e.bus.client = .waitRead ∧
      e.bus.returned = d.bus.returned ∧ (Answered k e ∨ Asked k e))
    rank ?_ ⟨h, waits, rfl, Or.inr asked⟩
  rintro r a e ⟨reach, waits, returned, place⟩ hs
  have move := move_of_step hs
  have later := reach.step hs
  have returned' := (returned_of_waits waits move).trans returned
  rcases place with answered | asked
  · rcases answered_step ⟨reach, waits, answered⟩ move with ended | ⟨client, answered', quiet⟩
    · exact Or.inl ⟨ended, returned'⟩
    · have none : rank e = 0 := if_neg (load_of_answered answered')
      exact Or.inr ⟨⟨later, client, returned', Or.inl answered'⟩, by simp [none, quiet]⟩
  · obtain ⟨client, ⟨answered, quiet⟩ | ⟨asked', closer⟩⟩ := asked_step ⟨reach, waits, asked⟩ move
    · have none : rank e = 0 := if_neg (load_of_answered answered)
      exact Or.inr ⟨⟨later, client, returned', Or.inl answered⟩, by simp [none, quiet]⟩
    · have before : rank r = r.readEdgesLeft k := if_pos (unanswered_of_asked reach asked)
      have after : rank e = e.readEdgesLeft k := if_pos (unanswered_of_asked later asked')
      exact Or.inr ⟨⟨later, client, returned', Or.inr asked'⟩, by rw [before, after]; exact closer⟩

/-- Every direct read can come back. -/
theorem exists_return {s : Device} {t : Transaction} (hs : machine.Reachable s)
    (idle : s.bus.client = .idle) (accepted : t.accepted = true) (read : t.command = .read)
    (port : directPort t.address = some k) :
    ∃ as u t', machine.run s (.request t :: as) = some u ∧
      u.bus.returned = s.bus.returned ++ [t'] := by
  have step : machine.step s (.request t) = some (s.request t) :=
    step_iff.mpr ⟨by simp [idle], .request t idle⟩
  have bus := (accounted_of_reachable hs).request_read idle accepted read
  have waits : (s.request t).bus.client = .waitRead := by rw [bus]
  have asked : Asked k (s.request t) := by
    left
    simp [bus, port]
  have returned : (s.request t).bus.returned = s.bus.returned := by rw [bus]
  obtain ⟨as, e, run, enough⟩ := (s.request t).exists_run_edges (by simp [waits]) _
  obtain ⟨pre, _, d, _, reached, notified, same⟩ :=
    within_of_asked (hs.step step) waits asked as e run enough
  -- the initiator's process is all that is left to run
  have last : machine.step d (.run .client) = some (d.exec .client) :=
    step_iff.mpr ⟨by simp [notified], .run _ (by simp [Device.runnable, notified])⟩
  refine ⟨pre ++ [.run .client], d.exec .client, d.bus.trans.answered d.bus.mRegisterRead, ?_, ?_⟩
  · exact (machine.run_cons_iff _ _ _ _).mpr
      ⟨_, step, (machine.run_snoc_iff _ _ _ _).mpr ⟨d, reached, last⟩⟩
  · simp only [exec, process, Bus.returns, Bus.finish, same, returned]
    rfl

end Device

end ScCosim.Firewall
