import ScCosim.Firewall.DirectWrite

/-!
# Which writes end

A write whose address is decoded by none of the cases of `execute_write_thread` is taken and
forgotten: nothing is left in the device that could notify its end.
-/
namespace ScCosim.Firewall

open Kernel Async

/-! ### The decoding -/

theorem portAt_some {register : Port → BitVec 64} {address : BitVec 64} {i : Port}
    (h : portAt register address = some i) : address = register i := by
  have found := List.find?_some h
  simpa using (decide_eq_true_eq.mp found).symm

theorem portAt_none {register : Port → BitVec 64} {address : BitVec 64}
    (h : portAt register address = none) (i : Port) : address ≠ register i := by
  have all := List.find?_eq_none.mp h i
  intro same
  -- the search goes through all four ports
  match i with
  | 0 | 1 | 2 | 3 => simp [same] at all

theorem directPort_none {address : BitVec 64} :
    directPort address = none ↔ ¬ address < 0x40004000 := by
  unfold directPort
  -- the windows of the BRAMs follow each other without a gap
  split_ifs with first second third fourth
  · simp
    bv_omega
  · simp
    bv_omega
  · simp
    bv_omega
  · simpa using fourth
  · simpa using fourth

/-- The registers that `execute_write_thread` knows. -/
theorem writeTarget_spec (address : BitVec 64) :
    match writeTarget address with
    | .packet i => address = dWP i
    | .lower i => address = fLP i
    | .upper i => address = fUP i
    | .rule i => address = fRP i
    | .unknown => ∀ i, address ≠ dWP i ∧ address ≠ fLP i ∧ address ≠ fUP i ∧ address ≠ fRP i := by
  unfold writeTarget
  cases packet : portAt dWP address with
  | some i => exact portAt_some packet
  | none =>
  cases lower : portAt fLP address with
  | some i => exact portAt_some lower
  | none =>
  cases upper : portAt fUP address with
  | some i => exact portAt_some upper
  | none =>
  cases rule : portAt fRP address with
  | some i => exact portAt_some rule
  | none =>
    exact fun i =>
      ⟨portAt_none packet i, portAt_none lower i, portAt_none upper i, portAt_none rule i⟩

/-- The writes outside the packet registers that are answered. -/
def Served (address : BitVec 64) : Prop :=
  address < 0x40004000 ∨ ∃ i, address = fLP i ∨ address = fUP i ∨ address = fRP i

namespace Device

/-- A write reaches the notification that ends it, after a bounded number of clock edges in
every run, and in some run. -/
def EndsWrite (s : Device) (t : Transaction) : Prop :=
  (∃ n, machine.Within isEdge n (fun d => d.bus.client = .notified) (s.request t)) ∧
    ∃ as d, machine.run (s.request t) as = some d ∧ d.bus.client = .notified

/-- An end that no run can miss is reached by one. -/
theorem endsWrite_of_within {s : Device} {t : Transaction} {n : Nat}
    (alive : (s.request t).bus.client ≠ .thrown)
    (h : machine.Within isEdge n (fun d => d.bus.client = .notified) (s.request t)) :
    EndsWrite s t := by
  obtain ⟨as, e, run, enough⟩ := (s.request t).exists_run_edges alive n
  obtain ⟨pre, _, d, _, reached, ended⟩ := h as e run enough
  exact ⟨⟨n, h⟩, pre, d, reached, ended⟩

variable {d e s : Device} {t : Transaction}

/-- With no piece of the write in the device, only the write thread can end it. -/
theorem silent_step {a : Action} (h : machine.Reachable d) (waits : d.bus.client = .waitWrite)
    (path : d.pathLoad = 0) (hs : Move d a e) (other : a ≠ .run .executeWriteThread) :
    e.bus.client = .waitWrite ∧ e.pathLoad = 0 ∧ e.bus.writeThread = d.bus.writeThread ∧
      e.bus.mWriteAddress = d.bus.mWriteAddress := by
  cases hs with
  | request t idle => simp [waits] at idle
  | edge => exact ⟨waits, path, rfl, rfl⟩
  | delta => exact ⟨by simp [update, waits], pathLoad_update.trans path, rfl, rfl⟩
  | run q runnable =>
    rcases clocked_or_thread q with inside | rfl | rfl | rfl
    · obtain ⟨notify, pays⟩ := d.pays_process inside
      have paid := pays.write
      -- a notification would have to be paid for
      have quiet : notify = false := by
        cases notify with
        | false => rfl
        | true => simp only [ended_true] at paid; omega
      subst quiet
      obtain ⟨pending, bus⟩ := pays.bus
      obtain ⟨r, frame⟩ := d.bus.signal_waits false pending waits
      rw [frame] at bus
      have left : (d.process q).pathLoad = 0 := by
        simp only [ended_false] at paid
        omega
      suffices same : (d.process q).bus.client = .waitWrite ∧
          (d.process q).bus.writeThread = d.bus.writeThread ∧
          (d.process q).bus.mWriteAddress = d.bus.mWriteAddress from ⟨same.1, left, same.2⟩
      rw [bus]
      exact ⟨rfl, rfl, rfl⟩
    · simp [Device.runnable, waits] at runnable
    · exact absurd rfl other
    · have rests := ((accounted_of_reachable h).no_read (by simp [waits])).1
      simp [Device.runnable, rests] at runnable

/-- The request of a write is with the write thread. -/
structure Requested (address : BitVec 64) (d : Device) : Prop where
  reachable : machine.Reachable d
  client : d.bus.client = .waitWrite
  thread : d.bus.writeThread = .notified
  address : d.bus.mWriteAddress = address

theorem requested_of_request (h : machine.Reachable s) (idle : s.bus.client = .idle)
    (accepted : t.accepted = true) (write : t.command = .write) :
    Requested t.address (s.request t) := by
  have alive : s.bus.client ≠ .thrown := by simp [idle]
  have step : machine.step s (.request t) = some (s.request t) :=
    step_iff.mpr ⟨alive, .request t idle⟩
  have bus := (accounted_of_reachable h).request_write idle accepted write
  refine ⟨h.step step, ?_, ?_, ?_⟩ <;> rw [bus]

/-- A request that is not yet decoded stays so until the thread runs, before any edge. -/
theorem requested_step {address : BitVec 64} {a : Action} (h : Requested address d)
    (hs : machine.step d a = some e) :
    a = .run .executeWriteThread ∨ (Requested address e ∧ isEdge a = false) := by
  by_cases run : a = .run .executeWriteThread
  · exact Or.inl run
  · right
    have move := move_of_step hs
    have path := ((accounted_of_reachable h.reachable).writing (by simp [h.thread])).2.1
    obtain ⟨client, _, thread, same⟩ := silent_step h.reachable h.client path move run
    refine ⟨⟨h.reachable.step hs, client, thread.trans h.thread,
      same.trans h.address⟩, ?_⟩
    cases move with
    | edge quiescent clean =>
      have rests := List.all_eq_true.mp quiescent .executeWriteThread (by decide)
      simp [Device.runnable, h.thread] at rests
    | run | request | delta => rfl

/-- A setup register is written and its write ended by the write thread. -/
theorem served_of_setup {address : BitVec 64} (h : Requested address d)
    (above : directPort address = none)
    (setup : ∃ i, address = fLP i ∨ address = fUP i ∨ address = fRP i)
    (other : ∀ i, address ≠ dWP i) : (d.exec .executeWriteThread).bus.client = .notified := by
  have spec := writeTarget_spec address
  suffices ended : d.executeWriteThread.bus.client = .notified from ended
  simp only [executeWriteThread, h.thread, decodeWrite, h.address, above]
  cases target : writeTarget address with
  | packet i => exact absurd (by simpa [target] using spec) (other i)
  | unknown =>
    obtain ⟨i, register⟩ := setup
    -- the address is that of a setup register after all
    simp only [target] at spec
    obtain ⟨_, lower, upper, rule⟩ := spec i
    rcases register with same | same | same <;> contradiction
  | lower i | upper i | rule i =>
    simp [decodeSetup, writeSetup, logServed, Bus.notifyWriteEnded, h.client]

theorem within_of_setup {address : BitVec 64} (h : Requested address d)
    (above : directPort address = none)
    (setup : ∃ i, address = fLP i ∨ address = fUP i ∨ address = fRP i)
    (other : ∀ i, address ≠ dWP i) :
    machine.Within isEdge 1 (fun d => d.bus.client = .notified) d := by
  refine Machine.within_of_rank (I := Requested address) (fun _ => 0) ?_ h
  intro d a e requested hs
  rcases requested_step requested hs with rfl | ⟨kept, quiet⟩
  · -- the thread runs: no edge is needed
    left
    cases move_of_step hs
    exact served_of_setup requested above setup other
  · exact Or.inr ⟨kept, by simp [quiet]⟩

theorem within_of_direct (h : machine.Reachable d) (k : Port) (underway : Underway k d) :
    machine.Within isEdge (d.edgesLeft k + 1) (fun d => d.bus.client = .notified) d := by
  refine Machine.within_of_rank (I := fun d => machine.Reachable d ∧ Underway k d)
    (fun d => d.edgesLeft k) ?_ ⟨h, underway⟩
  rintro d a e ⟨h, underway⟩ hs
  rcases underway_step h underway (move_of_step hs) with ended | ⟨kept, closer⟩
  · exact Or.inl ended
  · exact Or.inr ⟨⟨h.step hs, kept⟩, closer⟩

/-! ### The writes that do not end -/

/-- The request has an unknown address, or it has been forgotten. -/
def Hung (d : Device) : Prop :=
  machine.Reachable d ∧ d.bus.client = .waitWrite ∧ d.pathLoad = 0 ∧
    (d.bus.writeThread = .wait ∨
      d.bus.writeThread = .notified ∧ directPort d.bus.mWriteAddress = none ∧
        writeTarget d.bus.mWriteAddress = .unknown)

theorem hung_step {a : Action} (h : Hung d) (hs : machine.step d a = some e) : Hung e := by
  obtain ⟨reachable, client, path, thread⟩ := h
  have move := move_of_step hs
  have later : machine.Reachable e := reachable.step hs
  by_cases run : a = .run .executeWriteThread
  · subst run
    cases move with
    | run _ runnable =>
    rcases thread with rests | ⟨notified, above, unknown⟩
    · -- the thread has to be notified to run
      simp [Device.runnable, rests] at runnable
    · have forgotten : d.executeWriteThread =
          { d.logServed with bus.writeThread := .wait } := by
        simp [executeWriteThread, notified, decodeWrite, above, unknown]
      refine ⟨later, ?_, ?_, Or.inl ?_⟩
      · change d.executeWriteThread.bus.client = _
        rw [forgotten]
        exact client
      · change d.executeWriteThread.pathLoad = _
        rw [forgotten]
        exact path
      · change d.executeWriteThread.bus.writeThread = _
        rw [forgotten]
  · obtain ⟨client', path', thread', address⟩ := silent_step reachable client path move run
    rw [← thread', ← address] at thread
    exact ⟨later, client', path', thread⟩

/-- A write to an address that no case knows leaves the initiator waiting in every run. -/
theorem waits_of_unknown {address : BitVec 64} (h : Requested address d)
    (above : directPort address = none) (unknown : writeTarget address = .unknown)
    {as : List Action} (run : machine.run d as = some e) : e.bus.client = .waitWrite := by
  have path := ((accounted_of_reachable h.reachable).writing (by simp [h.thread])).2.1
  have hung : Hung d :=
    ⟨h.reachable, h.client, path, Or.inr ⟨h.thread, h.address ▸ above, h.address ▸ unknown⟩⟩
  exact (Machine.run_invariant (I := Hung) (fun _ _ _ hung hs => hung_step hung hs) hung run).2.1

/-! ### Exactly the served writes end -/

theorem endsWrite_of_served (h : machine.Reachable s) (idle : s.bus.client = .idle)
    (accepted : t.accepted = true) (write : t.command = .write)
    (other : ∀ i, t.address ≠ dWP i) (served : Served t.address) : EndsWrite s t := by
  have requested := requested_of_request h idle accepted write
  have alive : (s.request t).bus.client ≠ .thrown := by simp [requested.client]
  cases port : directPort t.address with
  | some k =>
    have underway : Underway k (s.request t) :=
      ⟨requested.client, Or.inl ⟨requested.thread, requested.address.symm ▸ port⟩⟩
    exact endsWrite_of_within alive (within_of_direct requested.reachable k underway)
  | none =>
    have setup := served.resolve_left (directPort_none.mp port)
    exact endsWrite_of_within alive (within_of_setup requested port setup other)

theorem served_of_endsWrite (h : machine.Reachable s) (idle : s.bus.client = .idle)
    (accepted : t.accepted = true) (write : t.command = .write)
    (other : ∀ i, t.address ≠ dWP i) (ends : EndsWrite s t) : Served t.address := by
  by_contra unserved
  have requested := requested_of_request h idle accepted write
  have above : directPort t.address = none :=
    directPort_none.mpr fun below => unserved (Or.inl below)
  have unknown : writeTarget t.address = .unknown := by
    have spec := writeTarget_spec t.address
    cases target : writeTarget t.address with
    | unknown => rfl
    -- each known register is served
    | packet i => exact absurd (by simpa [target] using spec) (other i)
    | lower i => exact absurd (Or.inr ⟨i, Or.inl (by simpa [target] using spec)⟩) unserved
    | upper i => exact absurd (Or.inr ⟨i, Or.inr (Or.inl (by simpa [target] using spec))⟩) unserved
    | rule i => exact absurd (Or.inr ⟨i, Or.inr (Or.inr (by simpa [target] using spec))⟩) unserved
  -- in some run the write would end, and in none it does
  obtain ⟨_, as, e, run, ended⟩ := ends
  have waits := waits_of_unknown requested above unknown run
  simp [waits] at ended

/-- An accepted write outside the packet registers ends exactly if its address is in a direct
window or a setup register. -/
theorem write_ends_iff (h : machine.Reachable s) (idle : s.bus.client = .idle)
    (accepted : t.accepted = true) (write : t.command = .write)
    (other : ∀ i, t.address ≠ dWP i) : EndsWrite s t ↔ Served t.address :=
  ⟨served_of_endsWrite h idle accepted write other,
    endsWrite_of_served h idle accepted write other⟩

/-- A write to the first word of the first BRAM ends. -/
theorem first_word_ends : EndsWrite new ⟨.bTransport, .write, 0x40000000, 7, 4, false⟩ :=
  (write_ends_iff machine.reachable_init rfl rfl rfl (by decide)).mpr (Or.inl (by decide))

/-- The last address of the window of the BRAMs is accepted, and its write never ends. -/
theorem last_address_never_ends : ¬ ∀ (s : Device) (t : Transaction), machine.Reachable s →
    s.bus.client = .idle → t.accepted = true → t.command = .write →
    (∀ i, t.address ≠ dWP i) → EndsWrite s t := by
  intro claim
  have ends := claim new ⟨.bTransport, .write, 0x40004000, 7, 4, false⟩ machine.reachable_init rfl
    rfl rfl (by decide)
  have served := served_of_endsWrite machine.reachable_init rfl rfl rfl (by decide) ends
  exact absurd served (by unfold Served; decide)

end Device

end ScCosim.Firewall
