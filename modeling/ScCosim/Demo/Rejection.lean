import ScCosim.Demo.Simulation

/-!
# Requests outside the windows

The target marks a bad address in the payload after `SC_REPORT_ERROR`, and the SystemC process
has a status for the mark, but the report throws first. The firewall is left as it was; the
client is never answered, and no other request is taken.
-/
namespace ScCosim.Demo

open Kernel Async Firewall

/-- No window of the target holds the address. -/
def outside (r : Request) : Bool := !inWindow (r.address.zeroExtend 64)

/-- Every register, FIFO, memory and counter is the same; the call of the initiator may be
another. -/
def SameFirewall (d e : Device) : Prop :=
  e = { d with bus := { d.bus with client := e.bus.client, trans := e.bus.trans }, dirty := e.dirty }

namespace Simulation

/-- The SystemC process gets the packet `p`. -/
def Takes (s : Simulation) (p : Ptr) (t : Simulation) : Prop :=
  machine.step s (.loops .nbGet) = some t ∧ t.cosim.record.got = s.cosim.record.got ++ [p]

/-- What a bad request should come to: it can be answered as such, the firewall does not
change when it is taken, and the next request can be taken and served. -/
structure Survived (s : Simulation) (p : Ptr) : Prop where
  answered : ∃ as t, machine.run s as = some t ∧
    (p, AsyncStatus.addressErrorResponse) ∈ t.cosim.record.pulled
  untouched : ∀ as t u, machine.run s as = some t → t.Takes p u → SameFirewall t.device u.device
  continues : ∀ as t u, machine.run s as = some t → t.Takes p u →
    ∃ bs v q status, machine.run u bs = some v ∧
      v.cosim.record.got = u.cosim.record.got ++ [q] ∧ (q, status) ∈ v.cosim.record.pulled

/-- What it comes to: it is not answered in any way, and nothing is taken after it. -/
structure Ends (s : Simulation) (p : Ptr) : Prop where
  unanswered : ∀ as t status, machine.run s as = some t → (p, status) ∉ t.cosim.record.pulled
  untouched : ∀ as t u, machine.run s as = some t → t.Takes p u → SameFirewall t.device u.device
  last : ∀ as t u, machine.run s as = some t → t.Takes p u →
    ∀ bs v, machine.run u bs = some v → v.cosim.record.got = u.cosim.record.got

/-! ### The interface -/

/-- The OS thread moves neither the SystemC process nor its part of the record. -/
theorem osThread_frame {s c : Cosim} {a : Cosim.Action} (os : ofOsThread a = true)
    (h : Cosim.machine.step s a = some c) :
    c.sysc = s.sysc ∧ c.record.got = s.record.got ∧ c.record.written = s.record.written ∧
      (c.record.accepted = s.record.accepted ∨
        ∃ r, c.record.accepted = s.record.accepted ++ [(r, s.next)]) := by
  have hs := Cosim.transition_of_step h
  cases hs with
  | accept r => exact ⟨rfl, rfl, rfl, Or.inr ⟨r, rfl⟩⟩
  | push | waitForPut | reply => exact ⟨rfl, rfl, rfl, Or.inl rfl⟩
  | nbPull p =>
    unfold Cosim.nbPull
    split <;> exact ⟨rfl, rfl, rfl, Or.inl rfl⟩
  | _ => cases os

/-- What goes to the target is the packet just taken. -/
theorem eq_of_forward {s : Cosim} {p q : Ptr} {call : TransportCall}
    (h : (s.forward p).sysc = .transport q call) : p = q := by
  simp only [Cosim.forward] at h
  split at h
  · cases h
  · cases h
    rfl

theorem nbGet_trans {s : Cosim} {q : Ptr} {call : TransportCall}
    (h : s.nbGet.sysc = .transport q call) :
    s.nbGet.trans.address = (s.nbGet.heap q).address ∧
      s.nbGet.trans.byteEnables = false := by
  unfold Cosim.nbGet at h ⊢
  split at h <;> obtain rfl := eq_of_forward h <;>
    simp only [setupTrans, Cosim.forward, and_self]

theorem sysc_of_nbGet {s c : Cosim} (h : Cosim.machine.step s .nbGet = some c) :
    s.sysc = .nbGet ∧ c = s.nbGet := by
  cases Cosim.transition_of_step h with
  | nbGet sysc => exact ⟨sysc, rfl⟩

/-- Taking a packet accepts and writes none. -/
theorem nbGet_record (s : Cosim) :
    s.nbGet.record.accepted = s.record.accepted ∧ s.nbGet.record.written = s.record.written := by
  unfold Cosim.nbGet
  split <;> exact ⟨rfl, rfl⟩

theorem kernel_frame {s c : Cosim} (h : Cosim.machine.step s .kernel = some c) :
    c.record = s.record ∧ (c.sysc = s.sysc ∨ s.sysc = .waitEvent ∧ c.sysc = .nbGet) := by
  cases Cosim.transition_of_step h with
  | kernel k =>
    refine ⟨rfl, ?_⟩
    simp only [Cosim.deliver]
    split
    · next woken => exact Or.inr ⟨woken.2.2, rfl⟩
    · exact Or.inl rfl

theorem target_frame {s c : Cosim} {r : TargetReply} (h : Cosim.machine.step s (.target r) = some c) :
    ∃ p call, s.sysc = .transport p call ∧ c.sysc = .nbPut p ∧
      c.record.accepted = s.record.accepted ∧ c.record.got = s.record.got ∧
      c.record.written = s.record.written ++ [(p, statusOf r.responseStatus)] := by
  cases Cosim.transition_of_step h with
  | target p call _ sysc => exact ⟨p, call, sysc, rfl, rfl, rfl, rfl⟩

/-- `nb_put` and the steps around it hold no call. -/
theorem process_frame {s c : Cosim} {a : Cosim.Action}
    (place : a = .nbPut ∨ a = .loop ∨ a = .stop) (h : Cosim.machine.step s a = some c) :
    c.record.accepted = s.record.accepted ∧ c.record.got = s.record.got ∧
      c.record.written = s.record.written ∧ (∀ p call, c.sysc ≠ .transport p call) ∧
      (s.sysc = .leaving ∨ s.sysc = .stopped → c.sysc = .stopped) := by
  have hs := Cosim.transition_of_step h
  rcases place with rfl | rfl | rfl
  · cases hs with
    | nbPut p sysc => exact ⟨rfl, rfl, rfl, by simp [Cosim.nbPut], by simp [sysc]⟩
  · cases hs with
    | loop sysc =>
      refine ⟨rfl, rfl, rfl, by simp, fun left => ?_⟩
      rcases sysc with sysc | sysc <;> simp [sysc] at left
  · cases hs with
    | stop sysc => exact ⟨rfl, rfl, rfl, by simp, fun _ => rfl⟩

/-! ### The firewall -/

/-- After the exception the firewall takes no step. -/
theorem not_thrown_of_step {d e : Device} {a : Device.Action} (h : d.step a = some e) :
    d.bus.client ≠ .thrown := by
  intro thrown
  simp [Device.step, thrown] at h

/-- A call outside the windows throws, and that is all it does. -/
theorem request_of_rejected {d e : Device} {t : Transaction} (rejected : t.accepted = false)
    (h : d.step (.request t) = some e) : e.bus.client = .thrown ∧ SameFirewall d e := by
  have idle := not_thrown_of_step h
  simp only [Device.step, if_neg idle] at h
  split at h
  · cases h
    have threw : d.bus.request t = { d.bus with client := .thrown, trans := t } := by
      simp [Bus.request, rejected]
    rw [Device.request, threw]
    exact ⟨rfl, rfl⟩
  · cases h

theorem sameFirewall_refl (d : Device) : SameFirewall d d := rfl

/-- The packet of a bad request is rejected. -/
theorem call_of_outside {c : Cosim} {d : Device} {t : Simulation} {p : Ptr} {kind : TransportCall}
    (sysc : c.sysc = .transport p kind) (out : inWindow c.trans.address = false)
    (h : call c d = some t) : t.device.bus.client = .thrown ∧ SameFirewall d t.device := by
  simp only [call, sysc] at h
  obtain ⟨e, step, rfl⟩ := Option.map_eq_some_iff.mp h
  apply request_of_rejected _ step
  simp [Transaction.accepted, transaction, out]

/-! ### After a bad request -/

/-- The exception has been thrown, or the SystemC process has left its loop. -/
def Over (s : Simulation) : Prop :=
  s.device.bus.client = .thrown ∨ s.cosim.sysc = .leaving ∨ s.cosim.sysc = .stopped

theorem not_thrown_of_running {s : Simulation} (running : s.running = true) :
    s.device.bus.client ≠ .thrown := by
  simpa [Simulation.running] using running

theorem over_step {s t : Simulation} {a : Action} (h : s.Over) (hs : Transition s a t) :
    t.Over ∧ t.cosim.record.got = s.cosim.record.got := by
  cases hs with
  | osThread b c os cosim =>
    obtain ⟨sysc, got, -⟩ := osThread_frame os cosim
    refine ⟨?_, got⟩
    simpa only [Over, sysc] using h
  | nbGet c t running cosim =>
    -- neither side lets the process get here
    obtain ⟨sysc, -⟩ := sysc_of_nbGet cosim
    rcases h with thrown | left
    · exact absurd thrown (not_thrown_of_running running)
    · simp [sysc] at left
  | process b c running place cosim =>
    obtain ⟨-, got, -, -, stops⟩ := process_frame place cosim
    rcases h with thrown | left
    · exact absurd thrown (not_thrown_of_running running)
    · exact ⟨Or.inr (Or.inr (stops left)), got⟩
  | target r c running _ cosim =>
    obtain ⟨p, kind, sysc, -⟩ := target_frame cosim
    rcases h with thrown | left
    · exact absurd thrown (not_thrown_of_running running)
    · simp [sysc] at left
  | device a b d step =>
    rcases h with thrown | left
    · exact absurd thrown (not_thrown_of_step step)
    · exact ⟨Or.inr left, rfl⟩
  | kernel c d running cosim =>
    obtain ⟨record, sysc⟩ := kernel_frame cosim
    rcases h with thrown | left
    · exact absurd thrown (not_thrown_of_running running)
    · refine ⟨Or.inr ?_, by rw [record]⟩
      rcases sysc with same | ⟨waiting, -⟩
      · simpa only [same] using left
      · simp [waiting] at left

/-- Nothing is taken any more. -/
theorem over_run {s t : Simulation} {as : List Action} (h : s.Over)
    (hr : machine.run s as = some t) : t.cosim.record.got = s.cosim.record.got := by
  have kept : t.Over ∧ t.cosim.record.got = s.cosim.record.got := by
    refine Machine.run_invariant
      (I := fun r => r.Over ∧ r.cosim.record.got = s.cosim.record.got) ?_ ⟨h, rfl⟩ hr
    rintro r a u ⟨ended, same⟩ hs
    obtain ⟨still, got⟩ := over_step ended (transition_of_step hs)
    exact ⟨still, got.trans same⟩
  exact kept.2

/-! ### A bad request is not answered -/

/-- The packet of a bad request is never written, for the call that it goes out with throws. -/
def Unwritten (s : Simulation) : Prop :=
  ∀ r ∈ s.cosim.record.accepted, outside r.1 = true →
    r.2 ∉ s.cosim.record.written.map Prod.fst ∧
      ∀ kind, s.cosim.sysc = .transport r.2 kind → s.device.bus.client = .thrown

theorem address_of_accepted {s : Cosim} (h : Cosim.machine.Reachable s) :
    s.Keeps AsyncPacket.address fun r => r.address.zeroExtend 64 :=
  Cosim.keeps_reachable (fun _ _ => rfl) (fun _ _ => rfl) h

/-- A packet made next is neither written nor in a call. -/
theorem fresh_of_reachable {s : Cosim} (h : Cosim.machine.Reachable s) :
    s.next ∉ s.record.written.map Prod.fst ∧ ∀ kind, s.sysc ≠ .transport s.next kind := by
  have stage := (Cosim.stage_reachable h).1
  refine ⟨fun written => ?_, fun kind sysc => ?_⟩
  · -- what is written was made for a request that has been accepted
    have made := stage.pulled_prefix.2.subset written
    obtain ⟨r, accepted, same⟩ := List.mem_map.mp made
    have older := (address_of_accepted h r accepted).1
    exact absurd same (Nat.ne_of_lt older)
  · cases stage with
    | called p _ _ fresh sysc' =>
      rw [sysc] at sysc'
      cases sysc'
      exact absurd fresh (Nat.lt_irrefl _)
    | idle _ sysc' | made _ _ _ sysc' | flagged _ _ _ sysc' | notified _ _ _ sysc'
    | stranded _ _ _ sysc' | served _ _ sysc' | unlocked _ _ sysc' | abandoned _ _ sysc' =>
      simp [sysc, Cosim.Resting, Cosim.Asleep] at sysc'
    | woken _ _ _ sysc' | returned _ _ sysc' => simp [sysc] at sysc'

theorem unwritten_osThread {s : Simulation} (h : s.Unwritten)
    (reachable : Cosim.machine.Reachable s.cosim) {a : Cosim.Action} {c : Cosim}
    (os : ofOsThread a = true) (cosim : Cosim.machine.step s.cosim a = some c) :
    Unwritten ⟨c, s.device⟩ := by
  obtain ⟨sysc, -, written, accepted⟩ := osThread_frame os cosim
  intro r member out
  simp only [written, sysc] at member ⊢
  rcases accepted with same | ⟨new, made⟩
  · rw [same] at member
    exact h r member out
  rw [made] at member
  rcases List.mem_append.mp member with old | new
  · exact h r old out
  · -- the request has only now been made
    rw [List.mem_singleton.mp new]
    obtain ⟨unwritten, uncalled⟩ := fresh_of_reachable reachable
    exact ⟨unwritten, fun kind called => absurd called (uncalled kind)⟩

theorem unwritten_nbGet {s t : Simulation} (h : s.Unwritten)
    (reachable : Cosim.machine.Reachable s.cosim) {c : Cosim}
    (cosim : Cosim.machine.step s.cosim .nbGet = some c) (called : call c s.device = some t) :
    t.Unwritten := by
  have after := reachable.step cosim
  obtain ⟨-, rfl⟩ := sysc_of_nbGet cosim
  obtain ⟨accepted, written⟩ := nbGet_record s.cosim
  rw [Unwritten, call_cosim called, accepted, written]
  intro r member out
  refine ⟨(h r member out).1, fun kind sysc => ?_⟩
  -- the payload holds the address of the request
  have address : s.cosim.nbGet.trans.address = r.1.address.zeroExtend 64 := by
    rw [(nbGet_trans sysc).1]
    exact (address_of_accepted after r (by rwa [accepted])).2
  apply (call_of_outside sysc _ called).1
  rw [address]
  simpa [outside] using out

theorem unwritten_step {s t : Simulation} {a : Action} (h : s.Unwritten)
    (reachable : Cosim.machine.Reachable s.cosim) (hs : Transition s a t) : t.Unwritten := by
  cases hs with
  | osThread b c os cosim => exact unwritten_osThread h reachable os cosim
  | nbGet c t running cosim called => exact unwritten_nbGet h reachable cosim called
  | process b c running place cosim =>
    obtain ⟨accepted, -, written, uncalled, -⟩ := process_frame place cosim
    intro r member out
    simp only [accepted, written] at member ⊢
    exact ⟨(h r member out).1, fun kind sysc => absurd sysc (uncalled r.2 kind)⟩
  | target reply c running _ cosim =>
    obtain ⟨p, kind, sysc, sysc', accepted, -, written⟩ := target_frame cosim
    intro r member out
    simp only [accepted, written, sysc'] at member ⊢
    obtain ⟨unwritten, threw⟩ := h r member out
    refine ⟨?_, by simp⟩
    -- the target has not thrown, so the packet is another
    have other : r.2 ≠ p := by
      rintro rfl
      exact not_thrown_of_running running (threw kind sysc)
    simpa [other] using unwritten
  | device b b' d step =>
    intro r member out
    obtain ⟨unwritten, threw⟩ := h r member out
    exact ⟨unwritten, fun kind sysc => absurd (threw kind sysc) (not_thrown_of_step step)⟩
  | kernel c d running cosim =>
    obtain ⟨record, sysc⟩ := kernel_frame cosim
    intro r member out
    simp only [record] at member ⊢
    obtain ⟨unwritten, threw⟩ := h r member out
    refine ⟨unwritten, fun kind called => ?_⟩
    rcases sysc with same | ⟨-, woken⟩
    · rw [same] at called
      exact absurd (threw kind called) (not_thrown_of_running running)
    · rw [woken] at called
      cases called

theorem unwritten_reachable {s : Simulation} (h : machine.Reachable s) : s.Unwritten := by
  have inv : Cosim.machine.Reachable s.cosim ∧ s.Unwritten := by
    refine h.invariant (I := fun s => Cosim.machine.Reachable s.cosim ∧ s.Unwritten)
      ⟨Cosim.machine.reachable_init, by simp [Unwritten, machine, new, Cosim.new]⟩ ?_
    rintro s a t ⟨reachable, unwritten⟩ hs
    have transition := transition_of_step hs
    refine ⟨?_, unwritten_step unwritten reachable transition⟩
    rcases cosim_step transition with same | ⟨b, step⟩
    · rwa [same]
    · exact reachable.step step
  exact inv.2

/-- Requests stay on record. -/
theorem accepted_step {s t : Simulation} {a : Action} (hs : Transition s a t)
    {r : Request × Ptr} (member : r ∈ s.cosim.record.accepted) :
    r ∈ t.cosim.record.accepted := by
  cases hs with
  | osThread b c os cosim =>
    obtain ⟨-, -, -, same | ⟨new, made⟩⟩ := osThread_frame os cosim
    · simpa only [same] using member
    · simp only [made]
      exact List.mem_append_left _ member
  | nbGet c t running cosim called =>
    obtain ⟨-, rfl⟩ := sysc_of_nbGet cosim
    rw [call_cosim called, (nbGet_record s.cosim).1]
    exact member
  | process b c running place cosim => simpa only [(process_frame place cosim).1] using member
  | target reply c running _ cosim =>
    obtain ⟨p, kind, -, -, accepted, -⟩ := target_frame cosim
    simpa only [accepted] using member
  | device => exact member
  | kernel c d running cosim => simpa only [(kernel_frame cosim).1] using member

theorem accepted_run {s t : Simulation} {as : List Action} (hr : machine.run s as = some t)
    {r : Request × Ptr} (member : r ∈ s.cosim.record.accepted) :
    r ∈ t.cosim.record.accepted :=
  Machine.run_invariant (I := fun u => r ∈ u.cosim.record.accepted)
    (fun _ _ _ held hs => accepted_step (transition_of_step hs) held) member hr

/-! ### What a bad request comes to -/

theorem unanswered_of_outside {s : Simulation} (h : machine.Reachable s) {r : Request × Ptr}
    (member : r ∈ s.cosim.record.accepted) (out : outside r.1 = true) (status : AsyncStatus) :
    (r.2, status) ∉ s.cosim.record.pulled := by
  intro pulled
  -- an answer is pulled with a status that has been written
  have stage := (Cosim.stage_reachable (cosim_reachable h)).1
  have written := stage.pulled_prefix.1.subset pulled
  exact (unwritten_reachable h r member out).1 (List.mem_map.mpr ⟨_, written, rfl⟩)

/-- The packet that a step takes is the one that it calls the target with, if it does. -/
theorem takes_call {s t : Simulation} {p : Ptr} (h : s.Takes p t) :
    ∃ c, Cosim.machine.step s.cosim .nbGet = some c ∧ call c s.device = some t ∧
      (c.sysc = .leaving ∨ ∃ kind, c.sysc = .transport p kind) := by
  obtain ⟨step, got⟩ := h
  cases transition_of_step step with
  | osThread _ _ os => cases os
  | process _ _ _ place => simp at place
  | device _ b d step => exact absurd got (by simp)
  | nbGet c t running cosim called =>
    refine ⟨c, cosim, called, ?_⟩
    obtain ⟨-, rfl⟩ := sysc_of_nbGet cosim
    rw [call_cosim called] at got
    unfold Cosim.nbGet at got ⊢
    cases taken : s.cosim.sched.channel.nbGet with
    | none =>
      -- without a packet nothing is put on record
      rw [taken] at got
      exact absurd got (by simp [Cosim.forward, Cosim.alloc])
    | some result =>
      obtain ⟨q, channel⟩ := result
      simp only [taken, Cosim.forward, List.append_cancel_left_eq, List.cons.injEq, and_true] at got
      subst got
      simp only [Cosim.forward]
      split
      · exact Or.inl rfl
      · exact Or.inr ⟨_, rfl⟩

theorem sameFirewall_over_of_takes {s t : Simulation} (h : machine.Reachable s)
    {r : Request × Ptr} (member : r ∈ s.cosim.record.accepted) (out : outside r.1 = true)
    (takes : s.Takes r.2 t) : SameFirewall s.device t.device ∧ t.Over := by
  obtain ⟨c, cosim, called, left | ⟨kind, sysc⟩⟩ := takes_call takes
  · -- an `ASYNC_EXIT` does not reach the target
    simp only [call, left, Option.some.injEq] at called
    subst called
    exact ⟨sameFirewall_refl _, Or.inr (Or.inl left)⟩
  · have after := (cosim_reachable h).step cosim
    obtain ⟨-, rfl⟩ := sysc_of_nbGet cosim
    have address : s.cosim.nbGet.trans.address = r.1.address.zeroExtend 64 := by
      rw [(nbGet_trans sysc).1]
      exact (address_of_accepted after r (by rwa [(nbGet_record s.cosim).1])).2
    have rejected : inWindow s.cosim.nbGet.trans.address = false := by
      rw [address]
      simpa [outside] using out
    obtain ⟨threw, same⟩ := call_of_outside sysc rejected called
    exact ⟨same, Or.inl threw⟩

/-- A bad request leaves the firewall as it was, is not answered, and is the last one that is
taken. -/
theorem ends_of_outside {s : Simulation} (h : machine.Reachable s) {r : Request × Ptr}
    (member : r ∈ s.cosim.record.accepted) (out : outside r.1 = true) : s.Ends r.2 where
  unanswered _ _ status hr := unanswered_of_outside (h.run hr) (accepted_run hr member) out status
  untouched _ _ _ hr takes :=
    (sameFirewall_over_of_takes (h.run hr) (accepted_run hr member) out takes).1
  last _ _ _ hr takes _ _ hv :=
    over_run (sameFirewall_over_of_takes (h.run hr) (accepted_run hr member) out takes).2 hv

/-- In every reachable state all bad requests sent so far come to what they should exactly if
none has been sent. -/
theorem survived_iff_inside {s : Simulation} (h : machine.Reachable s) :
    (∀ r ∈ s.cosim.record.accepted, outside r.1 = true → s.Survived r.2) ↔
      ∀ r ∈ s.cosim.record.accepted, outside r.1 = false := by
  constructor
  · intro survived r member
    by_contra out
    rw [Bool.not_eq_false] at out
    obtain ⟨as, t, hr, answered⟩ := (survived r member out).answered
    exact (ends_of_outside h member out).unanswered as t _ hr answered
  · intro inside r member out
    rw [inside r member] at out
    cases out

/-- A read of a word at this address is sent and taken. -/
def takenRead (address : BitVec 32) : List Action :=
  [.loops .loop, .loops (.accept ⟨AsyncCommand.read.code, address, [0, 0, 0, 0]⟩), .loops .push,
    .update, .update, .update, .update, .loops .nbGet]

def afterTaking (address : BitVec 32) : Simulation := (machine.run new (takenRead address)).getD new

theorem survived_iff_inside_of_cell :
    (∀ r ∈ (afterTaking 0x40000004).cosim.record.accepted,
        outside r.1 = true → (afterTaking 0x40000004).Survived r.2) ↔
      ∀ r ∈ (afterTaking 0x40000004).cosim.record.accepted, outside r.1 = false :=
  survived_iff_inside ⟨takenRead 0x40000004, rfl⟩

/-- After a read of address 0 the simulation is over, and its client waits for an answer. -/
theorem bad_read_ends_simulation :
    ¬ ∀ s, machine.Reachable s → ∀ r ∈ s.cosim.record.accepted, outside r.1 = true →
      s.Survived r.2 := by
  intro claim
  have reachable : machine.Reachable (afterTaking 0) := ⟨takenRead 0, rfl⟩
  have member : (⟨AsyncCommand.read.code, 0, [0, 0, 0, 0]⟩, 0) ∈
      (afterTaking 0).cosim.record.accepted := List.mem_cons_self
  obtain ⟨as, t, hr, answered⟩ := (claim _ reachable _ member (by decide)).answered
  exact (ends_of_outside reachable member (by decide)).unanswered as t _ hr answered

end Simulation

end ScCosim.Demo
