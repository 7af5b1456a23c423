import ScCosim.Demo.Station
import ScCosim.Driver.Serving

/-!
# The demo with clients over TCP

Any number of clients call the driver's functions over TCP while the simulation runs with
the firewall. As in the station the parts take their own steps, and the interface is the one
in which they meet. The calls that have been replied to are, read as transactions, on the
firewall's log, so the order in which they are served explains what every client has read.
-/
namespace ScCosim.Demo

open Kernel Async Driver Firewall

structure Remote where
  net : Net
  device : Device

namespace Remote

inductive Action where
  /-- A step of a client or of the server. -/
  | party (a : Net.Action)
  | simulation (b : Simulation.Action)
  deriving DecidableEq, Repr

def new : Remote := ⟨Net.new, Device.new⟩

def simulation (s : Remote) : Simulation := ⟨s.net.cosim, s.device⟩

def own : Net.Action → Bool
  | .loops _ => false
  | _ => true

variable (l : Tcp.ReplyLayout)

def step (s : Remote) : Action → Option Remote
  | .party a => if own a then (s.net.step l a).map fun net => ⟨net, s.device⟩ else none
  | .simulation b =>
    if Station.beside b then
      (Simulation.machine.step s.simulation b).map fun t =>
        ⟨{ s.net with cosim := t.cosim }, t.device⟩
    else none

def machine : Machine Remote Action := ⟨new, step l⟩

variable {l} {s : Remote}

/-! ### The parts take their own steps -/

theorem osThread_of_observed {s t : Net} {a : Net.Action} (hs : Net.Transition l s a t)
    (party : own a = true) :
    ∀ b ∈ Net.observed (l := l) s a t, Simulation.ofOsThread b = true := by
  intro b member
  cases hs with
  | loops => cases party
  | push c packet len d server =>
    simp only [Net.observed, server, List.mem_singleton] at member
    rw [member]
    rfl
  | nbPull | close =>
    simp only [Net.observed, List.mem_singleton] at member
    rw [member]
    rfl
  | connect | refused | send | recv | recvEnd | accept | serverRecv | serverEnd | sendMissing
  | answer => cases member

/-- The parts of a reachable whole are reachable. -/
theorem parts_reachable (h : (machine l).Reachable s) :
    (Net.machine l).Reachable s.net ∧ Simulation.machine.Reachable s.simulation := by
  refine h.invariant (I := fun s => (Net.machine l).Reachable s.net ∧
    Simulation.machine.Reachable s.simulation)
    ⟨(Net.machine l).reachable_init, Simulation.machine.reachable_init⟩ ?_
  rintro s a t ⟨net, simulation⟩ hs
  cases a with
  | party a =>
    simp only [machine, step] at hs
    split at hs
    · next party =>
      obtain ⟨u, step, rfl⟩ := Option.map_eq_some_iff.mp hs
      have transition := Net.transition_of_step step
      have run := Net.observed_step transition
      have os := osThread_of_observed transition party
      exact ⟨net.step step, simulation.run (Station.simulation_run_of_osThread s.device os run)⟩
    · cases hs
  | simulation b =>
    simp only [machine, step] at hs
    split at hs
    · next side =>
      obtain ⟨u, step, rfl⟩ := Option.map_eq_some_iff.mp hs
      refine ⟨?_, simulation.step step⟩
      rcases Station.inside_of_simulation side (Simulation.transition_of_step step) with
        same | ⟨b, inner, c⟩
      · dsimp only
        rw [same]
        exact net
      · refine net.step (a := .loops b) ?_
        have c : s.net.cosim.step b = some u.cosim := c
        simp only [Net.machine, Net.step, inner, if_true, c]
        rfl
    · cases hs

/-! ### What the calls have exchanged -/

/-- The calls that have been replied to, in the order in which they were served. -/
def replied (s : Remote) : List (Nat × (AsyncStatus × List Byte)) :=
  s.net.served.zip s.net.cosim.replies

/-- A call and its reply as a call of the firewall. -/
def transactionOf (s : Remote) (w : Nat × (AsyncStatus × List Byte)) : Transaction :=
  (s.net.conns w.1).access.transaction (replyOf w.2)

/-- The calls that have been replied to are on the simulation's log. -/
theorem replied_on_log (h : (machine l).Reachable s) :
    s.replied.map s.transactionOf <+: s.simulation.log := by
  obtain ⟨net, simulation⟩ := parts_reachable h
  have inv : s.net.Inv l := Net.inv_reachable net
  have even := inv.server.even
  let accesses := s.net.served.map fun c => (s.net.conns c).access
  let done := accesses.take s.net.cosim.replies.length
  have length : s.net.cosim.replies.length = done.length := by
    simp [done, accesses, even]
  have same : s.replied.map s.transactionOf =
      List.zipWith (fun a r => a.transaction (replyOf r)) done s.net.cosim.replies := by
    refine List.ext_getElem ?_ fun i _ _ => ?_
    · simp [replied, ← length, even]
    · simp [replied, transactionOf, done, accesses]
  have stay : ∀ a ∈ done, a.leaves = false := by
    intro a member
    obtain ⟨i, inside, rfl⟩ := List.getElem_of_mem member
    have answered : i < (s.net.served.zip s.net.cosim.replies).length := by
      rw [List.length_zip, Nat.min_eq_right even, length]
      exact inside
    simpa [done, accesses] using inv.stays _ (List.getElem_mem answered)
  have ok : ∀ r ∈ s.net.cosim.replies, r.1 = .okResponse := Simulation.reply_ok simulation
  have entries : List.zipWith (fun a r => a.transaction (replyOf r)) done s.net.cosim.replies <+:
      List.zipWith entry
        (payloads .ignore ((done ++ accesses.drop s.net.cosim.replies.length).map Access.request))
        ((s.net.cosim.replies ++ []).map Prod.snd) :=
    Station.entries_of_accesses stay ok length .ignore
  rw [List.take_append_drop, List.append_nil, List.map_map] at entries
  rw [same, Simulation.log, exchange]
  change _ <+: List.zipWith entry (payloads _ (s.net.cosim.record.accepted.map Prod.fst))
    (s.net.cosim.replies.map Prod.snd)
  rw [inv.accepted]
  exact entries

/-- In every run of the whole, any number of clients calling at once over TCP and as long as
no rule has been enabled: there is one order of calls in which the calls that have ended are
linear, each with what it made of its reply, and in which every read brought back what the
calls before it had left in the memories. -/
theorem clients_share_memory (h : (machine l).Reachable s) (off : s.device.RulesOff) :
    ∃ order : List (Nat × Reply),
      Linear s.net.events
        (order.map fun w => (w.1, (s.net.conns w.1).access.told w.2)) ∧
      Contents.Right (order.map fun w => (s.net.conns w.1).access.transaction w.2) := by
  obtain ⟨net, simulation⟩ := parts_reachable h
  refine ⟨s.replied.map fun w => (w.1, replyOf w.2), ?_, ?_⟩
  · rw [List.map_map]
    exact (Net.inv_reachable net).linear
  · rw [List.map_map]
    have logged := (replied_on_log h).trans (Simulation.log_is_returned simulation)
    exact Simulation.right_of_prefix logged
      (Device.faithful_of_reachable (Simulation.device_reachable simulation).1 off).1

def within (bs : List Simulation.Action) : List Action := bs.map .simulation

def parties (as : List Net.Action) : List Action := as.map .party

/-- From the push to the target, and from the target back. -/
def handsOver : List Action :=
  within [.loops .push, .update, .update, .update, .update, .loops .nbGet]

def handsBack : List Action := within [.target, .loops .nbPut, .loops .loop, .loops .waitForPut]

def aWrite : Access := .write (0x12340007, 0x40000010)

def aRead : Access := .read 0x40000010

/-- A client writes a word while another one reads it; a cell keeps 16 bits. -/
def writeAndRead : List Action :=
  within ([.loops .loop] ++ Simulation.cycle [] ++ Simulation.cycle []) ++
    parties [.connect 0 aWrite (Net.bytesOf aWrite 0 0x12340007),
      .connect 1 aRead (Net.bytesOf aRead 0 0), .send 1, .send 0, .accept, .serverRecv 100,
      .serverRecv 36, .push] ++ handsOver ++
    within ([.run .executeWriteThread, .update] ++ Simulation.cycle [] ++ Simulation.cycle [] ++
      Simulation.cycle [.client]) ++ handsBack ++
    parties [.nbPull, .answer (Net.bytesOf aWrite 1 0x12340007), .close, .accept, .serverRecv 136,
      .push] ++ handsOver ++
    within ([.run .executeReadThread, .update] ++ Simulation.cycle [] ++ Simulation.cycle [] ++
      [.run .executeReadThread, .run .client, .update]) ++ handsBack ++
    parties [.nbPull, .answer (Net.bytesOf aRead 1 7), .recv 1 136, .recv 0 1, .recv 0 135]

def afterWriteAndRead : Remote := ((machine .lp64).run new writeAndRead).getD new

theorem clients_share_memory_of_two :
    ∃ order : List (Nat × Reply),
      Linear afterWriteAndRead.net.events
        (order.map fun w => (w.1, (afterWriteAndRead.net.conns w.1).access.told w.2)) ∧
      Contents.Right
        (order.map fun w => (afterWriteAndRead.net.conns w.1).access.transaction w.2) := by
  have possible : ((machine .lp64).run new writeAndRead).isSome = true := by decide +kernel
  have run : (machine .lp64).run new writeAndRead = some afterWriteAndRead := by
    obtain ⟨s, hs⟩ := Option.isSome_iff_exists.mp possible
    rw [afterWriteAndRead, hs]
    rfl
  have unset : ∀ p, setupEntries p afterWriteAndRead.device.bus.served = [] := by decide +kernel
  have off : afterWriteAndRead.device.RulesOff := by
    intro p part within
    rw [unset, List.prefix_nil] at within
    subst within
    simp [registersAfter, Triple.enabled]
  exact clients_share_memory ⟨writeAndRead, run⟩ off

example : afterWriteAndRead.net.events =
    [.started 0, .started 1, .ended 1 (1, some 7), .ended 0 (1, none)] := by
  decide +kernel

end Remote

end ScCosim.Demo
