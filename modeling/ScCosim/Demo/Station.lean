import ScCosim.Demo.Coherence
import ScCosim.Driver.Array
import ScCosim.Driver.Handoff

/-!
# The demo from the driver to the memories

A user process calls the driver, the driver and the server share a packet, and behind the
server stands the simulation with the firewall. The parts are those of the two models before;
here they take their steps in one system. What the driver's calls have exchanged is, read as
transactions, what the firewall has logged.
-/
namespace ScCosim.Demo

open Kernel Async Driver Firewall

structure Station where
  shm : Shm
  device : Device

namespace Station

inductive Action where
  /-- A step of the client or of the server. -/
  | party (a : Shm.Action)
  | simulation (b : Simulation.Action)
  deriving DecidableEq, Repr

def new : Station := ⟨Shm.new, Device.new⟩

def simulation (s : Station) : Simulation := ⟨s.shm.cosim, s.device⟩

/-- The steps of the OS thread at which it receives, pulls and replies are the server's. -/
def own : Shm.Action → Bool
  | .loops _ => false
  | _ => true

def beside : Simulation.Action → Bool
  | .loops a => Shm.inside a
  | _ => true

def step (s : Station) : Action → Option Station
  | .party a => if own a then (s.shm.step a).map fun shm => ⟨shm, s.device⟩ else none
  | .simulation b =>
    if beside b then
      (Simulation.machine.step s.simulation b).map fun t =>
        ⟨{ s.shm with cosim := t.cosim }, t.device⟩
    else none

def machine : Machine Station Action := ⟨new, step⟩

variable {s t : Station}

/-! ### The parts take their own steps -/

/-- Steps of the OS thread are steps of the simulation. -/
theorem simulation_run_of_osThread {c d : Cosim} {as : List Cosim.Action} (e : Device)
    (os : ∀ a ∈ as, Simulation.ofOsThread a = true) (run : Cosim.machine.run c as = some d) :
    Simulation.machine.run ⟨c, e⟩ (as.map .loops) = some ⟨d, e⟩ := by
  induction as generalizing c with
  | nil => cases run; rfl
  | cons a as ih =>
    obtain ⟨r, first, rest⟩ := (Cosim.machine.run_cons_iff _ _ _ _).mp run
    refine (Simulation.machine.run_cons_iff _ _ _ _).mpr ⟨⟨r, e⟩, ?_, ?_⟩
    · have thread := os a List.mem_cons_self
      have first : c.step a = some r := first
      simp only [Simulation.machine, Simulation.step, Simulation.loopStep, thread, if_true, first]
      rfl
    · exact ih (fun b member => os b (List.mem_cons_of_mem a member)) rest

theorem osThread_of_observed {s t : Shm} {a : Shm.Action} (hs : Shm.Transition s a t)
    (party : own a = true) : ∀ b ∈ Shm.observed s a t, Simulation.ofOsThread b = true := by
  intro b member
  cases hs with
  | loops => cases party
  | accept data command address c server =>
    simp only [Shm.observed, server, List.mem_singleton] at member
    rw [member]
    rfl
  | nbPull c server | postB q c server =>
    simp only [Shm.observed, server, List.mem_singleton] at member
    rw [member]
    rfl
  | waitA server | copy server | missing server | answer q server | copyBack q server
  | postNothing server => simp only [Shm.observed, server] at member; cases member
  | call | store | postA | waitB | checked | statusOk | loaded | loadCommand | loadAddress =>
    cases member

/-- A step of the simulation is one of the interface, or the interface stands still. -/
theorem inside_of_simulation {u v : Simulation} {b : Simulation.Action} (side : beside b = true)
    (hs : Simulation.Transition u b v) :
    v.cosim = u.cosim ∨
      ∃ a, Shm.inside a = true ∧ Cosim.machine.step u.cosim a = some v.cosim := by
  cases hs with
  | osThread a c os cosim | process a c _ _ cosim => exact Or.inr ⟨a, side, cosim⟩
  | nbGet c v _ cosim called =>
    rw [← Simulation.call_cosim called] at cosim
    exact Or.inr ⟨.nbGet, rfl, cosim⟩
  | target r c _ _ cosim => exact Or.inr ⟨.target r, rfl, cosim⟩
  | device => exact Or.inl rfl
  | kernel c d _ cosim => exact Or.inr ⟨.kernel, rfl, cosim⟩

/-- The parts of a reachable station are reachable. -/
theorem parts_reachable (h : machine.Reachable s) :
    Shm.machine.Reachable s.shm ∧ Simulation.machine.Reachable s.simulation := by
  refine h.invariant (I := fun s => Shm.machine.Reachable s.shm ∧
    Simulation.machine.Reachable s.simulation)
    ⟨Shm.machine.reachable_init, Simulation.machine.reachable_init⟩ ?_
  rintro s a t ⟨shm, simulation⟩ hs
  cases a with
  | party a =>
    simp only [machine, step] at hs
    split at hs
    · next party =>
      obtain ⟨u, step, rfl⟩ := Option.map_eq_some_iff.mp hs
      have transition := Shm.transition_of_step step
      have run := Shm.observed_step transition
      have os := osThread_of_observed transition party
      exact ⟨shm.step step, simulation.run (simulation_run_of_osThread s.device os run)⟩
    · cases hs
  | simulation b =>
    simp only [machine, step] at hs
    split at hs
    · next side =>
      obtain ⟨u, step, rfl⟩ := Option.map_eq_some_iff.mp hs
      refine ⟨?_, simulation.step step⟩
      rcases inside_of_simulation side (Simulation.transition_of_step step) with same | ⟨b, inner, c⟩
      · dsimp only
        rw [same]
        exact shm
      · refine shm.step (a := .loops b) ?_
        have c : s.shm.cosim.step b = some u.cosim := c
        simp only [Shm.machine, Shm.step, inner, if_true, c]
        rfl
    · cases hs

/-! ### What the calls have exchanged -/

theorem dataWord_eq (bytes : List Byte) : dataWord bytes = BitVec.ofNat 32 (Memory.value bytes) := by
  apply BitVec.eq_of_toNat_eq
  rw [dataWord, BitVec.toNat_ofNat, BitVec.toNat_ofNat]
  -- the bytes after the fourth are worth multiples of `2 ^ 32`
  rcases bytes with _ | ⟨a, _ | ⟨b, _ | ⟨c, _ | ⟨d, rest⟩⟩⟩⟩
  case cons.cons.cons.cons =>
    simp only [List.take_succ_cons, List.take_zero, Memory.value]
    omega
  all_goals rfl

/-- A call that stays is on the log as its access. -/
theorem entry_of_access {a : Access} {r : AsyncStatus × List Byte} (stays : a.leaves = false)
    (ok : r.1 = .okResponse) (current : TlmCommand) :
    entry (payload current a.request, transportCall a.request.command) r.2 =
      a.transaction (replyOf r) := by
  cases a with
  | write w =>
    have word : w.1 ≠ 0x80000000 := by simpa [Access.leaves, Transport.waitsAfterWrite] using stays
    have command : (Access.write w).request.command = AsyncCommand.write.code := by
      simp only [Access.request, requestOf, Access.content, writeContent, if_neg word]
    have tlm : switchCommand (Access.write w).request.command current = .write := by
      rw [command]
      rfl
    have call : transportCall (Access.write w).request.command = .bTransport := by
      rw [command]
      rfl
    simp only [entry, Demo.transaction, payload, tlm, call, reduceCtorEq, if_false,
      Access.transaction, transport]
    rw [show (Access.write w).request.data = wordBytes w.1 from rfl, value_wordBytes]
    rfl
  | read address =>
    have value : (replyOf r).value = BitVec.ofNat 32 (Memory.value r.2) := by
      simp [replyOf, Reply.value, ok, dataWord_eq]
    rw [Access.transaction, value]
    rfl

/-- What a call makes of a reply stands for the reply. -/
theorem transaction_told (a : Access) (r : Reply) :
    a.transaction ⟨(a.returns r).1, (a.returns r).2.getD 0⟩ = a.transaction r := by
  cases a with
  | write w => rfl
  | read address =>
    have value : Reply.value ⟨r.status, r.value⟩ = r.value := by
      unfold Reply.value
      split <;> rfl
    exact congrArg (transport .read (address.zeroExtend 64)) value

theorem entries_of_accesses {done unsent : List Access} {answers rest : List (AsyncStatus × List Byte)}
    (stay : ∀ a ∈ done, a.leaves = false) (ok : ∀ r ∈ answers, r.1 = .okResponse)
    (length : answers.length = done.length) (current : TlmCommand) :
    List.zipWith (fun a r => a.transaction (replyOf r)) done answers <+:
      List.zipWith entry (payloads current ((done ++ unsent).map Access.request))
        ((answers ++ rest).map Prod.snd) := by
  induction done generalizing answers current with
  | nil => simp
  | cons a done ih =>
    obtain _ | ⟨r, answers⟩ := answers
    · simp at length
    obtain ⟨stays, stay⟩ := List.forall_mem_cons.mp stay
    obtain ⟨good, ok⟩ := List.forall_mem_cons.mp ok
    simp only [List.cons_append, List.map_cons, payloads, List.zipWith_cons_cons]
    rw [entry_of_access stays good]
    exact List.cons_prefix_cons.mpr ⟨rfl, ih stay ok (by simpa using length) _⟩

/-- The calls that have returned and what they were told are on the simulation's log. -/
theorem finished_on_log (h : machine.Reachable s) (last : s.shm.LeavesLast) :
    (∀ a ∈ s.shm.finished, a.leaves = false) ∧
      List.zipWith Access.transaction s.shm.finished s.shm.heard <+: s.simulation.log := by
  obtain ⟨shm, simulation⟩ := parts_reachable h
  obtain ⟨done, sent, answers, books, ⟨unsent, rfl⟩, ⟨more, calls⟩, ⟨later, replies⟩, -⟩ :=
    (Shm.turn_reachable shm last).account
  have ok : ∀ r ∈ answers, r.1 = .okResponse := by
    intro r member
    refine Simulation.reply_ok simulation r ?_
    change r ∈ s.shm.cosim.replies
    rw [← replies]
    exact List.mem_append_left _ member
  have finished : s.shm.finished = done := by
    rw [Shm.finished, books.returned, List.length_zipWith, books.length, Nat.min_self, ← calls,
      List.append_assoc, List.take_left]
  refine ⟨by rw [finished]; exact books.stayed, ?_⟩
  have same : List.zipWith Access.transaction done s.shm.heard =
      List.zipWith (fun a r => a.transaction (replyOf r)) done answers := by
    refine List.ext_getElem ?_ fun i _ _ => ?_
    · simp [Shm.heard, books.returned]
    · simp only [Shm.heard, books.returned, List.getElem_zipWith, List.getElem_map]
      exact transaction_told _ _
  rw [finished, same, Simulation.log, exchange]
  change _ <+: List.zipWith entry (payloads _ (s.shm.cosim.record.accepted.map Prod.fst))
    (s.shm.cosim.replies.map Prod.snd)
  rw [books.accepted, ← replies]
  exact entries_of_accesses books.stayed ok books.length _

/-- In every run of the whole, with no call after a write that leaves and as long as no rule
has been enabled: what the driver's functions have returned is what they return from one
array. -/
theorem calls_see_one_array (h : machine.Reachable s) (last : s.shm.LeavesLast)
    (off : s.device.RulesOff) {calls : List Call} (inside : ∀ c ∈ calls, c.Inside)
    {results : List (Option Word)} (performs : s.shm.Performs calls results) :
    results = Driver.results .initial calls := by
  obtain ⟨-, simulation⟩ := parts_reachable h
  obtain ⟨stay, onLog⟩ := finished_on_log h last
  refine Shm.results_of_performs inside stay performs ?_
  have logged := onLog.trans (Simulation.log_is_returned simulation)
  exact Simulation.right_of_prefix logged
    (Device.faithful_of_reachable (Simulation.device_reachable simulation).1 off).1

def within (bs : List Simulation.Action) : List Action := bs.map .simulation

/-- The client's part of a call, and the server's up to the target. -/
def handsOver (a : Access) : List Action :=
  (.party (.call a) :: List.replicate 7 (.party .client)) ++
    [.party .server, .party .server, .party .loadCommand, .party .loadAddress, .party .server] ++
    within [.loops .push, .update, .update, .update, .update, .loops .nbGet]

/-- From the target back to the client, which looks at one or two fields. -/
def handsBack (fields : Nat) : List Action :=
  within [.target, .loops .nbPut, .loops .loop, .loops .waitForPut] ++
    List.replicate 4 (.party .server) ++ List.replicate (1 + fields) (.party .client)

/-- A word is written over the direct path and read over the switch. -/
def twoPaths : List Action :=
  within ([.loops .loop] ++ Simulation.cycle [] ++ Simulation.cycle []) ++
    handsOver (.write (0x12340007, 0x40000010)) ++
    within ([.run .executeWriteThread, .update] ++ Simulation.cycle [] ++ Simulation.cycle [] ++
      Simulation.cycle [.client]) ++ handsBack 1 ++
    handsOver (.write (0x04140000, 0x80001014)) ++
    within ([.run .executeWriteThread, .update] ++ Simulation.cycle [] ++ Simulation.cycle [] ++
      Simulation.cycle [] ++ Simulation.cycle [] ++ Simulation.cycle [.client]) ++ handsBack 1 ++
    handsOver (.read 0x8000101C) ++
    within [.run .executeReadThread, .run .client, .update] ++ handsBack 2

def afterTwoPaths : Station := (machine.run new twoPaths).getD new

def twoCalls : List Call :=
  [.accessBram ⟨0, 1, 4, 0x12340007⟩, .accessBramFW ⟨1, 2, 1, 4, 0⟩]

theorem calls_see_one_array_of_two : [some 0x12340007, some 7] = results .initial twoCalls := by
  have possible : (machine.run new twoPaths).isSome = true := by decide +kernel
  have run : machine.run new twoPaths = some afterTwoPaths := by
    obtain ⟨s, hs⟩ := Option.isSome_iff_exists.mp possible
    rw [afterTwoPaths, hs]
    rfl
  have unset : ∀ p, setupEntries p afterTwoPaths.device.bus.served = [] := by decide +kernel
  have off : afterTwoPaths.device.RulesOff := by
    intro p part within
    rw [unset, List.prefix_nil] at within
    subst within
    simp [registersAfter, Triple.enabled]
  have calls : afterTwoPaths.shm.calls =
      [.write (0x12340007, 0x40000010), .write (0x04140000, 0x80001014), .read 0x8000101C] := by
    decide +kernel
  have told : afterTwoPaths.shm.returned =
      [(.okResponse, none), (.okResponse, none), (.okResponse, some 0x04210007)] := by
    decide +kernel
  have last : afterTwoPaths.shm.LeavesLast := by
    unfold Shm.LeavesLast
    rw [calls]
    decide
  have inside : ∀ c ∈ twoCalls, c.Inside := by
    simp [twoCalls, Call.Inside, Known]
  have performs : afterTwoPaths.shm.Performs twoCalls [some 0x12340007, some 7] := by
    unfold Shm.Performs Shm.finished Shm.heard
    rw [calls, told]
    exact ⟨0, 3, _, rfl, rfl⟩
  exact calls_see_one_array ⟨twoPaths, run⟩ last off inside performs

end Station

end ScCosim.Demo
