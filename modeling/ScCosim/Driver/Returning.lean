import ScCosim.Async.Settling
import ScCosim.Driver.Handoff

/-!
# Calls over the shared packet return

A call that waits for its reply comes back within a fixed number of steps of the whole, taken
in any order, and before that the parties are never all stuck, as long as no packet is pushed
before the SystemC process has come to its first wait. A call whose push was notified before
that wait never comes back.
-/
namespace ScCosim.Driver

open Kernel Async Firewall

/-! ### A rank -/

def ClientPc.rank : ClientPc → Nat
  | .ready => 0
  | .loading _ => 1
  | .checking _ => 2
  | .waiting _ => 3
  | .storing _ rest => rest.length + 29

def ServerPc.rank : ServerPc → Nat
  | .waiting | .left => 0
  | .posting _ => 1
  | .copyingBack _ | .missing => 2
  | .answering _ => 3
  | .serving => 4
  | .making _ (some _) (some _) => 21
  | .making _ (some _) none | .making _ none (some _) => 22
  | .making _ none none => 23
  | .copying => 24

namespace Shm

variable {s t : Shm}

/-- A post of `sharedsemA` is worth a round of the server. -/
def rank (s : Shm) : Nat := s.client.rank + s.server.rank + 25 * s.semA + s.cosim.rank

/-- Every step but a new call lowers the rank. -/
theorem rank_step {a : Action} (hs : Transition s a t) (other : ∀ b, a ≠ .call b) :
    t.rank + 1 ≤ s.rank := by
  cases hs with
  | call b client => exact absurd rfl (other b)
  | store b w rest client =>
    simp only [rank, store, client, ClientPc.rank, List.length_cons]
    omega
  | postA b client =>
    have next : (s.postA b).client.rank ≤ 3 := by
      unfold postA
      split <;> simp [ClientPc.rank]
    simp only [rank, client, ClientPc.rank, List.length_nil] at next ⊢
    simp only [postA] at next ⊢
    omega
  | waitB b client => simp only [rank, client, ClientPc.rank]; omega
  | checked b client => simp only [rank, finish, client, ClientPc.rank]; omega
  | statusOk b client => simp only [rank, client, ClientPc.rank]; omega
  | loaded b client => simp only [rank, finish, client, ClientPc.rank]; omega
  | loadCommand data address server =>
    cases address <;> simp only [rank, server, ServerPc.rank] <;> omega
  | loadAddress data command server =>
    cases command <;> simp only [rank, server, ServerPc.rank] <;> omega
  | waitA server posted => simp only [rank, server, ServerPc.rank]; omega
  | copy server => simp only [rank, server, ServerPc.rank]; omega
  | accept data command address c server cosim =>
    cases Cosim.transition_of_step cosim with
    | accept r os =>
      simp only [rank, server, ServerPc.rank, Cosim.rank_accept os]
      omega
  | nbPull c server cosim =>
    have less := Cosim.rank_step (Cosim.transition_of_step cosim) (by simp)
    have next : (s.pulled c).server.rank ≤ 3 := by
      unfold pulled
      split <;> simp [ServerPc.rank]
    simp only [rank, server, ServerPc.rank] at next ⊢
    simp only [pulled] at next ⊢
    omega
  | missing server => simp only [rank, server, ServerPc.rank]; omega
  | answer q server =>
    have next : (s.answer q).server.rank ≤ 2 := by
      unfold answer
      split <;> simp [ServerPc.rank]
    simp only [rank, server, ServerPc.rank] at next ⊢
    simp only [answer] at next ⊢
    omega
  | copyBack q server => simp only [rank, copyBack, server, ServerPc.rank]; omega
  | postNothing server => simp only [rank, server, ServerPc.rank]; omega
  | postB q c server cosim =>
    have less := Cosim.rank_step (Cosim.transition_of_step cosim) (by simp)
    have next : (s.postB c).server.rank = 0 := by
      unfold postB
      split <;> rfl
    simp only [rank, server, ServerPc.rank] at next ⊢
    simp only [postB] at next ⊢
    omega
  | loops b c side cosim =>
    have less := Cosim.rank_step (Cosim.transition_of_step cosim) (by rintro r rfl; cases side)
    simp only [rank]
    omega

/-- The stores that are left are some of a call's six. -/
def StoresLeft (s : Shm) : Prop := ∀ a rest, s.client = .storing a rest → rest.length ≤ 6

theorem storesLeft_reachable (h : machine.Reachable s) : s.StoresLeft := by
  refine h.invariant (I := StoresLeft) (fun _ _ client => by cases client) ?_
  intro s a t left hs b rest client
  cases transition_of_step hs with
  | call c ready =>
    obtain ⟨rfl, rfl⟩ : c = b ∧ c.stores s.idCounter = rest := by simpa [call] using client
    simp [Access.stores]
  | store c w rest' before =>
    obtain ⟨rfl, rfl⟩ : c = b ∧ rest' = rest := by simpa [store] using client
    have more := left _ _ before
    rw [List.length_cons] at more
    omega
  | postA c before =>
    simp only [postA] at client
    split at client <;> cases client
  | waitB | checked | statusOk | loaded => cases client
  | loadCommand | loadAddress | waitA | copy | accept | nbPull | missing | answer | copyBack
  | postNothing | postB | loops => exact left _ _ client

theorem Turn.rank_le (h : s.Turn) (left : s.StoresLeft) : s.rank ≤ 54 := by
  have cosim := s.cosim.rank_le
  have fewer : ∀ a, (after a).rank ≤ 3 := by
    intro a
    unfold after
    split <;> simp [ClientPc.rank]
  cases h with
  | ready place os | replied _ _ _ _ _ _ place os =>
    simp only [Prod.mk.injEq] at place
    simp only [rank, place, ClientPc.rank, ServerPc.rank, os, OsPc.rank] at cosim ⊢
    omega
  | storing done a rest calls place os =>
    simp only [Prod.mk.injEq] at place
    have few := left a rest place.1
    simp only [rank, place, ClientPc.rank, ServerPc.rank, os, OsPc.rank] at cosim ⊢
    omega
  | posted done a calls place os =>
    simp only [Prod.mk.injEq] at place
    have client := fewer a
    simp only [rank, place, ServerPc.rank, os, OsPc.rank] at cosim ⊢
    omega
  | taken done a calls place loads os =>
    simp only [Prod.mk.injEq] at place
    have client := fewer a
    have server : s.server.rank ≤ 24 := by
      rcases loads with loads | ⟨command, address, loads, -⟩
      · simp [loads, ServerPc.rank]
      · cases command <;> cases address <;> simp [loads, ServerPc.rank]
    simp only [rank, place, os, OsPc.rank] at cosim ⊢
    omega
  | serving done a calls place os =>
    simp only [Prod.mk.injEq] at place
    have client := fewer a
    have busy : s.cosim.os.rank ≤ 16 := by
      obtain ⟨p, os | os | os⟩ := os <;> simp [os, OsPc.rank]
    simp only [rank, place, ServerPc.rank] at cosim ⊢
    omega
  | answering done a q answers calls waits place writes os =>
    simp only [Prod.mk.injEq] at place
    have server : s.server.rank ≤ 3 := by
      rcases writes with writes | ⟨writes, -⟩ | ⟨writes, -⟩ <;> simp [writes, ServerPc.rank]
    simp only [rank, place, ClientPc.rank, os, OsPc.rank] at cosim ⊢
    omega
  | checking done a r answers calls waits client place os =>
    simp only [Prod.mk.injEq] at place
    have client : s.client.rank ≤ 2 := by
      rcases client with client | ⟨client, -⟩ <;> simp [client, ClientPc.rank]
    simp only [rank, place, ServerPc.rank, os, OsPc.rank] at cosim ⊢
    omega

/-! ### Some step can be taken -/

/-- A packet is pushed only when the SystemC process has come to its first wait. -/
def Punctual (s : Shm) (a : Action) : Prop := a = .loops .push → s.cosim.sysc ≠ .starting

instance (s : Shm) (a : Action) : Decidable (s.Punctual a) := inferInstanceAs (Decidable (_ → _))

theorem heard_step {a : Action} (reachable : Cosim.machine.Reachable s.cosim)
    (h : s.cosim.Heard) (hs : Transition s a t) (punctual : s.Punctual a) : t.cosim.Heard := by
  have stage := (Cosim.stage_reachable reachable).1
  cases hs with
  | loops b c side cosim =>
    refine Cosim.heard_step stage h (Cosim.transition_of_step cosim) ?_
    rintro rfl
    exact punctual rfl
  | accept data command address c server cosim =>
    exact Cosim.heard_step stage h (Cosim.transition_of_step cosim) (by simp [Cosim.Punctual])
  | nbPull c server cosim | postB q c server cosim =>
    exact Cosim.heard_step stage h (Cosim.transition_of_step cosim) (by simp [Cosim.Punctual])
  | call | store | postA | waitB | checked | statusOk | loaded | loadCommand | loadAddress | waitA
  | copy | missing | answer | copyBack | postNothing => exact h

theorem heard_of_run {as : List Action} (hr : machine.run new as = some s)
    (punctual : machine.Along Punctual new as) : s.cosim.Heard := by
  have kept := Machine.run_invariant_along (m := machine) (C := Punctual)
    (I := fun s => machine.Reachable s ∧ s.cosim.Heard)
    (fun s a t h punctual hs => ⟨h.1.step hs,
      heard_step (cosim_reachable h.1) h.2 (transition_of_step hs) punctual⟩)
    ⟨machine.reachable_init, Cosim.heard_new⟩ punctual hr
  exact kept.2

theorem Turn.enabled (h : s.Turn) (reachable : Cosim.machine.Reachable s.cosim)
    (heard : s.cosim.Heard) (busy : s.client ≠ .ready) :
    ∃ a t, s.Punctual a ∧ machine.step s a = some t := by
  cases h with
  | ready place => simp [busy] at place
  | storing done a rest calls place =>
    -- the next assignment, or the post after the last
    simp only [Prod.mk.injEq] at place
    cases rest with
    | nil =>
      exact ⟨.client, s.postA a, by simp [Punctual], by
        simp only [machine, step, clientStep, place.1]⟩
    | cons w rest =>
      exact ⟨.client, s.store a w rest, by simp [Punctual], by
        simp only [machine, step, clientStep, place.1]⟩
  | posted done a calls place =>
    simp only [Prod.mk.injEq] at place
    exact ⟨.server, _, by simp [Punctual], by simp only [machine, step, serverStep, place]; rfl⟩
  | taken done a calls place loads os =>
    -- the server reads the two fields in either order
    rcases loads with server | ⟨command, address, server, -⟩
    · exact ⟨.server, _, by simp [Punctual], by simp only [machine, step, serverStep, server]; rfl⟩
    · cases command with
      | none =>
        exact ⟨.loadCommand, _, by simp [Punctual], by
          simp only [machine, step, loadCommand, server]
          rfl⟩
      | some command =>
        cases address with
        | none =>
          exact ⟨.loadAddress, _, by simp [Punctual], by
            simp only [machine, step, loadAddress, server]
            rfl⟩
        | some address =>
          exact ⟨.server, _, by simp [Punctual], by
            simp only [machine, step, serverStep, server, Cosim.step, os, if_true]
            rfl⟩
  | serving done a calls place os books =>
    simp only [Prod.mk.injEq] at place
    obtain ⟨p, os⟩ := os
    -- the call waits, so its request is none to leave
    have stays : a.leaves = false := by
      by_contra leaves
      rw [Bool.not_eq_false] at leaves
      exact busy (place.1.trans (if_pos leaves))
    obtain ⟨r, last, request⟩ : ∃ r, s.cosim.record.accepted.getLast? = some r ∧
        r.1 = a.request := by
      have whole := congrArg List.getLast? books.accepted
      rw [List.getLast?_map] at whole
      simpa using whole
    obtain ⟨b, c, fresh, noReply, punctual, cosim⟩ := Cosim.enabled_of_serving reachable heard last
      (by rw [request]; intro exit; simp [leaves_iff_exit.mpr exit] at stays) os
    have cosim : s.cosim.step b = some c := cosim
    by_cases side : inside b = true
    · refine ⟨.loops b, { s with cosim := c }, fun push => punctual (Action.loops.inj push), ?_⟩
      simp only [machine, step, side, if_true, cosim, Option.map_some]
    · have pull : b = .nbPull := by
        cases b with
        | accept q => exact absurd rfl (fresh q)
        | reply => exact absurd rfl noReply
        | nbPull => rfl
        | _ => exact absurd rfl side
      subst pull
      exact ⟨.server, _, by simp [Punctual], by
        simp only [machine, step, serverStep, place, cosim]
        rfl⟩
  | answering done a q answers calls waits place writes os =>
    rcases writes with server | ⟨server, -⟩ | ⟨server, -⟩
    · exact ⟨.server, s.answer q, by simp [Punctual], by
        simp only [machine, step, serverStep, server]⟩
    · exact ⟨.server, s.copyBack q, by simp [Punctual], by
        simp only [machine, step, serverStep, server]⟩
    · exact ⟨.server, _, by simp [Punctual], by
        simp only [machine, step, serverStep, server, Cosim.step, os]
        rfl⟩
  | replied done a r answers calls waits place =>
    simp only [Prod.mk.injEq] at place
    exact ⟨.client, _, by simp [Punctual], by simp only [machine, step, clientStep, place]; rfl⟩
  | checking done a r answers calls waits client =>
    suffices can : ∃ t, s.clientStep = some t from can.elim fun t hs => ⟨.client, t, by simp [Punctual], hs⟩
    rcases client with client | ⟨client, -⟩
    · simp only [clientStep, client]
      cases a with
      | write w => exact ⟨_, rfl⟩
      | read address =>
        dsimp only
        split <;> exact ⟨_, rfl⟩
    · simp only [clientStep, client]
      exact ⟨_, rfl⟩

/-! ### Calls return -/

/-- Every call but one that leaves returns, in a run that pushes no packet before the SystemC
process has come to its first wait: from each state in a call some step can be taken, and
whatever the steps, within 55 of them the client is out of the call. -/
theorem call_returns {as : List Action} (hr : machine.run new as = some s)
    (punctual : machine.Along Punctual new as) (last : s.LeavesLast) (busy : s.client ≠ .ready) :
    (∃ a t, s.Punctual a ∧ machine.step s a = some t) ∧
      machine.Within (fun _ => true) 55 (fun t => t.client = .ready) s := by
  have reachable : machine.Reachable s := ⟨as, hr⟩
  have turn := turn_reachable reachable last
  refine ⟨turn.enabled (cosim_reachable reachable) (heard_of_run hr punctual) busy, ?_⟩
  have ends : machine.Within (fun _ => true) (s.rank + 1) (fun t => t.client = .ready) s := by
    refine Machine.within_of_rank (I := fun t => t.client ≠ .ready) rank ?_ busy
    intro r a t busy hs
    by_cases done : t.client = .ready
    · exact Or.inl done
    · refine Or.inr ⟨done, ?_⟩
      have transition := transition_of_step hs
      have less := rank_step transition (by
        rintro b rfl
        cases transition with
        | call b client => exact busy client)
      simpa using less
  exact ends.mono (Nat.succ_le_succ (turn.rank_le (storesLeft_reachable reachable)))

theorem call_returns_of_read :
    (∃ a t, (new.call (.read 0x40)).Punctual a ∧ machine.step (new.call (.read 0x40)) a = some t) ∧
      machine.Within (fun _ => true) 55 (fun t => t.client = .ready) (new.call (.read 0x40)) :=
  call_returns (show machine.run new [.call (.read 0x40)] = some _ from rfl) (by decide)
    (by simp [LeavesLast, call, new]) (by simp [call])

/-! ### A call that does not -/

/-- A call waits for a packet whose event came before the first wait. -/
structure Hanging (s : Shm) (a : Access) (p : Ptr) : Prop where
  client : s.client = .waiting a
  unposted : s.semB = 0
  server : s.server = .serving
  cosim : s.cosim.Stranded p

theorem hanging_step {b : Action} {a : Access} {p : Ptr} (h : s.Hanging a p)
    (hs : Transition s b t) : t.Hanging a p := by
  obtain ⟨client, unposted, server, stranded⟩ := h
  cases hs with
  | loops c d side cosim =>
    exact ⟨client, unposted, server, Cosim.stranded_step stranded (Cosim.transition_of_step cosim)⟩
  | waitB _ _ posted => exact absurd unposted posted
  | nbPull c _ cosim =>
    cases Cosim.transition_of_step cosim with
    | nbPull q os => simp [stranded.os] at os
  -- the client waits, and the server is past its packet
  | call _ client' | store _ _ _ client' | postA _ client' | checked _ client' | statusOk _ client'
  | loaded _ client' => simp [client] at client'
  | loadCommand _ _ server' | loadAddress _ _ server' | waitA server' | copy server'
  | accept _ _ _ _ server' | missing server' | answer _ server' | copyBack _ server'
  | postNothing server' | postB _ _ server' => simp [server] at server'

/-- Such a call never returns, whatever the steps. -/
theorem hangs_forever {as : List Action} {a : Access} {p : Ptr} (h : s.Hanging a p)
    (hr : machine.run s as = some t) : t.client = .waiting a :=
  (Machine.run_invariant (m := machine) (I := fun s => s.Hanging a p)
    (fun _ _ _ hanging hs => hanging_step hanging (transition_of_step hs)) h hr).client

/-- The packet of the first call is pushed and notified too early. -/
example : ∃ s, machine.run new ([.call (.read 0x40)] ++ List.replicate 7 .client ++ [.server,
    .server, .loadAddress, .loadCommand, .server, .loops .push, .loops .kernel, .loops .kernel,
    .loops .kernel, .loops .kernel, .loops .loop]) = some s ∧ s.Hanging (.read 0x40) 0 :=
  ⟨_, rfl, rfl, rfl, rfl, rfl, Or.inl rfl, rfl, rfl, rfl, rfl, rfl⟩

end Shm

end ScCosim.Driver
