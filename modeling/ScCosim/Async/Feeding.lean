import ScCosim.Async.Exchange
import ScCosim.Async.Settling

/-!
# Requests one after the other

The interface is fed with given requests in their order, and a packet is pushed only when the
SystemC process has come to its first wait. Then every write before the first `ASYNC_EXIT`
comes to the target: the transport call cannot fail to be made, whatever the order of the
steps.
-/
namespace ScCosim.Async

open Kernel

namespace Cosim

variable {s t : Cosim}

def requests (s : Cosim) : List Request := s.record.accepted.map Prod.fst

@[simp] theorem requests_accept (s : Cosim) (r : Request) :
    (s.accept r).requests = s.requests ++ [r] := by
  simp [requests, accept]

@[simp] theorem requests_nbGet (s : Cosim) : s.nbGet.requests = s.requests := by
  unfold nbGet
  split <;> rfl

/-- The requests come in the order of a list, and no push comes too early. -/
def Fed (sent : List Request) (s : Cosim) : Action → Prop
  | .accept r => s.requests ++ [r] <+: sent
  | .push => s.sysc ≠ .starting
  | _ => True

instance (sent : List Request) (s : Cosim) : ∀ a, Decidable (s.Fed sent a)
  | .accept r => inferInstanceAs (Decidable (s.requests ++ [r] <+: sent))
  | .push => inferInstanceAs (Decidable (s.sysc ≠ .starting))
  | .waitForPut | .nbPull | .reply | .kernel | .nbGet | .target _ | .nbPut | .loop | .stop =>
    isTrue trivial

/-- The interface, fed with some requests. -/
def fed (sent : List Request) : Machine Cosim Action := machine.restrict (Fed sent)

theorem punctual_of_fed {sent : List Request} {a : Action} (h : s.Fed sent a) : s.Punctual a := by
  rintro rfl
  exact h

theorem fed_of_punctual {sent : List Request} {a : Action} (other : ∀ r, a ≠ .accept r)
    (punctual : s.Punctual a) : s.Fed sent a := by
  cases a with
  | accept r => exact absurd rfl (other r)
  | push => exact punctual rfl
  | _ => trivial

/-- The target is being called with a write of the request's bytes to its address, and the
request is the one that came after the requests `before`. -/
def Executing (before : List Request) (q : Request) (s : Cosim) : Prop :=
  s.requests = before ++ [q] ∧ ∃ p, s.sysc = .transport p .bTransport ∧
    s.trans.command = .write ∧ s.trans.address = q.address.zeroExtend 64 ∧ s.trans.data = q.data

/-! ### On the way to the call -/

/-- The OS thread is at its socket or its reply, with every request got, or a request is on
its way. -/
theorem Stage.resting_or_serving (h : s.Stage) :
    ((s.os = .accept ∨ ∃ p, s.os = .reply p) ∧ s.record.got.length = s.requests.length) ∨
      s.Serving ∧ s.requests ≠ [] := by
  have nonempty : ∀ {p : Ptr}, p ∈ s.record.accepted.map Prod.snd → s.requests ≠ [] := by
    intro p member none
    rw [List.map_eq_nil_iff.mp none] at member
    cases member
  cases h with
  | idle os _ _ log =>
    -- at its socket, every packet made has been got
    have pointers := congrArg List.length log.accepted
    exact Or.inl ⟨os.imp_right fun ⟨p, reply, _⟩ => ⟨p, reply⟩, by simpa [requests] using pointers.symm⟩
  | made p os _ _ _ log => exact Or.inr ⟨⟨p, Or.inl os⟩, nonempty (p := p) (by simp [log.accepted])⟩
  | flagged p os _ _ _ log | notified p os _ _ _ _ log | stranded p os _ _ _ log
  | woken p os _ _ _ log =>
    exact Or.inr ⟨⟨p, Or.inr (Or.inl os)⟩, nonempty (p := p) (by simp [log.accepted])⟩
  | called p _ os _ _ _ _ log | abandoned p os _ _ _ log =>
    exact Or.inr ⟨⟨p, Or.inr (Or.inl os)⟩, nonempty (p := p) (by simp [log.accepted, log.returned])⟩
  | returned p os _ _ _ log | served p os _ _ _ log =>
    exact Or.inr ⟨⟨p, Or.inr (Or.inl os)⟩,
      nonempty (p := p) (by simp [log.accepted, log.returned, log.pulled])⟩
  | unlocked p os _ _ _ log =>
    exact Or.inr ⟨⟨p, Or.inr (Or.inr os)⟩,
      nonempty (p := p) (by simp [log.accepted, log.returned, log.pulled])⟩

/-- The next transport call, where no request has been a request to leave. -/
theorem transport_of_nbGet (reachable : machine.Reachable s)
    (step : machine.step s .nbGet = some t)
    (stays : ∀ r ∈ t.requests, r.command ≠ AsyncCommand.exit.code) :
    ∃ p call, t.sysc = .transport p call := by
  have place : t.sysc = .leaving ∨ ∃ p call, t.sysc = .transport p call := by
    cases transition_of_step step
    unfold nbGet
    split <;> simp only [forward] <;> split <;> simp
  refine place.resolve_left fun leaving => ?_
  -- the loop is left for a request to leave only
  obtain ⟨r, accepted, exit⟩ := exit_of_left (reachable.step step) (Or.inl leaving)
  exact stays r.1 (List.mem_map_of_mem accepted) exit

/-- While the target is being called, it has the last request. -/
theorem presented_of_transport (reachable : machine.Reachable s) {p : Ptr} {call : TransportCall}
    (sysc : s.sysc = .transport p call) :
    ∃ before q, s.requests = before ++ [q] ∧
      (s.trans, call) = (payload (commandAfter .ignore before) q, transportCall q.command) := by
  obtain ⟨calls, exchanged⟩ := exchanged_reachable reachable
  have presents := exchanged.presents
  simp only [Presents, sysc] at presents
  obtain ⟨before, q, split, -, presented⟩ := presents
  exact ⟨before.map Prod.fst, q, by simp [requests, split], presented⟩

theorem executing_of_transport (reachable : machine.Reachable s) {p : Ptr} {call : TransportCall}
    (sysc : s.sysc = .transport p call) {before : List Request} {q : Request}
    (requests : s.requests = before ++ [q]) (write : q.command = AsyncCommand.write.code) :
    s.Executing before q := by
  obtain ⟨others, r, split, presented⟩ := presented_of_transport reachable sysc
  obtain ⟨rfl, last⟩ := List.append_inj' (requests.symm.trans split) rfl
  obtain rfl := List.singleton_injective last
  obtain ⟨trans, rfl⟩ := Prod.mk.inj presented
  have bTransport : transportCall q.command = .bTransport := by rw [write]; rfl
  refine ⟨requests, p, by rw [sysc, bTransport], ?_, by rw [trans]; rfl, by rw [trans]; rfl⟩
  rw [trans]
  simp only [payload, write]
  rfl

/-! ### Every write is executed -/

/-- The request `q` has not come, or it has come and no transport call has been made for it. -/
structure Coming (before : List Request) (q : Request) (s : Cosim) : Prop where
  reachable : machine.Reachable s
  heard : s.Heard
  place : s.requests <+: before ∨
    s.requests = before ++ [q] ∧ s.record.got.length = before.length

section feeding

variable {before later : List Request} {q : Request}

theorem Coming.stays (h : s.Coming before q)
    (stays : ∀ r ∈ before ++ [q], r.command ≠ AsyncCommand.exit.code) :
    ∀ r ∈ s.requests, r.command ≠ AsyncCommand.exit.code := by
  have part : s.requests <+: before ++ [q] := by
    rcases h.place with early | ⟨come, -⟩
    · exact early.trans (List.prefix_append _ _)
    · simp only [come, List.prefix_rfl]
  exact fun r member => stays r (part.subset member)

/-- With every request got, the request `q` is still to come. -/
theorem Coming.early (h : s.Coming before q)
    (got : s.record.got.length = s.requests.length) : s.requests <+: before := by
  refine h.place.resolve_right fun ⟨come, behind⟩ => ?_
  rw [got, come, List.length_append, List.length_singleton] at behind
  omega

theorem Coming.can (h : s.Coming before q)
    (stays : ∀ r ∈ before ++ [q], r.command ≠ AsyncCommand.exit.code) :
    ∃ a t, (fed (before ++ q :: later)).step s a = some t := by
  have fedStep : ∀ {a : Action} {t : Cosim}, s.Fed (before ++ q :: later) a →
      machine.step s a = some t → ∃ a t, (fed (before ++ q :: later)).step s a = some t :=
    fun meets step => ⟨_, _, (Machine.restrict_step _).mpr ⟨meets, step⟩⟩
  rcases (stage_reachable h.reachable).1.resting_or_serving with ⟨os, got⟩ | ⟨⟨p, os⟩, busy⟩
  · rcases os with os | ⟨p, os⟩
    · -- the next request comes in
      obtain ⟨rest, split⟩ := h.early got
      obtain ⟨r, more, next⟩ : ∃ r more, rest ++ q :: later = r :: more := by
        cases rest with
        | nil => exact ⟨q, later, rfl⟩
        | cons r rest => exact ⟨r, rest ++ q :: later, rfl⟩
      refine fedStep (a := .accept r) ⟨more, ?_⟩ (if_pos os)
      rw [← split, List.append_assoc, List.append_assoc, next]
      rfl
    · refine fedStep (a := .reply) trivial (t := s.reply p) ?_
      simp only [machine, step, os]
  · -- the interface is at work on the last request
    obtain ⟨r, last⟩ : ∃ r, s.record.accepted.getLast? = some r := by
      cases last : s.record.accepted.getLast? with
      | none => exact absurd (by rw [requests, List.getLast?_eq_none_iff.mp last]; rfl) busy
      | some r => exact ⟨r, rfl⟩
    have member : r.1 ∈ s.requests := List.mem_map_of_mem (List.mem_of_getLast? last)
    obtain ⟨a, t, fresh, -, punctual, step⟩ :=
      enabled_of_serving h.reachable h.heard last (h.stays stays _ member) os
    exact fedStep (fed_of_punctual fresh punctual) step

/-- A step other than a new request or an `nb_get` leaves the requests and the packets got. -/
theorem record_of_step {a : Action} (hs : Transition s a t) (old : ∀ r, a ≠ .accept r)
    (other : a ≠ .nbGet) : t.requests = s.requests ∧ t.record.got = s.record.got := by
  cases hs with
  | accept r => exact absurd rfl (old r)
  | nbGet => exact absurd rfl other
  | nbPull p os => unfold nbPull; split <;> exact ⟨rfl, rfl⟩
  | _ => exact ⟨rfl, rfl⟩

/-- How far the requests have come, and the interface with them. -/
def ahead (before : List Request) (s : Cosim) : Nat :=
  17 * (before.length + 1 - s.requests.length) + s.rank

theorem Coming.place_accept (h : s.Coming before q) {r : Request} (os : s.os = .accept)
    (fed : s.requests ++ [r] <+: before ++ q :: later) :
    s.requests ++ [r] <+: before ∨
      s.requests ++ [r] = before ++ [q] ∧ s.record.got.length = before.length := by
  have got : s.record.got.length = s.requests.length := by
    rcases (stage_reachable h.reachable).1.resting_or_serving with ⟨-, got⟩ | ⟨⟨p, busy⟩, -⟩
    · exact got
    · rcases busy with busy | busy | busy <;> simp [os] at busy
  obtain ⟨rest, rfl⟩ := h.early got
  -- so the new request is the next of the list, which may be `q` itself
  rw [List.append_assoc, List.prefix_append_right_inj] at fed
  cases rest with
  | nil =>
    rw [List.nil_append, List.cons_prefix_cons] at fed
    obtain ⟨rfl, -⟩ := fed
    exact Or.inr ⟨by simp, by simp [got]⟩
  | cons x rest =>
    rw [List.cons_append, List.cons_prefix_cons] at fed
    obtain ⟨rfl, -⟩ := fed
    exact Or.inl ⟨rest, by simp⟩

/-- A packet got for the last request is on its way to the target. -/
theorem Coming.executing (h : s.Coming before q)
    (stays : ∀ r ∈ before ++ [q], r.command ≠ AsyncCommand.exit.code)
    (write : q.command = AsyncCommand.write.code) (step : machine.step s .nbGet = some t)
    (come : s.requests = before ++ [q]) : t.Executing before q := by
  have same : t.requests = s.requests := by
    cases transition_of_step step
    exact requests_nbGet s
  have leaves : ∀ r ∈ t.requests, r.command ≠ AsyncCommand.exit.code := by
    rw [same]
    exact h.stays stays
  obtain ⟨p, call, sysc⟩ := transport_of_nbGet h.reachable step leaves
  exact executing_of_transport (h.reachable.step step) sysc (same.trans come) write

theorem Coming.step {a : Action} (h : s.Coming before q)
    (stays : ∀ r ∈ before ++ [q], r.command ≠ AsyncCommand.exit.code)
    (write : q.command = AsyncCommand.write.code)
    (hs : (fed (before ++ q :: later)).step s a = some t) :
    t.Executing before q ∨ t.Coming before q ∧ t.ahead before < s.ahead before := by
  obtain ⟨meets, step⟩ := (Machine.restrict_step _).mp hs
  have transition := transition_of_step step
  have stage := (stage_reachable h.reachable).1
  have reachable := h.reachable.step step
  have heard := heard_step stage h.heard transition (punctual_of_fed meets)
  by_cases new : ∃ r, a = .accept r
  · obtain ⟨r, rfl⟩ := new
    cases transition with
    | accept _ os =>
      have place := h.place_accept os meets
      refine Or.inr ⟨⟨reachable, heard, (requests_accept s r).symm ▸ place⟩, ?_⟩
      -- a new request is worth more than what it gives the interface to do
      have room : s.requests.length < before.length + 1 := by
        have length : (s.requests ++ [r]).length ≤ before.length + 1 := by
          rcases place with early | ⟨last, -⟩
          · exact Nat.le_succ_of_le early.length_le
          · simp [last]
        rw [List.length_append, List.length_singleton] at length
        exact length
      simp only [ahead, requests_accept, rank_accept os, List.length_append, List.length_singleton]
      omega
  · have old : ∀ r, a ≠ .accept r := fun r same => new ⟨r, same⟩
    have less := rank_step transition old
    by_cases get : a = .nbGet
    · subst get
      rcases h.place with early | ⟨come, -⟩
      · have same : t.requests = s.requests := by
          cases transition
          exact requests_nbGet s
        refine Or.inr ⟨⟨reachable, heard, Or.inl (same.symm ▸ early)⟩, ?_⟩
        simp only [ahead, same]
        omega
      · -- the packet got is that of `q`
        exact Or.inl (h.executing stays write step come)
    · obtain ⟨same, got⟩ := record_of_step transition old get
      refine Or.inr ⟨⟨reachable, heard, by rw [same, got]; exact h.place⟩, ?_⟩
      simp only [ahead, same]
      omega

/-- Fed with requests of which none before a write is a request to leave, the interface cannot
fail to call the target with this write. -/
theorem executed_of_fed (write : q.command = AsyncCommand.write.code)
    (before_stays : ∀ r ∈ before, r.command ≠ AsyncCommand.exit.code) :
    (fed (before ++ q :: later)).Inevitable (Executing before q) new := by
  have stays : ∀ r ∈ before ++ [q], r.command ≠ AsyncCommand.exit.code := by
    intro r member
    rcases List.mem_append.mp member with member | member
    · exact before_stays r member
    · rw [List.mem_singleton.mp member, write]
      decide
  exact Machine.inevitable_of_rank (I := Coming before q) (ahead before)
    (fun s coming _ => coming.can stays) (fun s a t coming _ hs => coming.step stays write hs)
    ⟨machine.reachable_init, heard_new, Or.inl List.nil_prefix⟩

/-! ### None after an exit -/

/-- Only the last request can be one to leave, and none is while the OS thread is at its socket
or its reply. -/
structure LeavesLast (s : Cosim) : Prop where
  before : ∀ r ∈ s.requests.dropLast, r.command ≠ AsyncCommand.exit.code
  resting : s.os = .accept ∨ (∃ p, s.os = .reply p) → ∀ r ∈ s.requests, r.command ≠ AsyncCommand.exit.code

theorem leavesLast_step {a : Action} (reachable : machine.Reachable s) (h : s.LeavesLast)
    (step : machine.step s a = some t) : t.LeavesLast := by
  have transition := transition_of_step step
  by_cases new : ∃ r, a = .accept r
  · obtain ⟨r, rfl⟩ := new
    cases transition with
    | accept _ os =>
      refine ⟨?_, fun resting => by simp [accept] at resting⟩
      rw [requests_accept, List.dropLast_concat]
      exact h.resting (Or.inl os)
  · have old : ∀ r, a ≠ .accept r := fun r same => new ⟨r, same⟩
    have same : t.requests = s.requests := by rw [requests, accepted_of_step transition old]; rfl
    refine ⟨same.symm ▸ h.before, fun resting => ?_⟩
    rw [same]
    cases transition with
    | accept r => exact absurd rfl (old r)
    | nbPull p os =>
      -- the reply pulled is that of the last request, which was none to leave
      obtain ⟨q, -, -, -, -, -, r, last, stays⟩ := nbPull_step reachable step
      have split : s.requests = s.requests.dropLast ++ [r] := by
        refine (List.dropLast_append_getLast? r ?_).symm
        rw [requests, List.getLast?_map, last]
        rfl
      intro x member
      rw [split] at member
      rcases List.mem_append.mp member with member | member
      · exact h.before x member
      · rw [List.mem_singleton.mp member]
        exact stays
    | reply p os => exact h.resting (Or.inr ⟨p, os⟩)
    | push p os | waitForPut p c os => simp [push] at resting
    | nbGet sysc =>
      have os : s.nbGet.os = s.os := by unfold nbGet; split <;> rfl
      exact h.resting (os ▸ resting)
    | kernel | target | nbPut | loop | stop => exact h.resting resting

theorem leavesLast_reachable (h : machine.Reachable s) : s.LeavesLast := by
  have kept := h.invariant (I := fun s => machine.Reachable s ∧ s.LeavesLast)
    ⟨machine.reachable_init, ⟨by simp [requests, machine, new], by simp [requests, machine, new]⟩⟩
    fun s a t both step => ⟨both.1.step step, leavesLast_step both.1 both.2 step⟩
  exact kept.2

/-- Fed with some requests, the interface cannot fail to call the target with a write of them,
if and only if none of the requests before it is a request to leave. -/
theorem executed_iff (write : q.command = AsyncCommand.write.code) :
    (fed (before ++ q :: later)).Inevitable (Executing before q) new ↔
      ∀ r ∈ before, r.command ≠ AsyncCommand.exit.code := by
  refine ⟨fun executed => ?_, executed_of_fed write⟩
  obtain ⟨as, t, hr, come, -⟩ := executed.possible
  have last := (leavesLast_reachable ⟨as, machine.run_of_restrict hr⟩).before
  rwa [come, List.dropLast_concat] at last

end feeding

end Cosim

end ScCosim.Async
