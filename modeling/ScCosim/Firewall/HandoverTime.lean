import ScCosim.Firewall.DirectWrite
import ScCosim.Firewall.Handover

/-!
# How long a packet waits to be handed over

A read takes one edge and a write four: it is shown, the receiver answers, the process sees
the answer, the receiver sees that. Packets that arrive later do not hold up those before
them. Only a full response FIFO can.
-/
namespace ScCosim.Firewall

open Kernel Handover

/-! ### How many edges are left -/

def SenderPc.edges : SenderPc → Nat
  | .start => 2
  | .init => 1
  | .loop | .blocked => 0

/-- The edges until the handshake is down. -/
def Handshake.phase : (preready indone : Bool) → Nat
  | false, false => 0
  | false, true => 1
  | true, true => 2
  | true, false => 3

namespace Sender

variable {π : Type} (access : π → Access) (s : Sender π)

/-- A bound on the edges until the first `n` of `arrived` packets are done with. -/
def left (n arrived : Nat) : Nat :=
  4 * (n - (arrived - s.fifo.held)) + Handshake.phase s.handshake.preready s.handshake.indone +
    s.pc.edges + if s.handshake.started then 0 else 1

theorem left_receive (n arrived : Nat) : s.receive.left n arrived =
    4 * (n - (arrived - s.fifo.held)) +
      Handshake.phase s.handshake.preready
        (if s.handshake.started then s.handshake.ready.cur else s.handshake.indone) +
      s.pc.edges := by
  simp [left, receive, Handshake.receive_indone, Handshake.receive_started, Device.receive_preready]

theorem left_update (n arrived : Nat) : s.update.left n arrived = s.left n arrived := by
  simp only [left, update, Fifo.held_update]
  rfl

theorem left_push (n arrived : Nat) (p : π) :
    { s with fifo := s.fifo.push p }.left n (arrived + 1) = s.left n arrived := by
  simp [left]

/-- The process does not look at the receiver's variables. -/
theorem run_receive (full : Bool) :
    (s.receive.run access full).1 = (s.run access full).1.receive := by
  obtain ⟨ready, done⟩ := s.handshake.receive_ready
  have preready := Device.receive_preready s.handshake
  rcases s with ⟨pc, fifo, h⟩
  simp only at ready done preready
  cases pc with
  | init | blocked => rfl
  | start => simp only [run, receive, Handshake.receive_reset]
  | loop =>
    simp only [run, receive, done, preready, ready]
    split
    · cases fifo.nbRead with
      | none => rfl
      | some r =>
        simp only
        split
        · rfl
        · simp only [Handshake.receive_raise]
    · split
      · simp only [Handshake.receive_lower]
      · rfl

/-- A packet that arrives is not seen in the same delta cycle. -/
theorem run_push (full : Bool) (p : π) :
    ({ s with fifo := s.fifo.push p }.run access full).1 =
      { (s.run access full).1 with fifo := (s.run access full).1.fifo.push p } := by
  rcases s with ⟨pc, fifo, h⟩
  cases pc with
  | start | init | blocked => rfl
  | loop =>
    have push : (fifo.push p).nbRead = fifo.nbRead.map fun r => (r.1, r.2.push p) := by
      cases readable : fifo.readable <;> simp [Fifo.nbRead, Fifo.push, readable]
    simp only [run, push]
    split
    · cases fifo.nbRead with
      | none => rfl
      | some r =>
        simp only [Option.map_some]
        split <;> rfl
    · split <;> rfl

theorem run_held (full : Bool) : (s.run access full).1.fifo.held ≤ s.fifo.held := by
  have run := s.run_spec access full
  generalize s.run access full = r at run ⊢
  cases run with
  | start | init | rest | lower | resume => exact Nat.le_refl _
  | read _ _ _ _ _ read | write _ _ _ _ _ read =>
    rw [Fifo.held_of_nbRead read]
    exact Nat.le_succ _

theorem left_le (arrived : Nat) : s.left arrived arrived ≤ 4 * s.fifo.held + 6 := by
  have phase : Handshake.phase s.handshake.preready s.handshake.indone ≤ 3 := by
    cases s.handshake.preready <;> cases s.handshake.indone <;> decide
  have edges : s.pc.edges ≤ 2 := by
    cases s.pc <;> decide
  have started : (if s.handshake.started then 0 else 1) ≤ 1 := by
    split <;> decide
  unfold left
  omega

/-- A full response FIFO blocks the process, or it changes nothing. -/
theorem run_full (full : Bool) (awake : s.pc ≠ .blocked) :
    (s.run access full).1.pc = .blocked ∨ (s.run access full).1 = (s.run access false).1 := by
  cases full with
  | false => exact Or.inr rfl
  | true =>
    rcases s with ⟨pc, fifo, h⟩
    cases pc with
    | start | init => exact Or.inr rfl
    | blocked => exact absurd rfl awake
    | loop =>
      simp only [run]
      split
      · cases fifo.nbRead with
        | none => exact Or.inr rfl
        | some r =>
          simp only
          split
          · exact Or.inl rfl
          · exact Or.inr rfl
      · split <;> exact Or.inr rfl

end Sender

namespace Handover

variable {π : Type} (access : π → Access) (ps : List π) (s : Handover π)

/-- The process and the receiver as they will be when both have run. -/
def settled : Sender π :=
  let r := if s.out then (s.sender.run access false).1 else s.sender
  if s.entry then r.receive else r

def rank : Nat := (s.settled access).left ps.length s.arrived.length

/-- These packets, the first to arrive, are done with, or the process is blocked with an
answer. -/
def Through : Prop := scripts access ps <+: s.log ∨ s.sender.pc = .blocked

/-- Nothing has been written since the last update phase. -/
def Clean : Prop :=
  s.dirty = false → s.sender.handshake.ready.cur = s.sender.handshake.ready.next ∧
    s.sender.handshake.done.cur = s.sender.handshake.done.next ∧ s.sender.fifo.written = []

variable {access ps s} {t : Handover π}

theorem clean_step {a : Action π} (h : s.Clean) (hs : s.step access a = some t) : t.Clean := by
  cases a with
  | arrive p =>
    simp only [step] at hs
    split at hs
    · cases hs; simp [Clean]
    · cases hs
  | run full =>
    simp only [step] at hs
    split at hs
    · cases hs; simp [Clean]
    · cases hs
  | receive =>
    simp only [step] at hs
    split at hs
    · cases hs; simp [Clean]
    · cases hs
  | delta =>
    simp only [step] at hs
    split at hs
    · cases hs; exact fun _ => ⟨rfl, rfl, rfl⟩
    · cases hs
  | edge =>
    simp only [step] at hs
    split at hs
    · cases hs; exact h
    · cases hs

/-- Once it has taken them all and holds none, it is through with them. -/
theorem through_of_taken (first : ps <+: s.arrived) (past : List π)
    (arrived : s.arrived = past ++ s.sender.fifo.contents) (log : s.log = scripts access past)
    (taken : ps.length ≤ s.arrived.length - s.sender.fifo.held) : s.Through access ps := by
  left
  have enough : ps.length ≤ past.length := by simpa [arrived, Fifo.held] using taken
  have before : ps <+: past :=
    List.prefix_of_prefix_length_le first (arrived ▸ List.prefix_append _ _) enough
  obtain ⟨rest, rfl⟩ := before
  rw [log, scripts_append]
  exact List.prefix_append _ _

/-- Between two packets, the process comes to its loop, the receiver to its own, and the next
packet is taken. -/
theorem left_edge_between {n : Nat} (low : s.sender.handshake.Low)
    (ready : s.sender.handshake.ready.cur = s.sender.handshake.ready.next)
    (done : s.sender.handshake.done.cur = s.sender.handshake.done.next)
    (written : s.sender.fifo.written = []) (awake : s.sender.pc ≠ .blocked)
    (held : s.sender.fifo.held ≤ s.arrived.length) (enough : n ≤ s.arrived.length)
    (more : s.arrived.length - s.sender.fifo.held < n) :
    (s.sender.run access false).1.receive.left n s.arrived.length + 1 ≤
      s.sender.left n s.arrived.length := by
  have off : s.sender.handshake.ready.cur = false := ready.trans low.ready
  have follows : s.sender.handshake.done.cur = s.sender.handshake.indone := done.trans low.done
  have down := low.preready
  rw [Sender.left_receive]
  cases pc : s.sender.pc with
  | blocked => exact absurd pc awake
  | start | init =>
    simp only [Sender.run, pc, Sender.left, SenderPc.edges, down, off]
    cases s.sender.handshake.started <;> cases s.sender.handshake.indone <;>
      simp [Handshake.phase]
  | loop =>
    cases answered : s.sender.handshake.indone with
    | true =>
      -- the receiver still has to lower `done`
      simp only [Sender.run, pc, Sender.left, down, follows, answered, off]
      cases started : s.sender.handshake.started <;>
        simp [Handshake.phase, SenderPc.edges, down, off, answered, pc, started]
    | false =>
      -- a packet can be taken
      have waiting : s.sender.fifo.readable ≠ [] := by
        intro empty
        have none : s.sender.fifo.held = 0 := by simp [Fifo.held, Fifo.contents, empty, written]
        omega
      obtain ⟨p, rest, readable⟩ := List.exists_cons_of_ne_nil waiting
      obtain ⟨left, read⟩ : ∃ left, s.sender.fifo.nbRead = some (p, left) := by
        simp [Fifo.nbRead, readable]
      have one := Fifo.held_of_nbRead read
      have fewer : n - (s.arrived.length - s.sender.fifo.held) =
          n - (s.arrived.length - left.held) + 1 := by omega
      simp only [Sender.run, pc, Sender.left, down, follows, answered, off, read, Bool.not_false,
        Bool.and_true, if_true]
      rw [fewer]
      cases (access p).read <;> cases started : s.sender.handshake.started <;>
        simp [Handshake.phase, Handshake.raise, SenderPc.edges, down, off, answered, started] <;> omega

/-- With the channels shown and not through, an edge brings the end closer. -/
theorem left_edge (stage : s.Stage access) (clean : s.Clean) (shown : s.dirty = false)
    (first : ps <+: s.arrived) (more : ¬ s.Through access ps) :
    (s.sender.run access false).1.receive.left ps.length s.arrived.length + 1 ≤
      s.sender.left ps.length s.arrived.length := by
  obtain ⟨ready, done, written⟩ := clean shown
  have awake : s.sender.pc ≠ .blocked := fun blocked => more (Or.inr blocked)
  cases stage with
  | between past low arrived log =>
    have held : s.sender.fifo.held ≤ s.arrived.length := by simp [arrived, Fifo.held]
    apply left_edge_between low ready done written awake held first.length_le
    by_contra taken
    exact more (through_of_taken first past arrived log (by omega))
  | shown past p pc write raised =>
    -- the receiver sees `ready`
    have up : s.sender.handshake.ready.cur = true := ready.trans raised.ready
    have down : s.sender.handshake.done.cur = false := by simp [raised.done, Signal.new]
    rw [Sender.left_receive]
    simp only [Sender.run, pc, Sender.left, raised.preready, raised.indone, down, up]
    cases started : s.sender.handshake.started <;>
      simp [Handshake.phase, SenderPc.edges, raised.preready, up, raised.indone, pc, started]
  | answered past p pc write answered =>
    -- the process sees `done`
    have up : s.sender.handshake.done.cur = true := done.trans answered.done
    have on : s.sender.handshake.ready.cur = true := by simp [answered.ready, Signal.new]
    rw [Sender.left_receive]
    simp only [Sender.run, pc, Sender.left, answered.preready, answered.indone, up, on]
    cases started : s.sender.handshake.started <;>
      simp [Handshake.phase, Handshake.lower, SenderPc.edges, on, answered.indone, started]

theorem settled_arrive (p : π) :
    settled access { s with
      sender.fifo := s.sender.fifo.push p, arrived := s.arrived ++ [p], dirty := true } =
      { s.settled access with fifo := (s.settled access).fifo.push p } := by
  cases out : s.out <;> cases entry : s.entry <;>
    simp [settled, out, entry, Sender.run_push, Sender.receive]

/-- No step takes the end away, and an edge brings it closer. -/
theorem rank_step {a : Action π} (stage : s.Stage access) (clean : s.Clean)
    (first : ps <+: s.arrived) (more : ¬ s.Through access ps)
    (hs : s.step access a = some t) :
    ps <+: t.arrived ∧ (t.Through access ps ∨
      t.rank access ps + (if isEdge a then 1 else 0) ≤ s.rank access ps) := by
  have awake : s.sender.pc ≠ .blocked := fun blocked => more (Or.inr blocked)
  cases a with
  | arrive p =>
    simp only [step] at hs
    split at hs
    · cases hs
      refine ⟨first.trans (List.prefix_append _ _), Or.inr ?_⟩
      rw [rank, settled_arrive, List.length_append, List.length_singleton, Sender.left_push]
      exact Nat.le_refl _
    · cases hs
  | run full =>
    simp only [step] at hs
    split at hs
    next enabled =>
      have woken : s.out = true := by simpa [awake] using enabled
      cases hs
      refine ⟨first, ?_⟩
      rcases s.sender.run_full access full awake with blocked | same
      · exact Or.inl (Or.inr blocked)
      · right
        simp [rank, settled, isEdge, same, woken]
    next => cases hs
  | receive =>
    simp only [step] at hs
    split at hs
    next woken =>
      cases hs
      refine ⟨first, Or.inr ?_⟩
      simp only [rank, settled, isEdge, woken]
      cases s.out <;> simp [Sender.run_receive]
    next => cases hs
  | delta =>
    simp only [step] at hs
    split at hs
    next quiet =>
      simp only [Bool.and_eq_true, Bool.not_eq_true'] at quiet
      cases hs
      refine ⟨first, Or.inr ?_⟩
      simp [rank, settled, isEdge, quiet, Sender.left_update]
    next => cases hs
  | edge =>
    simp only [step] at hs
    split at hs
    next quiet =>
      simp only [Bool.and_eq_true, Bool.not_eq_true'] at quiet
      cases hs
      refine ⟨first, Or.inr ?_⟩
      simpa [rank, settled, isEdge, quiet, awake] using left_edge stage clean quiet.2 first more
    next => cases hs

theorem rank_le : s.rank access s.arrived ≤ 4 * s.sender.fifo.held + 6 := by
  have fewer : (s.settled access).fifo.held ≤ s.sender.fifo.held := by
    have taken := s.sender.run_held access false
    cases out : s.out <;> cases entry : s.entry <;> simp [settled, out, entry, Sender.receive, taken]
  have bound := (s.settled access).left_le s.arrived.length
  exact bound.trans (by omega)

/-- From any state, after so many edges all that has arrived is done with, or the process has
been blocked with an answer. -/
theorem through_in_time {size : Nat} (h : (machine access size).Reachable s) :
    (machine access size).Within isEdge (4 * s.sender.fifo.held + 7) (Through access s.arrived) s := by
  by_cases now : s.Through access s.arrived
  · exact Machine.within_of_now now _
  have clean : s.Clean :=
    h.invariant (I := Clean) (fun _ => ⟨rfl, rfl, rfl⟩) fun _ _ _ clean hs => clean_step clean hs
  have bound : s.rank access s.arrived ≤ 4 * s.sender.fifo.held + 6 := rank_le
  have within : (machine access size).Within isEdge (s.rank access s.arrived + 1)
      (Through access s.arrived) s := by
    refine Machine.within_of_rank (I := fun t => t.Stage access ∧ t.Clean ∧
      s.arrived <+: t.arrived ∧ ¬ t.Through access s.arrived) (rank access s.arrived) ?_
      ⟨stage_reachable h, clean, List.prefix_rfl, now⟩
    rintro t a u ⟨stage, clean, first, more⟩ hs
    obtain ⟨first', done | closer⟩ := rank_step stage clean first more hs
    · exact Or.inl done
    · by_cases done : u.Through access s.arrived
      · exact Or.inl done
      · exact Or.inr ⟨⟨stage_step stage hs, clean_step clean hs, first', done⟩, closer⟩
  exact within.mono (Nat.succ_le_succ bound)

end Handover

end ScCosim.Firewall
