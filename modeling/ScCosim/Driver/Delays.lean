import ScCosim.Driver.Calls
import Mathlib.Algebra.Order.Field.Rat
import Mathlib.Data.List.Pairwise
import Mathlib.Tactic.Linarith
import Mathlib.Tactic.NormNum

/-!
# Delays

Every packet carries six time stamps. `sc_iowrite32` and `sc_ioread32` turn them into three
delays in nanoseconds, with the `double` arithmetic read over the rationals.
-/
namespace ScCosim.Driver

open Async Firewall

/-- `struct timespec` -/
structure Timespec where
  tvSec : Int
  tvNsec : Int
  deriving DecidableEq, Repr

def diff (start end_ : Timespec) : Timespec :=
  if end_.tvNsec - start.tvNsec < 0 then
    { tvSec := end_.tvSec - start.tvSec - 1
      tvNsec := 1000000000 + end_.tvNsec - start.tvNsec }
  else
    { tvSec := end_.tvSec - start.tvSec
      tvNsec := end_.tvNsec - start.tvNsec }

/-- The time stamps of `simple_async_packet`. -/
structure Stamps where
  senderOut : Timespec
  channelIn : Timespec
  scIn : Timespec
  scOut : Timespec
  channelOut : Timespec
  senderIn : Timespec
  deriving DecidableEq, Repr

/-- `(double)(seconds*1.0e-9 + nanoseconds)` -/
def reported (seconds nanoseconds : Int) : ℚ := seconds * 1.0e-9 + nanoseconds

/-- What is stored through the three pointers. -/
structure Delays where
  totaldelay : ℚ
  inChannelDelay : ℚ
  outChannelDelay : ℚ
  deriving DecidableEq

/-- The delays of an answered request. The two channel delays in the mean do not go through
`diff`. -/
def Stamps.delays (p : Stamps) : Delays where
  inChannelDelay :=
    let diffStruct := diff p.senderOut p.channelIn
    reported diffStruct.tvSec diffStruct.tvNsec
  outChannelDelay :=
    (reported (p.channelIn.tvSec - p.senderOut.tvSec) (p.channelIn.tvNsec - p.senderOut.tvNsec) +
      reported (p.senderIn.tvSec - p.channelOut.tvSec) (p.senderIn.tvNsec - p.channelOut.tvNsec)) / 2.0
  totaldelay :=
    let diffStruct := diff p.senderOut p.senderIn
    reported diffStruct.tvSec diffStruct.tvNsec

/-- What `sc_iowrite32` stores when the packet is back with its stamps: nothing after a request
to leave or a status error. -/
def scIowrite32Delays (data : Word) (status : AsyncStatus) (p : Stamps) : Option Delays :=
  if data = 0x80000000 then none
  else if status ≠ .okResponse then none
  else some p.delays

def scIoread32Delays (status : AsyncStatus) (p : Stamps) : Option Delays :=
  if status ≠ .okResponse then none else some p.delays

/-! ### Times -/

namespace Timespec

/-- The time in nanoseconds. -/
def time (t : Timespec) : Int := 1000000000 * t.tvSec + t.tvNsec

/-- The nanoseconds are less than a second. -/
def Proper (t : Timespec) : Prop := 0 ≤ t.tvNsec ∧ t.tvNsec < 1000000000

structure Normalised (t : Timespec) : Prop where
  seconds : 0 ≤ t.tvSec
  proper : t.Proper

end Timespec

section diff

variable {start end_ : Timespec}

theorem diff_proper (hs : start.Proper) (he : end_.Proper) : (diff start end_).Proper := by
  unfold Timespec.Proper at hs he ⊢
  unfold diff
  split
  case isTrue borrow => exact ⟨by dsimp only; omega, by dsimp only; omega⟩
  case isFalse => exact ⟨by dsimp only; omega, by dsimp only; omega⟩

/-- With or without a borrow the difference is the time between the two. -/
theorem time_diff (start end_ : Timespec) : (diff start end_).time = end_.time - start.time := by
  unfold diff Timespec.time
  split
  · dsimp only
    omega
  · dsimp only
    omega

theorem diff_normalised (hs : start.Proper) (he : end_.Proper) (order : start.time ≤ end_.time) :
    (diff start end_).Normalised := by
  have proper := diff_proper hs he
  have time := time_diff start end_
  refine ⟨?_, proper⟩
  unfold Timespec.Proper at proper
  unfold Timespec.time at time order
  omega

theorem tvSec_le (hs : start.Proper) (he : end_.Proper) (order : start.time ≤ end_.time) :
    start.tvSec ≤ end_.tvSec := by
  unfold Timespec.Proper at hs he
  unfold Timespec.time at order
  omega

/-- Only within a second is the number the one of nanoseconds. -/
theorem reported_eq_iff (seconds nanoseconds : Int) :
    reported seconds nanoseconds = ((1000000000 * seconds + nanoseconds : Int) : ℚ) ↔ seconds = 0 := by
  unfold reported
  push_cast
  constructor
  · intro same
    have zero : (seconds : ℚ) = 0 := by
      norm_num at same
      linarith
    exact_mod_cast zero
  · rintro rfl
    norm_num

end diff

/-! ### What is reported -/

namespace Stamps

def all (p : Stamps) : List Timespec :=
  [p.senderOut, p.channelIn, p.scIn, p.scOut, p.channelOut, p.senderIn]

/-- The clock never goes back on the way there and back. -/
structure InOrder (p : Stamps) : Prop where
  proper : ∀ t ∈ p.all, t.Proper
  order : p.all.IsChain fun t u => t.time ≤ u.time

/-- The delays in nanoseconds, and the mean of the two channel delays. -/
structure Accurate (p : Stamps) (d : Delays) : Prop where
  total : d.totaldelay = (p.senderIn.time - p.senderOut.time : Int)
  inChannel : d.inChannelDelay = (p.channelIn.time - p.senderOut.time : Int)
  outChannel : d.outChannelDelay = ((p.channelIn.time - p.senderOut.time : Int) +
    (p.senderIn.time - p.channelOut.time : Int)) / 2

/-- The difference of any two stamps is normalised, and what either function stores is
accurate. -/
structure ReportsTrue (p : Stamps) : Prop where
  normalised : p.all.Pairwise fun start end_ => (diff start end_).Normalised
  write : ∀ data status, ∀ d ∈ scIowrite32Delays data status p, p.Accurate d
  read : ∀ status, ∀ d ∈ scIoread32Delays status p, p.Accurate d

section inOrder

variable {p : Stamps}

theorem InOrder.pairwise (h : p.InOrder) : p.all.Pairwise fun t u => t.time ≤ u.time := by
  have trans : IsTrans Timespec fun t u => t.time ≤ u.time := ⟨fun _ _ _ => le_trans⟩
  exact h.order.pairwise

theorem InOrder.normalised (h : p.InOrder) :
    p.all.Pairwise fun start end_ => (diff start end_).Normalised :=
  h.pairwise.imp_of_mem fun hs he order => diff_normalised (h.proper _ hs) (h.proper _ he) order

/-- What goes through `diff` is right exactly within a second. -/
theorem reported_diff_iff {start end_ : Timespec} (normalised : (diff start end_).Normalised) :
    reported (diff start end_).tvSec (diff start end_).tvNsec =
        ((end_.time - start.time : Int) : ℚ) ↔
      end_.time - start.time < 1000000000 := by
  have time := time_diff start end_
  have proper := normalised.proper
  have seconds := normalised.seconds
  rw [← time]
  unfold Timespec.time at time ⊢
  rw [reported_eq_iff]
  unfold Timespec.Proper at proper
  omega

/-- What does not is right for two delays together exactly if no second begins in either. -/
theorem reported_mean_iff {a b c d : Timespec} (first : a.tvSec ≤ b.tvSec) (second : c.tvSec ≤ d.tvSec) :
    (reported (b.tvSec - a.tvSec) (b.tvNsec - a.tvNsec) +
        reported (d.tvSec - c.tvSec) (d.tvNsec - c.tvNsec)) / 2.0 =
      ((b.time - a.time : Int) + (d.time - c.time : Int) : ℚ) / 2 ↔
    a.tvSec = b.tvSec ∧ c.tvSec = d.tvSec := by
  have whole : (reported (b.tvSec - a.tvSec) (b.tvNsec - a.tvNsec) +
        reported (d.tvSec - c.tvSec) (d.tvNsec - c.tvNsec)) / 2.0 =
      ((b.time - a.time : Int) + (d.time - c.time : Int) : ℚ) / 2 ↔
      reported (b.tvSec - a.tvSec + (d.tvSec - c.tvSec)) (b.tvNsec - a.tvNsec + (d.tvNsec - c.tvNsec)) =
        ((1000000000 * (b.tvSec - a.tvSec + (d.tvSec - c.tvSec)) +
          (b.tvNsec - a.tvNsec + (d.tvNsec - c.tvNsec)) : Int) : ℚ) := by
    unfold reported Timespec.time
    push_cast
    constructor
    · intro same
      norm_num at same ⊢
      linarith
    · intro same
      norm_num at same ⊢
      linarith
  rw [whole, reported_eq_iff]
  omega

theorem accurate_delays_iff (h : p.InOrder) :
    p.Accurate p.delays ↔ p.senderIn.time - p.senderOut.time < 1000000000 ∧
      p.senderOut.tvSec = p.channelIn.tvSec ∧ p.channelOut.tvSec = p.senderIn.tvSec := by
  have normalised := h.normalised
  have order := h.pairwise
  have proper := h.proper
  simp only [all, List.pairwise_cons, List.forall_mem_cons] at normalised order proper
  obtain ⟨⟨inChannel, -, -, -, total, -⟩, -⟩ := normalised
  obtain ⟨⟨first, -⟩, ⟨-, -, -, before, -⟩, -, -, ⟨second, -⟩, -⟩ := order
  obtain ⟨senderOut, channelIn, -, -, channelOut, senderIn, -⟩ := proper
  have mean := reported_mean_iff (tvSec_le senderOut channelIn first)
    (tvSec_le channelOut senderIn second)
  constructor
  · intro accurate
    exact ⟨(reported_diff_iff total).mp accurate.total, mean.mp accurate.outChannel⟩
  · rintro ⟨short, same⟩
    -- the way there is a part of the whole
    have shorter : p.channelIn.time - p.senderOut.time < 1000000000 := by omega
    exact ⟨(reported_diff_iff total).mpr short, (reported_diff_iff inChannel).mpr shorter,
      mean.mpr same⟩

/-- The three delays are those in nanoseconds exactly if the whole takes less than a second and
none begins on the way there or on the way back. -/
theorem reports_true_iff (h : p.InOrder) :
    p.ReportsTrue ↔ p.senderIn.time - p.senderOut.time < 1000000000 ∧
      p.senderOut.tvSec = p.channelIn.tvSec ∧ p.channelOut.tvSec = p.senderIn.tvSec := by
  rw [← accurate_delays_iff h]
  constructor
  · intro reports
    exact reports.read .okResponse p.delays rfl
  · intro accurate
    refine ⟨h.normalised, fun data status d stored => ?_, fun status d stored => ?_⟩
    · unfold scIowrite32Delays at stored
      split at stored
      · cases stored
      · split at stored
        · cases stored
        · cases stored
          exact accurate
    · unfold scIoread32Delays at stored
      split at stored
      · cases stored
      · cases stored
        exact accurate

end inOrder

/-- Two microseconds in the channels and ten in the simulator, over the end of a second. -/
def overSecond : Stamps :=
  ⟨⟨7, 999990000⟩, ⟨7, 999991000⟩, ⟨7, 999992000⟩, ⟨8, 2000⟩, ⟨8, 3000⟩, ⟨8, 4000⟩⟩

theorem inOrder_overSecond : overSecond.InOrder where
  proper := by unfold Timespec.Proper; decide
  order := by unfold Timespec.time; decide

theorem reports_true_iff_over_second :
    overSecond.ReportsTrue ↔ overSecond.senderIn.time - overSecond.senderOut.time < 1000000000 ∧
      overSecond.senderOut.tvSec = overSecond.channelIn.tvSec ∧
      overSecond.channelOut.tvSec = overSecond.senderIn.tvSec :=
  reports_true_iff inOrder_overSecond

/-- The simulator takes two seconds. -/
def slow : Stamps := ⟨⟨7, 0⟩, ⟨7, 1000⟩, ⟨7, 2000⟩, ⟨9, 2000⟩, ⟨9, 3000⟩, ⟨9, 4000⟩⟩

/-- Two seconds and 4000 ns are reported as a little more than 4000 ns. -/
theorem seconds_are_lost : ¬ ∀ p : Stamps, p.InOrder → p.ReportsTrue := by
  intro all
  have ordered : slow.InOrder :=
    ⟨by unfold Timespec.Proper; decide, by unfold Timespec.time; decide⟩
  have accurate := (all slow ordered).read .okResponse slow.delays rfl
  have short := ((accurate_delays_iff ordered).mp accurate).1
  exact absurd short (by decide)

end Stamps

end ScCosim.Driver
