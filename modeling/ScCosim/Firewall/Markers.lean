import Mathlib.Data.List.ReduceOption
import ScCosim.Firewall.Counters
import ScCosim.Firewall.Round

/-!
# Markers and answers

A read sends a marker to `init_responce_fifo` of its own port and a packet into the switch, and
the two race to the same register. Whether the marker wins is decided when the read is accepted:
by how long the marker can wait for `entry_response` and how soon the answer can be there.
-/
namespace ScCosim.Firewall

open Kernel

/-! ### What happens at a port -/

inductive PortEvent where
  /-- `interface_in` accepts a read: its marker and its packet are written. -/
  | accepted (seq : Nat)
  /-- `entry_response` publishes a marker. -/
  | marked
  /-- `entry_response` publishes the answer of a read. -/
  | answered (seq : Nat)
  deriving DecidableEq, Repr

namespace PortEvent

/-- The reads that have been accepted, oldest first. -/
def accepts (T : List PortEvent) : List Nat :=
  T.filterMap fun
    | .accepted s => some s
    | _ => none

def marks (T : List PortEvent) : Nat := T.count .marked

variable {T u v : List PortEvent}

@[simp] theorem accepts_nil : accepts [] = [] := rfl

@[simp] theorem accepts_append : accepts (u ++ v) = accepts u ++ accepts v := List.filterMap_append

@[simp] theorem marks_append : marks (u ++ v) = marks u + marks v := List.count_append

@[simp] theorem accepts_cons (x : PortEvent) : accepts (x :: T) =
    (match x with | .accepted s => [s] | _ => []) ++ accepts T := by
  cases x <;> rfl

/-- A read on the list is an event of the trace. -/
theorem split_of_accepts {l m : List Nat} {s : Nat} (h : accepts T = l ++ s :: m) :
    ∃ u v, T = u ++ .accepted s :: v ∧ accepts u = l ∧ accepts v = m := by
  obtain ⟨u, w, rfl, first, rest⟩ := List.filterMap_eq_append_iff.mp h
  obtain ⟨w₁, x, w₂, rfl, none, some, last⟩ := List.filterMap_eq_cons_iff.mp rest
  cases x with
  | marked | answered => cases some
  | accepted t =>
    cases some
    refine ⟨u ++ w₁, w₂, by simp, ?_, last⟩
    have empty : accepts w₁ = [] := List.filterMap_eq_nil_iff.mpr none
    rw [accepts_append, empty, List.append_nil]
    exact first

end PortEvent

/-- The BRAM that the word names. -/
def Origin.home (o : Origin) : Port := portOf (dest o.word)

namespace Device

open PortEvent Responces

def portEvents (i : Port) (d : Device) (_ : Action ⊕ (Port × Word)) (e : Device) : List PortEvent :=
  (((d.switch.inFifo i).writtenSince (e.switch.inFifo i)).filterMap fun f =>
    if opcode f.origin.word = 1 then some (.accepted f.origin.seq) else none) ++
  (((d.responces.initResponceFifo i).readOff (e.responces.initResponceFifo i)).filterMap fun v =>
    if v = 0x80000000 then some .marked else none) ++
  (published d e).filterMap fun f =>
    if f.origin.port = i then some (.answered f.origin.seq) else none

/-- If `interface_in_i` accepts a read now, its marker will be published before the answer can be
in its response FIFO, or before the block of that FIFO is next reached. -/
def InTime (d : Device) (a : Action ⊕ (Port × Word)) : Prop :=
  ∀ i, a = .inl (.run (.interfaceIn i)) → ∀ f ∈ d.sends i, opcode f.origin.word = 1 →
    d.waits i (d.responces.initResponceFifo i).contents.length ≤ 4 + rank i (.served f.origin.home)

instance (d : Device) (a : Action ⊕ (Port × Word)) : Decidable (d.InTime a) := by
  unfold InTime
  infer_instance

/-- Markers come first, given all that has happened at port `i`. -/
structure Announced (i : Port) (T : List PortEvent) (d : Device) : Prop where
  /-- When a read is answered, as many markers have been published as reads had been accepted up
  to it. -/
  markerFirst : ∀ pre s, pre ++ [.answered s] <+: T →
    ∃ u v, pre = u ++ .accepted s :: v ∧ (accepts u).length < marks pre
  /-- Once the latest read has been answered, bit 31 is down. -/
  settled : ∀ u s v, T = u ++ .accepted s :: v → accepts v = [] → .answered s ∈ v →
    pending (d.responces.responceS i).next = false
  shown : d.dirty = false → (d.responces.responceS i).cur = (d.responces.responceS i).next

/-- While bit 31 is up, the latest read has not been answered and is in the device. -/
def Awaited (i : Port) (T : List PortEvent) (d : Device) : Prop :=
  pending (d.responces.responceS i).next = true → ∃ u s v, T = u ++ .accepted s :: v ∧
    accepts v = [] ∧ .answered s ∉ v ∧ ∃ o, o.port = i ∧ o.seq = s ∧ d.Carries o

/-! ### The markers that wait -/

/-- A value in `init_responce_fifo`: the marker of a read, or the zero of a denied one. -/
def value : Option Nat → Word
  | some _ => 0x80000000
  | none => 0

/-- A read of port `i`. -/
def IsRead (i : Port) (o : Origin) : Prop := o.port = i ∧ opcode o.word = 1

/-- Every marker that waits will be published before its read's answer. -/
def Timely (i : Port) (owners : List (Option Nat)) (d : Device) : Prop :=
  ∀ j f n, owners[j]? = some (some f.origin.seq) → d.Due f n → IsRead i f.origin →
    d.waits i j ≤ n + rank i (.served f.origin.home)

variable {d e : Device} {i : Port} {owners : List (Option Nat)}
  {a : Action ⊕ (Port × Word)}

/-- The values that a step takes off the FIFO are gone from the front; those it adds must be
timely themselves. -/
theorem timely_step (more : List (Option Nat)) (h : Timely i owners d) (nodup : d.ready.Nodup)
    (seen : d.dirty = false → (d.responces.initResponceFifo i).written = [])
    (hs : openMachine.step d a = some e) (port : ∀ k, ∀ f ∈ d.sends k, f.origin.port = k) {p : Nat}
    (taken : ((d.responces.initResponceFifo i).readOff (e.responces.initResponceFifo i)).length = p)
    (contents : (e.responces.initResponceFifo i).contents = (owners.drop p ++ more).map value)
    (other : a = .inl (.run (.interfaceIn i)) → ∀ f ∈ d.sends i, IsRead i f.origin →
      some f.origin.seq ∉ owners)
    (own : ∀ j f n, more[j]? = some (some f.origin.seq) → e.Due f n → IsRead i f.origin →
      e.waits i ((owners.drop p).length + j) ≤ n + rank i (.served f.origin.home)) :
    Timely i (owners.drop p ++ more) e := by
  intro j f n at_ due read
  by_cases old : j < (owners.drop p).length
  · rw [List.getElem?_append_left old, List.getElem?_drop] at at_
    have held : j < (e.responces.initResponceFifo i).contents.length := by
      rw [contents, List.length_map, List.length_append]
      omega
    have marker := waits_of_step nodup seen hs held
    rw [taken, Nat.add_comm j p] at marker
    rcases d.due_of_step hs due with ⟨g, m, was, origin, near⟩ | ⟨k, rfl, sent, -⟩
    · have before := h (p + j) g m (origin ▸ at_) was (origin ▸ read)
      rw [origin] at before
      omega
    · -- the packet is of a read that has just been accepted
      obtain rfl : k = i := (port k f sent).symm.trans read.1
      exact absurd (List.mem_of_getElem? at_) (other rfl f sent read)
  · have later := own (j - (owners.drop p).length) f n
    rw [List.getElem?_append_right (by omega)] at at_
    rw [Nat.add_sub_cancel' (by omega)] at later
    exact later at_ due read

/-! ### The ledger of a port -/

/-- What the events at port `i` say of the state. -/
structure Ledger (i : Port) (T : List PortEvent) (d : Device) : Prop where
  increasing : (accepts T).Pairwise (· < ·)
  below : ∀ s ∈ accepts T, s < (d.ingress i).taken.length
  blocked : ∀ f, (d.ingress i).pc = .writeForward f →
    f.origin.seq < (d.ingress i).taken.length ∧ ∀ s ∈ accepts T, s < f.origin.seq
  known : ∀ f n, d.Due f n → IsRead i f.origin → f.origin.seq ∈ accepts T
  /-- The markers of the reads in `done` have been published, the others wait in order. -/
  queue : ∃ done owners, accepts T = done ++ owners.reduceOption ∧ done.length = marks T ∧
    (d.responces.initResponceFifo i).contents = owners.map value ∧ Timely i owners d
  markerFirst : ∀ pre s, pre ++ [.answered s] <+: T →
    ∃ u v, pre = u ++ .accepted s :: v ∧ (accepts u).length < marks pre
  pending : pending (d.responces.responceS i).next = true →
    ∃ u v, T = u ++ .marked :: v ∧ ∀ x ∈ v, ∃ s, x = .accepted s

/-- A step in which nothing happens at port `i`. -/
structure Quiet (i : Port) (a : Action ⊕ (Port × Word)) (d e : Device) : Prop where
  events : portEvents i d a e = []
  sends : a = .inl (.run (.interfaceIn i)) → ∀ f ∈ d.sends i, opcode f.origin.word ≠ 1
  fifo : (d.responces.initResponceFifo i).readOff (e.responces.initResponceFifo i) = []
  contents : (e.responces.initResponceFifo i).contents = (d.responces.initResponceFifo i).contents ∨
    (e.responces.initResponceFifo i).contents = (d.responces.initResponceFifo i).contents ++ [0]
  taken : (d.ingress i).taken.length ≤ (e.ingress i).taken.length
  blocked : ∀ f, (e.ingress i).pc = .writeForward f → (d.ingress i).pc = .writeForward f ∨
    (f.origin.seq = (d.ingress i).taken.length ∧ f.origin.seq < (e.ingress i).taken.length)
  responceS : Firewall.pending (e.responces.responceS i).next = true →
    Firewall.pending (d.responces.responceS i).next = true

variable {T : List PortEvent}

theorem reduceOption_none (l : List (Option Nat)) : (l ++ [none]).reduceOption = l.reduceOption := by
  simp [List.reduceOption_append, List.reduceOption_singleton]

theorem Ledger.quiet (h : Ledger i T d) (nodup : d.ready.Nodup)
    (seen : d.dirty = false → (d.responces.initResponceFifo i).written = [])
    (hs : openMachine.step d a = some e) (port : ∀ k, ∀ f ∈ d.sends k, f.origin.port = k)
    (quiet : Quiet i a d e) : Ledger i T e := by
  obtain ⟨done, owners, split, marked, contents, timely⟩ := h.queue
  have timely_more : ∀ more, (e.responces.initResponceFifo i).contents = (owners ++ more).map value →
      (∀ (j : Nat) (s : Nat), more[j]? ≠ some (some s)) → Timely i (owners ++ more) e := by
    intro more contents none
    refine timely_step (p := 0) more timely nodup seen hs port (by rw [quiet.fifo]; rfl) contents ?_ ?_
    · exact fun same f sent read => absurd read.2 (quiet.sends same f sent)
    · intro j f n at_
      exact absurd at_ (none j _)
  constructor
  case increasing => exact h.increasing
  case below => exact fun s member => (h.below s member).trans_le quiet.taken
  case blocked =>
    intro f at_
    rcases quiet.blocked f at_ with old | ⟨seq, below⟩
    · obtain ⟨below, before⟩ := h.blocked f old
      exact ⟨below.trans_le quiet.taken, before⟩
    · exact ⟨below, fun s member => seq ▸ h.below s member⟩
  case known =>
    intro f n due read
    rcases d.due_of_step hs due with ⟨g, m, was, origin, -⟩ | ⟨k, rfl, sent, -⟩
    · exact origin ▸ h.known g m was (origin ▸ read)
    · obtain rfl : k = i := (port k f sent).symm.trans read.1
      exact absurd read.2 (quiet.sends rfl f sent)
  case queue =>
    rcases quiet.contents with same | more
    · refine ⟨done, owners, split, marked, by rw [same, contents], ?_⟩
      simpa using timely_more [] (by rw [same, contents, List.append_nil]) (by simp)
    · refine ⟨done, owners ++ [none], by rw [reduceOption_none, split], marked, ?_, ?_⟩
      · simp [more, contents, value]
      · refine timely_more [none] (by simp [more, contents, value]) fun j s => ?_
        cases j <;> simp
  case markerFirst => exact h.markerFirst
  case pending => exact fun up => h.pending (quiet.responceS up)

/-- A read is accepted: it is later than all others, and in time. -/
theorem Ledger.accept (h : Ledger i T d) (nodup : d.ready.Nodup)
    (seen : d.dirty = false → (d.responces.initResponceFifo i).written = [])
    (hs : openMachine.step d (.inl (.run (.interfaceIn i))) = some e)
    (port : ∀ k, ∀ f ∈ d.sends k, f.origin.port = k) {f : Flit} (sent : d.sends i = [f])
    (inTime : d.waits i (d.responces.initResponceFifo i).contents.length ≤
      4 + rank i (.served f.origin.home))
    (latest : ∀ s ∈ accepts T, s < f.origin.seq)
    (taken : f.origin.seq < (e.ingress i).taken.length)
    (longer : (d.ingress i).taken.length ≤ (e.ingress i).taken.length)
    (pc : (e.ingress i).pc = .wait1)
    (fifo : (d.responces.initResponceFifo i).readOff (e.responces.initResponceFifo i) = [])
    (contents : (e.responces.initResponceFifo i).contents =
      (d.responces.initResponceFifo i).contents ++ [0x80000000])
    (responceS : e.responces.responceS i = d.responces.responceS i) :
    Ledger i (T ++ [.accepted f.origin.seq]) e := by
  obtain ⟨done, owners, split, marked, values, timely⟩ := h.queue
  have comes : ∀ g n, e.Due g n → IsRead i g.origin →
      (g.origin.seq ∈ accepts T) ∨ (g = f ∧ n = 4) := by
    intro g n due read
    rcases d.due_of_step hs due with ⟨g₀, m, was, origin, -⟩ | ⟨k, same, sends, rfl⟩
    · exact Or.inl (origin ▸ h.known g₀ m was (origin ▸ read))
    · cases same
      exact Or.inr ⟨List.mem_singleton.mp (sent ▸ sends), rfl⟩
  have values' : (e.responces.initResponceFifo i).contents =
      (owners ++ [some f.origin.seq]).map value := by simp [contents, values, value]
  constructor
  case increasing =>
    simpa using List.pairwise_append.mpr ⟨h.increasing, List.pairwise_singleton .., by simpa using latest⟩
  case below =>
    intro s member
    rcases (by simpa using member : s ∈ accepts T ∨ s = f.origin.seq) with old | rfl
    · exact (h.below s old).trans_le longer
    · exact taken
  case blocked => simp [pc]
  case known =>
    intro g n due read
    rcases comes g n due read with old | ⟨rfl, -⟩
    · simp [old]
    · simp
  case queue =>
    refine ⟨done, owners ++ [some f.origin.seq], ?_, by simp [marked, marks], values', ?_⟩
    · simp [split, List.reduceOption_append, List.reduceOption_singleton]
    · refine timely_step (p := 0) _ timely nodup seen hs port (by rw [fifo]; rfl) values' ?_ ?_
      · intro _ g sends read owned
        obtain rfl : g = f := List.mem_singleton.mp (sent ▸ sends)
        have old : g.origin.seq ∈ accepts T := by
          rw [split]
          exact List.mem_append_right _ (List.reduceOption_mem_iff.mpr owned)
        exact (latest _ old).false
      · intro j g n at_ due read
        obtain ⟨rfl, same⟩ : j = 0 ∧ f.origin.seq = g.origin.seq := by
          cases j <;> simp_all
        rcases comes g n due read with old | ⟨rfl, rfl⟩
        · exact absurd (latest _ old) (by omega)
        · have held : owners.length < (e.responces.initResponceFifo i).contents.length := by
            simp [values']
          have marker := waits_of_step nodup seen hs held
          have length : (d.responces.initResponceFifo i).contents.length = owners.length := by
            simp [values]
          rw [fifo] at marker
          rw [length] at inTime
          simp at marker
          exact marker.trans inTime
  case markerFirst =>
    intro pre s first
    rcases List.prefix_concat_iff.mp first with whole | old
    · simp at whole
    · exact h.markerFirst pre s old
  case pending =>
    intro up
    obtain ⟨u, v, rfl, rest⟩ := h.pending (responceS ▸ up)
    refine ⟨u, v ++ [.accepted f.origin.seq], by simp, fun x member => ?_⟩
    rcases List.mem_append.mp member with old | new
    · exact rest x old
    · exact ⟨_, List.mem_singleton.mp new⟩

/-- The first value of the FIFO is published. -/
theorem Ledger.publish (h : Ledger i T d) (nodup : d.ready.Nodup)
    (seen : d.dirty = false → (d.responces.initResponceFifo i).written = [])
    (hs : openMachine.step d (.inl (.run .entryResponse)) = some e)
    (port : ∀ k, ∀ f ∈ d.sends k, f.origin.port = k) {v : Word}
    (fifo : (d.responces.initResponceFifo i).readOff (e.responces.initResponceFifo i) = [v])
    (contents : (d.responces.initResponceFifo i).contents =
      v :: (e.responces.initResponceFifo i).contents)
    (ingress : e.ingress = d.ingress) (responceS : (e.responces.responceS i).next = v) :
    Ledger i (T ++ if v = 0x80000000 then [.marked] else []) e := by
  obtain ⟨done, owners, split, marked, values, timely⟩ := h.queue
  have same : accepts (T ++ if v = 0x80000000 then [.marked] else []) = accepts T := by
    split <;> simp
  obtain ⟨x, rest, rfl, rfl, values'⟩ : ∃ x rest, owners = x :: rest ∧ v = value x ∧
      (e.responces.initResponceFifo i).contents = rest.map value := by
    rw [contents] at values
    cases owners with
    | nil => cases values
    | cons x rest => exact ⟨x, rest, rfl, List.head_eq_of_cons_eq values, List.tail_eq_of_cons_eq values⟩
  constructor
  case increasing => exact same ▸ h.increasing
  case below => exact same ▸ ingress ▸ h.below
  case blocked => exact same ▸ ingress ▸ h.blocked
  case known =>
    intro f n due read
    rw [same]
    rcases d.due_of_step hs due with ⟨g, m, was, origin, -⟩ | ⟨k, other, -⟩
    · exact origin ▸ h.known g m was (origin ▸ read)
    · cases other
  case queue =>
    have later : Timely i rest e := by
      have := timely_step (p := 1) [] timely nodup seen hs port (by rw [fifo]; rfl)
        (by simpa using values') (by simp) (by simp)
      simpa using this
    -- a marker is published for the read that it stands for
    cases x with
    | none => exact ⟨done, rest, same.trans split, by simpa [value] using marked, values', later⟩
    | some s =>
      refine ⟨done ++ [s], rest, same.trans (by simpa using split), ?_, values', later⟩
      simp [marked, marks, value]
  case markerFirst =>
    intro pre s first
    split at first
    · rcases List.prefix_concat_iff.mp first with whole | old
      · simp at whole
      · exact h.markerFirst pre s old
    · exact h.markerFirst pre s (by simpa using first)
  case pending =>
    intro up
    rw [responceS] at up
    cases x with
    | none => simp [value, Firewall.pending] at up
    | some s => exact ⟨T, [], by simp [value], by simp⟩

/-- An answer is published: its marker does not wait any more. -/
theorem Ledger.answer (h : Ledger i T d) (nodup : d.ready.Nodup)
    (seen : d.dirty = false → (d.responces.initResponceFifo i).written = [])
    (hs : openMachine.step d (.inl (.run .entryResponse)) = some e)
    (port : ∀ k, ∀ f ∈ d.sends k, f.origin.port = k) {f : Flit} (read : IsRead i f.origin)
    (first : f ∈ (d.responces.responceFifo f.origin.home).readable)
    (ready : .entryResponse ∈ d.ready) (turn : d.responces.nextPc = .served f.origin.home)
    (none : (d.responces.initResponceFifo f.origin.home).readable = [])
    (fifo : (d.responces.initResponceFifo i).readOff (e.responces.initResponceFifo i) = [])
    (contents : e.responces.initResponceFifo i = d.responces.initResponceFifo i)
    (ingress : e.ingress = d.ingress)
    (responceS : Firewall.pending (e.responces.responceS i).next = false) :
    Ledger i (T ++ [.answered f.origin.seq]) e := by
  obtain ⟨done, owners, split, marked, values, timely⟩ := h.queue
  have same : accepts (T ++ [.answered f.origin.seq]) = accepts T := by simp
  have now : d.Due f 0 := .now (.responceFifo f.origin.home) first ready
  have published : f.origin.seq ∈ done := by
    have accepted := h.known f 0 now read
    rw [split] at accepted
    refine (List.mem_append.mp accepted).resolve_right fun waiting => ?_
    obtain ⟨j, at_⟩ := List.mem_iff_getElem?.mp (List.reduceOption_mem_iff.mp waiting)
    have marker := timely j f 0 at_ now read
    have quiet : ¬ d.responces.Announces i := by
      rintro ⟨here, waits⟩
      rw [turn] at here
      cases here
      exact waits none
    rw [waits_of_ready ready, if_neg quiet, turn] at marker
    omega
  constructor
  case increasing => exact same ▸ h.increasing
  case below => exact same ▸ ingress ▸ h.below
  case blocked => exact same ▸ ingress ▸ h.blocked
  case known =>
    intro g n due read
    rw [same]
    rcases d.due_of_step hs due with ⟨g₀, m, was, origin, -⟩ | ⟨k, other, -⟩
    · exact origin ▸ h.known g₀ m was (origin ▸ read)
    · cases other
  case queue =>
    refine ⟨done, owners, same ▸ split, by simp [marked, marks], by rw [contents, values], ?_⟩
    have := timely_step (p := 0) [] timely nodup seen hs port (by rw [fifo]; rfl)
      (by simp [contents, values]) (by simp) (by simp)
    simpa using this
  case markerFirst =>
    intro pre s whole
    rcases List.prefix_concat_iff.mp whole with last | old
    · obtain ⟨rfl, last⟩ := List.append_inj' last rfl
      obtain rfl : f.origin.seq = s := by simpa using last.symm
      obtain ⟨l, m, rfl⟩ := List.mem_iff_append.mp published
      have among : accepts pre = l ++ f.origin.seq :: (m ++ owners.reduceOption) := by
        simpa using split
      obtain ⟨u, v, rfl, before, -⟩ := split_of_accepts among
      refine ⟨u, v, rfl, ?_⟩
      rw [← marked, before]
      simp
    · exact h.markerFirst pre s old
  case pending => simp [responceS]

/-! ### Each step keeps the ledger -/

/-- What `interface_in_k` sends is of its own port. -/
theorem port_of_sends {G : Origin → Prop} (placed : Placed G d) (k : Port) :
    ∀ f ∈ d.sends k, f.origin.port = k := by
  intro f sent
  rcases IngressStep.run_inFifo k (portBits k) (d.setup k).fwRange (d.responces.responceS k).cur
    ⟨d.ingress k, d.switch.inFifo k, d.responces.initResponceFifo k, false⟩ with
    same | ⟨g, push, from_⟩
  · simp [sends, judged, same] at sent
  · obtain rfl : f = g := by simpa [sends, judged, push] using sent
    exact from_.elim id fun held => (placed.forwarding k f held).2.1

/-- An answer is at the BRAM that its read names. -/
theorem home_of_reachable (h : openMachine.Reachable d) :
    ∀ k f, d.Answering k f → f.origin.home = k := by
  obtain ⟨as, hr⟩ := h
  refine openMachine.run_history
    (I := fun _ d => ∀ k f, d.Answering k f → f.origin.home = k) ?_ ?_ hr
  · intro k f held
    simp [Answering, openMachine, new, Responces.new, Egress.new] at held
  · intro as d a e before h step k f held
    rcases answering_of_step step held with old | ⟨-, g, rest, read, -, -, rfl⟩
    · exact h k f old
    · have first : g ∈ (d.switch.outFifo k).contents :=
        (Fifo.contents_of_nbRead read).1 ▸ List.mem_cons_self ..
      obtain ⟨⟨-, word⟩, routed⟩ := (placed_of_reachable ⟨as, before⟩).outFifo k g first
      rw [← routed, word, Origin.dest_sent]
      rfl

/-- When nothing has run since the update phase, what was written shows. -/
structure Clean (d : Device) : Prop where
  seen : ∀ i, (d.responces.initResponceFifo i).written = []
  shown : ∀ i, (d.responces.responceS i).cur = (d.responces.responceS i).next

theorem clean_of_reachable (h : openMachine.Reachable d) : d.dirty = false → d.Clean := by
  refine h.invariant (I := fun d => d.dirty = false → d.Clean) (fun _ => ⟨fun _ => rfl, fun _ => rfl⟩) ?_
  intro d a e was hs clean
  cases transition_of_openStep hs with
  | run | request | arrive => cases clean
  | edge => exact ⟨(was clean).seen, (was clean).shown⟩
  | delta => exact ⟨fun _ => rfl, fun _ => rfl⟩

/-- The other processes leave the port and its FIFO alone. -/
theorem quiet_run {q : Proc} (ingress : q ≠ .interfaceIn i) (responce : q ≠ .entryResponse) :
    Quiet i (.inl (.run q)) d (d.exec q) := by
  obtain ⟨alike, fifo⟩ := alike_run (d := d) responce
  have answers : published d (d.exec q) = [] := by
    simp [published, Fifo.readOff, alike.answers]
  have written : (d.switch.inFifo i).writtenSince ((d.exec q).switch.inFifo i) = [] :=
    d.writtenSince_inFifo ingress
  obtain ⟨contents, responceS⟩ : (d.exec q).responces.initResponceFifo i =
      d.responces.initResponceFifo i ∧ (d.exec q).responces.responceS i = d.responces.responceS i := by
    cases moving : moves q with
    | false =>
      have same : (d.exec q).responces = d.responces := (d.process_apart moving).2.2
      simp [same]
    | true =>
      cases q with
      | entryResponse => exact absurd rfl responce
      | interfaceIn k =>
        have apart : i ≠ k := fun same => ingress (by rw [same])
        simp [exec, interfaceIn, apart]
      | entrySw k => rw [exec, process_entrySw]; exact ⟨rfl, rfl⟩
      | interfaceOut k => simp [exec, interfaceOut]
      | _ => cases moving
  have port : ((d.exec q).ingress i).taken = (d.ingress i).taken ∧
      ((d.exec q).ingress i).pc = (d.ingress i).pc := by
    by_cases write : q = .executeWriteThread
    · subst write
      obtain ⟨_, fifo, _, _, same, _⟩ := d.executeWriteThread_port i
      simp [exec, process, same]
    · have same : (d.exec q).ingress i = d.ingress i := d.process_ingress ingress write
      simp [same]
  constructor
  case events => simp [portEvents, written, fifo, answers]
  case sends =>
    intro same
    cases same
    exact absurd rfl ingress
  case fifo => exact fifo i
  case contents => exact Or.inl (by rw [contents])
  case taken => exact (congrArg List.length port.1).ge
  case blocked => exact fun f at_ => Or.inl (port.2 ▸ at_)
  case responceS => exact fun up => responceS ▸ up

variable {as : List (Action ⊕ (Port × Word))}

/-- `interface_in_i` runs. -/
theorem Ledger.interfaceIn (h : Ledger i T d) (hr : openMachine.run new as = some d)
    (hs : openMachine.step d (.inl (.run (.interfaceIn i))) = some (d.exec (.interfaceIn i)))
    (inTime : d.InTime (.inl (.run (.interfaceIn i)))) :
    Ledger i (T ++ portEvents i d (.inl (.run (.interfaceIn i))) (d.exec (.interfaceIn i)))
      (d.exec (.interfaceIn i)) := by
  have nodup := ready_nodup ⟨as, hr⟩
  have seen := fun clean => (clean_of_reachable ⟨as, hr⟩ clean).seen i
  have placed := placed_of_reachable ⟨as, hr⟩
  have port := port_of_sends placed
  obtain ⟨alike, fifo⟩ := alike_run (d := d) (q := .interfaceIn i) (by simp)
  have answers : published d (d.exec (.interfaceIn i)) = [] := by
    simp [published, Fifo.readOff, alike.answers]
  have ingress : (d.exec (.interfaceIn i)).ingress i = (d.judged i).ingress := by
    simp [exec, Device.interfaceIn, judged]
  have inFifo : (d.exec (.interfaceIn i)).switch.inFifo i = (d.judged i).inFifo := by
    simp [exec, Device.interfaceIn, judged]
  have markers : (d.exec (.interfaceIn i)).responces.initResponceFifo i =
      (d.judged i).initResponceFifo := by simp [exec, Device.interfaceIn, judged]
  have responceS : (d.exec (.interfaceIn i)).responces.responceS i = d.responces.responceS i := by
    simp [exec, Device.interfaceIn]
  have events : portEvents i d (.inl (.run (.interfaceIn i))) (d.exec (.interfaceIn i)) =
      (d.sends i).filterMap fun f =>
        if opcode f.origin.word = 1 then some (.accepted f.origin.seq) else none := by
    simp [portEvents, fifo, answers, inFifo, sends]
  -- a packet of the word that the run takes, or one that the process was blocked with
  have sent : ∀ f, IngressStep.Sent i
      ⟨d.ingress i, d.switch.inFifo i, d.responces.initResponceFifo i, false⟩ (d.judged i) f →
      opcode f.origin.word = 1 ∧ (∀ s ∈ accepts T, s < f.origin.seq) ∧
        f.origin.seq < (d.judged i).ingress.taken.length ∧
        (d.ingress i).taken.length ≤ (d.judged i).ingress.taken.length := by
    rintro f (⟨taking, op⟩ | ⟨pc, taken⟩)
    · refine ⟨op, fun s member => ?_, ?_, ?_⟩
      · rw [taking.seq]
        exact h.below s member
      · rw [taking.seq, taking.taken]
        exact Nat.lt_succ_self _
      · rw [taking.taken]
        exact Nat.le_succ _
    · obtain ⟨below, before⟩ := h.blocked f pc
      exact ⟨(placed.forwarding i f pc).2.2, before, taken ▸ below, (congrArg List.length taken).ge⟩
  cases IngressStep.sending_run i (portBits i) (d.setup i).fwRange (d.responces.responceS i).cur
    ⟨d.ingress i, d.switch.inFifo i, d.responces.initResponceFifo i, false⟩ with
  | still same zero longer blocked =>
    have none : d.sends i = [] := by simp [sends, judged, same]
    rw [events, none, List.filterMap_nil, List.append_nil]
    refine h.quiet nodup seen hs port ⟨by rw [events, none]; rfl, fun _ f sent => ?_, fifo i, ?_,
      ingress ▸ longer, fun f at_ => ?_, responceS ▸ id⟩
    · simp [none] at sent
    · rw [markers, judged]
      rcases zero with same | push
      · exact Or.inl (by rw [same])
      · exact Or.inr (by rw [push]; exact Fifo.push_contents ..)
    · rw [ingress] at at_ ⊢
      rcases blocked f at_ with ⟨taking, -⟩ | ⟨pc, -⟩
      · refine Or.inr ⟨taking.seq, ?_⟩
        rw [taking.seq]
        exact taking.taken ▸ Nat.lt_succ_self _
      · exact Or.inl pc
  | write f push taking op same pc =>
    have only : d.sends i = [f] := by simp [sends, judged, push]
    have none : portEvents i d (.inl (.run (.interfaceIn i))) (d.exec (.interfaceIn i)) = [] := by
      rw [events, only, List.filterMap_cons, if_neg op]
      rfl
    rw [none, List.append_nil]
    refine h.quiet nodup seen hs port ⟨none, fun _ g sent => ?_, fifo i, Or.inl ?_, ?_, ?_,
      responceS ▸ id⟩
    · obtain rfl : g = f := List.mem_singleton.mp (only ▸ sent)
      exact op
    · rw [markers, judged, same]
    · rw [ingress]
      exact taking.taken ▸ Nat.le_succ _
    · intro g at_
      rw [ingress] at at_
      exact absurd (pc.symm.trans at_) (by simp)
  | read f push marker from_ pc =>
    have push : (d.judged i).inFifo = (d.switch.inFifo i).push f := push
    have only : d.sends i = [f] := by simp [sends, push]
    obtain ⟨op, latest, below, longer⟩ := sent f from_
    have result := h.accept nodup seen hs port only
      (inTime i rfl f (only ▸ List.mem_singleton_self f) op) latest (ingress ▸ below)
      (ingress ▸ longer) (ingress ▸ pc) (fifo i)
      (by rw [markers, judged, marker]; exact Fifo.push_contents ..) responceS
    simpa [events, only, op] using result

/-- The answers published in a step that takes one. -/
theorem published_of_one {n : Port} {f : Flit}
    (own : (d.responces.responceFifo n).readOff (e.responces.responceFifo n) = [f])
    (others : ∀ k, k ≠ n →
      (d.responces.responceFifo k).readOff (e.responces.responceFifo k) = []) :
    published d e = [f] := by
  match n with
  | 0 => simp [published, own, others 1, others 2, others 3]
  | 1 => simp [published, own, others 0, others 2, others 3]
  | 2 => simp [published, own, others 0, others 1, others 3]
  | 3 => simp [published, own, others 0, others 1, others 2]

/-- `entry_response` runs. -/
theorem Ledger.entryResponse (h : Ledger i T d) (hr : openMachine.run new as = some d)
    (hs : openMachine.step d (.inl (.run .entryResponse)) = some (d.exec .entryResponse)) :
    Ledger i (T ++ portEvents i d (.inl (.run .entryResponse)) (d.exec .entryResponse))
      (d.exec .entryResponse) := by
  have nodup := ready_nodup ⟨as, hr⟩
  have seen := fun clean => (clean_of_reachable ⟨as, hr⟩ clean).seen i
  have placed := placed_of_reachable ⟨as, hr⟩
  have port := port_of_sends placed
  have ready : Proc.entryResponse ∈ d.ready := by
    have closed : machine.step d (.run .entryResponse) = some (d.exec .entryResponse) := hs
    cases move_of_step closed with
    | run q runs => simpa [runnable, Device.blocked] using runs
  generalize result : d.exec .entryResponse = e at hs ⊢
  have ingress : e.ingress = d.ingress := result ▸ rfl
  have switch : e.switch = d.switch := result ▸ rfl
  have responces : e.responces = d.responces.run.1 := result ▸ rfl
  have events : portEvents i d (.inl (.run .entryResponse)) e =
      (((d.responces.initResponceFifo i).readOff (e.responces.initResponceFifo i)).filterMap fun v =>
        if v = 0x80000000 then some .marked else none) ++
      (published d e).filterMap fun f =>
        if f.origin.port = i then some (.answered f.origin.seq) else none := by
    simp [portEvents, switch]
  -- nothing is published at the port
  have quiet : portEvents i d (.inl (.run .entryResponse)) e = [] →
      e.responces.initResponceFifo i = d.responces.initResponceFifo i →
      (Firewall.pending (e.responces.responceS i).next = true →
        Firewall.pending (d.responces.responceS i).next = true) →
      Ledger i (T ++ portEvents i d (.inl (.run .entryResponse)) e) e := by
    intro none same shows
    rw [none, List.append_nil]
    exact h.quiet nodup seen hs port ⟨none, by simp, by rw [same, Fifo.readOff_self],
      Or.inl (by rw [same]), ingress ▸ le_rfl, fun f at_ => Or.inl (ingress ▸ at_), shows⟩
  have turn := d.responces.turn_run
  rw [responces] at events quiet
  generalize d.responces.run = t at turn responces events quiet
  cases turn with
  | reset =>
    refine quiet ?_ rfl (by simp [reset, Firewall.pending])
    simp [events, published, responces, reset]
  | rest => exact quiet (by simp [events, published, responces]) rfl id
  | marker n v rest next read =>
    have none : published d e = [] := by
      simp [published, responces, publishInit, Responces.publish]
    by_cases same : i = n
    · subst same
      have fifo : e.responces.initResponceFifo i = rest := by
        simp [responces, publishInit, Responces.publish]
      have taken := Fifo.readOff_of_nbRead read
      have step := h.publish nodup seen hs port (v := v) (fifo ▸ taken)
        (fifo ▸ (Fifo.contents_of_nbRead read).1) ingress (by simp [responces, publishInit, Responces.publish])
      rw [events, none, ← responces, fifo, taken]
      split at step
      next marker => simpa [marker] using step
      next other =>
        rw [List.filterMap_cons, if_neg other]
        exact step
    · have stays : (d.responces.publishInit n rest v).initResponceFifo i =
          d.responces.initResponceFifo i := by simp [publishInit, Responces.publish, same]
      exact quiet (by simp [events, none, stays]) stays (by simp [publishInit, Responces.publish, same])
  | answer n f rest next none read =>
    have first := Fifo.contents_of_nbRead read
    have member : f ∈ (d.responces.responceFifo n).contents := first.1 ▸ List.mem_cons_self ..
    have home := home_of_reachable ⟨as, hr⟩ n f (Or.inl member)
    obtain ⟨-, destination, op⟩ := placed.responceFifo n f member
    have goes : portOf (dest (clearPending f.word)) = f.origin.port := by
      rw [dest_clearPending, destination, portOf_portBits]
    have only : published d e = [f] := by
      refine published_of_one (n := n) ?_ fun k other => ?_
      · simp [responces, publishAnswer, Responces.publish, Fifo.readOff_of_nbRead read]
      · simp [responces, publishAnswer, Responces.publish, other]
    have stays : (d.responces.publishAnswer n rest f).initResponceFifo = d.responces.initResponceFifo := rfl
    by_cases same : f.origin.port = i
    · have step := h.answer nodup seen hs port ⟨same, op⟩ (home ▸ first.2.1 ▸ List.mem_cons_self ..)
        ready (home ▸ next) (home ▸ (Fifo.nbRead_eq_none_iff _).mp none)
        (by simp [responces, stays]) (by rw [responces, stays]) ingress (by
          rw [← same, ← goes, responces]
          simp [publishAnswer, Responces.publish])
      simpa [events, stays, only, same] using step
    · refine quiet (by simp [events, stays, only, same]) (by rw [stays]) ?_
      simp [publishAnswer, Responces.publish, goes, Ne.symm same]

theorem ledger_step (h : Ledger i T d) (hr : openMachine.run new as = some d)
    (hs : openMachine.step d a = some e) (inTime : d.InTime a) :
    Ledger i (T ++ portEvents i d a e) e := by
  have port := port_of_sends (placed_of_reachable ⟨as, hr⟩)
  have quiet : Quiet i a d e → Ledger i (T ++ portEvents i d a e) e := by
    intro quiet
    rw [quiet.events, List.append_nil]
    exact h.quiet (ready_nodup ⟨as, hr⟩)
      (fun clean => (clean_of_reachable ⟨as, hr⟩ clean).seen i) hs port quiet
  rcases a with a | ⟨k, w⟩
  · cases move_of_step hs with
    | run q runnable =>
      by_cases ingress : q = .interfaceIn i
      · subst ingress
        exact h.interfaceIn hr hs inTime
      by_cases responce : q = .entryResponse
      · subst responce
        exact h.entryResponse hr hs
      · exact quiet (quiet_run ingress responce)
    | request | edge =>
      refine quiet ⟨?_, by simp, Fifo.readOff_self _, Or.inl rfl, le_rfl, fun f => Or.inl, id⟩
      simp [portEvents, published, request, edge]
    | delta =>
      refine quiet ⟨?_, by simp, Fifo.readOff_update _, Or.inl (Fifo.update_contents _), le_rfl,
        fun f => Or.inl, id⟩
      simp [portEvents, published, update]
  · simp only [openMachine, openStep] at hs
    split at hs
    next =>
      cases hs
      have port : ((d.arrive k w).ingress i).taken = (d.ingress i).taken ∧
          ((d.arrive k w).ingress i).pc = (d.ingress i).pc := by
        by_cases same : i = k
        · subst same
          simp [arrive]
        · simp [arrive, same]
      refine quiet ⟨?_, by simp, Fifo.readOff_self _, Or.inl rfl, (congrArg List.length port.1).ge,
        fun f at_ => Or.inl (port.2 ▸ at_), id⟩
      simp [portEvents, published, arrive]
    next => cases hs

theorem ledger_of_run (hr : openMachine.run new as = some d)
    (inTime : openMachine.Along InTime new as) (i : Port) :
    Ledger i (openMachine.trace (portEvents i) new as) d := by
  refine openMachine.run_history (I := fun as d => openMachine.Along InTime new as →
    Ledger i (openMachine.trace (portEvents i) new as) d) ?_ ?_ hr inTime
  · intro _
    refine ⟨List.Pairwise.nil, by simp, by simp [openMachine, new, Ingress.new], ?_,
      ⟨[], [], rfl, rfl, rfl, by simp [Timely]⟩, by simp, ?_⟩
    · intro f n due
      cases due with
      | now s member | later s member | fresh s member =>
        cases s <;> simp [ripe, Device.fresh, openMachine, new, Switch.new, Fifo.new, Responces.new,
          Egress.new] at member
    · simp [openMachine, new, Responces.new, Signal.new, Firewall.pending]
  · intro as d a e (before : openMachine.run new as = some d) h step along
    rw [Machine.trace_snoc _ before step]
    obtain ⟨earlier, now⟩ := (Machine.along_snoc before).mp along
    exact ledger_step (h earlier) before step now

/-! ### What the ledger says -/

/-- Once the latest read has been answered, no marker is left that could be published. -/
theorem Ledger.settled (h : Ledger i T d) {u v : List PortEvent} {s : Nat}
    (split : T = u ++ .accepted s :: v) (latest : accepts v = []) (answered : .answered s ∈ v) :
    Firewall.pending (d.responces.responceS i).next = false := by
  by_contra up
  obtain ⟨v₁, v₂, rfl⟩ := List.mem_iff_append.mp answered
  have whole : T = (u ++ .accepted s :: v₁) ++ .answered s :: v₂ := by simp [split]
  have accepted : accepts T = accepts u ++ [s] := by simp [split, latest]
  have none : accepts v₁ = [] := by simpa using (List.append_eq_nil_iff.mp (accepts_append ▸ latest)).1
  -- the markers of all reads were published before the answer
  have all : (accepts T).length ≤ marks (u ++ .accepted s :: v₁) := by
    obtain ⟨u₂, w, same, before⟩ := h.markerFirst (u ++ .accepted s :: v₁) s
      ⟨v₂, by simp [whole]⟩
    have lists := congrArg accepts same
    simp only [accepts_append, accepts_cons, none, List.append_nil, List.singleton_append] at lists
    have last : accepts w = [] := by
      have order : (accepts u₂ ++ s :: accepts w).Pairwise (· < ·) :=
        lists ▸ accepted ▸ h.increasing
      rcases List.eq_nil_or_concat (accepts w) with nil | ⟨init, t, concat⟩
      · exact nil
      · have same : s = t := by
          rw [concat, List.concat_eq_append, ← List.cons_append, ← List.append_assoc] at lists
          simpa using (List.append_inj' lists rfl).2
        have less := (List.pairwise_cons.mp (List.pairwise_append.mp order).2.1).1 t (by simp [concat])
        omega
    rw [last] at lists
    rw [accepted, lists, List.length_append]
    exact before
  -- but one more is published after it
  obtain ⟨u', v', shown, rest⟩ := h.pending (by simpa using up)
  have later : 0 < marks v₂ := by
    rw [whole] at shown
    rcases List.append_eq_append_iff.mp shown with ⟨w, -, tail⟩ | ⟨w, -, tail⟩
    · -- the marker comes after the answer
      cases w with
      | nil => cases tail
      | cons x w =>
        obtain ⟨-, tail⟩ := List.cons_eq_cons.mp tail
        rw [tail, marks, List.count_pos_iff]
        simp
    · -- or the answer is among what came after the marker
      cases w with
      | nil => cases tail
      | cons x w =>
        obtain ⟨-, tail⟩ := List.cons_eq_cons.mp tail
        obtain ⟨t, other⟩ := rest (.answered s) (by simp [tail])
        cases other
  have count : marks T ≤ (accepts T).length := by
    obtain ⟨done, owners, split, marked, -⟩ := h.queue
    rw [split, ← marked, List.length_append]
    exact Nat.le_add_right _ _
  rw [whole, marks_append] at count
  have more : marks (.answered s :: v₂) = marks v₂ := by simp [marks]
  rw [← whole] at count
  omega

/-! ### Reads under way -/

/-- The packets that come into the switch at port `i` are those that `interface_in_i` sends. -/
theorem sends_of_written (hs : openMachine.step d a = some e) {f : Flit}
    (member : f ∈ (d.switch.inFifo i).writtenSince (e.switch.inFifo i)) : f ∈ d.sends i := by
  rcases a with a | ⟨k, w⟩
  · cases move_of_step hs with
    | run q runnable =>
      by_cases own : q = .interfaceIn i
      · subst own
        simpa [sends, exec, Device.interfaceIn, judged] using member
      · have none : (d.switch.inFifo i).writtenSince ((d.exec q).switch.inFifo i) = [] :=
          d.writtenSince_inFifo own
        simp [none] at member
    | request | edge => simp [request, edge] at member
    | delta => simp [update] at member
  · simp only [openMachine, openStep] at hs
    split at hs
    next => cases hs; simp [arrive] at member
    next => cases hs

/-- Each accepted read has been answered, or is still in the device. -/
def UnderWay (i : Port) (T : List PortEvent) (d : Device) : Prop :=
  ∀ s, .accepted s ∈ T → .answered s ∈ T ∨ ∃ o, IsRead i o ∧ o.seq = s ∧ d.Carries o

theorem underWay_step (h : UnderWay i T d) (hr : openMachine.run new as = some d)
    (hs : openMachine.step d a = some e) (room : d.HasRoom (.inl a)) :
    UnderWay i (T ++ portEvents i d a e) e := by
  intro s member
  rcases List.mem_append.mp member with old | now
  · rcases h s old with answered | ⟨o, read, seq, carried⟩
    · exact Or.inl (List.mem_append_left _ answered)
    · rcases carries_step hr hs room read.2 carried with still | ⟨f, published, rfl⟩
      · exact Or.inr ⟨o, read, seq, still⟩
      · left
        refine List.mem_append_right _ (List.mem_append_right _ ?_)
        exact List.mem_filterMap.mpr ⟨f, published, by simp [read.1, seq]⟩
  · -- the read is accepted in this step
    right
    simp only [portEvents, List.mem_append, List.mem_filterMap] at now
    rcases now with (⟨f, written, read⟩ | ⟨v, -, other⟩) | ⟨g, -, other⟩
    · have sent := sends_of_written hs written
      obtain ⟨op, rfl⟩ : opcode f.origin.word = 1 ∧ f.origin.seq = s := by
        split at read <;> simp_all
      refine ⟨f.origin, ⟨port_of_sends (placed_of_reachable ⟨as, hr⟩) i f sent, op⟩, rfl, f, rfl,
        Or.inl ⟨.inFifo i, ?_⟩⟩
      exact List.mem_append_right _ (List.mem_of_mem_drop written)
    · split at other <;> cases other
    · split at other <;> cases other

theorem underWay_of_run (hr : openMachine.run new as = some d)
    (room : openMachine.Along (fun d a => d.HasRoom (.inl a)) new as) (i : Port) :
    UnderWay i (openMachine.trace (portEvents i) new as) d := by
  refine openMachine.run_history (I := fun as d => openMachine.Along (fun d a => d.HasRoom (.inl a)) new as →
    UnderWay i (openMachine.trace (portEvents i) new as) d) ?_ ?_ hr room
  · intro _ s member
    cases member
  · intro as d a e (before : openMachine.run new as = some d) h step along
    rw [Machine.trace_snoc _ before step]
    obtain ⟨earlier, now⟩ := (Machine.along_snoc before).mp along
    exact underWay_step (h earlier) before step now

/-! ### The race -/

/-- The latest accepted read. -/
theorem exists_latest (some : accepts T ≠ []) :
    ∃ u s v, T = u ++ .accepted s :: v ∧ accepts v = [] := by
  rcases List.eq_nil_or_concat (accepts T) with nil | ⟨init, s, concat⟩
  · exact absurd nil some
  · rw [List.concat_eq_append] at concat
    obtain ⟨u, v, whole, -, last⟩ := split_of_accepts concat
    exact ⟨u, s, v, whole, last⟩

/-- In a run in which every read is accepted in time, its marker is published before its answer,
and bit 31 is down once the latest read has been answered; and in one in which the switch always
has room, a read is under way as long as bit 31 is up. -/
theorem marker_before_answer (i : Port) {as : List (Action ⊕ (Port × Word))} {d : Device}
    (hr : openMachine.run new as = some d) (inTime : openMachine.Along InTime new as) :
    Announced i (openMachine.trace (portEvents i) new as) d ∧
      (openMachine.Along (fun d a => d.HasRoom (.inl a)) new as → Awaited i (openMachine.trace (portEvents i) new as) d) := by
  have ledger := ledger_of_run hr inTime i
  refine ⟨⟨ledger.markerFirst, fun u s v => ledger.settled,
    fun clean => (clean_of_reachable ⟨as, hr⟩ clean).shown i⟩, fun room up => ?_⟩
  have underWay := underWay_of_run hr room i
  generalize openMachine.trace (portEvents i) new as = T at ledger underWay ⊢
  -- a marker has been published, so a read has been accepted
  have some : accepts T ≠ [] := by
    intro none
    obtain ⟨done, owners, split, marked, -⟩ := ledger.queue
    obtain ⟨u, v, rfl, -⟩ := ledger.pending up
    have empty : done = [] := (List.append_eq_nil_iff.mp (split ▸ none)).1
    simp [empty, marks] at marked
  obtain ⟨u, s, v, whole, latest⟩ := exists_latest some
  have unanswered : .answered s ∉ v := fun answered => by
    simp [ledger.settled whole latest answered] at up
  have before : .answered s ∉ u := by
    intro answered
    obtain ⟨u₁, u₂, rfl⟩ := List.mem_iff_append.mp answered
    -- the same read would have been accepted twice
    obtain ⟨w, x, rfl, -⟩ := ledger.markerFirst u₁ s ⟨u₂ ++ .accepted s :: v, by simp [whole]⟩
    have twice : accepts T = accepts w ++ s :: (accepts x ++ (accepts u₂ ++ s :: accepts v)) := by
      simp [whole]
    have order := List.pairwise_append.mp (twice ▸ ledger.increasing)
    exact ((List.pairwise_cons.mp order.2.1).1 s (by simp)).false
  refine ⟨u, s, v, whole, latest, unanswered, ?_⟩
  rcases underWay s (by simp [whole]) with answered | ⟨o, read, seq, carried⟩
  · rw [whole] at answered
    rcases List.mem_append.mp answered with first | later
    · exact absurd first before
    · rcases List.mem_cons.mp later with same | last
      · cases same
      · exact absurd last unanswered
  · exact ⟨o, read.1, seq, carried⟩

/-- One clock cycle in which these words arrive. -/
def arriving (words : List (Port × Word)) : List (Action ⊕ (Port × Word)) :=
  .inl .edge :: words.map .inr ++ (clocked.map fun q => .inl (.run q)) ++ [.inl .delta]

/-- A read of the cell of offset 5 in BRAM `k`. -/
def readOf (k : Port) : Word := pack 5 1 0 (portBits k) 0

/-- Port 1 alone reads a cell. -/
def lonely : List (Action ⊕ (Port × Word)) :=
  arriving [] ++ arriving [] ++ arriving [(1, readOf 2)] ++ (List.replicate 6 (arriving [])).flatten

theorem marker_before_answer_of_lonely : ∃ d, openMachine.run new lonely = some d ∧
    openMachine.trace (portEvents 1) new lonely = [.accepted 0, .marked, .answered 0] ∧
    Announced 1 (openMachine.trace (portEvents 1) new lonely) d ∧
    Awaited 1 (openMachine.trace (portEvents 1) new lonely) d := by
  have possible : (openMachine.run new lonely).isSome = true := by decide +kernel
  obtain ⟨d, run⟩ := Option.isSome_iff_exists.mp possible
  obtain ⟨announced, awaited⟩ := marker_before_answer 1 run (by decide +kernel)
  exact ⟨d, run, by decide +kernel, announced, awaited (by decide +kernel)⟩

/-- Port 3 reads BRAM 2 in the cycle in which its block publishes the answer of another read, and
the blocks of ports 0, 1 and 2 have something to publish when the round comes to them. -/
def overtaking : List (Action ⊕ (Port × Word)) :=
  arriving [] ++ arriving [(2, readOf 3)] ++ arriving [] ++ arriving [] ++ arriving [] ++
    arriving [(3, readOf 2)] ++ arriving [(0, readOf 0), (1, readOf 0)] ++
    (List.replicate 5 (arriving [])).flatten

/-- The answer of port 3's read comes before its marker, which stays for ever. -/
theorem answer_overtakes_marker :
    ¬ ∀ (i : Port) (as : List (Action ⊕ (Port × Word))) (d : Device),
      openMachine.run new as = some d →
        Announced i (openMachine.trace (portEvents i) new as) d ∧
          Awaited i (openMachine.trace (portEvents i) new as) d := by
  intro claim
  have possible : (openMachine.run new overtaking).isSome = true := by decide +kernel
  obtain ⟨d, run⟩ := Option.isSome_iff_exists.mp possible
  have events : openMachine.trace (portEvents 3) new overtaking =
      [.accepted 0, .answered 0, .marked] := by decide +kernel
  obtain ⟨u, v, -, before⟩ := (claim 3 overtaking d run).1.markerFirst [.accepted 0] 0
    (events ▸ ⟨[.marked], rfl⟩)
  simp [marks] at before

end Device

end ScCosim.Firewall
