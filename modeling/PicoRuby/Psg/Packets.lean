import PicoRuby.Shared.Ring
import PicoRuby.Shared.Timeline
import Mathlib.Data.List.Induction
import Mathlib.Order.Bounds.Basic

/-!
# The packet queue of picoruby-psg

The ring buffer of psg.c, which core 0 writes and core 1 reads, and the tick of psg_port.c that
takes from it what is due.
-/

namespace PicoRuby.Psg

open Shared

set_option autoImplicit false

/-- `psg_packet_t`. -/
structure Packet where
  tick : BitVec 32
  op : UInt8
  reg : UInt8
  val : UInt8
  arg : UInt8
deriving DecidableEq, Repr

/-- `PSG_PACKET_QUEUE_LEN`. -/
def packetQueueLen : Nat := 1 <<< 8

/-- `PSG_PACKET_QUEUE_MASK`. -/
def packetQueueMask : Nat := packetQueueLen - 1

/-- `psg_ringbuf_t`. -/
structure RingBuf where
  head : Nat
  tail : Nat
  buf : Nat → Packet

/-- `PSG_rb_push`. -/
def rbPush (p : Packet) (rb : RingBuf) : Bool × RingBuf :=
  let next := (rb.head + 1) &&& packetQueueMask
  if next = rb.tail then (false, rb)
  else (true, { rb with buf := Function.update rb.buf rb.head p, head := next })

/-- `PSG_rb_peek`. -/
def rbPeek (rb : RingBuf) : Option Packet :=
  if rb.tail = rb.head then none else some (rb.buf rb.tail)

/-- `PSG_rb_pop`. -/
def rbPop (rb : RingBuf) : RingBuf := { rb with tail := (rb.tail + 1) &&& packetQueueMask }

/-! ## The two cores -/

/-- Where `tick_cb` is: not called, at the head of the loop of `psg_process_packets`, or with a
packet whose delay it has taken off `g_tick_ms`. -/
inductive Phase where
  | idle
  | looping
  | taken (pkt : Packet)
deriving DecidableEq, Repr

/-- `ticks` counts the calls of `tick_cb` and `ended` the ones that have returned. `accepted` are
the packets that were pushed, each with the number of ticks that had ended by then, and `processed`
the ones given to `PSG_process_packet`, each with the number of the tick. -/
structure System where
  rb : RingBuf
  gTickMs : BitVec 32
  phase : Phase
  ticks : Nat
  ended : Nat
  accepted : List (Packet × Nat)
  processed : List (Packet × Nat)

def System.initial : System := ⟨⟨0, 0, fun _ => ⟨0, 0, 0, 0, 0⟩⟩, 0, .idle, 0, 0, [], []⟩

/-- `peek` is the head of the loop up to `g_tick_ms -= pkt.tick`, and `pop` the rest of its body. A
push can come between any two of them. -/
inductive Action where
  | push (p : Packet)
  | tick
  | peek
  | pop
deriving DecidableEq, Repr

def System.push (s : System) (p : Packet) : System :=
  { s with
    rb := (rbPush p s.rb).2
    accepted := if (rbPush p s.rb).1 then s.accepted ++ [(p, s.ended)] else s.accepted }

/-- The start of `tick_cb`. -/
def System.tick (s : System) : System :=
  match s.phase with
  | .idle => { s with gTickMs := s.gTickMs + 1, phase := .looping, ticks := s.ticks + 1 }
  | _ => s

def System.peek (s : System) : System :=
  match s.phase with
  | .looping =>
    match rbPeek s.rb with
    | none => { s with phase := .idle, ended := s.ticks }
    | some pkt =>
      if 0 < (pkt.tick - s.gTickMs).toInt then { s with phase := .idle, ended := s.ticks }
      else { s with gTickMs := s.gTickMs - pkt.tick, phase := .taken pkt }
  | _ => s

def System.pop (s : System) : System :=
  match s.phase with
  | .taken pkt =>
    { s with rb := rbPop s.rb, phase := .looping, processed := s.processed ++ [(pkt, s.ticks)] }
  | _ => s

def System.next (s : System) : Action → System
  | .push p => s.push p
  | .tick => s.tick
  | .peek => s.peek
  | .pop => s.pop

def System.run (s : System) (actions : List Action) : System := actions.foldl System.next s

/-- The delay of a packet that is pushed, if one is, is below 2^31 ms. -/
def shortDelay : Action → Bool
  | .push p => p.tick.toNat < 2 ^ 31
  | _ => true

/-! ## What is promised -/

/-- The packets that were accepted and not processed. -/
def System.pending (s : System) : List Packet :=
  (s.accepted.drop s.processed.length).map Prod.fst

/-- The indices are in the buffer. -/
structure Sized (rb : RingBuf) : Prop where
  head : rb.head < packetQueueLen
  tail : rb.tail < packetQueueLen

/-- The packets in the ring, the oldest first. -/
def queued (rb : RingBuf) : List Packet :=
  window rb.buf packetQueueLen rb.tail (ringDist packetQueueLen rb.tail rb.head)

section Queue
variable {rb : RingBuf}

theorem and_packetQueueMask (n : Nat) : n &&& packetQueueMask = n % packetQueueLen :=
  Nat.and_two_pow_sub_one_eq_mod n 8

theorem Sized.rbPush (h : Sized rb) (p : Packet) : Sized (rbPush p rb).2 ∧
    queued (rbPush p rb).2 = if (rbPush p rb).1 then queued rb ++ [p] else queued rb := by
  unfold Psg.rbPush
  dsimp only
  rw [and_packetQueueMask]
  by_cases hfull : (rb.head + 1) % packetQueueLen = rb.tail
  · rw [if_pos hfull]
    exact ⟨h, rfl⟩
  · rw [if_neg hfull]
    exact ⟨⟨Nat.mod_lt _ (by decide), h.tail⟩, ring_push h.tail h.head hfull⟩

theorem Sized.rbPeek (h : Sized rb) : rbPeek rb = (queued rb).head? ∧
    (queued rb ≠ [] → queued rb = rb.buf rb.tail :: queued (rbPop rb)) := by
  unfold Psg.rbPeek
  by_cases hempty : rb.tail = rb.head
  · have hnil : queued rb = [] := by
      rw [← List.length_eq_zero_iff, queued, window_length, ringDist_eq_zero_iff h.tail h.head]
      exact hempty.symm
    rw [if_pos hempty, hnil]
    exact ⟨rfl, fun hne => absurd rfl hne⟩
  · have hpop : queued rb = rb.buf rb.tail :: queued (rbPop rb) := by
      unfold queued rbPop
      rw [and_packetQueueMask]
      exact ring_pop h.tail h.head hempty
    rw [if_neg hempty, hpop]
    exact ⟨rfl, fun _ => rfl⟩

theorem Sized.rbPop (h : Sized rb) : Sized (rbPop rb) := by
  refine ⟨h.head, ?_⟩
  unfold Psg.rbPop
  dsimp only
  rw [and_packetQueueMask]
  exact Nat.mod_lt _ (by decide)

end Queue

/-! ## The ticks that packets are due at -/

/-- The delays of packets with what is told of each. -/
def delays (packets : List (Packet × Nat)) : List (Nat × Packet × Nat) :=
  packets.map fun e => (e.1.tick.toNat, e)

/-- The packets with the ticks that they are due at, where the delays so far come to `start`. -/
def schedule (start : Nat) (packets : List (Packet × Nat)) : List (Packet × Nat) :=
  (atTimes start (delays packets)).map fun e => (e.2.1, max e.1 (e.2.2 + 1))

/-- The delays so far, after some packets more. -/
def total (start : Nat) (packets : List (Packet × Nat)) : Nat := endTime start (delays packets)

section Schedule
variable {start : Nat} {packets more : List (Packet × Nat)}

theorem schedule_append :
    schedule start (packets ++ more) = schedule start packets ++ schedule (total start packets) more := by
  unfold schedule delays total delays
  rw [List.map_append, atTimes_append, List.map_append]

theorem total_append : total start (packets ++ more) = total (total start packets) more := by
  unfold total delays
  rw [List.map_append, endTime_append]

/-- The packets are due no sooner than the delays of the first of them. -/
theorem le_of_mem_schedule {x : Packet × Nat} (h : x ∈ schedule start packets) :
    start ≤ x.2 ∧ ∀ p ∈ packets.head?, start + p.1.tick.toNat ≤ x.2 := by
  induction packets generalizing start with
  | nil => exact absurd h List.not_mem_nil
  | cons e packets ih =>
    have hfirst : start + e.1.tick.toNat ≤ x.2 := by
      rcases List.mem_cons.mp h with rfl | h
      · exact Nat.le_max_left _ _
      · exact (ih h).1
    refine ⟨by omega, ?_⟩
    intro p hp
    rw [List.head?_cons, Option.mem_some_iff] at hp
    rw [← hp]
    exact hfirst

end Schedule

/-! ## The clock -/

theorem signed_pos_iff {a b : BitVec 32} (ha : a.toNat < 2 ^ 31) (hb : b.toNat < 2 ^ 31) :
    0 < (a - b).toInt ↔ b.toNat < a.toNat := by
  have hdiff : (a - b).toInt = (a.toNat : Int) - b.toNat := by
    have hbmod := signedDiff_eq_bmod a b
    rw [Int.bmod_eq_of_le_mul_two (by omega) (by omega)] at hbmod
    exact hbmod
  rw [hdiff]
  omega

/-- What the counter stands for in each phase; `pending` are the packets that are not processed. -/
def Clock (s : System) (elapsed : Nat) (pending : List (Packet × Nat)) : Prop :=
  match s.phase with
  | .idle => s.ticks = s.ended ∧ s.gTickMs.toNat + elapsed = s.ticks
  | .looping => s.ticks = s.ended + 1 ∧ s.gTickMs.toNat + elapsed = s.ticks
  | .taken pkt => s.ticks = s.ended + 1 ∧ s.gTickMs.toNat + (elapsed + pkt.tick.toNat) = s.ticks ∧
      pending.head?.map Prod.fst = some pkt

/-- The counter is the time since the last packet was due. What is processed was due, and what is
not is due after the last tick that has ended. -/
structure OnSchedule (s : System) (done pending : List (Packet × Nat)) : Prop where
  sized : Sized s.rb
  queue : queued s.rb = pending.map Prod.fst
  accepted : s.accepted = done ++ pending
  processed : s.processed = schedule 0 done
  due : ∀ x ∈ schedule (total 0 done) pending, s.ended < x.2
  clock : Clock s (total 0 done) pending
  since : ∀ e ∈ pending, e.2 ≤ s.ended ∧ e.1.tick.toNat < 2 ^ 31

theorem OnSchedule.initial : OnSchedule System.initial [] [] where
  sized := ⟨by decide, by decide⟩
  queue := rfl
  accepted := rfl
  processed := rfl
  due _ h := absurd h List.not_mem_nil
  clock := ⟨rfl, rfl⟩
  since _ h := absurd h List.not_mem_nil

section Steps
variable {s : System} {done pending : List (Packet × Nat)}

theorem OnSchedule.push (h : OnSchedule s done pending) {p : Packet} (hp : p.tick.toNat < 2 ^ 31) :
    ∃ pending, OnSchedule (s.push p) done pending := by
  obtain ⟨hsized, hqueued⟩ := h.sized.rbPush p
  unfold System.push
  cases haccept : (rbPush p s.rb).1 with
  | false =>
    rw [haccept] at hqueued
    exact ⟨pending, hsized, hqueued.trans h.queue, h.accepted, h.processed, h.due, h.clock, h.since⟩
  | true =>
    rw [haccept] at hqueued
    refine ⟨pending ++ [(p, s.ended)], hsized, ?_, ?_, h.processed, ?_, ?_, ?_⟩
    · rw [List.map_append, ← h.queue]
      exact hqueued
    · change s.accepted ++ [(p, s.ended)] = _
      rw [h.accepted, List.append_assoc]
    · intro x hx
      rw [schedule_append] at hx
      rcases List.mem_append.mp hx with hx | hx
      · exact h.due x hx
      · rw [List.mem_singleton.mp hx]
        exact Nat.lt_of_lt_of_le (Nat.lt_succ_self _) (Nat.le_max_right _ _)
    · have hclock := h.clock
      unfold Clock at hclock ⊢
      cases hphase : s.phase with
      | idle => rw [hphase] at hclock; exact hclock
      | looping => rw [hphase] at hclock; exact hclock
      | taken pkt =>
        rw [hphase] at hclock
        refine ⟨hclock.1, hclock.2.1, ?_⟩
        cases pending with
        | nil => exact absurd hclock.2.2 (Option.some_ne_none _).symm
        | cons e pending => exact hclock.2.2
    · intro e he
      rcases List.mem_append.mp he with he | he
      · exact h.since e he
      · rw [List.mem_singleton.mp he]
        exact ⟨Nat.le_refl _, hp⟩

theorem OnSchedule.tick (h : OnSchedule s done pending) (hticks : s.ticks + 1 < 2 ^ 31) :
    OnSchedule s.tick done pending := by
  have hclock := h.clock
  unfold Clock at hclock
  unfold System.tick
  cases hphase : s.phase with
  | idle =>
    rw [hphase] at hclock
    obtain ⟨hended, hsum⟩ := hclock
    refine ⟨h.sized, h.queue, h.accepted, h.processed, h.due, ?_, h.since⟩
    refine ⟨by rw [hended], ?_⟩
    rw [BitVec.toNat_add_of_lt]
    · change s.gTickMs.toNat + 1 + total 0 done = s.ticks + 1
      omega
    · change s.gTickMs.toNat + 1 < 2 ^ 32
      omega
  | looping => exact h
  | taken pkt => exact h

/-- The loop ends with nothing due at this tick. -/
theorem OnSchedule.ends (h : OnSchedule s done pending) (hphase : s.phase = .looping)
    (hdue : ∀ x ∈ schedule (total 0 done) pending, s.ticks < x.2) :
    OnSchedule { s with phase := .idle, ended := s.ticks } done pending := by
  have hclock := h.clock
  unfold Clock at hclock
  rw [hphase] at hclock
  refine ⟨h.sized, h.queue, h.accepted, h.processed, hdue, ⟨rfl, hclock.2⟩, ?_⟩
  intro e he
  refine ⟨?_, (h.since e he).2⟩
  have hold := (h.since e he).1
  change e.2 ≤ s.ticks
  omega

theorem OnSchedule.peek (h : OnSchedule s done pending) (hticks : s.ticks < 2 ^ 31) :
    OnSchedule s.peek done pending := by
  unfold System.peek
  cases hphase : s.phase with
  | idle => exact h
  | taken pkt => exact h
  | looping =>
    dsimp only
    rw [h.sized.rbPeek.1, h.queue]
    cases pending with
    | nil => exact h.ends hphase fun _ hx => absurd hx List.not_mem_nil
    | cons e pending =>
      have hclock := h.clock
      unfold Clock at hclock
      rw [hphase] at hclock
      obtain ⟨hended, hsum⟩ := hclock
      have hsmall : e.1.tick.toNat < 2 ^ 31 := (h.since e List.mem_cons_self).2
      have hpos := signed_pos_iff (a := e.1.tick) (b := s.gTickMs) hsmall (by omega)
      change OnSchedule (if 0 < (e.1.tick - s.gTickMs).toInt then _ else _) done (e :: pending)
      by_cases hlater : 0 < (e.1.tick - s.gTickMs).toInt
      · rw [if_pos hlater]
        rw [hpos] at hlater
        refine h.ends hphase ?_
        intro x hx
        have hle := (le_of_mem_schedule hx).2 e (Option.mem_some_self e)
        omega
      · rw [if_neg hlater]
        rw [hpos, Nat.not_lt] at hlater
        refine ⟨h.sized, h.queue, h.accepted, h.processed, h.due, ⟨hended, ?_, rfl⟩, h.since⟩
        change (s.gTickMs - e.1.tick).toNat + (total 0 done + e.1.tick.toNat) = s.ticks
        rw [BitVec.toNat_sub_of_le (BitVec.le_def.mpr hlater)]
        omega

theorem OnSchedule.pop (h : OnSchedule s done pending) :
    ∃ done pending, OnSchedule s.pop done pending := by
  unfold System.pop
  cases hphase : s.phase with
  | idle => exact ⟨done, pending, h⟩
  | looping => exact ⟨done, pending, h⟩
  | taken pkt =>
    have hclock := h.clock
    unfold Clock at hclock
    rw [hphase] at hclock
    obtain ⟨hended, hsum, hhead⟩ := hclock
    cases pending with
    | nil => exact absurd hhead (Option.some_ne_none _).symm
    | cons e pending =>
      obtain ⟨p, since⟩ := e
      have hpkt : p = pkt := Option.some.inj hhead
      subst hpkt
      have htotal : total 0 (done ++ [(p, since)]) = total 0 done + p.tick.toNat := by
        rw [total_append]
        exact congrArg _ (Nat.add_zero _)
      -- the packet was due no later, as the counter had reached its delay, and no sooner
      have hdue : max (total 0 done + p.tick.toNat) (since + 1) = s.ticks := by
        have hafter : s.ended < max (total 0 done + p.tick.toNat) (since + 1) :=
          h.due (p, _) List.mem_cons_self
        have hsince := (h.since (p, since) List.mem_cons_self).1
        apply Nat.le_antisymm
        · exact Nat.max_le.mpr ⟨by omega, by omega⟩
        · omega
      refine ⟨done ++ [(p, since)], pending, h.sized.rbPop, ?_, ?_, ?_, ?_, ?_, ?_⟩
      · have hpop := h.sized.rbPeek.2 (by rw [h.queue]; exact List.cons_ne_nil _ _)
        rw [h.queue] at hpop
        exact (List.cons.inj hpop).2.symm
      · rw [h.accepted, List.append_assoc]
        rfl
      · rw [schedule_append, h.processed, ← hdue]
        rfl
      · intro x hx
        rw [htotal] at hx
        exact h.due x (List.mem_cons_of_mem _ hx)
      · refine ⟨hended, ?_⟩
        rw [htotal]
        exact hsum
      · intro e he
        exact h.since e (List.mem_cons_of_mem _ he)

theorem OnSchedule.next (h : OnSchedule s done pending) {a : Action} (ha : shortDelay a = true)
    (hticks : (s.next a).ticks < 2 ^ 31) : ∃ done pending, OnSchedule (s.next a) done pending := by
  cases a with
  | push p => exact ⟨done, h.push (decide_eq_true_eq.mp ha)⟩
  | tick =>
    unfold System.next System.tick at hticks
    refine ⟨done, pending, ?_⟩
    cases hphase : s.phase with
    | idle =>
      rw [hphase] at hticks
      exact h.tick hticks
    | looping => simpa only [System.next, System.tick, hphase] using h
    | taken pkt => simpa only [System.next, System.tick, hphase] using h
  | peek =>
    refine ⟨done, pending, h.peek ?_⟩
    have hsame : (s.next .peek).ticks = s.ticks := by
      unfold System.next System.peek
      dsimp only
      split
      · split
        · rfl
        · split
          · rfl
          · rfl
      · rfl
    omega
  | pop => exact h.pop

end Steps

end PicoRuby.Psg
