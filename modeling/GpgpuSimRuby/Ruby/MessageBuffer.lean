import GpgpuSimRuby.Ruby.Basic
import GpgpuSimRuby.Ruby.PrioHeap

/-!
# The message buffers of Ruby

A `MessageBuffer` holds messages until their arrival times, in a heap that is ordered by arrival time
and then by `m_msg_counter`. A `BufferSystem` is a buffer with its senders and its consumer: a sender
that finds the slots it needs enqueues its messages, the consumer dequeues or recycles the message at
the head when it is ready.
-/

namespace GpgpuSimRuby.Ruby

open Library

variable {μ : Type}

/-- `m_DelayedCycles` is an `int`. -/
structure Message (μ : Type) where
  lastEnqueueTime : Nat
  delayedCycles : Int
  body : μ
  deriving Inhabited

/-- What `setDelayedCycles` is called with, as an `int`: the delay so far, and the cycles since the
message was last enqueued. -/
def Message.delayAt (message : Message μ) (now : Nat) : Int :=
  ((now : Int) - message.lastEnqueueTime + message.delayedCycles).bmod (2 ^ 32)

structure MessageBufferNode (μ : Type) where
  time : Nat
  msgCounter : Int
  msg : Message μ
  deriving Inhabited

/-- Where the times are equal, the source asserts that the counters differ. -/
def nodeLessThenEq (n₁ n₂ : MessageBufferNode μ) : Prop :=
  if n₁.time = n₂.time then n₁.msgCounter ≤ n₂.msgCounter else n₁.time ≤ n₂.time

instance decidableNodeLessThenEq : DecidableRel (nodeLessThenEq (μ := μ)) := fun n₁ n₂ =>
  inferInstanceAs
    (Decidable (if n₁.time = n₂.time then n₁.msgCounter ≤ n₂.msgCounter else n₁.time ≤ n₂.time))

instance : Std.Total (nodeLessThenEq (μ := μ)) where
  total n₁ n₂ := by
    unfold nodeLessThenEq
    grind

instance : IsTrans (MessageBufferNode μ) nodeLessThenEq where
  trans n₁ n₂ n₃ := by
    unfold nodeLessThenEq
    grind

/-- What `setSize`, `setOrdering`, `setRandomization` and `setConsumer` have set, and two constants of
the configuration. A `maxSize` of `-1` is no bound. -/
structure BufferConfig where
  maxSize : Int
  orderingSet : Bool
  strictFifo : Bool
  randomization : Bool
  consumer : Bool
  RANDOMIZATION : Bool
  RECYCLE_LATENCY : Nat

structure MessageBuffer (μ : Type) where
  prioHeap : PrioHeap (MessageBufferNode μ)
  size : Nat
  timeLastTimeEnqueue : Nat
  timeLastTimePop : Nat
  sizeAtCycleStart : Nat
  msgsThisCycle : Nat
  msgCounter : Int
  lastArrivalTime : Nat

/-- `random_time`, for three draws of `random`. -/
def randomTime (draws : Nat × Nat × Nat) : Nat :=
  1 + draws.1 % 4 + if draws.2.1 % 8 = 0 then 100 + draws.2.2 % 15 else 0

namespace MessageBuffer

def init [Inhabited μ] : MessageBuffer μ := ⟨.init, 0, 0, 0, 0, 0, 0, 0⟩

section

variable (cfg : BufferConfig) (q : MessageBuffer μ) (now : Nat)

/-- `current_size`: what is popped in a cycle still counts until the next one. -/
def currentSize : Nat :=
  if q.timeLastTimePop < now then q.size
  else if q.timeLastTimeEnqueue < now then q.sizeAtCycleStart
  else q.sizeAtCycleStart + q.msgsThisCycle

def areNSlotsAvailable (n : Nat) : Bool :=
  cfg.maxSize = -1 ∨ (q.currentSize now + n : Int) ≤ cfg.maxSize

def isReady : Bool := q.prioHeap.currentSize > 0 ∧ q.prioHeap.peekMin.time ≤ now

/-- Randomized arrival times never lie before the current time. -/
def lastArrival : Nat :=
  if cfg.RANDOMIZATION && cfg.randomization && cfg.strictFifo then max q.lastArrivalTime now
  else q.lastArrivalTime

def arrivalTime (delta : Nat) (draws : Nat × Nat × Nat) : Nat :=
  if cfg.RANDOMIZATION && cfg.randomization then
    (if cfg.strictFifo then q.lastArrival cfg now else now) + randomTime draws
  else now + delta

/-- The second component is the time at which the consumer is scheduled to wake up. -/
def enqueue (message : Message μ) (delta : Nat) (draws : Nat × Nat × Nat) :
    Except String (MessageBuffer μ × Nat) := do
  let msgCounter := (q.msgCounter + 1).bmod (2 ^ 32)
  let firstThisCycle := q.timeLastTimeEnqueue < now
  let arrivalTime := q.arrivalTime cfg now delta draws
  assert (cfg.orderingSet) "Ordering property of this queue has not been set"
  assert (delta > 0) "delta>0"
  assert (arrivalTime > now) "arrival_time > current_time"
  assert (cfg.strictFifo → arrivalTime ≥ q.lastArrival cfg now) "FIFO ordering violated"
  assert (now ≥ message.lastEnqueueTime)
    "g_eventQueue_ptr->getTime() >= msg_ptr->getLastEnqueueTime()"
  let message := { message with
    delayedCycles := message.delayAt now, lastEnqueueTime := arrivalTime }
  assert (cfg.consumer) "No consumer"
  return ({ q with
    prioHeap := q.prioHeap.insert nodeLessThenEq ⟨arrivalTime, msgCounter, message⟩
    size := q.size + 1
    timeLastTimeEnqueue := if firstThisCycle then now else q.timeLastTimeEnqueue
    msgsThisCycle := (if firstThisCycle then 0 else q.msgsThisCycle) + 1
    msgCounter, lastArrivalTime := arrivalTime }, arrivalTime)

def pop : Except String (MessageBuffer μ) := do
  assert (q.isReady now) "isReady()"
  let (_, prioHeap) ← q.prioHeap.extractMin nodeLessThenEq
  let firstThisCycle := q.timeLastTimePop < now
  return { q with
    prioHeap
    size := q.size - 1
    timeLastTimePop := if firstThisCycle then now else q.timeLastTimePop
    sizeAtCycleStart := if firstThisCycle then q.size else q.sizeAtCycleStart }

def dequeue : Except String (MessageBuffer μ × Message μ) := do
  let message := q.prioHeap.peekMin.msg
  return (← q.pop now, message)

def setAndReturnDelayCycles (message : Message μ) : Except String (Message μ × Int) := do
  assert (message.lastEnqueueTime ≤ now)
    "msg_ptr->getLastEnqueueTime() <= g_eventQueue_ptr->getTime()"
  let delayCycles := message.delayAt now
  assert (delayCycles ≥ 0) "delay_cycles >= 0"
  return ({ message with delayedCycles := delayCycles }, delayCycles)

/-- `dequeue_getDelayCycles` and the delay that it returns. -/
def dequeueGetDelayCycles : Except String (MessageBuffer μ × Message μ × Int) := do
  let (q', message) ← q.dequeue now
  let (message, delayCycles) ← setAndReturnDelayCycles now message
  assert (delayCycles ≥ 0) "delay_cycles >= 0"
  return (q', message, delayCycles)

/-- The second component is the time at which the consumer is scheduled to wake up. -/
def recycle : Except String (MessageBuffer μ × Nat) := do
  assert (q.isReady now) "isReady()"
  let (node, prioHeap) ← q.prioHeap.extractMin nodeLessThenEq
  let time := now + cfg.RECYCLE_LATENCY
  return ({ q with prioHeap := prioHeap.insert nodeLessThenEq { node with time } }, time)

end

/-! ## What the operations do -/

variable {cfg : BufferConfig} {q q' : MessageBuffer μ} {now delta w : Nat}
  {message message' : Message μ} {draws : Nat × Nat × Nat}

/-- What a successful `enqueue` asserts and does. -/
theorem enqueue_ok (h : q.enqueue cfg now message delta draws = .ok (q', w)) :
    w = q.arrivalTime cfg now delta draws ∧ now < w ∧
      (cfg.strictFifo = true → q.lastArrivalTime ≤ w) ∧ message.lastEnqueueTime ≤ now ∧
      q' = { q with
        prioHeap := q.prioHeap.insert nodeLessThenEq
          ⟨w, (q.msgCounter + 1).bmod (2 ^ 32), ⟨w, message.delayAt now, message.body⟩⟩
        size := q.size + 1
        timeLastTimeEnqueue := if q.timeLastTimeEnqueue < now then now else q.timeLastTimeEnqueue
        msgsThisCycle := (if q.timeLastTimeEnqueue < now then 0 else q.msgsThisCycle) + 1
        msgCounter := (q.msgCounter + 1).bmod (2 ^ 32)
        lastArrivalTime := w } := by
  unfold enqueue at h
  simp only [bind_eq_ok, assert_eq_ok] at h
  obtain ⟨-, -, -, -, -, hlater, -, hfifo, -, hlast, -, -, h⟩ := h
  cases h
  refine ⟨rfl, hlater, fun hs => le_trans ?_ (hfifo hs), hlast, rfl⟩
  unfold lastArrival
  split <;> omega

theorem isReady_iff :
    q.isReady now = true ↔ q.prioHeap.currentSize > 0 ∧ q.prioHeap.peekMin.time ≤ now := by
  simp [isReady]

/-- A message whose delay can be computed is dequeued when it is ready. -/
theorem dequeueGetDelayCycles_of_ready {n : MessageBufferNode μ} {heap : PrioHeap (MessageBufferNode μ)}
    (hready : q.isReady now = true) (hx : q.prioHeap.extractMin nodeLessThenEq = .ok (n, heap))
    (hlast : q.prioHeap.peekMin.msg.lastEnqueueTime ≤ now)
    (hdelay : 0 ≤ q.prioHeap.peekMin.msg.delayAt now) : ∃ r, q.dequeueGetDelayCycles now = .ok r := by
  have hpop : q.pop now = .ok _ := bind_eq_ok.mpr ⟨(), assert_pos hready, bind_eq_ok.mpr ⟨_, hx, rfl⟩⟩
  have hdequeue : q.dequeue now = .ok _ := bind_eq_ok.mpr ⟨_, hpop, rfl⟩
  have hset : setAndReturnDelayCycles now q.prioHeap.peekMin.msg = .ok _ :=
    bind_eq_ok.mpr ⟨(), assert_pos hlast, bind_eq_ok.mpr ⟨(), assert_pos hdelay, rfl⟩⟩
  exact ⟨_, bind_eq_ok.mpr ⟨_, hdequeue,
    bind_eq_ok.mpr ⟨_, hset, bind_eq_ok.mpr ⟨(), assert_pos hdelay, rfl⟩⟩⟩⟩

end MessageBuffer

/-! ## A buffer, its senders and its consumer -/

structure BufferSystem (μ : Type) where
  now : Nat
  buffer : MessageBuffer μ
  /-- What has been enqueued, in this order. -/
  sent : List μ
  /-- What the consumer has dequeued, in this order. -/
  received : List μ
  /-- The times at which the consumer has been scheduled to wake up. -/
  wakeups : List Nat

inductive BufferEvent (μ : Type) where
  /-- The messages that one transition of a sender enqueues, with their latencies. -/
  | send (messages : List (Message μ × Nat × Nat × Nat × Nat))
  | dequeue
  | recycle
  | tick

namespace BufferSystem

def init [Inhabited μ] : BufferSystem μ := ⟨startTime, .init, [], [], []⟩

def enqueue (cfg : BufferConfig) (s : BufferSystem μ) (m : Message μ × Nat × Nat × Nat × Nat) :
    Except String (BufferSystem μ) := do
  let (buffer, wakeup) ← s.buffer.enqueue cfg s.now m.1 m.2.1 m.2.2
  return { s with buffer, sent := s.sent ++ [m.1.body], wakeups := s.wakeups ++ [wakeup] }

def step (cfg : BufferConfig) (s : BufferSystem μ) : BufferEvent μ → Except String (BufferSystem μ)
  | .send messages =>
    if s.buffer.areNSlotsAvailable cfg s.now messages.length then messages.foldlM (enqueue cfg) s
    else .ok s
  | .dequeue => do
    let (buffer, message, _) ← s.buffer.dequeueGetDelayCycles s.now
    return { s with buffer, received := s.received ++ [message.body] }
  | .recycle => do
    let (buffer, wakeup) ← s.buffer.recycle cfg s.now
    return { s with buffer, wakeups := s.wakeups ++ [wakeup] }
  | .tick => .ok { s with now := s.now + 1 }

def entries (s : BufferSystem μ) : Multiset (MessageBufferNode μ) := s.buffer.prioHeap.entries

/-- The books of a buffer that holds the messages `E`. -/
structure Account (E : Multiset (MessageBufferNode μ)) (counter : Int) (sent received : List μ)
    (wakeups : List Nat) : Prop where
  counted : counter = sent.length
  old : ∀ n ∈ E, n.msgCounter ≤ counter ∧ n.msg.lastEnqueueTime ≤ n.time
  distinct : (E.map (·.msgCounter)).Nodup
  kept : (sent : Multiset μ) = received + E.map (·.msg.body)
  woken : ∀ n ∈ E, n.time ∈ wakeups

namespace Account

variable {E : Multiset (MessageBufferNode μ)} {counter : Int} {w : Nat} {sent received : List μ}
  {wakeups : List Nat} {n : MessageBufferNode μ}

theorem counter_add_one (h : Account E counter sent received wakeups)
    (hfew : sent.length + 1 < 2 ^ 31) : (counter + 1).bmod (2 ^ 32) = counter + 1 := by
  rw [h.counted]
  apply Int.bmod_eq_of_le_mul_two <;> omega

theorem enqueue (h : Account E counter sent received wakeups) (hn : n.msgCounter = counter + 1)
    (hl : n.msg.lastEnqueueTime ≤ n.time) :
    Account (n ::ₘ E) (counter + 1) (sent ++ [n.msg.body]) received (wakeups ++ [n.time]) where
  counted := by simp [h.counted]
  old n' hn' := by
    rcases Multiset.mem_cons.mp hn' with rfl | hn'
    · exact ⟨hn.le, hl⟩
    · have := h.old n' hn'
      exact ⟨this.1.trans (by omega), this.2⟩
  distinct := by
    rw [Multiset.map_cons, Multiset.nodup_cons]
    refine ⟨fun hmem => ?_, h.distinct⟩
    obtain ⟨n', hn', hc⟩ := Multiset.mem_map.mp hmem
    have := (h.old n' hn').1
    omega
  kept := by
    rw [Multiset.map_cons, Multiset.add_cons, ← h.kept, coe_concat]
  woken n' hn' := by
    apply List.mem_append.mpr
    rcases Multiset.mem_cons.mp hn' with rfl | hn'
    · exact .inr List.mem_cons_self
    · exact .inl (h.woken n' hn')

theorem dequeue (h : Account (n ::ₘ E) counter sent received wakeups) :
    Account E counter sent (received ++ [n.msg.body]) wakeups where
  counted := h.counted
  old n' hn' := h.old n' (Multiset.mem_cons_of_mem hn')
  distinct := (Multiset.nodup_cons.mp (Multiset.map_cons _ _ _ ▸ h.distinct)).2
  kept := by
    rw [h.kept, Multiset.map_cons, Multiset.add_cons, coe_concat, Multiset.cons_add]
  woken n' hn' := h.woken n' (Multiset.mem_cons_of_mem hn')

theorem recycle (h : Account (n ::ₘ E) counter sent received wakeups) (hw : n.time ≤ w) :
    Account ({ n with time := w } ::ₘ E) counter sent received (wakeups ++ [w]) where
  counted := h.counted
  old n' hn' := by
    rcases Multiset.mem_cons.mp hn' with rfl | hn'
    · have := h.old n (Multiset.mem_cons_self n E)
      exact ⟨this.1, this.2.trans hw⟩
    · exact h.old n' (Multiset.mem_cons_of_mem hn')
  distinct := by simpa using h.distinct
  kept := by simpa using h.kept
  woken n' hn' := by
    apply List.mem_append.mpr
    rcases Multiset.mem_cons.mp hn' with rfl | hn'
    · exact .inr List.mem_cons_self
    · exact .inl (h.woken n' (Multiset.mem_cons_of_mem hn'))

end Account

/-- `m_msg_counter` counts the messages as long as it does not overflow. -/
structure Inv (s : BufferSystem μ) : Prop where
  ordered : HeapOrdered nodeLessThenEq s.buffer.prioHeap.heap s.buffer.prioHeap.currentSize
  size : s.buffer.size = s.entries.card
  account : s.sent.length < 2 ^ 31 → Account s.entries s.buffer.msgCounter s.sent s.received s.wakeups

variable {cfg : BufferConfig} {s s' : BufferSystem μ} {m : Message μ × Nat × Nat × Nat × Nat}
  {messages : List (Message μ × Nat × Nat × Nat × Nat)} {e : BufferEvent μ}
  {events : List (BufferEvent μ)}

/-- What a step that dequeues does: the head, a least entry, leaves. -/
theorem dequeue_ok (h : s.step cfg .dequeue = .ok s') :
    ∃ n heap, s.buffer.prioHeap.extractMin nodeLessThenEq = .ok (n, heap) ∧ s' = { s with
      buffer := { s.buffer with
        prioHeap := heap
        size := s.buffer.size - 1
        timeLastTimePop := if s.buffer.timeLastTimePop < s.now then s.now else s.buffer.timeLastTimePop
        sizeAtCycleStart :=
          if s.buffer.timeLastTimePop < s.now then s.buffer.size else s.buffer.sizeAtCycleStart }
      received := s.received ++ [s.buffer.prioHeap.peekMin.msg.body] } := by
  obtain ⟨⟨q, m, d⟩, hq, h⟩ := bind_eq_ok.mp h
  cases h
  obtain ⟨⟨q₁, m₁⟩, hdeq, h⟩ := bind_eq_ok.mp hq
  obtain ⟨⟨m₂, d₂⟩, hdelay, h⟩ := bind_eq_ok.mp h
  obtain ⟨-, -, h⟩ := bind_eq_ok.mp h
  cases h
  obtain ⟨-, -, hdelay⟩ := bind_eq_ok.mp hdelay
  obtain ⟨-, -, hdelay⟩ := bind_eq_ok.mp hdelay
  cases hdelay
  obtain ⟨q₂, hpop, h⟩ := bind_eq_ok.mp hdeq
  cases h
  obtain ⟨-, -, h⟩ := bind_eq_ok.mp hpop
  obtain ⟨⟨n, heap⟩, hx, h⟩ := bind_eq_ok.mp h
  cases h
  exact ⟨n, heap, hx, rfl⟩

theorem recycle_ok (h : s.step cfg .recycle = .ok s') :
    ∃ n heap w, s.buffer.prioHeap.extractMin nodeLessThenEq = .ok (n, heap) ∧
      s.buffer.prioHeap.peekMin.time ≤ w ∧ s' = { s with
        buffer := { s.buffer with prioHeap := heap.insert nodeLessThenEq { n with time := w } }
        wakeups := s.wakeups ++ [w] } := by
  obtain ⟨⟨q, w⟩, hq, h⟩ := bind_eq_ok.mp h
  cases h
  obtain ⟨_, hready, h⟩ := bind_eq_ok.mp hq
  obtain ⟨⟨n, heap⟩, hx, h⟩ := bind_eq_ok.mp h
  cases h
  have htime := (MessageBuffer.isReady_iff.mp (assert_eq_ok.mp hready)).2
  exact ⟨n, heap, _, hx, Nat.le_add_right_of_le htime, rfl⟩

/-- What a successful `enqueue` of a sender does. -/
theorem Inv.enqueue_ok (hi : Inv s) (h : s.enqueue cfg m = .ok s') :
    ∃ w, (cfg.strictFifo = true → s.buffer.lastArrivalTime ≤ w) ∧ s.now < w ∧
      m.1.lastEnqueueTime ≤ s.now ∧ s'.buffer.lastArrivalTime = w ∧
      s'.entries = ⟨w, (s.buffer.msgCounter + 1).bmod (2 ^ 32), ⟨w, m.1.delayAt s.now, m.1.body⟩⟩ ::ₘ
        s.entries := by
  obtain ⟨⟨buffer, w⟩, hq, h⟩ := bind_eq_ok.mp h
  cases h
  obtain ⟨-, hlater, hfifo, hlast, rfl⟩ := MessageBuffer.enqueue_ok hq
  exact ⟨w, hfifo, hlater, hlast, rfl, (PrioHeap.insert_spec _ hi.ordered).2⟩

theorem sent_enqueue (h : s.enqueue cfg m = .ok s') : s'.sent = s.sent ++ [m.1.body] := by
  obtain ⟨⟨buffer, w⟩, -, h⟩ := bind_eq_ok.mp h
  cases h
  rfl

theorem Inv.enqueue (hi : Inv s) (h : s.enqueue cfg m = .ok s') : Inv s' := by
  obtain ⟨⟨buffer, w⟩, hq, h⟩ := bind_eq_ok.mp h
  cases h
  obtain ⟨-, -, -, -, rfl⟩ := MessageBuffer.enqueue_ok hq
  obtain ⟨hord, hent⟩ := PrioHeap.insert_spec _ hi.ordered
  refine ⟨hord, ?_, fun hfew => ?_⟩
  · unfold entries
    rw [hent, Multiset.card_cons]
    exact congrArg (· + 1) hi.size
  · rw [List.length_append, List.length_singleton] at hfew
    have hacc := hi.account (by omega)
    have hcounter := hacc.counter_add_one hfew
    unfold entries
    rw [hent]
    rw [hcounter]
    exact hacc.enqueue rfl le_rfl

/-- What every `enqueue` keeps is kept by a transition that enqueues several messages. -/
theorem send_keeps {P : BufferSystem μ → Prop}
    (hP : ∀ s, ∀ m ∈ messages, ∀ s', P s → s.enqueue cfg m = .ok s' → P s')
    (h : s.step cfg (.send messages) = .ok s') (hs : P s) : P s' := by
  rw [step] at h
  split at h
  · refine foldlM_ok_invariant (P := fun _ => P) h hs fun done m later c c' hmessages => ?_
    exact hP c m (hmessages ▸ List.mem_append_right done List.mem_cons_self) c'
  · cases h
    exact hs

/-- Fewer messages had been sent before a step, and it was not later. -/
theorem earlier (h : s.step cfg e = .ok s') : s.sent.length ≤ s'.sent.length ∧ s.now ≤ s'.now := by
  cases e with
  | send messages =>
    refine send_keeps (P := fun c => s.sent.length ≤ c.sent.length ∧ s.now ≤ c.now)
      (fun c m _ c' hc hm => ?_) h ⟨le_rfl, le_rfl⟩
    obtain ⟨⟨buffer, w⟩, -, hm⟩ := bind_eq_ok.mp hm
    cases hm
    refine ⟨?_, hc.2⟩
    rw [List.length_append]
    exact hc.1.trans (Nat.le_add_right _ _)
  | dequeue =>
    obtain ⟨n, heap, -, rfl⟩ := dequeue_ok h
    exact ⟨le_rfl, le_rfl⟩
  | recycle =>
    obtain ⟨n, heap, w, -, -, rfl⟩ := recycle_ok h
    exact ⟨le_rfl, le_rfl⟩
  | tick =>
    cases h
    exact ⟨le_rfl, Nat.le_succ _⟩

theorem Inv.step (hi : Inv s) (h : s.step cfg e = .ok s') : Inv s' := by
  cases e with
  | send messages => exact send_keeps (fun c m _ c' hc hm => hc.enqueue hm) h hi
  | dequeue =>
    obtain ⟨n, heap, hx, rfl⟩ := dequeue_ok h
    obtain ⟨hord, hent, -, rfl⟩ := PrioHeap.extractMin_spec hi.ordered hx
    have hsize := hi.size
    rw [entries, hent, Multiset.card_cons] at hsize
    refine ⟨hord, Nat.sub_eq_of_eq_add hsize, fun hfew => ?_⟩
    have hacc := hi.account hfew
    rw [entries, hent] at hacc
    exact hacc.dequeue
  | recycle =>
    obtain ⟨n, heap, w, hx, hw, rfl⟩ := recycle_ok h
    obtain ⟨hord, hent, -, rfl⟩ := PrioHeap.extractMin_spec hi.ordered hx
    obtain ⟨hord', hent'⟩ :=
      PrioHeap.insert_spec { s.buffer.prioHeap.peekMin with time := w } hord
    have hsize := hi.size
    rw [entries, hent, Multiset.card_cons] at hsize
    refine ⟨hord', ?_, fun hfew => ?_⟩
    · unfold entries
      rw [hent', Multiset.card_cons]
      exact hsize
    · have hacc := hi.account hfew
      rw [entries, hent] at hacc
      unfold entries
      rw [hent']
      exact hacc.recycle hw
  | tick =>
    cases h
    exact ⟨hi.ordered, hi.size, hi.account⟩

theorem inv_init [Inhabited μ] : Inv (init : BufferSystem μ) where
  ordered _ h2 hn := absurd (h2.trans hn) (Nat.not_succ_le_zero 1)
  size := by simp [init, MessageBuffer.init, PrioHeap.init, entries, PrioHeap.entries, heapEntries]
  account _ := by
    constructor <;>
      simp [init, MessageBuffer.init, PrioHeap.init, entries, PrioHeap.entries, heapEntries]

theorem inv_of_run [Inhabited μ] (hrun : exec (.ok init) (step cfg) events = .ok s) : Inv s := by
  refine exec_invariant (P := Inv) ?_ (fun c e c' hc hs => hc.step hs) hrun
  intro c hc
  cases hc
  exact inv_init

/-! ## Delays -/

/-- The delays of the messages that a run sends are not negative, and stay below `2 ^ 31` until the time
`now`. -/
def FittingDelays (events : List (BufferEvent μ)) (now : Nat) : Prop :=
  ∀ messages, .send messages ∈ events →
    ∀ m ∈ messages, 0 ≤ m.1.delayedCycles ∧ (now : Int) + m.1.delayedCycles < 2 ^ 31

/-- No delay is negative, and none reaches `bound` cycles more than the time of its last enqueue. -/
def Delayed (bound : Int) (s : BufferSystem μ) : Prop :=
  ∀ n ∈ s.entries, 0 ≤ n.msg.delayedCycles ∧ n.msg.delayedCycles < bound + n.msg.lastEnqueueTime

/-- A delay that fits in an `int` is computed exactly. -/
theorem delayAt_eq {message : Message μ} {now N : Nat} (hnow : now ≤ N)
    (hlast : message.lastEnqueueTime ≤ now) (hd : 0 ≤ message.delayedCycles)
    (hbound : message.delayedCycles < 2 ^ 31 - N + message.lastEnqueueTime) :
    message.delayAt now = now - message.lastEnqueueTime + message.delayedCycles := by
  unfold Message.delayAt
  apply Int.bmod_eq_of_le_mul_two <;> omega

variable {N : Nat}

theorem Delayed.enqueue (hd : Delayed (2 ^ 31 - N) s) (hi : Inv s) (h : s.enqueue cfg m = .ok s')
    (hnow : s.now ≤ N) (hm : 0 ≤ m.1.delayedCycles ∧ N + m.1.delayedCycles < 2 ^ 31) :
    Delayed (2 ^ 31 - N) s' := by
  obtain ⟨w, -, hlater, hlast, -, hent⟩ := hi.enqueue_ok h
  intro n hn
  rw [hent] at hn
  rcases Multiset.mem_cons.mp hn with rfl | hn
  · have hdelay := delayAt_eq hnow hlast hm.1 (by omega)
    show 0 ≤ m.1.delayAt s.now ∧ m.1.delayAt s.now < 2 ^ 31 - N + (w : Int)
    omega
  · exact hd n hn

theorem Delayed.step (hd : Delayed (2 ^ 31 - N) s) (hi : Inv s) (h : s.step cfg e = .ok s')
    (hnow : s.now ≤ N) (hfit : FittingDelays events N) (he : e ∈ events) :
    Delayed (2 ^ 31 - N) s' := by
  cases e with
  | send messages =>
    refine (send_keeps (P := fun c => Inv c ∧ c.now ≤ N ∧ Delayed (2 ^ 31 - N) c)
      (fun c m hmem c' ⟨hic, hc, hdc⟩ hm => ?_) h ⟨hi, hnow, hd⟩).2.2
    refine ⟨hic.enqueue hm, ?_, hdc.enqueue hic hm hc (hfit messages he m hmem)⟩
    obtain ⟨⟨buffer, w⟩, -, hm⟩ := bind_eq_ok.mp hm
    cases hm
    exact hc
  | dequeue =>
    obtain ⟨n, heap, hx, rfl⟩ := dequeue_ok h
    have hent := (PrioHeap.extractMin_spec hi.ordered hx).2.1
    intro n' hn'
    refine hd n' ?_
    rw [entries, hent]
    exact Multiset.mem_cons_of_mem hn'
  | recycle =>
    obtain ⟨n, heap, w, hx, -, rfl⟩ := recycle_ok h
    obtain ⟨hord, hent, -, -⟩ := PrioHeap.extractMin_spec hi.ordered hx
    have hent' := (PrioHeap.insert_spec { n with time := w } hord).2
    unfold Delayed at hd ⊢
    unfold entries at hd ⊢
    rw [hent, Multiset.forall_mem_cons] at hd
    rw [hent', Multiset.forall_mem_cons]
    exact hd
  | tick =>
    cases h
    exact hd

theorem delayed_of_run [Inhabited μ] (hrun : exec (.ok init) (step cfg) events = .ok s)
    (hfit : FittingDelays events s.now) : Delayed (2 ^ 31 - s.now) s := by
  suffices s.now ≤ s.now → Inv s ∧ Delayed (2 ^ 31 - s.now) s from (this le_rfl).2
  refine foldlM_ok_invariant
    (P := fun _ c => c.now ≤ s.now → Inv c ∧ Delayed (2 ^ 31 - s.now) c) hrun ?_ ?_
  · intro _
    refine ⟨inv_init, fun n hn => ?_⟩
    simp [init, MessageBuffer.init, PrioHeap.init, entries, PrioHeap.entries, heapEntries] at hn
  · intro done e later c c' hevents hc hs hnow
    have he : e ∈ events := hevents ▸ List.mem_append_right done List.mem_cons_self
    have hnow := (earlier hs).2.trans hnow
    obtain ⟨hic, hdc⟩ := hc hnow
    exact ⟨hic.step hs, hdc.step hic hs hnow hfit he⟩

/-- A buffer of an ordered network with room for two messages. -/
def orderedConfig : BufferConfig := ⟨2, true, true, false, true, false, 10⟩

/-- Two messages with a latency of two cycles, of which the first is received. -/
def twoMessages : List (BufferEvent Nat) :=
  [.send [(⟨0, 0, 7⟩, 2, 0, 0, 0)], .tick, .send [(⟨1, 0, 8⟩, 2, 0, 0, 0)], .tick, .dequeue]

/-- **Every message is delivered once.** In every run that sends fewer than `2 ^ 31` messages, what has
been sent has been received or is in the buffer; no two messages in the buffer have the same counter, so
the assertion of `node_less_then_eq` holds; for each of them the consumer is scheduled to wake up when
it arrives; and when the head is ready and the delays fit, dequeuing it fails no assertion. -/
theorem run_keepsMessages [Inhabited μ] (hrun : exec (.ok init) (step cfg) events = .ok s)
    (hfew : s.sent.length < 2 ^ 31) :
    (s.sent : Multiset μ) = s.received + s.entries.map (·.msg.body) ∧
      (s.entries.map (·.msgCounter)).Nodup ∧ (∀ n ∈ s.entries, n.time ∈ s.wakeups) ∧
      (FittingDelays events s.now → s.buffer.isReady s.now = true →
        ∃ s', s.step cfg .dequeue = .ok s') := by
  have hi := inv_of_run hrun
  have hacc := hi.account hfew
  refine ⟨hacc.kept, hacc.distinct, hacc.woken, fun hfit hready => ?_⟩
  obtain ⟨hpos, htime⟩ := MessageBuffer.isReady_iff.mp hready
  obtain ⟨n, heap, hx⟩ : ∃ n heap, s.buffer.prioHeap.extractMin nodeLessThenEq = .ok (n, heap) := by
    refine ⟨_, _, bind_eq_ok.mpr ⟨(), assert_pos hpos, rfl⟩⟩
  obtain ⟨-, hent, -, rfl⟩ := PrioHeap.extractMin_spec hi.ordered hx
  have hmem : s.buffer.prioHeap.peekMin ∈ s.entries := by
    rw [entries, hent]
    exact Multiset.mem_cons_self _ _
  have hold := (hacc.old _ hmem).2.trans htime
  obtain ⟨hd, hbound⟩ := delayed_of_run hrun hfit _ hmem
  have hnonneg : 0 ≤ s.buffer.prioHeap.peekMin.msg.delayAt s.now := by
    rw [delayAt_eq le_rfl hold hd hbound]
    omega
  obtain ⟨r, hr⟩ := MessageBuffer.dequeueGetDelayCycles_of_ready hready hx hold hnonneg
  exact ⟨_, bind_eq_ok.mpr ⟨r, hr, rfl⟩⟩

theorem run_keepsMessages_two : ∃ s s' : BufferSystem Nat, s.received = [7] ∧
    ([7, 8] : Multiset Nat) = s.received + s.entries.map (·.msg.body) ∧
    s.step orderedConfig .dequeue = .ok s' := by
  have hfit : FittingDelays (twoMessages ++ [.tick]) 4 := by
    intro messages hmessages
    simp only [twoMessages, List.cons_append, List.nil_append, List.mem_cons, BufferEvent.send.injEq,
      reduceCtorEq, List.not_mem_nil, or_false, false_or] at hmessages
    rcases hmessages with rfl | rfl <;> simp
  have hrun : exec (.ok init) (step orderedConfig) (twoMessages ++ [.tick]) = .ok _ := rfl
  obtain ⟨hkept, -, -, hdequeue⟩ := run_keepsMessages hrun (by decide)
  obtain ⟨s', hs'⟩ := hdequeue hfit rfl
  exact ⟨_, s', rfl, hkept, hs'⟩

/-! ## First in, first out -/

/-- The messages of the buffer, in the order in which they were sent. -/
structure InOrder (rest : List (MessageBufferNode μ)) (s : BufferSystem μ) : Prop where
  entries : s.entries = rest
  sorted : rest.Pairwise fun n n' => n.time ≤ n'.time ∧ n.msgCounter < n'.msgCounter
  sent : s.sent = s.received ++ rest.map (·.msg.body)
  arrived : ∀ n ∈ rest, n.time ≤ s.buffer.lastArrivalTime

/-- The least entry is the first. -/
theorem eq_cons_of_least {rest : List (MessageBufferNode μ)} {n : MessageBufferNode μ}
    {E : Multiset (MessageBufferNode μ)}
    (hs : rest.Pairwise fun n n' => n.time ≤ n'.time ∧ n.msgCounter < n'.msgCounter)
    (hE : (rest : Multiset (MessageBufferNode μ)) = n ::ₘ E) (hmin : ∀ n' ∈ rest, nodeLessThenEq n n') :
    ∃ tail : List (MessageBufferNode μ), rest = n :: tail ∧ E = tail := by
  cases rest with
  | nil => exact absurd hE.symm (Multiset.cons_ne_zero)
  | cons r tail =>
    obtain ⟨hr, -⟩ := List.pairwise_cons.mp hs
    have hmem : n ∈ r :: tail := Multiset.mem_coe.mp (hE ▸ Multiset.mem_cons_self n E)
    rcases List.mem_cons.mp hmem with rfl | hmem
    · exact ⟨tail, rfl, ((Multiset.cons_inj_right n).mp (Multiset.cons_coe n tail ▸ hE)).symm⟩
    · have hle := hmin r List.mem_cons_self
      have := hr n hmem
      unfold nodeLessThenEq at hle
      grind

variable {rest : List (MessageBufferNode μ)}

theorem InOrder.enqueue (ho : InOrder rest s) (hi : Inv s) (hstrict : cfg.strictFifo = true)
    (h : s.enqueue cfg m = .ok s') (hfew : s'.sent.length < 2 ^ 31) : ∃ rest', InOrder rest' s' := by
  rw [sent_enqueue h, List.length_append, List.length_singleton] at hfew
  have hacc := hi.account (by omega)
  obtain ⟨w, hlast, -, -, hw, hent⟩ := hi.enqueue_ok h
  have hlast := hlast hstrict
  rw [hacc.counter_add_one hfew, ho.entries] at hent
  refine ⟨rest ++ [⟨w, s.buffer.msgCounter + 1, ⟨w, m.1.delayAt s.now, m.1.body⟩⟩], ?_, ?_, ?_, ?_⟩
  · rw [hent, coe_concat]
  · apply List.pairwise_append.mpr
    refine ⟨ho.sorted, List.pairwise_singleton _ _, fun n hn n' hn' => ?_⟩
    obtain rfl := List.mem_singleton.mp hn'
    have hold := (hacc.old n (ho.entries ▸ hn)).1
    exact ⟨(ho.arrived n hn).trans hlast, Int.lt_add_one_of_le hold⟩
  · have hreceived : s'.received = s.received := by
      obtain ⟨⟨buffer, w⟩, -, h⟩ := bind_eq_ok.mp h
      cases h
      rfl
    rw [sent_enqueue h, hreceived, List.map_append, ← List.append_assoc, ← ho.sent]
    rfl
  · intro n hn
    rw [hw]
    rcases List.mem_append.mp hn with hn | hn
    · exact (ho.arrived n hn).trans hlast
    · obtain rfl := List.mem_singleton.mp hn
      exact le_rfl

theorem InOrder.step (ho : InOrder rest s) (hi : Inv s) (hstrict : cfg.strictFifo = true)
    (h : s.step cfg e = .ok s') (he : e ≠ .recycle) (hfew : s'.sent.length < 2 ^ 31) :
    ∃ rest', InOrder rest' s' := by
  cases e with
  | send messages =>
    refine (send_keeps (P := fun c => Inv c ∧ (c.sent.length < 2 ^ 31 → ∃ rest', InOrder rest' c))
      (fun c m _ c' hc hm => ?_) h ⟨hi, fun _ => ⟨rest, ho⟩⟩).2 hfew
    refine ⟨hc.1.enqueue hm, fun hfew => ?_⟩
    have hfew' := hfew
    rw [sent_enqueue hm, List.length_append] at hfew'
    obtain ⟨rest', hoc⟩ := hc.2 (by omega)
    exact hoc.enqueue hc.1 hstrict hm hfew
  | dequeue =>
    obtain ⟨n, heap, hx, rfl⟩ := dequeue_ok h
    obtain ⟨-, hent, hmin, hn⟩ := PrioHeap.extractMin_spec hi.ordered hx
    have hE := ho.entries
    unfold BufferSystem.entries at hE
    rw [hE] at hmin
    obtain ⟨tail, rfl, htail⟩ := eq_cons_of_least ho.sorted (hE ▸ hent) hmin
    refine ⟨tail, htail, (List.pairwise_cons.mp ho.sorted).2, ?_, fun n' hn' => ?_⟩
    · rw [ho.sent, List.map_cons, ← hn, List.append_assoc]
      rfl
    · exact ho.arrived n' (List.mem_cons_of_mem n hn')
  | recycle => exact absurd rfl he
  | tick =>
    cases h
    exact ⟨rest, ho.entries, ho.sorted, ho.sent, ho.arrived⟩

/-- **First in, first out.** Where the ordering is strict and nothing is recycled, the messages are
received in the order in which they were sent, whatever their latencies. -/
theorem run_receivesInOrder [Inhabited μ] (hrun : exec (.ok init) (step cfg) events = .ok s)
    (hfew : s.sent.length < 2 ^ 31) (hstrict : cfg.strictFifo = true) (hrecycle : .recycle ∉ events) :
    ∃ waiting, s.sent = s.received ++ waiting := by
  suffices Inv s ∧ (s.sent.length < 2 ^ 31 → ∃ rest, InOrder rest s) by
    obtain ⟨rest, ho⟩ := this.2 hfew
    exact ⟨_, ho.sent⟩
  refine foldlM_ok_invariant
    (P := fun _ c => Inv c ∧ (c.sent.length < 2 ^ 31 → ∃ rest, InOrder rest c)) hrun
    ⟨inv_init, fun _ => ⟨[], rfl, .nil, rfl, fun _ hn => absurd hn List.not_mem_nil⟩⟩ ?_
  intro done e later c c' hevents ⟨hic, hc⟩ hs
  refine ⟨hic.step hs, fun hfew => ?_⟩
  obtain ⟨rest, hoc⟩ := hc ((earlier hs).1.trans_lt hfew)
  refine hoc.step hic hstrict hs ?_ hfew
  rintro rfl
  exact hrecycle (hevents ▸ List.mem_append_right done List.mem_cons_self)

theorem run_receivesInOrder_two : ∃ s : BufferSystem Nat, s.received = [7] ∧
    ∃ waiting, [7, 8] = s.received ++ waiting := by
  have hrun : exec (.ok init) (step orderedConfig) twoMessages = .ok _ := rfl
  exact ⟨_, rfl, run_receivesInOrder hrun (by decide) rfl (by simp [twoMessages])⟩

variable {δ : Nat}

/-- With one latency for all messages, none can arrive before one that was sent earlier. -/
theorem lastArrivalTime_le [Inhabited μ] (hrun : exec (.ok init) (step cfg) events = .ok s)
    (hfixed : (cfg.RANDOMIZATION && cfg.randomization) = false)
    (hsame : ∀ messages, .send messages ∈ events → ∀ m ∈ messages, m.2.1 = δ) :
    s.buffer.lastArrivalTime ≤ s.now + δ := by
  refine foldlM_ok_invariant (P := fun _ c => c.buffer.lastArrivalTime ≤ c.now + δ) hrun
    (Nat.zero_le _) ?_
  intro done e later c c' hevents hc hs
  have he : e ∈ events := hevents ▸ List.mem_append_right done List.mem_cons_self
  cases e with
  | send messages =>
    refine send_keeps (P := fun c => c.buffer.lastArrivalTime ≤ c.now + δ)
      (fun c m hmem c' _ hm => ?_) hs hc
    obtain ⟨⟨buffer, w⟩, hq, hm⟩ := bind_eq_ok.mp hm
    cases hm
    obtain ⟨hw, -, -, -, rfl⟩ := MessageBuffer.enqueue_ok hq
    rw [MessageBuffer.arrivalTime, hfixed, hsame messages he m hmem] at hw
    exact hw.le
  | dequeue =>
    obtain ⟨n, heap, -, rfl⟩ := dequeue_ok hs
    exact hc
  | recycle =>
    obtain ⟨n, heap, w, -, -, rfl⟩ := recycle_ok hs
    exact hc
  | tick =>
    cases hs
    show c.buffer.lastArrivalTime ≤ c.now + 1 + δ
    omega

/-- **The ordering is not violated**: `enqueue` fails no assertion where all messages have one latency,
or where the latencies are random, and the message was last enqueued for a time that has come. -/
theorem run_neverViolatesFifo [Inhabited μ] (hrun : exec (.ok init) (step cfg) events = .ok s)
    (hset : cfg.orderingSet = true) (hconsumer : cfg.consumer = true) (hδ : 0 < δ)
    (hsame : (cfg.RANDOMIZATION && cfg.randomization) = false →
      ∀ messages, .send messages ∈ events → ∀ m ∈ messages, m.2.1 = δ)
    (hm : m.2.1 = δ) (hlast : m.1.lastEnqueueTime ≤ s.now) : ∃ s', s.enqueue cfg m = .ok s' := by
  have hrandom : 0 < randomTime m.2.2 := by
    unfold randomTime
    omega
  have htime : s.now < s.buffer.arrivalTime cfg s.now m.2.1 m.2.2 ∧
      (cfg.strictFifo = true →
        s.buffer.lastArrival cfg s.now ≤ s.buffer.arrivalTime cfg s.now m.2.1 m.2.2) := by
    unfold MessageBuffer.arrivalTime MessageBuffer.lastArrival
    cases hr : cfg.RANDOMIZATION && cfg.randomization with
    | true => grind
    | false =>
      have := lastArrivalTime_le hrun hr (hsame hr)
      grind
  obtain ⟨r, hr⟩ : ∃ r, s.buffer.enqueue cfg s.now m.1 m.2.1 m.2.2 = .ok r := by
    simp only [MessageBuffer.enqueue, assert_pos hset, assert_pos (hm ▸ hδ), assert_pos htime.1,
      assert_pos htime.2, assert_pos hlast, assert_pos hconsumer, ok_bind]
    exact ⟨_, rfl⟩
  exact ⟨_, bind_eq_ok.mpr ⟨r, hr, rfl⟩⟩

theorem run_neverViolatesFifo_third : ∃ s s' : BufferSystem Nat, s.sent = [7, 8] ∧
    s.enqueue orderedConfig (⟨3, 0, 9⟩, 2, 0, 0, 0) = .ok s' := by
  have hrun : exec (.ok init) (step orderedConfig) twoMessages = .ok _ := rfl
  obtain ⟨s', hs'⟩ := run_neverViolatesFifo (δ := 2) (m := (⟨3, 0, 9⟩, 2, 0, 0, 0)) hrun rfl rfl
    (by decide) (fun _ messages hmessages => by
      simp only [twoMessages, List.mem_cons, BufferEvent.send.injEq, reduceCtorEq, List.not_mem_nil,
        or_false, false_or] at hmessages
      rcases hmessages with rfl | rfl <;> simp) rfl (by decide)
  exact ⟨_, s', rfl, hs'⟩

/-! ## Buffers of a bounded size -/

/-- What `areNSlotsAvailable` counts is no less than what the buffer holds. -/
structure Counted (s : BufferSystem μ) : Prop where
  size : s.buffer.size ≤ s.buffer.currentSize s.now
  pop : s.buffer.timeLastTimePop ≤ s.now

theorem Counted.enqueue (hc : Counted s) (h : s.enqueue cfg m = .ok s') :
    Counted s' ∧ s'.buffer.size = s.buffer.size + 1 := by
  obtain ⟨⟨buffer, w⟩, hq, h⟩ := bind_eq_ok.mp h
  cases h
  obtain ⟨-, -, -, -, rfl⟩ := MessageBuffer.enqueue_ok hq
  refine ⟨⟨?_, hc.pop⟩, rfl⟩
  have hsize := hc.size
  unfold MessageBuffer.currentSize at hsize ⊢
  grind

theorem Counted.step (hc : Counted s) (hbound : s.buffer.size ≤ cfg.maxSize) (h : s.step cfg e = .ok s')
    (hmax : cfg.maxSize ≠ -1) : Counted s' ∧ s'.buffer.size ≤ cfg.maxSize := by
  cases e with
  | send messages =>
    rw [step] at h
    split at h
    next hslots =>
      have hslots := (of_decide_eq_true hslots).resolve_left hmax
      obtain ⟨hc', hsize⟩ := foldlM_ok_invariant
        (P := fun done c => Counted c ∧ c.buffer.size = s.buffer.size + done.length) h ⟨hc, rfl⟩ (by
          intro done m later c c' _ hi hm
          obtain ⟨hc', hsize⟩ := hi.1.enqueue hm
          exact ⟨hc', by rw [hsize, hi.2, List.length_append, List.length_singleton, Nat.add_assoc]⟩)
      have := hc.size
      exact ⟨hc', by omega⟩
    next =>
      cases h
      exact ⟨hc, hbound⟩
  | dequeue =>
    obtain ⟨n, heap, -, rfl⟩ := dequeue_ok h
    have hsize := hc.size
    have hpop := hc.pop
    refine ⟨⟨?_, ?_⟩, by show ((s.buffer.size - 1 : Nat) : Int) ≤ _; omega⟩
    · unfold MessageBuffer.currentSize at hsize ⊢
      grind
    · grind
  | recycle =>
    obtain ⟨n, heap, w, -, -, rfl⟩ := recycle_ok h
    exact ⟨⟨hc.size, hc.pop⟩, hbound⟩
  | tick =>
    cases h
    -- in the next cycle nothing has been popped yet
    have hlt : s.buffer.timeLastTimePop < s.now + 1 := Nat.lt_succ_of_le hc.pop
    refine ⟨⟨?_, hlt.le⟩, hbound⟩
    unfold MessageBuffer.currentSize
    rw [if_pos hlt]

/-- **Buffers do not overflow.** As every sender asks for the slots of all its messages first, a buffer
of a bounded size never holds more messages than that, although what is popped in a cycle counts until
the next. -/
theorem run_withinBound [Inhabited μ] (hrun : exec (.ok init) (step cfg) events = .ok s)
    (hmax : 0 ≤ cfg.maxSize) : s.entries.card ≤ cfg.maxSize := by
  rw [← (inv_of_run hrun).size]
  refine (exec_invariant (P := fun c => Counted c ∧ c.buffer.size ≤ cfg.maxSize) ?_ ?_ hrun).2
  · intro c hc
    cases hc
    exact ⟨⟨Nat.zero_le _, Nat.zero_le _⟩, hmax⟩
  · exact fun c e c' hc hs => hc.1.step hc.2 hs (by omega)

theorem run_withinBound_two : ∃ s : BufferSystem Nat, s.sent = [7, 8] ∧ (s.entries.card : Int) ≤ 2 := by
  have hrun : exec (.ok init) (step orderedConfig) twoMessages = .ok _ := rfl
  exact ⟨_, rfl, run_withinBound hrun (by decide)⟩

end BufferSystem

end GpgpuSimRuby.Ruby
