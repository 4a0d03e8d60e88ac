import GpgpuSimRuby.Ruby.Basic
import GpgpuSimRuby.Ruby.PrioHeap

/-!
# The event queue of Ruby

Every activity of the memory system is the wakeup of a consumer at a time for which it has been
scheduled. What a consumer does when it wakes up is a parameter: it changes the rest of the simulator,
and it schedules wakeups.
-/

namespace GpgpuSimRuby.Ruby

open Library Function

variable {κ σ : Type} [DecidableEq κ]

structure EventQueueNode (κ : Type) where
  time : Nat
  consumer : κ
  deriving Inhabited

/-- `node_less_then_eq` of two events: no order is enforced among those of the same time. -/
def eventLessThenEq (n₁ n₂ : EventQueueNode κ) : Prop := n₁.time ≤ n₂.time

instance decidableEventLessThenEq : DecidableRel (eventLessThenEq (κ := κ)) := fun n₁ n₂ =>
  inferInstanceAs (Decidable (n₁.time ≤ n₂.time))

instance : Std.Total (eventLessThenEq (κ := κ)) := ⟨fun n₁ n₂ => Nat.le_total n₁.time n₂.time⟩

instance : IsTrans (EventQueueNode κ) eventLessThenEq := ⟨fun _ _ _ h h' => Nat.le_trans h h'⟩

/-- The queue, with `m_last_scheduled_wakeup` and `m_last_wakeup` of every consumer. -/
structure EventQueue (κ : Type) where
  prioHeap : PrioHeap (EventQueueNode κ)
  globalTime : Nat
  lastScheduledWakeup : κ → Nat
  lastWakeup : κ → Nat

/-- A simulator with what it records: the wakeups that have been scheduled, and those that have taken
place, the latest of them first. -/
structure Simulator (κ σ : Type) where
  queue : EventQueue κ
  rest : σ
  scheduled : List (κ × Nat)
  woken : List (κ × Nat)

namespace EventQueue

def init [Inhabited κ] : EventQueue κ := ⟨.init, startTime, fun _ => 0, fun _ => 0⟩

/-- A wakeup for which the consumer has just been scheduled is redundant. -/
def scheduleEventAbsolute (q : EventQueue κ) (consumer : κ) (timeAbs : Nat) :
    Except String (EventQueue κ) := do
  if q.lastScheduledWakeup consumer ≠ timeAbs then
    assert (timeAbs > q.globalTime) "timeAbs > m_globalTime"
    return { q with
      prioHeap := q.prioHeap.insert eventLessThenEq ⟨timeAbs, consumer⟩
      lastScheduledWakeup := update q.lastScheduledWakeup consumer timeAbs }
  else return q

end EventQueue

namespace Simulator

def init [Inhabited κ] (rest : σ) : Simulator κ σ := ⟨.init, rest, [], []⟩

def schedule (s : Simulator κ σ) (call : κ × Nat) : Except String (Simulator κ σ) := do
  let queue ← s.queue.scheduleEventAbsolute call.1 call.2
  return { s with queue, scheduled := call :: s.scheduled }

section

variable (wakeup : κ → σ → Nat → σ × List (κ × Nat))

/-- `Consumer::triggerWakeup`: a consumer wakes up once in a cycle. -/
def triggerWakeup (s : Simulator κ σ) (consumer : κ) : Except String (Simulator κ σ) := do
  let time := s.queue.globalTime
  if s.queue.lastWakeup consumer ≠ time then
    let (rest, calls) := wakeup consumer s.rest time
    let s ← calls.foldlM schedule { s with rest, woken := (consumer, time) :: s.woken }
    return { s with queue := { s.queue with
      lastWakeup := update s.queue.lastWakeup consumer time } }
  else return s

/-- A round of the loop of `triggerEvents`. -/
def triggerNext (s : Simulator κ σ) : Except String (Simulator κ σ) := do
  let globalTime := s.queue.prioHeap.peekMin.time
  let (node, prioHeap) ← s.queue.prioHeap.extractMin eventLessThenEq
  triggerWakeup wakeup { s with queue := { s.queue with globalTime, prioHeap } } node.consumer

/-- The loop, for as many rounds as it may take. -/
def triggerLoop (due : Nat → Bool) : Nat → Simulator κ σ → Except String (Simulator κ σ)
  | 0, _ => .error "out of rounds"
  | rounds + 1, s =>
    if s.queue.prioHeap.currentSize > 0 ∧ due s.queue.prioHeap.peekMin.time then do
      triggerLoop due rounds (← triggerNext wakeup s)
    else .ok s

def triggerEvents (rounds t : Nat) (s : Simulator κ σ) : Except String (Simulator κ σ) := do
  let s ← triggerLoop wakeup (· ≤ t) rounds s
  return { s with queue := { s.queue with globalTime := t } }

end

/-! ## What has been scheduled -/

/-- The heap has what has been scheduled and has not taken place. -/
structure Books (s : Simulator κ σ) : Prop where
  ordered : HeapOrdered eventLessThenEq s.queue.prioHeap.heap s.queue.prioHeap.currentSize
  entry : ∀ n ∈ s.queue.prioHeap.entries,
    s.queue.globalTime ≤ n.time ∧ (n.consumer, n.time) ∈ s.scheduled
  kept : ∀ c ∈ s.scheduled, 0 < c.2 → c ∈ s.woken ∨ ⟨c.2, c.1⟩ ∈ s.queue.prioHeap.entries
  last : ∀ c, s.queue.lastScheduledWakeup c = 0 ∨ (c, s.queue.lastScheduledWakeup c) ∈ s.scheduled

/-- `s'` differs from `s` in wakeups that have been scheduled for later. -/
structure Later (s s' : Simulator κ σ) : Prop where
  woken : s'.woken = s.woken
  globalTime : s'.queue.globalTime = s.queue.globalTime
  lastWakeup : s'.queue.lastWakeup = s.queue.lastWakeup
  scheduled : ∀ c ∈ s.scheduled, c ∈ s'.scheduled
  entries : ∃ new, s'.queue.prioHeap.entries = new + s.queue.prioHeap.entries ∧
    ∀ n ∈ new, s.queue.globalTime < n.time

variable {s s₁ s' : Simulator κ σ} {call : κ × Nat} {calls : List (κ × Nat)}

omit [DecidableEq κ] in
theorem Later.rfl' : Later s s :=
  ⟨rfl, rfl, rfl, fun _ h => h, 0, (zero_add _).symm, fun _ h => absurd h (Multiset.notMem_zero _)⟩

omit [DecidableEq κ] in
theorem Later.trans (h : Later s s₁) (h' : Later s₁ s') : Later s s' where
  woken := h'.woken.trans h.woken
  globalTime := h'.globalTime.trans h.globalTime
  lastWakeup := h'.lastWakeup.trans h.lastWakeup
  scheduled c hc := h'.scheduled c (h.scheduled c hc)
  entries := by
    obtain ⟨new, hnew, hlater⟩ := h.entries
    obtain ⟨new', hnew', hlater'⟩ := h'.entries
    refine ⟨new' + new, by rw [hnew', hnew, add_assoc], fun n hn => ?_⟩
    rcases Multiset.mem_add.mp hn with hn | hn
    · exact h.globalTime ▸ hlater' n hn
    · exact hlater n hn

theorem schedule_ok (hb : Books s) (h : s.schedule call = .ok s') : Books s' ∧ Later s s' := by
  obtain ⟨queue, hq, h⟩ := bind_eq_ok.mp h
  cases h
  unfold EventQueue.scheduleEventAbsolute at hq
  split at hq
  next hne =>
    obtain ⟨_, hlater, hq⟩ := bind_eq_ok.mp hq
    have hlater := assert_eq_ok.mp hlater
    cases hq
    obtain ⟨hord, hent⟩ := PrioHeap.insert_spec ⟨call.2, call.1⟩ hb.ordered
    refine ⟨⟨hord, fun n hn => ?_, fun c hc hpos => ?_, fun c => ?_⟩, rfl, rfl, rfl,
      fun c hc => List.mem_cons_of_mem _ hc, {⟨call.2, call.1⟩}, hent, fun n hn => ?_⟩
    · rcases Multiset.mem_cons.mp (hent ▸ hn) with rfl | hn
      · exact ⟨hlater.le, List.mem_cons_self⟩
      · exact ⟨(hb.entry n hn).1, List.mem_cons_of_mem _ (hb.entry n hn).2⟩
    · rw [hent]
      rcases List.mem_cons.mp hc with rfl | hc
      · exact .inr (Multiset.mem_cons_self _ _)
      · exact (hb.kept c hc hpos).imp_right Multiset.mem_cons_of_mem
    · dsimp only
      rcases eq_or_ne c call.1 with rfl | hc
      · rw [update_self]
        exact .inr List.mem_cons_self
      · rw [update_of_ne hc]
        exact (hb.last c).imp_right (List.mem_cons_of_mem _)
    · obtain rfl := Multiset.mem_singleton.mp hn
      exact hlater
  next heq =>
    cases hq
    refine ⟨⟨hb.ordered, fun n hn => ⟨(hb.entry n hn).1, List.mem_cons_of_mem _ (hb.entry n hn).2⟩,
      fun c hc hpos => ?_, fun c => (hb.last c).imp_right (List.mem_cons_of_mem _)⟩, rfl, rfl, rfl,
      fun c hc => List.mem_cons_of_mem _ hc, Later.rfl'.entries⟩
    rcases List.mem_cons.mp hc with rfl | hc
    · -- the wakeup that is redundant has been scheduled before
      have hsame := Decidable.not_not.mp heq
      have hlast := hb.last c.1
      rw [hsame] at hlast
      exact hb.kept c (hlast.resolve_left hpos.ne') hpos
    · exact hb.kept c hc hpos

theorem schedules_ok (hb : Books s) (h : calls.foldlM schedule s = .ok s') : Books s' ∧ Later s s' := by
  refine foldlM_ok_invariant (P := fun _ c => Books c ∧ Later s c) h ⟨hb, .rfl'⟩ ?_
  intro _ call _ c c' _ hc hcall
  obtain ⟨hb', hl'⟩ := schedule_ok hc.1 hcall
  exact ⟨hb', hc.2.trans hl'⟩

/-! ## What has taken place -/

structure Wakes (s : Simulator κ σ) : Prop where
  started : 0 < s.queue.globalTime
  last : ∀ c, s.queue.lastWakeup c ≤ s.queue.globalTime ∧
    (s.queue.lastWakeup c = 0 ∨ (c, s.queue.lastWakeup c) ∈ s.woken)
  woken : ∀ c ∈ s.woken, c ∈ s.scheduled ∧ c.2 ≤ s.queue.lastWakeup c.1
  nodup : s.woken.Nodup
  sorted : s.woken.Pairwise fun c c' => c'.2 ≤ c.2

variable {wakeup : κ → σ → Nat → σ × List (κ × Nat)} {n : EventQueueNode κ}
  {prioHeap : PrioHeap (EventQueueNode κ)}

omit [DecidableEq κ] in
theorem Later.wakes (h : Later s s') (hw : Wakes s) : Wakes s' where
  started := h.globalTime ▸ hw.started
  last := by
    rw [h.lastWakeup, h.globalTime, h.woken]
    exact hw.last
  woken c hc := by
    rw [h.lastWakeup]
    have := hw.woken c (h.woken ▸ hc)
    exact ⟨h.scheduled c this.1, this.2⟩
  nodup := h.woken ▸ hw.nodup
  sorted := h.woken ▸ hw.sorted

omit [DecidableEq κ] in
/-- The head leaves the heap, and takes place. -/
theorem Books.pop (hb : Books s) (hx : s.queue.prioHeap.extractMin eventLessThenEq = .ok (n, prioHeap))
    (rest : σ) {woken : List (κ × Nat)} (hwoken : ∀ c ∈ s.woken, c ∈ woken)
    (hn : (n.consumer, n.time) ∈ woken) :
    Books { s with queue := { s.queue with globalTime := n.time, prioHeap }, rest, woken } := by
  obtain ⟨hord, hent, hmin, -⟩ := PrioHeap.extractMin_spec hb.ordered hx
  refine ⟨hord, fun n' hn' => ?_, fun c hc hpos => ?_, hb.last⟩
  · have hmem : n' ∈ s.queue.prioHeap.entries := hent ▸ Multiset.mem_cons_of_mem hn'
    exact ⟨hmin n' hmem, (hb.entry n' hmem).2⟩
  · rcases hb.kept c hc hpos with hc | hc
    · exact .inl (hwoken c hc)
    · rcases Multiset.mem_cons.mp (hent ▸ hc) with rfl | hc
      · exact .inl hn
      · exact .inr hc

/-- The consumer of the head has not woken up at this time yet. -/
theorem Wakes.wake (hw : Wakes s) (hlater : s.queue.globalTime ≤ n.time)
    (hne : s.queue.lastWakeup n.consumer ≠ n.time) (hwoken : s'.woken = (n.consumer, n.time) :: s.woken)
    (htime : s'.queue.globalTime = n.time)
    (hlast : s'.queue.lastWakeup = update s.queue.lastWakeup n.consumer n.time)
    (hscheduled : ∀ c ∈ s.scheduled, c ∈ s'.scheduled) (hn : (n.consumer, n.time) ∈ s.scheduled) :
    Wakes s' := by
  have hold : ∀ c ∈ s.woken, c.2 ≤ s.queue.lastWakeup c.1 ∧ c.2 ≤ n.time := by
    intro c hc
    have := (hw.woken c hc).2
    exact ⟨this, this.trans ((hw.last c.1).1.trans hlater)⟩
  refine ⟨htime ▸ hw.started.trans_le hlater, fun c => ?_, fun c hc => ?_, ?_, ?_⟩
  · rw [hlast, htime, hwoken]
    rcases eq_or_ne c n.consumer with rfl | hc
    · rw [update_self]
      exact ⟨le_rfl, .inr List.mem_cons_self⟩
    · rw [update_of_ne hc]
      exact ⟨(hw.last c).1.trans hlater, (hw.last c).2.imp_right (List.mem_cons_of_mem _)⟩
  · rw [hlast]
    rcases List.mem_cons.mp (hwoken ▸ hc) with rfl | hc
    · exact ⟨hscheduled _ hn, (update_self n.consumer n.time s.queue.lastWakeup).ge⟩
    · refine ⟨hscheduled c (hw.woken c hc).1, ?_⟩
      rcases eq_or_ne c.1 n.consumer with hcn | hcn
      · rw [hcn, update_self]
        exact (hold c hc).2
      · rw [update_of_ne hcn]
        exact (hold c hc).1
  · rw [hwoken, List.nodup_cons]
    refine ⟨fun hmem => hne ?_, hw.nodup⟩
    exact le_antisymm ((hw.last _).1.trans hlater) (hold _ hmem).1
  · rw [hwoken, List.pairwise_cons]
    exact ⟨fun c hc => (hold c hc).2, hw.sorted⟩

/-- **A round** of the loop: the head takes place, and what its consumer schedules comes later. -/
theorem triggerNext_ok (hb : Books s) (hw : Wakes s) (h : s.triggerNext wakeup = .ok s') :
    Books s' ∧ Wakes s' ∧ ∃ n new left, s.queue.prioHeap.entries = n ::ₘ left ∧
      n.time = s.queue.prioHeap.peekMin.time ∧ s'.queue.globalTime = n.time ∧
      s'.queue.prioHeap.entries = new + left ∧ ∀ n' ∈ new, n.time < n'.time := by
  obtain ⟨⟨n, prioHeap⟩, hx, h⟩ := bind_eq_ok.mp h
  obtain ⟨hord, hent, hmin, hn⟩ := PrioHeap.extractMin_spec hb.ordered hx
  obtain ⟨hlater, hscheduled⟩ := hb.entry n (hent ▸ Multiset.mem_cons_self n _)
  simp only [← hn, triggerWakeup] at h
  split at h
  next hne =>
    obtain ⟨s₁, hcalls, h⟩ := bind_eq_ok.mp h
    cases h
    have hpop := hb.pop hx (wakeup n.consumer s.rest n.time).1
      (fun c => List.mem_cons_of_mem (n.consumer, n.time)) List.mem_cons_self
    obtain ⟨hb₁, hl⟩ := schedules_ok hpop hcalls
    obtain ⟨new, hnew, hfuture⟩ := hl.entries
    refine ⟨⟨hb₁.ordered, hb₁.entry, hb₁.kept, hb₁.last⟩, ?_, n, new, _, hent, by rw [hn],
      hl.globalTime, hnew, hfuture⟩
    exact hw.wake hlater hne hl.woken hl.globalTime (by rw [hl.lastWakeup]) hl.scheduled hscheduled
  next heq =>
    cases h
    -- a wakeup of this consumer at this time has taken place already
    have hsame := Decidable.not_not.mp heq
    have hwoken := (hw.last n.consumer).2
    rw [hsame] at hwoken
    have hpop := hb.pop hx s.rest (fun c hc => hc)
      (hwoken.resolve_left (hw.started.trans_le hlater).ne')
    exact ⟨hpop, ⟨hw.started.trans_le hlater, fun c => ⟨(hw.last c).1.trans hlater, (hw.last c).2⟩,
      hw.woken, hw.nodup, hw.sorted⟩, n, 0, _, hent, by rw [hn], rfl, (zero_add _).symm, by simp⟩

variable {due : Nat → Bool} {rounds t : Nat}

/-- **The loop** stops where nothing is due. -/
theorem triggerLoop_ok (hb : Books s) (hw : Wakes s) (h : s.triggerLoop wakeup due rounds = .ok s') :
    Books s' ∧ Wakes s' ∧ (s'.queue.globalTime = s.queue.globalTime ∨ due s'.queue.globalTime = true) ∧
      ¬ (s'.queue.prioHeap.currentSize > 0 ∧ due s'.queue.prioHeap.peekMin.time = true) := by
  induction rounds generalizing s with
  | zero => cases h
  | succ rounds ih =>
    rw [triggerLoop] at h
    split at h
    next hdue =>
      obtain ⟨s₁, hnext, h⟩ := bind_eq_ok.mp h
      obtain ⟨hb₁, hw₁, n, -, -, -, hn, htime, -⟩ := triggerNext_ok hb hw hnext
      obtain ⟨hb', hw', htime', hstop⟩ := ih hb₁ hw₁ h
      refine ⟨hb', hw', .inr ?_, hstop⟩
      rcases htime' with htime' | htime'
      · rw [htime', htime, hn]
        exact hdue.2
      · exact htime'
    next hstop =>
      cases h
      exact ⟨hb, hw, .inl rfl, hstop⟩

/-- Nothing that waits is due. -/
def AllLater (s : Simulator κ σ) : Prop := ∀ n ∈ s.queue.prioHeap.entries, s.queue.globalTime < n.time

theorem triggerEvents_ok (hb : Books s) (hw : Wakes s) (ht : s.queue.globalTime ≤ t)
    (h : s.triggerEvents wakeup rounds t = .ok s') : Books s' ∧ Wakes s' ∧ AllLater s' := by
  obtain ⟨s₁, hloop, h⟩ := bind_eq_ok.mp h
  cases h
  obtain ⟨hb₁, hw₁, htime, hstop⟩ := triggerLoop_ok hb hw hloop
  have htime : s₁.queue.globalTime ≤ t := by
    rcases htime with htime | htime
    · exact htime ▸ ht
    · exact of_decide_eq_true htime
  have hlater : ∀ n ∈ s₁.queue.prioHeap.entries, t < n.time := by
    intro n hn
    obtain ⟨j, hj, -⟩ := mem_heapEntries.mp hn
    by_contra hdue
    have hmin : s₁.queue.prioHeap.peekMin.time ≤ n.time := hb₁.ordered.root_le hn
    exact hstop ⟨by omega, decide_eq_true (hmin.trans (Nat.le_of_not_lt hdue))⟩
  exact ⟨⟨hb₁.ordered, fun n hn => ⟨(hlater n hn).le, (hb₁.entry n hn).2⟩, hb₁.kept, hb₁.last⟩,
    ⟨hw₁.started.trans_le htime, fun c => ⟨(hw₁.last c).1.trans htime, (hw₁.last c).2⟩, hw₁.woken,
      hw₁.nodup, hw₁.sorted⟩, hlater⟩

/-! ## Runs -/

inductive SimulatorEvent (κ : Type) where
  | schedule (consumer : κ) (timeAbs : Nat)
  /-- The driver of the simulator lets `delta` cycles pass. -/
  | advance (rounds delta : Nat)

def step (wakeup : κ → σ → Nat → σ × List (κ × Nat)) (s : Simulator κ σ) :
    SimulatorEvent κ → Except String (Simulator κ σ)
  | .schedule consumer timeAbs => s.schedule (consumer, timeAbs)
  | .advance rounds delta => s.triggerEvents wakeup rounds (s.queue.globalTime + delta)

variable [Inhabited κ] {rest : σ} {events : List (SimulatorEvent κ)}

theorem run_keeps (hrun : exec (.ok (init rest)) (step wakeup) events = .ok s) :
    Books s ∧ Wakes s ∧ AllLater s := by
  refine exec_invariant (P := fun s => Books s ∧ Wakes s ∧ AllLater s) ?_ ?_ hrun
  · intro s hs
    cases hs
    have hempty : ∀ n, n ∉ (PrioHeap.init : PrioHeap (EventQueueNode κ)).entries := Multiset.notMem_zero
    refine ⟨⟨?_, ?_, ?_, ?_⟩, ⟨Nat.one_pos, ?_, ?_, .nil, .nil⟩, fun n hn => absurd hn (hempty n)⟩
    · exact fun _ h2 hn => absurd (h2.trans hn) (Nat.not_succ_le_zero 1)
    · exact fun n hn => absurd hn (hempty n)
    · exact fun c hc => absurd hc List.not_mem_nil
    · exact fun c => .inl rfl
    · exact fun c => ⟨Nat.zero_le _, .inl rfl⟩
    · exact fun c hc => absurd hc List.not_mem_nil
  · rintro s e s' ⟨hb, hw, hlater⟩ hs
    cases e with
    | schedule consumer timeAbs =>
      obtain ⟨hb', hl⟩ := schedule_ok hb hs
      obtain ⟨new, hnew, hfuture⟩ := hl.entries
      refine ⟨hb', hl.wakes hw, fun n hn => hl.globalTime ▸ ?_⟩
      rcases Multiset.mem_add.mp (hnew ▸ hn) with hn | hn
      · exact hfuture n hn
      · exact hlater n hn
    | advance rounds delta => exact triggerEvents_ok hb hw (Nat.le_add_right _ _) hs

/-- **Wakeups take place on time.** Whatever the consumers do, the wakeups that have taken place are
those that have been scheduled for a time that has come, each once and in the order of their times. -/
theorem run_wakesOnTime (hrun : exec (.ok (init rest)) (step wakeup) events = .ok s) :
    (∀ consumer time, 0 < time → ((consumer, time) ∈ s.woken ↔
      (consumer, time) ∈ s.scheduled ∧ time ≤ s.queue.globalTime)) ∧
      s.woken.Nodup ∧ s.woken.Pairwise fun c c' => c'.2 ≤ c.2 := by
  obtain ⟨hb, hw, hlater⟩ := run_keeps hrun
  refine ⟨fun consumer time hpos => ⟨fun h => ?_, fun ⟨h, htime⟩ => ?_⟩, hw.nodup, hw.sorted⟩
  · obtain ⟨hscheduled, hlast⟩ := hw.woken _ h
    exact ⟨hscheduled, hlast.trans (hw.last consumer).1⟩
  · refine (hb.kept _ h hpos).resolve_right fun hn => ?_
    exact absurd (hlater _ hn) (Nat.not_lt.mpr htime)

/-- Two consumers that wake up each other, two cycles later; the rest of the simulator counts the
wakeups. -/
def pingPong (consumer : Bool) (count now : Nat) : Nat × List (Bool × Nat) :=
  (count + 1, [(!consumer, now + 2)])

theorem run_wakesOnTime_pingPong : ∃ s : Simulator Bool Nat,
    s.woken = [(true, 5), (false, 3)] ∧ s.woken.Nodup := by
  have hrun : exec (.ok (init 0)) (step pingPong) [.schedule false 3, .advance 3 4] = .ok _ := rfl
  exact ⟨_, rfl, (run_wakesOnTime hrun).2.1⟩

/-! ## The loop comes to an end -/

omit [Inhabited κ] in
theorem schedule_of_later (h : s.queue.globalTime < call.2) :
    ∃ s', s.schedule call = .ok s' ∧ s'.queue.globalTime = s.queue.globalTime := by
  by_cases hne : s.queue.lastScheduledWakeup call.1 ≠ call.2
  · simp only [schedule, EventQueue.scheduleEventAbsolute, if_pos hne, assert_pos h, ok_bind]
    exact ⟨_, rfl, rfl⟩
  · simp only [schedule, EventQueue.scheduleEventAbsolute, if_neg hne]
    exact ⟨_, rfl, rfl⟩

omit [Inhabited κ] in
theorem triggerNext_of_entry (hpos : s.queue.prioHeap.currentSize > 0)
    (hfuture : ∀ c r now, ∀ call ∈ (wakeup c r now).2, now < call.2) :
    ∃ s', s.triggerNext wakeup = .ok s' := by
  obtain ⟨⟨n, prioHeap⟩, hx⟩ : ∃ r, s.queue.prioHeap.extractMin eventLessThenEq = .ok r :=
    ⟨_, bind_eq_ok.mpr ⟨(), assert_pos hpos, rfl⟩⟩
  obtain ⟨time, htime⟩ : ∃ time, time = s.queue.prioHeap.peekMin.time := ⟨_, rfl⟩
  simp only [triggerNext, hx, ok_bind, triggerWakeup, ← htime]
  split
  next =>
    obtain ⟨s', hs', -⟩ := foldlM_invariant (f := schedule) (l := (wakeup n.consumer s.rest time).2)
      (b := (⟨⟨prioHeap, time, s.queue.lastScheduledWakeup, s.queue.lastWakeup⟩,
        (wakeup n.consumer s.rest time).1, s.scheduled, (n.consumer, time) :: s.woken⟩ : Simulator κ σ))
      (fun _ c => c.queue.globalTime = time) rfl (by
        intro done call later c hcalls hc
        have hcall := hfuture n.consumer s.rest time call
          (hcalls ▸ List.mem_append_right done List.mem_cons_self)
        obtain ⟨c', hc', htime'⟩ := schedule_of_later (hc ▸ hcall)
        exact ⟨c', hc', htime'.trans hc⟩)
    exact ⟨_, bind_eq_ok.mpr ⟨s', hs', rfl⟩⟩
  next => exact ⟨_, rfl⟩

/-- How far ahead of `t` the events are that are due by then. -/
def ahead (t : Nat) (E : Multiset (EventQueueNode κ)) : Multiset Nat :=
  (E.filter (·.time ≤ t)).map (t - ·.time)

omit [Inhabited κ] in
/-- What takes the place of an event is closer to the end, so the loop ends: the multiset order is
well founded. -/
theorem exists_rounds (hfuture : ∀ c r now, ∀ call ∈ (wakeup c r now).2, now < call.2) (hb : Books s)
    (hw : Wakes s) : ∃ rounds s', s.triggerLoop wakeup (· ≤ t) rounds = .ok s' := by
  generalize hm : ahead t s.queue.prioHeap.entries = m
  induction m using (Multiset.wellFounded_isDershowitzMannaLT (α := Nat)).induction generalizing s with
  | _ m ih =>
    by_cases hdue : s.queue.prioHeap.currentSize > 0 ∧ s.queue.prioHeap.peekMin.time ≤ t
    · obtain ⟨s₁, hnext⟩ := triggerNext_of_entry hdue.1 hfuture
      obtain ⟨hb₁, hw₁, n, new, left, hent, hn, -, hent₁, hnew⟩ := triggerNext_ok hb hw hnext
      obtain ⟨rounds, s', hs'⟩ := ih (ahead t s₁.queue.prioHeap.entries) (by
        rw [← hm]
        refine ⟨ahead t left, ahead t new, {t - n.time}, by simp, ?_, ?_, fun k hk => ?_⟩
        · rw [hent₁, ahead, Multiset.filter_add, Multiset.map_add, add_comm]
          rfl
        · rw [hent, ahead, Multiset.filter_cons_of_pos left (hn ▸ hdue.2 : n.time ≤ t),
            Multiset.map_cons, ← Multiset.singleton_add, add_comm]
          rfl
        · obtain ⟨n', hn', rfl⟩ := Multiset.mem_map.mp hk
          obtain ⟨hn', htime⟩ := Multiset.mem_filter.mp hn'
          have := hnew n' hn'
          exact ⟨_, Multiset.mem_singleton_self _, by omega⟩) hb₁ hw₁ rfl
      refine ⟨rounds + 1, s', ?_⟩
      rw [triggerLoop, if_pos ⟨hdue.1, decide_eq_true hdue.2⟩, hnext]
      exact hs'
    · refine ⟨1, s, ?_⟩
      rw [triggerLoop, if_neg (by simpa using hdue)]

/-- **The simulator goes on.** If no consumer schedules a wakeup for a time that is not to come,
letting any number of cycles pass comes to an end, and fails no assertion. -/
theorem run_advances (hrun : exec (.ok (init rest)) (step wakeup) events = .ok s)
    (hfuture : ∀ c r now, ∀ call ∈ (wakeup c r now).2, now < call.2) (delta : Nat) :
    ∃ rounds s', s.step wakeup (.advance rounds delta) = .ok s' := by
  obtain ⟨hb, hw, -⟩ := run_keeps hrun
  obtain ⟨rounds, s', hs'⟩ := exists_rounds (t := s.queue.globalTime + delta) hfuture hb hw
  exact ⟨rounds, _, bind_eq_ok.mpr ⟨s', hs', rfl⟩⟩

/-- A consumer that wakes up schedules both consumers, two and three cycles later. -/
def fanOut (_ : Bool) (count now : Nat) : Nat × List (Bool × Nat) :=
  (count + 1, [(true, now + 2), (false, now + 3)])

/-- One wakeup becomes many, and a hundred cycles still pass. -/
theorem run_advances_fanOut : ∃ s : Simulator Bool Nat,
    (init 0).step fanOut (.schedule false 3) = .ok s ∧
      ∃ rounds s', s.step fanOut (.advance rounds 100) = .ok s' := by
  have hrun : exec (.ok (init 0)) (step fanOut) [.schedule false 3] = .ok _ := rfl
  refine ⟨_, rfl, run_advances hrun (fun c r now call hcall => ?_) 100⟩
  rcases List.mem_pair.mp hcall with rfl | rfl
  · exact Nat.lt_add_of_pos_right (by decide)
  · exact Nat.lt_add_of_pos_right (by decide)

end Simulator

end GpgpuSimRuby.Ruby
