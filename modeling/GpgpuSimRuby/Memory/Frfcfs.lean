import GpgpuSimRuby.Library.BinnedQueue
import GpgpuSimRuby.Library.Places
import GpgpuSimRuby.Memory.Dram

/-!
# First ready, first come first served

`frfcfs_scheduler` with its iterators and its pointer to the bin of the current row. The requests of
a bank are a queue with a bin for each row. The pointer is kept while its bin has requests, and
until then `schedule` does not look at the row that it is given.
-/

namespace GpgpuSimRuby.Memory.Frfcfs

open Library Function

/-- The assertions of `schedule`, and iterators and pointers that lead nowhere. -/
inductive Fault where
  | noBin | noPending
  | queue (fault : BinnedQueue.Fault)
  deriving DecidableEq, Repr

/-- The queue and the bins of a bank. -/
abbrev BankQueue := BinnedQueue DramReq Nat

/-- `frfcfs_scheduler`; `lastRow` points to a bin. -/
structure Scheduler where
  numPending : Nat := 0
  bank : Nat → BankQueue := fun _ => {}
  lastRow : Nat → Option Nat := fun _ => none
  fresh : Nat := 0

namespace Scheduler

variable (s : Scheduler)

def addReq (req : DramReq) : Scheduler where
  numPending := s.numPending + 1
  bank := update s.bank req.bk
    ((s.bank req.bk).pushFront DramReq.row s.fresh s.fresh req)
  lastRow := s.lastRow
  fresh := s.fresh + 1

/-- What `m_last_row` points to after the first part of `schedule`; none if there is no request. -/
def target (bank currRow : Nat) : Except Fault (Option Nat) :=
  match s.lastRow bank with
  | some p => .ok (some p)
  | none =>
    match (s.bank bank).vals.getLast? with
    | none => .ok none
    | some req =>
      match (s.bank bank).find currRow with
      | some bin => .ok (some bin.addr)
      | none =>
        match (s.bank bank).find req.row with
        | some bin => .ok (some bin.addr)
        | none => .error .noBin

/-- A request of a bank is gone, and perhaps its bin. -/
def taken (bank p : Nat) (queue : BankQueue) (erased : Bool) : Scheduler where
  numPending := s.numPending - 1
  bank := update s.bank bank queue
  lastRow := update s.lastRow bank (if erased then none else some p)
  fresh := s.fresh

/-- The second part of `schedule`, which follows the pointer. -/
def take (bank p : Nat) : Except Fault (DramReq × Scheduler) := do
  let (req, queue, erased) ← ((s.bank bank).takeBack DramReq.row p).mapError .queue
  assert (s.numPending ≠ 0) .noPending
  return (req, s.taken bank p queue erased)

def schedule (bank currRow : Nat) : Except Fault (Option DramReq × Scheduler) := do
  match ← s.target bank currRow with
  | none => return (none, s)
  | some p =>
    let (req, s) ← s.take bank p
    return (some req, s)

end Scheduler

/-! ## Runs -/

/-- The scheduler and what has been added and returned, the newest first. `serving` is the row of
the last request that was returned for a bank, if it left requests for this row. -/
structure Run where
  sched : Scheduler := {}
  added : List DramReq := []
  returned : List DramReq := []
  serving : Nat → Option Nat := fun _ => none

inductive Act where
  | addReq (req : DramReq)
  | schedule (bank currRow : Nat)

namespace Run

variable (s : Run)

/-- The requests of a bank. -/
def queue (bank : Nat) : List DramReq := (s.sched.bank bank).vals

def addReq (req : DramReq) : Run := { s with sched := s.sched.addReq req, added := req :: s.added }

def record (bank : Nat) (req : DramReq) (sched : Scheduler) : Run where
  sched := sched
  added := s.added
  returned := req :: s.returned
  serving := update s.serving bank
    (if ∃ r ∈ (sched.bank bank).vals, r.row = req.row then some req.row else none)

def schedule (bank currRow : Nat) : Except Fault Run := do
  let (req, sched) ← s.sched.schedule bank currRow
  match req with
  | none => return { s with sched }
  | some req => return s.record bank req sched

end Run

/-- Requests are for the banks that there are. -/
def frfcfs (nbk : Nat) : Machine Run Act Fault where
  init := {}
  step s
    | .addReq req => if req.bk < nbk then some (.ok (s.addReq req)) else none
    | .schedule bank currRow => if bank < nbk then some (s.schedule bank currRow) else none

/-! ## The rule -/

/-- The oldest request for a row. -/
def oldestOf (row : Nat) (queue : List DramReq) : Option DramReq :=
  queue.reverse.find? fun req => req.row = row

/-- The oldest request for the open row if there is one, and else the oldest request. -/
def firstReady (currRow : Nat) (queue : List DramReq) : Option DramReq :=
  (oldestOf currRow queue).or queue.getLast?

/-- What `schedule` returns: it stays with a row while this has requests left. -/
def stickyReady (serving : Option Nat) (currRow : Nat) (queue : List DramReq) : Option DramReq :=
  match serving with
  | some row => oldestOf row queue
  | none => firstReady currRow queue

theorem mem_of_stickyReady {serving : Option Nat} {currRow : Nat} {queue : List DramReq} {req : DramReq}
    (h : stickyReady serving currRow queue = some req) : req ∈ queue := by
  have holdest : ∀ row, oldestOf row queue = some req → req ∈ queue := by
    intro row hrow
    exact List.mem_reverse.mp (List.mem_of_find?_eq_some hrow)
  unfold stickyReady firstReady at h
  split at h
  · exact holdest _ h
  · rcases Option.or_eq_some_iff.mp h with hopen | ⟨-, hlast⟩
    · exact holdest _ hopen
    · exact List.mem_of_getLast? hlast

theorem oldestOf_getLast? {queue : List DramReq} {req : DramReq} (h : queue.getLast? = some req) :
    oldestOf req.row queue = some req := by
  unfold oldestOf
  rw [← List.head?_reverse] at h
  obtain ⟨rest, hrest⟩ := List.head?_eq_some_iff.mp h
  rw [hrest, List.find?_cons_of_pos (by simp)]

/-! ## What holds between the calls -/

/-- The requests that are queued. -/
def queued (nbk : Nat) (s : Run) : Multiset DramReq :=
  ∑ b ∈ Finset.range nbk, (s.queue b : Multiset DramReq)

structure Sound (nbk : Nat) (s : Run) : Prop where
  wellFormed : ∀ b, BinnedQueue.WellFormed DramReq.row (s.sched.bank b) s.sched.fresh
  /-- a pointer leads to the bin of the row that is served -/
  pointer : ∀ b p, s.sched.lastRow b = some p → ∃ bin ∈ (s.sched.bank b).bins,
    bin.addr = p ∧ s.serving b = some bin.key
  noPointer : ∀ b, s.sched.lastRow b = none → s.serving b = none
  pending : s.sched.numPending = ∑ b ∈ Finset.range nbk, (s.queue b).length
  ledger : (s.added : Multiset DramReq) = s.returned + queued nbk s

section Steps

variable {nbk : Nat} {s t : Run} {req : DramReq} {bank currRow : Nat}

theorem sound_init : Sound nbk {} where
  wellFormed _ := BinnedQueue.wellFormed_empty
  pointer b p hp := by cases hp
  noPointer _ _ := rfl
  pending := by simp [Run.queue, BinnedQueue.vals]
  ledger := by simp [queued, Run.queue, BinnedQueue.vals]

theorem queued_change (hbank : bank < nbk) (h : ∀ b, b ≠ bank → t.queue b = s.queue b) :
    queued nbk s + (t.queue bank : Multiset DramReq) = queued nbk t + (s.queue bank : Multiset DramReq) :=
  sum_range_change (fun b => (s.queue b : Multiset DramReq)) (fun b => (t.queue b : Multiset DramReq)) hbank
    fun b hb => by rw [h b hb]

theorem length_change (hbank : bank < nbk) (h : ∀ b, b ≠ bank → t.queue b = s.queue b) :
    ∑ b ∈ Finset.range nbk, (s.queue b).length + (t.queue bank).length =
      ∑ b ∈ Finset.range nbk, (t.queue b).length + (s.queue bank).length :=
  sum_range_change (fun b => (s.queue b).length) (fun b => (t.queue b).length) hbank fun b hb => by
    rw [h b hb]

/-! ## `add_req` -/

theorem addReq_bank_self : (s.sched.addReq req).bank req.bk =
    (s.sched.bank req.bk).pushFront DramReq.row s.sched.fresh s.sched.fresh req :=
  update_self ..

variable {b p : Nat} {queue : BankQueue} {erased : Bool}

theorem addReq_bank_of_ne (hb : b ≠ req.bk) : (s.sched.addReq req).bank b = s.sched.bank b :=
  update_of_ne hb ..

theorem addReq_queue_self : (s.addReq req).queue req.bk = req :: s.queue req.bk := by
  show ((s.sched.addReq req).bank req.bk).vals = _
  rw [addReq_bank_self]
  rfl

theorem addReq_queue_of_ne (hb : b ≠ req.bk) : (s.addReq req).queue b = s.queue b := by
  show ((s.sched.addReq req).bank b).vals = _
  rw [addReq_bank_of_ne hb]
  rfl

theorem Sound.addReq (h : Sound nbk s) (hbk : req.bk < nbk) : Sound nbk (s.addReq req) := by
  constructor
  · intro b
    by_cases hb : b = req.bk
    · subst hb
      show BinnedQueue.WellFormed _ ((s.sched.addReq req).bank req.bk) _
      rw [addReq_bank_self]
      exact (h.wellFormed _).pushFront req
    · show BinnedQueue.WellFormed _ ((s.sched.addReq req).bank b) _
      rw [addReq_bank_of_ne hb]
      exact (h.wellFormed b).mono (Nat.le_succ _)
  · intro b p hp
    obtain ⟨bin, hbin, haddr, hserving⟩ := h.pointer b p hp
    show ∃ bin ∈ ((s.sched.addReq req).bank b).bins, _
    by_cases hb : b = req.bk
    · subst hb
      rw [addReq_bank_self]
      obtain ⟨bin', hbin', haddr', hkey'⟩ :=
        @BinnedQueue.exists_bin_pushFront _ _ _ DramReq.row _ _ s.sched.fresh s.sched.fresh req hbin
      exact ⟨bin', hbin', haddr'.trans haddr, hserving.trans (by rw [hkey'])⟩
    · rw [addReq_bank_of_ne hb]
      exact ⟨bin, hbin, haddr, hserving⟩
  · exact h.noPointer
  · have hsum := length_change hbk fun b hb => addReq_queue_of_ne (s := s) hb
    rw [addReq_queue_self, List.length_cons] at hsum
    have hpending := h.pending
    show s.sched.numPending + 1 = _
    omega
  · have hqueued : queued nbk (s.addReq req) = {req} + queued nbk s := by
      have hsum := queued_change hbk fun b hb => addReq_queue_of_ne (s := s) hb
      rw [addReq_queue_self, ← Multiset.cons_coe, ← Multiset.singleton_add, ← add_assoc] at hsum
      rw [← add_right_cancel hsum, add_comm]
    show ((req :: s.added : List DramReq) : Multiset DramReq) = s.returned + queued nbk (s.addReq req)
    rw [← Multiset.cons_coe, h.ledger, hqueued, ← Multiset.singleton_add]
    abel

/-! ## `schedule` -/

/-- Where the pointer leads: nowhere if there are no requests, and else to a bin whose oldest request is
the one to return. -/
theorem Sound.target (h : Sound nbk s) (bank currRow : Nat) :
    (s.queue bank = [] ∧ s.sched.target bank currRow = .ok none) ∨
      ∃ bin ∈ (s.sched.bank bank).bins, s.sched.target bank currRow = .ok (some bin.addr) ∧
        ∀ n rest, BinnedQueue.Oldest DramReq.row bin.key (s.sched.bank bank).nodes n rest →
          stickyReady (s.serving bank) currRow (s.queue bank) = some n.val := by
  have hwf := h.wellFormed bank
  unfold Scheduler.target
  cases hlast : s.sched.lastRow bank with
  | some p =>
    obtain ⟨bin, hbin, rfl, hserving⟩ := h.pointer bank p hlast
    refine .inr ⟨bin, hbin, rfl, ?_⟩
    intro n rest hold
    rw [hserving]
    exact hold.find?
  | none =>
    rw [h.noPointer bank hlast]
    cases hreq : (s.sched.bank bank).vals.getLast? with
    | none => exact .inl ⟨List.getLast?_eq_none_iff.mp hreq, rfl⟩
    | some req =>
      right
      cases hfind : (s.sched.bank bank).find currRow with
      | some bin =>
        obtain ⟨hbin, hkey⟩ := BinnedQueue.find_eq_some hfind
        refine ⟨bin, hbin, rfl, ?_⟩
        intro n rest hold
        rw [hkey] at hold
        unfold stickyReady firstReady oldestOf Run.queue BinnedQueue.vals
        rw [hold.find?]
        rfl
      | none =>
        dsimp only
        have hmem : req ∈ (s.sched.bank bank).vals := List.mem_of_getLast? hreq
        have hno := hwf.find_eq_none_iff.mp hfind
        cases hrow : (s.sched.bank bank).find req.row with
        | none => exact absurd rfl (hwf.find_eq_none_iff.mp hrow req hmem)
        | some bin =>
          obtain ⟨hbin, hkey⟩ := BinnedQueue.find_eq_some hrow
          refine ⟨bin, hbin, rfl, ?_⟩
          intro n rest hold
          -- the oldest request is the oldest for its row
          have hcurr : oldestOf currRow (s.queue bank) = none := by
            unfold oldestOf
            rw [List.find?_eq_none]
            intro r hr
            simpa using hno r (List.mem_reverse.mp hr)
          have holdest : oldestOf req.row (s.queue bank) = some n.val := by
            rw [← hkey]
            exact hold.find?
          have hself : oldestOf req.row (s.queue bank) = some req := oldestOf_getLast? hreq
          unfold stickyReady firstReady
          rw [hcurr, Option.none_or, ← holdest, hself]
          exact hreq

/-- What `schedule` does to a bank with requests. -/
structure Answers (s t : Run) (bank currRow : Nat) (req : DramReq) : Prop where
  rule : stickyReady (s.serving bank) currRow (s.queue bank) = some req
  added : t.added = s.added
  returned : t.returned = req :: s.returned
  /-- the others stay in their order -/
  taken : ∃ newer older, s.queue bank = newer ++ req :: older ∧ t.queue bank = newer ++ older ∧
    ∀ r ∈ older, r.row ≠ req.row
  serving : t.serving = update s.serving bank
    (if ∃ r ∈ t.queue bank, r.row = req.row then some req.row else none)
  others : ∀ b, b ≠ bank → t.queue b = s.queue b

theorem Answers.perm (h : Answers s t bank currRow req) : (s.queue bank).Perm (req :: t.queue bank) := by
  obtain ⟨newer, older, hs, ht, -⟩ := h.taken
  rw [hs, ht]
  exact List.perm_middle

theorem taken_bank_self : (s.sched.taken bank p queue erased).bank bank = queue :=
  update_self ..

theorem taken_bank_of_ne (hb : b ≠ bank) :
    (s.sched.taken bank p queue erased).bank b = s.sched.bank b :=
  update_of_ne hb ..

theorem Sound.take (h : Sound nbk s) (hbank : bank < nbk) {bin : BinnedQueue.Bin Nat}
    (hbin : bin ∈ (s.sched.bank bank).bins)
    (hrule : ∀ n rest, BinnedQueue.Oldest DramReq.row bin.key (s.sched.bank bank).nodes n rest →
      stickyReady (s.serving bank) currRow (s.queue bank) = some n.val) :
    ∃ req sched, s.sched.take bank bin.addr = .ok (req, sched) ∧
      Answers s (s.record bank req sched) bank currRow req ∧ Sound nbk (s.record bank req sched) := by
  obtain ⟨n, q', erased, htake, hwf', hold, herased, hkept⟩ := (h.wellFormed bank).takeBack_ok hbin
  obtain ⟨newer, older, hqueue, hrest, holder⟩ := hold.vals
  have hperm : (s.queue bank).Perm (n.val :: q'.vals) := by
    unfold Run.queue BinnedQueue.vals
    rw [hqueue, hrest]
    exact List.perm_middle
  have hlen : (s.queue bank).length = q'.vals.length + 1 := hperm.length_eq
  have hpos : s.sched.numPending ≠ 0 := by
    have hle : (s.queue bank).length ≤ ∑ b ∈ Finset.range nbk, (s.queue b).length :=
      Finset.single_le_sum (f := fun b => (s.queue b).length) (fun _ _ => Nat.zero_le _)
        (Finset.mem_range.mpr hbank)
    rw [h.pending]
    omega
  refine ⟨n.val, s.sched.taken bank bin.addr q' erased, ?_, ?_⟩
  · unfold Scheduler.take
    rw [htake]
    dsimp only [Except.mapError]
    rw [ok_bind, assert_pos hpos, ok_bind]
    rfl
  have hself : (s.record bank n.val (s.sched.taken bank bin.addr q' erased)).queue bank = q'.vals := by
    show BinnedQueue.vals ((s.sched.taken bank bin.addr q' erased).bank bank) = _
    rw [taken_bank_self]
  have hothers : ∀ b, b ≠ bank →
      (s.record bank n.val (s.sched.taken bank bin.addr q' erased)).queue b = s.queue b := by
    intro b hb
    show BinnedQueue.vals ((s.sched.taken bank bin.addr q' erased).bank b) = _
    rw [taken_bank_of_ne hb]
    rfl
  have hleft : (∃ r ∈ q'.vals, r.row = n.val.row) ↔ erased = false := by
    rw [← Bool.not_eq_true, herased, hold.key_eq]
    simp [BinnedQueue.vals]
  have hlast : (s.record bank n.val (s.sched.taken bank bin.addr q' erased)).sched.lastRow bank =
      if erased then none else some bin.addr := update_self ..
  have hserving : (s.record bank n.val (s.sched.taken bank bin.addr q' erased)).serving bank =
      if erased = false then some n.val.row else none := by
    refine (update_self ..).trans ?_
    rw [taken_bank_self]
    exact if_congr hleft rfl rfl
  refine ⟨⟨hrule n q'.nodes hold, rfl, rfl, ?_, rfl, hothers⟩, ?_, ?_, ?_, ?_, ?_⟩
  · rw [hself]
    refine ⟨newer, older, hqueue, hrest, ?_⟩
    rw [hold.key_eq]
    exact holder
  · intro b
    show BinnedQueue.WellFormed _ ((s.sched.taken bank bin.addr q' erased).bank b) _
    by_cases hb : b = bank
    · subst hb
      rw [taken_bank_self]
      exact hwf'
    · rw [taken_bank_of_ne hb]
      exact h.wellFormed b
  · intro b p hp
    show ∃ bin' ∈ ((s.sched.taken bank bin.addr q' erased).bank b).bins, _
    by_cases hb : b = bank
    · subst hb
      rw [hlast] at hp
      cases erased with
      | true => cases hp
      | false =>
        obtain rfl := Option.some.inj hp
        obtain ⟨b', hb', haddr, hkey⟩ := hkept rfl
        rw [taken_bank_self]
        refine ⟨b', hb', haddr, ?_⟩
        rw [hserving, if_pos rfl, hkey, hold.key_eq]
    · rw [taken_bank_of_ne hb]
      obtain ⟨b', hb', haddr, hkey⟩ := h.pointer b p ((update_of_ne hb ..).symm.trans hp)
      exact ⟨b', hb', haddr, (update_of_ne hb ..).trans hkey⟩
  · intro b hp
    by_cases hb : b = bank
    · subst hb
      rw [hlast] at hp
      cases erased with
      | true => rw [hserving, if_neg (by decide)]
      | false => cases hp
    · exact (update_of_ne hb ..).trans
        (h.noPointer b ((update_of_ne hb ..).symm.trans hp))
  · have hsum := length_change hbank hothers
    rw [hself] at hsum
    have hpending := h.pending
    show s.sched.numPending - 1 = _
    omega
  · have hqueued : queued nbk s = {n.val} +
        queued nbk (s.record bank n.val (s.sched.taken bank bin.addr q' erased)) := by
      have hsum := queued_change hbank hothers
      have hsame : (s.queue bank : Multiset DramReq) = {n.val} + (q'.vals : Multiset DramReq) := by
        rw [Multiset.singleton_add, Multiset.cons_coe, Multiset.coe_eq_coe]
        exact hperm
      rw [hself, hsame, ← add_assoc] at hsum
      rw [add_right_cancel hsum, add_comm]
    show (s.added : Multiset DramReq) = ((n.val :: s.returned : List DramReq) : Multiset DramReq) + _
    rw [h.ledger, hqueued, ← Multiset.cons_coe, ← Multiset.singleton_add]
    abel

/-- **A call of `schedule`** returns nothing exactly where the bank has no requests, and trips no
assertion. -/
theorem Sound.schedule (h : Sound nbk s) (hbank : bank < nbk) (currRow : Nat) :
    (s.queue bank = [] ∧ s.schedule bank currRow = .ok s) ∨
      ∃ req t, s.schedule bank currRow = .ok t ∧ Answers s t bank currRow req ∧ Sound nbk t := by
  unfold Run.schedule Scheduler.schedule
  rcases h.target bank currRow with ⟨hempty, htarget⟩ | ⟨bin, hbin, htarget, hrule⟩
  · rw [htarget]
    exact .inl ⟨hempty, rfl⟩
  · obtain ⟨req, sched, htake, hanswers, hsound⟩ := h.take hbank hbin hrule
    rw [htarget]
    refine .inr ⟨req, _, ?_, hanswers, hsound⟩
    rw [ok_bind]
    dsimp only
    rw [htake]
    rfl

theorem Sound.exists_serving (h : Sound nbk s) {row : Nat} (hs : s.serving bank = some row) :
    ∃ req ∈ s.queue bank, req.row = row := by
  cases hlast : s.sched.lastRow bank with
  | none =>
    rw [h.noPointer bank hlast] at hs
    cases hs
  | some p =>
    obtain ⟨bin, hbin, -, hserving⟩ := h.pointer bank p hlast
    obtain rfl : bin.key = row := Option.some.inj (hserving.symm.trans hs)
    by_contra hno
    have hnone := (h.wellFormed bank).find_eq_none_iff.mpr fun req hreq heq => hno ⟨req, hreq, heq⟩
    unfold BinnedQueue.find at hnone
    exact List.find?_eq_none.mp hnone bin hbin (by simp)

theorem Sound.firstReady (h : Sound nbk s) (hs : s.serving bank = none ∨ s.serving bank = some currRow) :
    stickyReady (s.serving bank) currRow (s.queue bank) = Frfcfs.firstReady currRow (s.queue bank) := by
  rcases hs with hs | hs
  · rw [hs]
    rfl
  · obtain ⟨req, hmem, hrow⟩ := h.exists_serving hs
    rw [hs]
    unfold stickyReady Frfcfs.firstReady
    dsimp only
    cases hfind : oldestOf currRow (s.queue bank) with
    | some r => rfl
    | none =>
      exact absurd (by simpa using hrow) (List.find?_eq_none.mp hfind req (List.mem_reverse.mpr hmem))

end Steps

/-! ## Every run -/

section Runs

variable {nbk : Nat} {s t : Run} {bank : Nat}

theorem Sound.step (h : Sound nbk s) {a : Act} (ht : (frfcfs nbk).step s a = some (.ok t)) : Sound nbk t := by
  cases a with
  | addReq req =>
    simp only [frfcfs] at ht
    split at ht
    · next hbk =>
      obtain rfl := Except.ok.inj (Option.some.inj ht)
      exact h.addReq hbk
    · cases ht
  | schedule bank currRow =>
    simp only [frfcfs] at ht
    split at ht
    · next hbank =>
      have ht := Option.some.inj ht
      rcases h.schedule hbank currRow with ⟨-, hs⟩ | ⟨req, t', hs, -, hsound⟩
      · obtain rfl := Except.ok.inj (hs.symm.trans ht)
        exact h
      · obtain rfl := Except.ok.inj (hs.symm.trans ht)
        exact hsound
    · cases ht

theorem sound_of_reachable (h : (frfcfs nbk).Reachable s) : Sound nbk s :=
  h.invariant sound_init fun _ _ _ hs _ ht => hs.step ht

theorem Sound.drain (h : Sound nbk s) (hbank : bank < nbk) {rows : List Nat}
    (hlen : rows.length = (s.queue bank).length) :
    ∃ t l, (frfcfs nbk).run (rows.map (Act.schedule bank)) s = some t ∧ t.queue bank = [] ∧
      t.returned = l ++ s.returned ∧ l.Perm (s.queue bank) := by
  induction rows generalizing s with
  | nil =>
    have hempty : s.queue bank = [] := List.eq_nil_of_length_eq_zero hlen.symm
    refine ⟨s, [], rfl, hempty, rfl, ?_⟩
    rw [hempty]
  | cons row rows ih =>
    rcases h.schedule hbank row with ⟨hempty, -⟩ | ⟨req, u, hs, hans, hu⟩
    · rw [hempty] at hlen
      cases hlen
    · have hlen' : rows.length = (u.queue bank).length := by
        have := hans.perm.length_eq
        rw [List.length_cons] at this hlen
        omega
      obtain ⟨t, l, hrun, hempty, hret, hperm⟩ := ih hu hlen'
      refine ⟨t, l ++ [req], ?_, hempty, ?_, ?_⟩
      · have hstep : (frfcfs nbk).step s (.schedule bank row) = some (.ok u) := by
          simp only [frfcfs, hbank, if_true, hs]
        rw [List.map_cons]
        unfold Machine.run
        rw [hstep]
        exact hrun
      · rw [hret, hans.returned, List.append_assoc]
        rfl
      · refine List.Perm.trans ?_ hans.perm.symm
        exact (List.perm_append_singleton req l).trans (hperm.cons req)

/-- **FR-FCFS scheduling.** In every run all requests that were added have been returned or are queued,
once each; as many are pending as are queued and as are in the bins; and `schedule` returns the oldest
request for the row that is being served while there are any, else the oldest one for the row that it is
given, else the oldest one. -/
theorem frfcfs_scheduling (nbk : Nat) (h : (frfcfs nbk).Reachable s) :
    (s.added : Multiset DramReq) = s.returned + queued nbk s ∧
    s.sched.numPending = ∑ b ∈ Finset.range nbk, (s.queue b).length ∧
    s.sched.numPending =
      ∑ b ∈ Finset.range nbk, ((s.sched.bank b).bins.map fun bin => bin.iters.length).sum ∧
    (∀ bank < nbk, ∀ currRow,
      (s.queue bank = [] ∧ (frfcfs nbk).step s (.schedule bank currRow) = some (.ok s)) ∨
      ∃ req t, (frfcfs nbk).step s (.schedule bank currRow) = some (.ok t) ∧
        Answers s t bank currRow req) ∧
    (∀ bank currRow, s.serving bank = none ∨ s.serving bank = some currRow →
      stickyReady (s.serving bank) currRow (s.queue bank) = firstReady currRow (s.queue bank)) ∧
    ∀ bank < nbk, ∀ rows : List Nat, rows.length = (s.queue bank).length →
      ∃ t l, (frfcfs nbk).run (rows.map (Act.schedule bank)) s = some t ∧ t.queue bank = [] ∧
        t.returned = l ++ s.returned ∧ l.Perm (s.queue bank) := by
  have hs := sound_of_reachable h
  refine ⟨hs.ledger, hs.pending, ?_, ?_, fun bank currRow => hs.firstReady,
    fun bank hbank rows => hs.drain hbank⟩
  · rw [hs.pending]
    apply Finset.sum_congr rfl
    intro b _
    rw [(hs.wellFormed b).sum_bins]
    exact List.length_map _
  · intro bank hbank currRow
    simp only [frfcfs, hbank, if_true, Option.some.injEq]
    rcases hs.schedule hbank currRow with hnone | ⟨req, t, ht, hans, -⟩
    · exact .inl hnone
    · exact .inr ⟨req, t, ht, hans⟩

/-! ## The scheduler of the controller -/

/-- The controller has the queues, and the rows that are served. -/
structure Refines (s : Run) (d : Dram) : Prop where
  queue : d.queue = s.queue
  lastRow : d.lastRow = s.serving

/-- The controller without a request that was scheduled. -/
def scheduled (d : Dram) (bank : Nat) (req : DramReq) : Dram :=
  { d with
    queue := update d.queue bank ((d.queue bank).reverse.erase req).reverse
    lastRow := update d.lastRow bank
      (if ∃ r ∈ ((d.queue bank).reverse.erase req).reverse, r.row = req.row then some req.row
        else none) }

variable {d : Dram}

theorem schedule_of_row {row : Nat} (h : d.nextRow bank = some row) :
    d.schedule bank = (oldestOf row (d.queue bank)).map fun req => (req, scheduled d bank req) := by
  unfold Dram.schedule
  rw [h]
  dsimp only
  unfold oldestOf
  cases hfind : (d.queue bank).reverse.find? fun req => req.row = row with
  | none => rfl
  | some req =>
    have hrow : req.row = row := by simpa using List.find?_some hfind
    subst hrow
    rfl

theorem schedule_eq (d : Dram) (bank : Nat) :
    d.schedule bank = (stickyReady (d.lastRow bank) (d.bk bank).currRow (d.queue bank)).map
      fun req => (req, scheduled d bank req) := by
  unfold stickyReady
  cases hlast : d.lastRow bank with
  | some row =>
    have hnext : d.nextRow bank = some row := by
      unfold Dram.nextRow
      rw [hlast]
    exact schedule_of_row hnext
  | none =>
    unfold firstReady
    by_cases hopen : ∃ req ∈ d.queue bank, req.row = (d.bk bank).currRow
    · have hnext : d.nextRow bank = some (d.bk bank).currRow := by
        unfold Dram.nextRow
        rw [hlast]
        exact if_pos hopen
      rw [schedule_of_row hnext]
      cases hfind : oldestOf (d.bk bank).currRow (d.queue bank) with
      | some req => rfl
      | none =>
        obtain ⟨req, hmem, hrow⟩ := hopen
        exact absurd (by simpa using hrow) (List.find?_eq_none.mp hfind req (List.mem_reverse.mpr hmem))
    · have hnone : oldestOf (d.bk bank).currRow (d.queue bank) = none := by
        unfold oldestOf
        rw [List.find?_eq_none]
        intro req hreq heq
        exact hopen ⟨req, List.mem_reverse.mp hreq, by simpa using heq⟩
      have hnext : d.nextRow bank = (d.queue bank).getLast?.map (·.row) := by
        unfold Dram.nextRow
        rw [hlast]
        exact if_neg hopen
      rw [hnone, Option.none_or]
      cases hreq : (d.queue bank).getLast? with
      | some req =>
        rw [hreq] at hnext
        rw [schedule_of_row hnext, oldestOf_getLast? hreq]
      | none =>
        rw [hreq] at hnext
        unfold Dram.schedule
        rw [hnext]
        rfl

theorem erase_reverse {newer older : List DramReq} {req : DramReq} (h : ∀ r ∈ older, r.row ≠ req.row) :
    ((newer ++ req :: older).reverse.erase req).reverse = newer ++ older := by
  have hmem : req ∉ older.reverse := by
    intro hreq
    exact h req (List.mem_reverse.mp hreq) rfl
  rw [List.reverse_append, List.reverse_cons, List.append_assoc, List.erase_append_right _ hmem]
  simp

theorem Refines.addReq (h : Refines s d) (req : DramReq) :
    Refines (s.addReq req) (d.addReq req) := by
  refine ⟨?_, h.lastRow⟩
  funext b
  show update d.queue req.bk (req :: d.queue req.bk) b = _
  by_cases hb : b = req.bk
  · subst hb
    rw [update_self, addReq_queue_self, h.queue]
  · rw [update_of_ne hb, addReq_queue_of_ne hb, h.queue]

/-- **The controller's scheduler** does what `schedule` does with its iterators and pointers. -/
theorem Refines.schedule (h : Refines s d) (hs : Sound nbk s) (hbank : bank < nbk) :
    (d.schedule bank = none ∧ s.schedule bank (d.bk bank).currRow = .ok s) ∨
      ∃ req t d', d.schedule bank = some (req, d') ∧ s.schedule bank (d.bk bank).currRow = .ok t ∧
        t.returned = req :: s.returned ∧ Refines t d' := by
  rw [schedule_eq, h.queue, h.lastRow]
  rcases hs.schedule hbank (d.bk bank).currRow with ⟨hempty, ht⟩ | ⟨req, t, ht, hans, -⟩
  · refine .inl ⟨?_, ht⟩
    have hserving : s.serving bank = none := by
      cases hrow : s.serving bank with
      | none => rfl
      | some row =>
        obtain ⟨req, hmem, -⟩ := hs.exists_serving hrow
        rw [hempty] at hmem
        cases hmem
    rw [hempty, hserving]
    rfl
  · refine .inr ⟨req, t, scheduled d bank req, ?_, ht, hans.returned, ?_, ?_⟩
    · rw [hans.rule]
      rfl
    · obtain ⟨newer, older, hqueue, hleft, holder⟩ := hans.taken
      funext b
      show update d.queue bank _ b = _
      by_cases hb : b = bank
      · subst hb
        rw [update_self, h.queue, hqueue, erase_reverse holder, hleft]
      · rw [update_of_ne hb, h.queue, hans.others b hb]
    · obtain ⟨newer, older, hqueue, hleft, holder⟩ := hans.taken
      show update d.lastRow bank _ = _
      rw [hans.serving, h.lastRow, h.queue, hqueue, erase_reverse holder, hleft]

/-- Two requests for a row and a newer one for another. -/
def twoRows : List Act :=
  [.addReq ⟨1, 0, 7, 32, 0, false, false⟩, .addReq ⟨2, 0, 7, 32, 0, false, false⟩,
    .addReq ⟨3, 0, 8, 32, 0, false, false⟩, .schedule 0 7]

theorem frfcfs_scheduling_twoRows : ∃ s, (frfcfs 1).Reachable s ∧ s.sched.numPending = 2 ∧
    s.sched.numPending = ∑ b ∈ Finset.range 1, (s.queue b).length := by
  obtain ⟨s, -, hs, hn⟩ := (frfcfs 1).exists_reachable_of_run twoRows (·.sched.numPending) (y := 2) rfl
  exact ⟨s, hs, hn, (frfcfs_scheduling 1 hs).2.1⟩

/-- The oldest request for the row that is given has to wait. -/
theorem not_firstReady_twoRows : ∃ s t, (frfcfs 1).Reachable s ∧
    (frfcfs 1).step s (.schedule 0 8) = some (.ok t) ∧
    t.returned.head? = some ⟨2, 0, 7, 32, 0, false, false⟩ ∧
    firstReady 8 (s.queue 0) = some ⟨3, 0, 8, 32, 0, false, false⟩ := by
  obtain ⟨s, -, hs, hf⟩ := (frfcfs 1).exists_reachable_of_run twoRows
    (fun s => (firstReady 8 (s.queue 0),
      ((frfcfs 1).run [.schedule 0 8] s).map fun t => t.returned.head?))
    (y := (some ⟨3, 0, 8, 32, 0, false, false⟩, some (some ⟨2, 0, 7, 32, 0, false, false⟩))) rfl
  obtain ⟨hready, hrun⟩ := Prod.mk.inj hf
  obtain ⟨t, ht, hret⟩ := Option.map_eq_some_iff.mp hrun
  exact ⟨s, t, hs, Machine.step_of_run ht, hret, hready⟩

end Runs

end GpgpuSimRuby.Memory.Frfcfs
