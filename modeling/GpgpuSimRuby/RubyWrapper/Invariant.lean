import GpgpuSimRuby.RubyWrapper.Block

/-!
# The invariant of the wrapper

Every block is in order (`BlockInv`), the table is not larger than it may be, the sequencer's count
is right, and its tables hold what belongs there. From this a request finds the tables as the
assertions want them; `Issued` lists what an attempt to issue an access can do.
-/

namespace GpgpuSimRuby.RubyWrapper

open Ruby Library

/-! ## The sequencer on good requests -/

namespace Sequencer

variable {cfg : Config} {s : Sequencer} {r : Request}

/-- The tables with a new request in the place it belongs to. -/
def put (cfg : Config) (s : Sequencer) (r : Request) : Sequencer :=
  if r.SkipsL1 cfg then { s with
    skipL1RequestTable := s.skipL1RequestTable ++ [r]
    outstandingCount := s.outstandingCount + 1 }
  else if r.IsWrite then { s with
    writeRequestTable := s.writeRequestTable ++ [r]
    outstandingCount := s.outstandingCount + 1 }
  else { s with
    readRequestTable := s.readRequestTable ++ [r]
    outstandingCount := s.outstandingCount + 1 }

@[simp]
theorem outstandingCount_put : (s.put cfg r).outstandingCount = s.outstandingCount + 1 := by
  unfold put
  split
  · rfl
  · split <;> rfl

theorem totalOutstanding_put : (s.put cfg r).totalOutstanding = s.totalOutstanding + 1 := by
  unfold put totalOutstanding
  split
  · simp
    omega
  · split
    · simp
      omega
    · simp
      omega

theorem skipped_put_skip (h : r.SkipsL1 cfg) : (s.put cfg r).skipped = s.skipped ++ [r.memfetch] := by
  simp [put, h, skipped]

theorem skipped_put (h : ¬ r.SkipsL1 cfg) : (s.put cfg r).skipped = s.skipped := by
  unfold put
  rw [if_neg h]
  split <;> rfl

theorem mem_read_put {r' : Request} : r' ∈ (s.put cfg r).readRequestTable ↔
    r' ∈ s.readRequestTable ∨ r' = r ∧ ¬ r.SkipsL1 cfg ∧ ¬ r.IsWrite := by
  by_cases hs : r.SkipsL1 cfg <;> by_cases hw : r.IsWrite <;> simp [put, hs, hw]

theorem mem_write_put {r' : Request} : r' ∈ (s.put cfg r).writeRequestTable ↔
    r' ∈ s.writeRequestTable ∨ r' = r ∧ ¬ r.SkipsL1 cfg ∧ r.IsWrite := by
  by_cases hs : r.SkipsL1 cfg <;> by_cases hw : r.IsWrite <;> simp [put, hs, hw]

theorem mem_skipL1_put {r' : Request} : r' ∈ (s.put cfg r).skipL1RequestTable ↔
    r' ∈ s.skipL1RequestTable ∨ r' = r ∧ r.SkipsL1 cfg := by
  by_cases hs : r.SkipsL1 cfg <;> by_cases hw : r.IsWrite <;> simp [put, hs, hw]

/-- The count is right and every table holds requests of its own kind. -/
structure Good (cfg : Config) (s : Sequencer) : Prop where
  count : s.outstandingCount = s.totalOutstanding
  reads : ∀ r ∈ s.readRequestTable, ¬ r.IsWrite ∧ ¬ r.SkipsL1 cfg
  writes : ∀ r ∈ s.writeRequestTable, r.IsWrite ∧ ¬ r.SkipsL1 cfg
  skipL1 : ∀ r ∈ s.skipL1RequestTable, r.SkipsL1 cfg

theorem Good.init : Good cfg init where
  count := rfl
  reads _ h := absurd h List.not_mem_nil
  writes _ h := absurd h List.not_mem_nil
  skipL1 _ h := absurd h List.not_mem_nil

theorem Good.put (h : s.Good cfg) : (s.put cfg r).Good cfg where
  count := by rw [outstandingCount_put, totalOutstanding_put, h.count]
  reads r' hr' := by
    rcases mem_read_put.mp hr' with hr' | ⟨rfl, hs, hw⟩
    · exact h.reads r' hr'
    · exact ⟨hw, hs⟩
  writes r' hr' := by
    rcases mem_write_put.mp hr' with hr' | ⟨rfl, hs, hw⟩
    · exact h.writes r' hr'
    · exact ⟨hw, hs⟩
  skipL1 r' hr' := by
    rcases mem_skipL1_put.mp hr' with hr' | ⟨rfl, hs⟩
    · exact h.skipL1 r' hr'
    · exact hs

theorem checkOutstandingRequests_eq (h : s.outstandingCount = s.totalOutstanding) :
    s.checkOutstandingRequests = .ok () :=
  assert_pos h

/-- A request of a fresh access, for an address that has none if it needs the tables for itself,
goes through. -/
theorem makeRequest_eq (cfg : Config) (hcount : s.outstandingCount = s.totalOutstanding)
    (hfresh : r.memfetch ∉ s.skipped)
    (hfree : ¬ r.SkipsL1 cfg →
      ∀ r' ∈ s.writeRequestTable ++ s.readRequestTable, r'.address ≠ r.address) :
    s.makeRequest cfg r = (do assert (r.address ≠ 0) .addressZero; .ok (s.put cfg r)) := by
  unfold makeRequest
  congr 1
  funext _
  have hput : (s.put cfg r).checkOutstandingRequests = .ok () := by
    apply checkOutstandingRequests_eq
    rw [outstandingCount_put, totalOutstanding_put, hcount]
  have hold := checkOutstandingRequests_eq hcount
  by_cases hskip : r.SkipsL1 cfg
  · simp only [put, if_pos hskip] at hput ⊢
    simp only [insertSkipL1Request, hold, hput, ok_bind, assert_pos hfresh]
  · have hfree := hfree hskip
    have hw : ¬ exist r s.writeRequestTable := by
      rintro ⟨r', hr', -, ha⟩
      exact hfree r' (List.mem_append_left _ hr') ha
    have hr : ¬ exist r s.readRequestTable := by
      rintro ⟨r', hr', -, ha⟩
      exact hfree r' (List.mem_append_right _ hr') ha
    by_cases hwrite : r.IsWrite
    · simp only [put, if_neg hskip, if_pos hwrite] at hput ⊢
      simp only [insertRequest, hold, hput, ok_bind, if_pos hwrite, if_neg hw]
    · simp only [put, if_neg hskip, if_neg hwrite] at hput ⊢
      simp only [insertRequest, hold, hput, ok_bind, if_neg hwrite, if_neg hr]

/-- The tables without a request. -/
def drop (cfg : Config) (s : Sequencer) (r : Request) : Sequencer :=
  if r.SkipsL1 cfg then { s with
    skipL1RequestTable := s.skipL1RequestTable.erase r
    outstandingCount := s.outstandingCount - 1 }
  else if r.IsWrite then { s with
    writeRequestTable := s.writeRequestTable.erase r
    outstandingCount := s.outstandingCount - 1 }
  else { s with
    readRequestTable := s.readRequestTable.erase r
    outstandingCount := s.outstandingCount - 1 }

/-- The table a request is in. -/
def tableOf (cfg : Config) (s : Sequencer) (r : Request) : List Request :=
  if r.SkipsL1 cfg then s.skipL1RequestTable
  else if r.IsWrite then s.writeRequestTable else s.readRequestTable

theorem outstandingCount_drop : (s.drop cfg r).outstandingCount = s.outstandingCount - 1 := by
  unfold drop
  split
  · rfl
  · split <;> rfl

theorem totalOutstanding_drop (hr : r ∈ s.tableOf cfg r) :
    (s.drop cfg r).totalOutstanding = s.totalOutstanding - 1 ∧ 0 < s.totalOutstanding := by
  unfold tableOf at hr
  unfold drop totalOutstanding
  by_cases hs : r.SkipsL1 cfg
  · simp only [if_pos hs] at hr ⊢
    have := List.length_pos_of_mem hr
    rw [List.length_erase_of_mem hr]
    omega
  · by_cases hw : r.IsWrite
    · simp only [if_neg hs, if_pos hw] at hr ⊢
      have := List.length_pos_of_mem hr
      rw [List.length_erase_of_mem hr]
      omega
    · simp only [if_neg hs, if_neg hw] at hr ⊢
      have := List.length_pos_of_mem hr
      rw [List.length_erase_of_mem hr]
      omega

theorem Good.drop (h : s.Good cfg) (hr : r ∈ s.tableOf cfg r) : (s.drop cfg r).Good cfg where
  count := by rw [outstandingCount_drop, (totalOutstanding_drop hr).1, h.count]
  reads r' hr' := by
    apply h.reads
    unfold Sequencer.drop at hr'
    split at hr'
    · exact hr'
    · split at hr'
      · exact hr'
      · exact List.mem_of_mem_erase hr'
  writes r' hr' := by
    apply h.writes
    unfold Sequencer.drop at hr'
    split at hr'
    · exact hr'
    · split at hr'
      · exact List.mem_of_mem_erase hr'
      · exact hr'
  skipL1 r' hr' := by
    apply h.skipL1
    unfold Sequencer.drop at hr'
    split at hr'
    · exact List.mem_of_mem_erase hr'
    · split at hr' <;> exact hr'

theorem removeRequest_eq (h : s.Good cfg) (hs : ¬ r.SkipsL1 cfg) (hr : r ∈ s.tableOf cfg r) :
    s.removeRequest r = .ok (s.drop cfg r) := by
  have hdrop := checkOutstandingRequests_eq (h.drop hr).count
  simp only [removeRequest, checkOutstandingRequests_eq h.count, ok_bind]
  simp only [drop, if_neg hs] at hdrop ⊢
  rw [hdrop, ok_bind]

theorem removeSkipL1Request_eq (h : s.Good cfg) (hs : r.SkipsL1 cfg) (hr : r ∈ s.tableOf cfg r) :
    s.removeSkipL1Request r = .ok (s.drop cfg r) := by
  have hdrop := checkOutstandingRequests_eq (h.drop hr).count
  simp only [removeSkipL1Request, checkOutstandingRequests_eq h.count, ok_bind]
  simp only [drop, if_pos hs] at hdrop ⊢
  rw [hdrop, ok_bind]

end Sequencer

/-! ## The requests of accesses -/

section Request

variable {cfg : Config} {mf : MemFetch}

theorem isWrite_request (h : mf.isMembar = false) : mf.request.IsWrite ↔ mf.modifies = true := by
  cases ha : mf.isAtomic <;> cases hw : mf.isWrite <;>
    simp [Request.IsWrite, MemFetch.request, MemFetch.type, MemFetch.modifies, h, ha, hw]

theorem skipsL1_request (h : mf.isMembar = false) : mf.request.SkipsL1 cfg ↔
      mf.Bypasses cfg ∨ mf.modifies = true ∧ cfg.writesStallAtMshr = false := by
  have hw := isWrite_request h
  unfold Request.IsWrite at hw
  unfold Request.SkipsL1 MemFetch.Bypasses
  rw [hw, and_comm]
  rfl

end Request

/-- A first access fits into its entry. On a miss `full` looks at the number of the entries only, so
an entry must have room for one access, unless no access can miss and go ahead anyway. -/
def Config.EntriesHold (cfg : Config) : Prop :=
  0 < cfg.mshrSize ∨ cfg.mshrCount = 0 ∨ cfg.numSeqEntries = 0

instance (cfg : Config) : Decidable cfg.EntriesHold := inferInstanceAs (Decidable (_ ∨ _))

/-! ## The view of a block in a world -/

/-- The access an event says has been queued for a block. -/
def Event.queuedIn (b : RubyAddr) : Event → Option MemFetch
  | .accepted mf .request | .accepted mf .merge => if mf.blockAddr = b then some mf else none
  | _ => none

/-- The access of a block that an event says has been returned. -/
def Event.returnedIn (b : RubyAddr) : Event → Option MemFetch
  | .returned mf => if mf.blockAddr = b then some mf else none
  | _ => none

namespace World

variable (cfg : Config) (w : World) (b : RubyAddr)

/-- The accesses queued for a block so far, in the order of their acceptance. -/
def queued : List MemFetch := (w.trace.filterMap (Event.queuedIn b)).reverse

/-- The accesses of a block that `next_access` has returned so far, in that order. -/
def returned : List MemFetch := (w.trace.filterMap (Event.returnedIn b)).reverse

/-- The requests of a block on their way through Ruby and back. -/
def requests : Nat :=
  w.core.sequencer.readRequestTable.countP (fun r => r.address = b) +
    w.core.sequencer.writeRequestTable.countP (fun r => r.address = b) +
    w.core.callbackQueue.count b + w.core.mshr.currentResponse.count b

/-- The writes of a block that skip the MSHRs, from `send_request` to their writeback. -/
def skips : Multiset MemFetch :=
  ((w.core.sequencer.skipped ++ w.core.skipL1CallbackQueue : List MemFetch) :
    Multiset MemFetch).filter fun mf => mf.blockAddr = b ∧ ¬ mf.Bypasses cfg

def view : BlockView where
  held := b ∈ w.core.mshr.data
  entry := w.core.mshr.entry b
  requests := w.requests b
  skips := w.skips cfg b
  accepted := w.queued b
  returned := w.returned b

/-- What holds of every world a run reaches. -/
structure Inv : Prop where
  block : ∀ b, BlockInv cfg b (w.view cfg b)
  size : w.core.mshr.size ≤ cfg.mshrCount
  sequencer : w.core.sequencer.Good cfg
  modifies : ∀ mf ∈ w.core.sequencer.skipped ++ w.core.skipL1CallbackQueue,
    ¬ mf.Bypasses cfg → mf.modifies = true
  fresh : ∀ mf ∈ w.core.sequencer.skipped, mf.uid < w.core.nextUid
  queuedFresh : ∀ b, ∀ mf ∈ w.queued b, mf.uid < w.core.nextUid
  queuedNodup : ∀ b, (w.queued b).Nodup

theorem inv_init : (init : World).Inv cfg where
  block _ := by
    have h : (init : World).view cfg = fun _ => ⟨False, {}, 0, 0, [], []⟩ := by
      funext b
      simp [view, init, Core.init, MshrTable.init, MshrTable.entry, requests, skips, queued, returned,
        Sequencer.init, Sequencer.skipped]
    rw [h]
    exact .init
  size := Nat.zero_le _
  sequencer := .init
  modifies _ h := absurd h List.not_mem_nil
  fresh _ h := absurd h List.not_mem_nil
  queuedFresh _ _ h := absurd h List.not_mem_nil
  queuedNodup _ := List.nodup_nil

end World

end GpgpuSimRuby.RubyWrapper
