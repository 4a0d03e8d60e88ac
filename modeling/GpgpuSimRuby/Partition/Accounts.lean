import GpgpuSimRuby.Cache.Pending
import GpgpuSimRuby.Library.Places
import GpgpuSimRuby.Partition.MemoryPartitionUnit

/-!
# Where the requests are

Every request is at one place of the partition, or has left it. A read that asked the DRAM for its block
is on its way and waits in the MSHRs as well, and counts where it waits.
-/

namespace GpgpuSimRuby.Partition

open Library Cache

/-! ## Places -/

inductive Place where
  | rop | icntL2 | missQueue | l2Dram | dramLatency | dram | returnq | dramL2 | mshrs | l2Icnt
  | popped | deleted | toRuby
  deriving DecidableEq, Repr

namespace Place

instance : Fintype Place where
  elems := {rop, icntL2, missQueue, l2Dram, dramLatency, dram, returnq, dramL2, mshrs, l2Icnt, popped,
    deleted, toRuby}
  complete p := by cases p <;> decide


/-- On the way to the DRAM and back. -/
def beyondL2 : Place → Bool
  | missQueue | l2Dram | dramLatency | dram | returnq | dramL2 => true
  | _ => false

def inside : Place → Bool
  | popped | deleted | toRuby => false
  | _ => true

end Place

/-- What counts at each place: a request beyond the L2 that is waited for counts where it waits. -/
def counted (waited : Nat → Bool) (c : Place → Multiset MemFetch) (p : Place) : Multiset MemFetch :=
  if p.beyondL2 then (c p).filter fun mf => waited mf.id = false else c p

section Counted

variable {waited waited' : Nat → Bool} {c c' out into : Place → Multiset MemFetch} {p : Place}
  {mf : MemFetch} {xs : Multiset MemFetch}

theorem balance_counted (waited : Nat → Bool) (h : Balance c out into c') :
    Balance (counted waited c) (Partition.counted waited out) (Partition.counted waited into)
      (Partition.counted waited c') := by
  funext p
  have hp := h.at_place p
  show Partition.counted waited c' p + Partition.counted waited out p =
    Partition.counted waited c p + Partition.counted waited into p
  unfold Partition.counted
  split
  · rw [← Multiset.filter_add, ← Multiset.filter_add, hp]
  · exact hp

theorem counted_congr (h : ∀ p, p.beyondL2 = true → ∀ mf ∈ c p, waited mf.id = waited' mf.id) :
    counted waited c = counted waited' c := by
  funext p
  unfold counted
  split
  · next hp =>
    apply Multiset.filter_congr
    intro mf hmf
    rw [h p hp mf hmf]
  · rfl

theorem mem_counted : mf ∈ counted waited c p ↔ mf ∈ c p ∧ (p.beyondL2 = true → waited mf.id = false) := by
  unfold counted
  split
  · next hp => simp [hp]
  · next hp => simp [hp]

theorem counted_placed : counted waited (placed p xs) =
    placed p (if p.beyondL2 then xs.filter fun mf => waited mf.id = false else xs) := by
  funext q
  unfold counted
  by_cases hq : q = p
  · subst hq
    simp
  · simp [hq]

theorem counted_add : counted waited (c + c') = counted waited c + counted waited c' := by
  funext q
  show _ = counted waited c q + counted waited c' q
  unfold counted
  split
  · exact Multiset.filter_add _ _ _
  · rfl

theorem sum_counted_placed : ∑ q, counted waited (placed p xs) q =
    if p.beyondL2 then xs.filter fun mf => waited mf.id = false else xs := by
  rw [counted_placed, Balance.sum_placed]

end Counted

namespace MemoryPartitionUnit

def contents (m : MemoryPartitionUnit) : Place → Multiset MemFetch
  | .rop => m.rop.map (·.req)
  | .icntL2 => m.icntL2
  | .missQueue => m.l2.missQueue
  | .l2Dram => m.l2Dram
  | .dramLatency => m.dramLatency.map (·.req)
  | .dram => m.dram
  | .returnq => m.returnq
  | .dramL2 => m.dramL2
  | .mshrs => m.l2.mshrs.waiting
  | .l2Icnt => m.l2Icnt
  | .popped => m.popped
  | .deleted => m.deleted
  | .toRuby => m.toRuby

/-- All requests, each once. -/
def total (m : MemoryPartitionUnit) : Multiset MemFetch :=
  ∑ p, counted m.l2.waitingForFill m.contents p

def Waited (m : MemoryPartitionUnit) (mf : MemFetch) : Prop := m.l2.waitingForFill mf.id = true

/-- What may be at each place. -/
def Allowed (m : MemoryPartitionUnit) (mf : MemFetch) : Place → Prop
  | .rop | .icntL2 => mf ∈ m.entered
  | .missQueue | .l2Dram | .dramLatency => m.Waited mf ∨ mf ∈ m.entered ∨ isWriteback mf.accessType = true
  | .dram => m.Waited mf ∨ mf ∈ m.entered ∨ isWriteback mf.accessType = true ∨ mf ∈ m.fromRuby
  | .returnq => isWriteback mf.accessType = false ∧ (m.Waited mf ∨ mf ∈ m.entered ∨ mf ∈ m.fromRuby)
  | .dramL2 => isWriteback mf.accessType = false ∧ (m.Waited mf ∨ mf ∈ m.entered)
  | .mshrs => isWriteback mf.accessType = false ∧ (mf ∈ m.entered ∨ mf.accessType = .l2WrAllocR)
  | .l2Icnt | .popped => isWriteback mf.accessType = false ∧ mf ∈ m.entered
  | .deleted => isWriteback mf.accessType = true ∨ mf.accessType = .l2WrAllocR
  | .toRuby => mf ∈ m.fromRuby

/-- The accounts of a partition. -/
structure Accounts (m : MemoryPartitionUnit) : Prop where
  ledger : m.total.map (·.id) = Multiset.range m.l2.made
  allowed : ∀ p, ∀ mf ∈ m.contents p, m.Allowed mf p
  tracker : ∀ mf, mf ∈ m.requestTracker ↔ mf ∈ m.entered ∧ mf ∉ m.popped ∧ mf ∉ m.deleted
  entered : ∀ mf ∈ m.entered, FromCore mf.accessType mf.isWrite ∧ mf ∈ m.total
  fromRuby : ∀ mf ∈ m.fromRuby, isRuby mf.accessType = true ∧ mf ∈ m.total

variable {m t : MemoryPartitionUnit} {mf v : MemFetch} {p q : Place} {out into : Place → Multiset MemFetch}

theorem Allowed.mono (h : m.Allowed mf p) (hentered : m.entered ⊆ t.entered)
    (hruby : m.fromRuby ⊆ t.fromRuby) (hwaited : p.beyondL2 = true → m.Waited mf → t.Waited mf) :
    t.Allowed mf p := by
  cases p with
  | rop => exact hentered h
  | icntL2 => exact hentered h
  | missQueue => exact h.imp (hwaited rfl) (Or.imp_left (@hentered mf))
  | l2Dram => exact h.imp (hwaited rfl) (Or.imp_left (@hentered mf))
  | dramLatency => exact h.imp (hwaited rfl) (Or.imp_left (@hentered mf))
  | dram => exact h.imp (hwaited rfl) (Or.imp (@hentered mf) (Or.imp_right (@hruby mf)))
  | returnq => exact ⟨h.1, h.2.imp (hwaited rfl) (Or.imp (@hentered mf) (@hruby mf))⟩
  | dramL2 => exact ⟨h.1, h.2.imp (hwaited rfl) (@hentered mf)⟩
  | mshrs => exact ⟨h.1, h.2.imp_left (@hentered mf)⟩
  | l2Icnt => exact ⟨h.1, hentered h.2⟩
  | popped => exact ⟨h.1, hentered h.2⟩
  | deleted => exact h
  | toRuby => exact hruby h

/-! ## Requests are different -/

theorem mem_total_iff : mf ∈ m.total ↔ ∃ p, mf ∈ counted m.l2.waitingForFill m.contents p :=
  Library.mem_total

namespace Accounts

variable (h : Accounts m)
include h

theorem id_lt (hmf : mf ∈ m.total) : mf.id < m.l2.made := by
  rw [← Multiset.mem_range, ← h.ledger]
  exact Multiset.mem_map_of_mem _ hmf

theorem ids_nodup : (m.total.map (·.id)).Nodup := by
  rw [h.ledger]
  exact Multiset.nodup_range _

theorem eq_of_id (hmf : mf ∈ m.total) (hv : v ∈ m.total) (hid : mf.id = v.id) : mf = v :=
  Multiset.inj_on_of_nodup_map h.ids_nodup mf hmf v hv hid

theorem nodup : m.total.Nodup := h.ids_nodup.of_map _

theorem place_eq (hp : mf ∈ counted m.l2.waitingForFill m.contents p)
    (hq : v ∈ counted m.l2.waitingForFill m.contents q) (hid : mf.id = v.id) : p = q := by
  obtain rfl := h.eq_of_id (mem_total_iff.mpr ⟨p, hp⟩) (mem_total_iff.mpr ⟨q, hq⟩) hid
  exact eq_of_mem_total h.nodup hp hq

end Accounts

/-! ## Steps that keep the accounts -/

theorem total_of_balance (hb : Balance m.contents out into t.contents)
    (hextra : t.l2.extraMfFields = m.l2.extraMfFields) : t.total + ∑ p, counted m.l2.waitingForFill out p =
      m.total + ∑ p, counted m.l2.waitingForFill into p := by
  have hwaited : t.l2.waitingForFill = m.l2.waitingForFill := by
    funext id
    rw [BaselineCache.waitingForFill, hextra]
    rfl
  unfold total
  rw [hwaited]
  exact (balance_counted _ hb).total

theorem range_add_singleton (n : Nat) : Multiset.range n + {n} = Multiset.range (n + 1) := by
  rw [Multiset.range_succ, add_comm, Multiset.singleton_add]

theorem Accounts.of_total (h : Accounts m) {news : Multiset MemFetch} (htotal : t.total = m.total + news)
    (hids : Multiset.range m.l2.made + news.map (·.id) = Multiset.range t.l2.made)
    (hallowed : ∀ p, ∀ mf ∈ t.contents p, t.Allowed mf p)
    (htracker : ∀ mf, mf ∈ t.requestTracker ↔ mf ∈ t.entered ∧ mf ∉ t.popped ∧ mf ∉ t.deleted)
    (hentered : ∀ mf ∈ t.entered, mf ∈ m.entered ∨ FromCore mf.accessType mf.isWrite ∧ mf ∈ news)
    (hruby : ∀ mf ∈ t.fromRuby, mf ∈ m.fromRuby ∨ isRuby mf.accessType = true ∧ mf ∈ news) : Accounts t where
  ledger := by
    rw [htotal, Multiset.map_add, h.ledger]
    exact hids
  allowed := hallowed
  tracker := htracker
  entered mf hmf := by
    rw [htotal, Multiset.mem_add]
    rcases hentered mf hmf with hmf | ⟨hcore, hmf⟩
    · exact ⟨(h.entered mf hmf).1, .inl (h.entered mf hmf).2⟩
    · exact ⟨hcore, .inr hmf⟩
  fromRuby mf hmf := by
    rw [htotal, Multiset.mem_add]
    rcases hruby mf hmf with hmf | ⟨htype, hmf⟩
    · exact ⟨(h.fromRuby mf hmf).1, .inl (h.fromRuby mf hmf).2⟩
    · exact ⟨htype, .inr hmf⟩

/-- One request moves: it leaves `p` for `q`. -/
structure Moved (m t : MemoryPartitionUnit) (mf : MemFetch) (p q : Place) : Prop where
  balance : Balance m.contents (placed p {mf}) (placed q {mf}) t.contents
  extra : t.l2.extraMfFields = m.l2.extraMfFields
  made : t.l2.made = m.l2.made
  entered : t.entered = m.entered
  fromRuby : t.fromRuby = m.fromRuby
  tracker : t.requestTracker =
    if q = .popped ∨ q = .deleted then m.requestTracker.erase mf else m.requestTracker
  inside : p.inside = true
  waited : m.Waited mf → p.beyondL2 = true ∧ q.beyondL2 = true

namespace Moved

variable (hmv : Moved m t mf p q)
include hmv

theorem total_eq : t.total = m.total := by
  have htotal := total_of_balance hmv.balance hmv.extra
  rw [sum_counted_placed, sum_counted_placed] at htotal
  by_cases hw : m.Waited mf
  · obtain ⟨hp, hq⟩ := hmv.waited hw
    rw [if_pos hp, if_pos hq] at htotal
    exact add_right_cancel htotal
  · have hno : m.l2.waitingForFill mf.id = false := Bool.eq_false_of_not_eq_true hw
    have hself : ({mf} : Multiset MemFetch).filter (fun v => m.l2.waitingForFill v.id = false) = {mf} := by
      rw [Multiset.filter_singleton, if_pos hno]
    rw [hself, ite_self, ite_self] at htotal
    exact add_right_cancel htotal

theorem waited_iff : t.Waited v ↔ m.Waited v := by
  unfold Waited BaselineCache.waitingForFill
  rw [hmv.extra]

theorem mem_outside {r : Place} (hr : r.inside = false) :
    v ∈ t.contents r ↔ v ∈ m.contents r ∨ r = q ∧ v = mf := by
  have hne : v ∉ placed p {mf} r := by
    intro hv
    rw [(mem_placed.mp hv).1, hmv.inside] at hr
    cases hr
  constructor
  · intro hv
    refine (hmv.balance.mem hv).imp_right fun hv => ?_
    obtain ⟨hq, hmf⟩ := mem_placed.mp hv
    exact ⟨hq, Multiset.mem_singleton.mp hmf⟩
  · rintro (hv | ⟨rfl, rfl⟩)
    · exact (hmv.balance.mem_of_mem hv).resolve_right hne
    · exact (hmv.balance.mem_of_into (mem_placed.mpr ⟨rfl, Multiset.mem_singleton_self v⟩)).resolve_right
        hne

theorem accounts (h : Accounts m) (hallowed : m.Allowed mf q) : Accounts t := by
  apply h.of_total (hmv.total_eq.trans (add_zero _).symm)
  · rw [Multiset.map_zero, add_zero, hmv.made]
  · intro r v hv
    have hmono {r : Place} (ha : m.Allowed v r) : t.Allowed v r :=
      ha.mono (hmv.entered ▸ List.Subset.refl _) (hmv.fromRuby ▸ List.Subset.refl _)
        fun _ => hmv.waited_iff.mpr
    rcases hmv.balance.mem hv with hv | hv
    · exact hmono (h.allowed r v hv)
    · obtain ⟨rfl, hmf⟩ := mem_placed.mp hv
      obtain rfl := Multiset.mem_singleton.mp hmf
      exact hmono hallowed
  · intro v
    have hpopped : v ∈ t.popped ↔ v ∈ m.popped ∨ Place.popped = q ∧ v = mf :=
      hmv.mem_outside (r := .popped) rfl
    have hdeleted : v ∈ t.deleted ↔ v ∈ m.deleted ∨ Place.deleted = q ∧ v = mf :=
      hmv.mem_outside (r := .deleted) rfl
    rw [hmv.tracker, hmv.entered, hpopped, hdeleted]
    have hold := h.tracker v
    split
    · next hq =>
      rw [Finset.mem_erase, hold]
      rcases hq with rfl | rfl
      · simp
        tauto
      · simp
        tauto
    · next hq =>
      obtain ⟨hq, hq'⟩ := not_or.mp hq
      rw [hold]
      simp [Ne.symm hq, Ne.symm hq']
  · exact fun v hv => .inl (hmv.entered ▸ hv)
  · exact fun v hv => .inl (hmv.fromRuby ▸ hv)

end Moved

end MemoryPartitionUnit

end GpgpuSimRuby.Partition
