import GpgpuSimRuby.Library.Places
import GpgpuSimRuby.Memory.Dram

/-!
# The requests of the memory controller

Where requests are, and how they move: from `mrqq`, perhaps through the queue of a scheduler, to a
bank, which sends one burst for each column command; the data of the bursts pass through `rwq`, and
with the last of them the request is done. A bank lets a request go when it has sent the last burst,
so that a request of several bursts is in its bank and in `rwq` at once.

What has moved is kept in a log, the newest event first. The accounts say what the log says of the
places.
-/

namespace GpgpuSimRuby.Memory

open Library Function

/-! ## Places and events -/

/-- The places of the requests. -/
structure View where
  mrqq : List DramReq
  queue : Nat → List DramReq
  mrq : Nat → Option DramReq
  data : List DramReq
  dqbytes : Nat → Nat
  returnq : List Nat

/-- The request as it was pushed. -/
def DramReq.core (req : DramReq) : DramReq := { req with txbytes := 0 }

def FifoPipeline.contents {α : Type} (q : FifoPipeline α) : List α := q.nodes.filterMap id

def Dram.view (d : Dram) : View where
  mrqq := d.mrqq
  queue := d.queue
  mrq := fun b => (d.bk b).mrq
  data := d.rwq.contents
  dqbytes := d.dqbytes
  returnq := d.returnq

/-- What happens to a request. `last` tells that the bank lets it go, and `done` that it is replied
to or deleted. -/
inductive Event where
  | push (req : DramReq)
  | accept (req : DramReq)
  | assign (req : DramReq)
  | burst (req : DramReq) (last : Bool)
  | out (req : DramReq) (done : Bool)
  | pop (uid : Nat)
  deriving DecidableEq, Repr

namespace Event

def pushed? : Event → Option DramReq
  | push req => some req
  | _ => none

def burst? : Event → Option DramReq
  | burst req _ => some req
  | _ => none

def transferred? : Event → Option DramReq
  | burst req true => some req
  | _ => none

def finished? : Event → Option DramReq
  | out req true => some req
  | _ => none

def popped? : Event → Option Nat
  | pop uid => some uid
  | _ => none

/-- The column command of a burst: to the bank and to the row of its request. -/
def command? : Event → Option Command
  | burst req _ => some (if req.isWrite then .wr req.bk req.row else .rd req.bk req.row)
  | _ => none

def pushed (log : List Event) : List DramReq := log.filterMap pushed?

/-- The number of bursts of a request. -/
def bursts (req : DramReq) (log : List Event) : Nat := (log.filterMap burst?).count req

/-- The requests that their banks have let go. -/
def transferred (log : List Event) : List DramReq := log.filterMap transferred?

/-- The requests that are done. -/
def finished (log : List Event) : List DramReq := log.filterMap finished?

def popped (log : List Event) : List Nat := log.filterMap popped?

def commands (log : List Event) : List Command := log.filterMap command?

end Event

/-- How an event changes the places. -/
inductive Moves (cfg : MemoryConfig) : View → Event → View → Prop
  | push {v req} : req.txbytes = 0 → req.bk < cfg.nbk →
      Moves cfg v (.push req) { v with mrqq := v.mrqq ++ [req] }
  | accept {v req rest} : v.mrqq = req :: rest →
      Moves cfg v (.accept req)
        { v with mrqq := rest, queue := update v.queue req.bk (req :: v.queue req.bk) }
  | assignHead {v req rest} : v.mrqq = req :: rest → v.mrq req.bk = none →
      Moves cfg v (.assign req) { v with mrqq := rest, mrq := update v.mrq req.bk (some req) }
  | assign {v req rest b} : b < cfg.nbk → (v.queue b).Perm (req :: rest) → v.mrq b = none →
      Moves cfg v (.assign req)
        { v with queue := update v.queue b rest, mrq := update v.mrq b (some req) }
  | burst {v req b} : v.mrq b = some req →
      Moves cfg v (.burst req.core (Dram.sentBurst cfg req).isNone)
        { v with data := v.data ++ [req], mrq := update v.mrq b (Dram.sentBurst cfg req) }
  | out {v req rest} : v.data = req :: rest →
      Moves cfg v (.out req.core (decide (req.nbytes ≤ v.dqbytes req.uid + cfg.dramAtomSize)))
        { v with
          data := rest
          dqbytes := update v.dqbytes req.uid (v.dqbytes req.uid + cfg.dramAtomSize)
          returnq :=
            if req.nbytes ≤ v.dqbytes req.uid + cfg.dramAtomSize ∧ req.isWriteback = false then
              v.returnq ++ [req.uid]
            else v.returnq }
  | pop {v uid rest} : v.returnq = uid :: rest → Moves cfg v (.pop uid) { v with returnq := rest }

/-- The logs of the runs in which every request that is pushed is a new one. -/
inductive History (cfg : MemoryConfig) : List Event → View → Prop
  | init : History cfg [] (Dram.init cfg).view
  | step {log v e v'} : History cfg log v → Moves cfg v e v' →
      (∀ req, e = .push req → req.uid ∉ (Event.pushed log).map DramReq.uid) → History cfg (e :: log) v'

/-! ## Accounts -/

/-- The bursts that a request needs: as many as it has bytes for, and one at least. -/
def needed (cfg : MemoryConfig) (req : DramReq) : Nat :=
  max 1 ((req.nbytes + cfg.dramAtomSize - 1) / cfg.dramAtomSize)

/-- The requests that no bank has. -/
def View.waiting (cfg : MemoryConfig) (v : View) : Multiset DramReq :=
  v.mrqq + ∑ b ∈ Finset.range cfg.nbk, (v.queue b : Multiset DramReq)

/-- The requests of the banks. -/
def View.serving (cfg : MemoryConfig) (v : View) : Multiset DramReq :=
  ∑ b ∈ Finset.range cfg.nbk, ((v.mrq b).toList.map DramReq.core : Multiset DramReq)

/-- The bursts of a request that are in `rwq`. -/
def View.inflight (v : View) (req : DramReq) : Nat := (v.data.map DramReq.core).count req

open Event

/-- What the log says of the places up to the banks. -/
structure Places (cfg : MemoryConfig) (log : List Event) (v : View) : Prop where
  nodup : ((pushed log).map DramReq.uid).Nodup
  new : ∀ req ∈ pushed log, req.txbytes = 0 ∧ req.bk < cfg.nbk
  /-- every request waits, or is in a bank, or has been transferred -/
  ledger : (pushed log : Multiset DramReq) = v.waiting cfg + v.serving cfg + transferred log
  queue : ∀ b, ∀ req ∈ v.queue b, req.bk = b
  unsent : ∀ req ∈ v.waiting cfg, bursts req log = 0
  bank : ∀ b req, v.mrq b = some req → req.bk = b ∧ b < cfg.nbk ∧
    req.txbytes = bursts req.core log * cfg.dramAtomSize ∧ (req.txbytes = 0 ∨ req.txbytes < req.nbytes)
  sent : ∀ req ∈ transferred log, bursts req log = needed cfg req
  unknown : ∀ req, req ∉ pushed log → bursts req log = 0

/-- What the log says of the data on their way out. -/
structure Outgoing (cfg : MemoryConfig) (log : List Event) (v : View) : Prop where
  data : ∀ req ∈ v.data, req.core ∈ pushed log
  dqbytes : ∀ req ∈ pushed log, v.dqbytes req.uid + v.inflight req * cfg.dramAtomSize =
    bursts req log * cfg.dramAtomSize
  fresh : ∀ uid, uid ∉ (pushed log).map DramReq.uid → v.dqbytes uid = 0
  finished : ∀ req, req ∈ finished log ↔
    req ∈ pushed log ∧ bursts req log = needed cfg req ∧ v.inflight req = 0
  once : (Event.finished log).Nodup
  returned : (popped log).reverse ++ v.returnq =
    ((Event.finished log).reverse.filter fun req => !req.isWriteback).map DramReq.uid

section Needed

variable {cfg : MemoryConfig} {req : DramReq} {k : Nat}

theorem needed_pos : 0 < needed cfg req := Nat.lt_of_lt_of_le (by decide) (Nat.le_max_left _ _)

theorem needed_le_iff (hatom : 0 < cfg.dramAtomSize) (hk : 0 < k) :
    needed cfg req ≤ k ↔ req.nbytes ≤ k * cfg.dramAtomSize := by
  unfold needed
  rw [Nat.max_le, Nat.div_le_iff_le_mul_add_pred hatom, Nat.mul_comm]
  constructor
  · rintro ⟨-, h⟩
    omega
  · intro h
    exact ⟨hk, by omega⟩

end Needed

section Steps

variable {cfg : MemoryConfig} {log : List Event} {v v' : View} {req : DramReq} {e : Event} {b : Nat}
variable {last : Bool} {rest : List DramReq}

theorem Places.core_eq (h : Places cfg log v) (hreq : req ∈ pushed log) : req.core = req := by
  cases req
  obtain rfl := (h.new _ hreq).1
  rfl

theorem Places.mem_pushed (h : Places cfg log v) (hreq : req ∈ v.waiting cfg) : req ∈ pushed log := by
  have hmem : req ∈ (pushed log : Multiset DramReq) := by
    rw [h.ledger]
    exact Multiset.mem_add.mpr (.inl (Multiset.mem_add.mpr (.inl hreq)))
  exact Multiset.mem_coe.mp hmem

theorem mem_serving (hb : b < cfg.nbk) (h : v.mrq b = some req) : req.core ∈ v.serving cfg := by
  unfold View.serving
  rw [Multiset.mem_sum]
  refine ⟨b, Finset.mem_range.mpr hb, ?_⟩
  rw [h]
  simp

theorem Places.core_mem_pushed (h : Places cfg log v) (hreq : v.mrq b = some req) :
    req.core ∈ pushed log := by
  have hmem : req.core ∈ (pushed log : Multiset DramReq) := by
    rw [h.ledger]
    have hserving := mem_serving (h.bank b req hreq).2.1 hreq
    exact Multiset.mem_add.mpr (.inl (Multiset.mem_add.mpr (.inr hserving)))
  exact Multiset.mem_coe.mp hmem

theorem Places.bursts_lt (hatom : 0 < cfg.dramAtomSize) (h : Places cfg log v)
    (hreq : v.mrq b = some req) : bursts req.core log < needed cfg req.core := by
  obtain ⟨-, -, htx, hlt⟩ := h.bank b req hreq
  have hpos : 0 < needed cfg req.core := needed_pos
  by_contra hge
  have hge := Nat.le_of_not_lt hge
  have hbytes : req.core.nbytes ≤ bursts req.core log * cfg.dramAtomSize :=
    (needed_le_iff hatom (Nat.lt_of_lt_of_le hpos hge)).mp hge
  rw [← htx] at hbytes
  have hzero : req.txbytes ≠ 0 := by
    rw [htx]
    exact (Nat.mul_pos (Nat.lt_of_lt_of_le hpos hge) hatom).ne'
  rcases hlt with hlt | hlt
  · exact hzero hlt
  · exact absurd hlt (Nat.not_lt.mpr hbytes)

theorem Places.bursts_le (hatom : 0 < cfg.dramAtomSize) (h : Places cfg log v)
    (hreq : req ∈ pushed log) : bursts req log ≤ needed cfg req := by
  have hmem : req ∈ (pushed log : Multiset DramReq) := Multiset.mem_coe.mpr hreq
  rw [h.ledger] at hmem
  rcases Multiset.mem_add.mp hmem with hmem | hsent
  · rcases Multiset.mem_add.mp hmem with hwait | hserv
    · rw [h.unsent req hwait]
      exact Nat.zero_le _
    · obtain ⟨b, -, hb⟩ := Multiset.mem_sum.mp hserv
      obtain ⟨r, hr, rfl⟩ := List.mem_map.mp (Multiset.mem_coe.mp hb)
      exact (h.bursts_lt hatom (by simpa using hr)).le
  · exact (h.sent req (Multiset.mem_coe.mp hsent)).le

/-! ## Requests up to the banks -/

theorem Places.rearrange (h : Places cfg log v) (hpushed : pushed? e = none) (hburst : burst? e = none)
    (htransferred : transferred? e = none)
    (hsum : v'.waiting cfg + v'.serving cfg = v.waiting cfg + v.serving cfg)
    (hwaiting : ∀ req ∈ v'.waiting cfg, req ∈ v.waiting cfg) (hqueue : ∀ b, ∀ req ∈ v'.queue b, req.bk = b)
    (hbank : ∀ b req, v'.mrq b = some req →
      v.mrq b = some req ∨ (req.bk = b ∧ req ∈ v.waiting cfg)) : Places cfg (e :: log) v' := by
  have hp : pushed (e :: log) = pushed log := List.filterMap_cons_none hpushed
  have ht : transferred (e :: log) = transferred log := List.filterMap_cons_none htransferred
  have hb : ∀ req, bursts req (e :: log) = bursts req log := by
    intro req
    unfold bursts
    rw [List.filterMap_cons_none hburst]
  constructor
  · rw [hp]
    exact h.nodup
  · rw [hp]
    exact h.new
  · rw [hp, ht, hsum]
    exact h.ledger
  · exact hqueue
  · intro req hreq
    rw [hb]
    exact h.unsent req (hwaiting req hreq)
  · intro b req hreq
    rw [hb]
    rcases hbank b req hreq with hold | ⟨hbk, hmem⟩
    · exact h.bank b req hold
    · have hpush := h.mem_pushed hmem
      obtain ⟨hzero, hlt⟩ := h.new req hpush
      refine ⟨hbk, hbk ▸ hlt, ?_, .inl hzero⟩
      rw [h.core_eq hpush, h.unsent req hmem, hzero, Nat.zero_mul]
  · intro req
    rw [ht, hb]
    exact h.sent req
  · intro req
    rw [hp, hb]
    exact h.unknown req

theorem Places.frame (h : Places cfg log v) (hmrqq : v'.mrqq = v.mrqq) (hqueue : v'.queue = v.queue)
    (hmrq : v'.mrq = v.mrq) (hpushed : pushed? e = none) (hburst : burst? e = none)
    (htransferred : transferred? e = none) : Places cfg (e :: log) v' := by
  have hwaiting : v'.waiting cfg = v.waiting cfg := by
    unfold View.waiting
    rw [hmrqq, hqueue]
  have hserving : v'.serving cfg = v.serving cfg := by
    unfold View.serving
    rw [hmrq]
  apply h.rearrange hpushed hburst htransferred
  · rw [hwaiting, hserving]
  · rw [hwaiting]
    exact fun _ hreq => hreq
  · rw [hqueue]
    exact h.queue
  · rw [hmrq]
    exact fun b req hreq => .inl hreq

theorem Places.push (h : Places cfg log v) (hnew : req.txbytes = 0) (hbk : req.bk < cfg.nbk)
    (hfresh : req.uid ∉ (pushed log).map DramReq.uid) :
    Places cfg (.push req :: log) { v with mrqq := v.mrqq ++ [req] } := by
  have hp : pushed (.push req :: log) = req :: pushed log := rfl
  have hb : ∀ r, bursts r (.push req :: log) = bursts r log := fun _ => rfl
  have hnot : req ∉ pushed log := fun hmem => hfresh (List.mem_map_of_mem hmem)
  have hwaiting : View.waiting cfg { v with mrqq := v.mrqq ++ [req] } = {req} + v.waiting cfg := by
    unfold View.waiting
    rw [← Multiset.coe_add, Multiset.coe_singleton]
    abel
  constructor
  · rw [hp, List.map_cons, List.nodup_cons]
    exact ⟨hfresh, h.nodup⟩
  · intro r hr
    rcases List.mem_cons.mp hr with rfl | hr
    · exact ⟨hnew, hbk⟩
    · exact h.new r hr
  · rw [hp, hwaiting, ← Multiset.cons_coe, ← Multiset.singleton_add, h.ledger]
    simp only [add_assoc]
    rfl
  · exact h.queue
  · intro r hr
    rw [hwaiting, Multiset.mem_add, Multiset.mem_singleton] at hr
    rw [hb]
    rcases hr with rfl | hr
    · exact h.unknown r hnot
    · exact h.unsent r hr
  · exact h.bank
  · exact h.sent
  · intro r hr
    exact h.unknown r fun hmem => hr (List.mem_cons_of_mem _ hmem)

theorem waiting_update (queue : List DramReq) (hb : b < cfg.nbk) :
    ∑ i ∈ Finset.range cfg.nbk, (v.queue i : Multiset DramReq) + (queue : Multiset DramReq) =
      ∑ i ∈ Finset.range cfg.nbk, (update v.queue b queue i : Multiset DramReq) +
        (v.queue b : Multiset DramReq) :=
  sum_range_update (fun l : List DramReq => (l : Multiset DramReq)) v.queue queue hb

theorem serving_update (mrq : Option DramReq) (hb : b < cfg.nbk) :
    v.serving cfg + (mrq.toList.map DramReq.core : Multiset DramReq) =
      View.serving cfg { v with mrq := update v.mrq b mrq } +
        ((v.mrq b).toList.map DramReq.core : Multiset DramReq) :=
  sum_range_update (fun o : Option DramReq => (o.toList.map DramReq.core : Multiset DramReq)) v.mrq mrq hb

theorem serving_assign (hb : b < cfg.nbk) (hnone : v.mrq b = none) (hcore : req.core = req) :
    View.serving cfg { v with mrq := update v.mrq b (some req) } = v.serving cfg + {req} := by
  have hsum := serving_update (v := v) (some req) hb
  rw [hnone] at hsum
  simpa [hcore] using hsum.symm

section

variable (h : Places cfg log v)
include h

theorem Places.accept (hhead : v.mrqq = req :: rest) : Places cfg (.accept req :: log)
      { v with mrqq := rest, queue := update v.queue req.bk (req :: v.queue req.bk) } := by
  have hmem : req ∈ v.waiting cfg := by
    unfold View.waiting
    rw [hhead]
    simp
  have hbk := (h.new req (h.mem_pushed hmem)).2
  have hwaiting : View.waiting cfg
      { v with mrqq := rest, queue := update v.queue req.bk (req :: v.queue req.bk) } =
        v.waiting cfg := by
    have hsum := waiting_update (v := v) (req :: v.queue req.bk) hbk
    rw [← Multiset.cons_coe, ← Multiset.singleton_add, ← add_assoc] at hsum
    have hsum := add_right_cancel hsum
    unfold View.waiting
    rw [hhead, ← hsum, ← Multiset.cons_coe, ← Multiset.singleton_add]
    abel
  apply h.rearrange rfl rfl rfl
  · rw [hwaiting]
    rfl
  · rw [hwaiting]
    exact fun _ hr => hr
  · intro b r hr
    by_cases hb : b = req.bk
    · subst hb
      rcases List.mem_cons.mp (by simpa using hr) with rfl | hr
      · rfl
      · exact h.queue _ r hr
    · exact h.queue b r (by simpa [update_of_ne hb] using hr)
  · exact fun b r hr => .inl hr

theorem Places.assignHead (hhead : v.mrqq = req :: rest)
    (hnone : v.mrq req.bk = none) : Places cfg (.assign req :: log)
      { v with mrqq := rest, mrq := update v.mrq req.bk (some req) } := by
  have hmem : req ∈ v.waiting cfg := by
    unfold View.waiting
    rw [hhead]
    simp
  have hpush := h.mem_pushed hmem
  have hserving := serving_assign (h.new req hpush).2 hnone (h.core_eq hpush)
  have hwaiting : v.waiting cfg = {req} + View.waiting cfg
      { v with mrqq := rest, mrq := update v.mrq req.bk (some req) } := by
    unfold View.waiting
    rw [hhead, ← Multiset.cons_coe, ← Multiset.singleton_add, add_assoc]
  apply h.rearrange rfl rfl rfl
  · rw [hwaiting]
    show View.waiting cfg _ + View.serving cfg { v with mrq := update v.mrq req.bk (some req) } = _
    rw [hserving]
    abel
  · intro r hr
    rw [hwaiting]
    exact Multiset.mem_add.mpr (.inr hr)
  · exact h.queue
  · intro b r hr
    by_cases hb : b = req.bk
    · subst hb
      obtain rfl : req = r := by simpa using hr
      exact .inr ⟨rfl, hmem⟩
    · exact .inl (by simpa [update_of_ne hb] using hr)

theorem Places.assign (hb : b < cfg.nbk)
    (hperm : (v.queue b).Perm (req :: rest)) (hnone : v.mrq b = none) :
    Places cfg (.assign req :: log) { v with
      queue := update v.queue b rest
      mrq := update v.mrq b (some req) } := by
  have hmemq : req ∈ v.queue b := hperm.mem_iff.mpr List.mem_cons_self
  have hbk := h.queue b req hmemq
  have hcoe : (v.queue b : Multiset DramReq) = {req} + (rest : Multiset DramReq) := by
    rw [Multiset.singleton_add, Multiset.cons_coe, Multiset.coe_eq_coe]
    exact hperm
  have hwaiting : v.waiting cfg = {req} + View.waiting cfg { v with
      queue := update v.queue b rest
      mrq := update v.mrq b (some req) } := by
    have hsum := waiting_update (v := v) rest hb
    rw [hcoe, ← add_assoc] at hsum
    have hsum := add_right_cancel hsum
    unfold View.waiting
    rw [hsum]
    abel
  have hmem : req ∈ v.waiting cfg := by
    rw [hwaiting]
    simp
  have hserving := serving_assign hb hnone (h.core_eq (h.mem_pushed hmem))
  apply h.rearrange rfl rfl rfl
  · rw [hwaiting]
    show View.waiting cfg _ + View.serving cfg { v with mrq := update v.mrq b (some req) } = _
    rw [hserving]
    abel
  · intro r hr
    rw [hwaiting]
    exact Multiset.mem_add.mpr (.inr hr)
  · intro b' r hr
    by_cases hb' : b' = b
    · subst hb'
      have hr : r ∈ rest := by simpa using hr
      exact h.queue b' r (hperm.mem_iff.mpr (List.mem_cons_of_mem _ hr))
    · exact h.queue b' r (by simpa [update_of_ne hb'] using hr)
  · intro b' r hr
    by_cases hb' : b' = b
    · subst hb'
      obtain rfl : req = r := by simpa using hr
      exact .inr ⟨hbk, hmem⟩
    · exact .inl (by simpa [update_of_ne hb'] using hr)

/-! ## Bursts -/

theorem Places.nodup_ledger :
    (v.waiting cfg + v.serving cfg + (transferred log : Multiset DramReq)).Nodup := by
  rw [← h.ledger, Multiset.coe_nodup]
  exact List.Nodup.of_map _ h.nodup

theorem Places.not_mem (hreq : v.mrq b = some req) :
    req.core ∉ v.waiting cfg ∧ req.core ∉ transferred log := by
  have hserving := mem_serving (h.bank b req hreq).2.1 hreq
  obtain ⟨hfront, -, hdisj⟩ := Multiset.nodup_add.mp h.nodup_ledger
  obtain ⟨-, -, hdisj'⟩ := Multiset.nodup_add.mp hfront
  constructor
  · intro hmem
    exact Multiset.disjoint_left.mp hdisj' hmem hserving
  · intro hmem
    exact Multiset.disjoint_left.mp hdisj (Multiset.mem_add.mpr (.inr hserving))
      (Multiset.mem_coe.mpr hmem)

end

theorem bursts_cons {r : DramReq} :
    bursts r (.burst req last :: log) = bursts r log + if r = req then 1 else 0 := by
  show (req :: log.filterMap burst?).count r = _
  rw [List.count_cons]
  by_cases heq : r = req
  · simp [bursts, heq]
  · simp [bursts, heq, Ne.symm heq]

theorem Places.bank_burst (h : Places cfg log v) (hreq : v.mrq b = some req)
    {next : Option DramReq} (hnext : ∀ r, next = some r → r.core = req.core ∧
      r.txbytes = req.txbytes + cfg.dramAtomSize ∧ r.txbytes < r.nbytes) (b' : Nat) (r : DramReq)
    (hr : update v.mrq b next b' = some r) : r.bk = b' ∧ b' < cfg.nbk ∧
      r.txbytes = bursts r.core (.burst req.core last :: log) * cfg.dramAtomSize ∧
      (r.txbytes = 0 ∨ r.txbytes < r.nbytes) := by
  obtain ⟨hbk, hb, htx, -⟩ := h.bank b req hreq
  rw [bursts_cons]
  by_cases hb' : b' = b
  · subst hb'
    rw [update_self] at hr
    obtain ⟨hcore, htx', hlt⟩ := hnext r hr
    refine ⟨(congrArg DramReq.bk hcore).trans hbk, hb, ?_, .inr hlt⟩
    rw [hcore, if_pos rfl, htx', htx, Nat.add_mul, Nat.one_mul]
  · rw [update_of_ne hb'] at hr
    obtain ⟨hbk', hlt', htx', hbytes⟩ := h.bank b' r hr
    have hne : r.core ≠ req.core := by
      intro heq
      exact hb' (hbk'.symm.trans ((congrArg DramReq.bk heq).trans hbk))
    refine ⟨hbk', hlt', ?_, hbytes⟩
    rw [if_neg hne, Nat.add_zero]
    exact htx'

theorem Places.burst (hatom : 0 < cfg.dramAtomSize) (h : Places cfg log v) (hreq : v.mrq b = some req)
    (hmrqq : v'.mrqq = v.mrqq) (hqueue : v'.queue = v.queue)
    (hmrq : v'.mrq = update v.mrq b (Dram.sentBurst cfg req)) :
    Places cfg (.burst req.core (Dram.sentBurst cfg req).isNone :: log) v' := by
  obtain ⟨hbk, hb, htx, -⟩ := h.bank b req hreq
  obtain ⟨hwait, htrans⟩ := h.not_mem hreq
  have hlt := h.bursts_lt hatom hreq
  have hwaiting : v'.waiting cfg = v.waiting cfg := by
    unfold View.waiting
    rw [hmrqq, hqueue]
  have hserving : v'.serving cfg =
      View.serving cfg { v with mrq := update v.mrq b (Dram.sentBurst cfg req) } := by
    unfold View.serving
    rw [hmrq]
  have hsum := serving_update (v := v) (Dram.sentBurst cfg req) hb
  rw [hreq, ← hserving] at hsum
  have hunsent : ∀ last, ∀ r ∈ v'.waiting cfg, bursts r (.burst req.core last :: log) = 0 := by
    intro last r hr
    rw [hwaiting] at hr
    have hne : r ≠ req.core := by
      rintro rfl
      exact hwait hr
    rw [bursts_cons, if_neg hne, h.unsent r hr]
  have hsent : ∀ last, ∀ r ∈ transferred log, bursts r (.burst req.core last :: log) = needed cfg r := by
    intro last r hr
    have hne : r ≠ req.core := by
      rintro rfl
      exact htrans hr
    rw [bursts_cons, if_neg hne, Nat.add_zero, h.sent r hr]
  have hunknown : ∀ last, ∀ r, r ∉ pushed log → bursts r (.burst req.core last :: log) = 0 := by
    intro last r hr
    have hne : r ≠ req.core := by
      rintro rfl
      exact hr (h.core_mem_pushed hreq)
    rw [bursts_cons, if_neg hne, h.unknown r hr]
  by_cases hmore : req.txbytes + cfg.dramAtomSize < req.nbytes
  · have hnext : Dram.sentBurst cfg req =
        some { req with txbytes := req.txbytes + cfg.dramAtomSize } := if_pos hmore
    rw [hnext] at hsum hmrq ⊢
    have hsame : v'.serving cfg = v.serving cfg := (add_right_cancel hsum).symm
    refine ⟨h.nodup, h.new, ?_, ?_, hunsent _, ?_, hsent _, hunknown _⟩
    · rw [hwaiting, hsame]
      exact h.ledger
    · rw [hqueue]
      exact h.queue
    · rw [hmrq]
      apply h.bank_burst hreq
      intro r hr
      obtain rfl := Option.some.inj hr
      exact ⟨rfl, rfl, hmore⟩
  · have hnext : Dram.sentBurst cfg req = none := if_neg hmore
    rw [hnext] at hsum hmrq ⊢
    have hsame : v.serving cfg = {req.core} + v'.serving cfg := by
      simpa [add_comm] using hsum
    refine ⟨h.nodup, h.new, ?_, ?_, hunsent _, ?_, ?_, hunknown _⟩
    · show (pushed log : Multiset DramReq) = _ + _ + (req.core :: transferred log : List DramReq)
      rw [hwaiting, h.ledger, hsame, ← Multiset.cons_coe, ← Multiset.singleton_add]
      abel
    · rw [hqueue]
      exact h.queue
    · rw [hmrq]
      apply h.bank_burst hreq
      intro r hr
      cases hr
    · intro r hr
      rcases List.mem_cons.mp hr with rfl | hr
      · have hneeded : needed cfg req.core ≤ bursts req.core log + 1 := by
          rw [needed_le_iff hatom (Nat.succ_pos _), Nat.succ_mul, ← htx]
          exact Nat.le_of_not_lt hmore
        rw [bursts_cons, if_pos rfl]
        omega
      · exact hsent _ r hr

/-! ## Data -/

theorem bursts_cons_of_none {r : DramReq} (h : burst? e = none) : bursts r (e :: log) = bursts r log := by
  unfold bursts
  rw [List.filterMap_cons_none h]

theorem Outgoing.frame (h : Outgoing cfg log v) (hdata : v'.data = v.data)
    (hdq : v'.dqbytes = v.dqbytes) (hret : v'.returnq = v.returnq) (hpushed : pushed? e = none)
    (hburst : burst? e = none) (hfinished : finished? e = none) (hpopped : popped? e = none) :
    Outgoing cfg (e :: log) v' := by
  have hp : pushed (e :: log) = pushed log := List.filterMap_cons_none hpushed
  have hf : Event.finished (e :: log) = Event.finished log := List.filterMap_cons_none hfinished
  have ho : popped (e :: log) = popped log := List.filterMap_cons_none hpopped
  have hi : ∀ r, v'.inflight r = v.inflight r := by
    intro r
    unfold View.inflight
    rw [hdata]
  constructor
  · rw [hdata, hp]
    exact h.data
  · intro r hr
    rw [hdq, hi, bursts_cons_of_none hburst]
    exact h.dqbytes r (hp ▸ hr)
  · rw [hdq, hp]
    exact h.fresh
  · intro r
    rw [hf, hp, hi, bursts_cons_of_none hburst]
    exact h.finished r
  · rw [hf]
    exact h.once
  · rw [ho, hf, hret]
    exact h.returned

theorem Outgoing.push (h : Outgoing cfg log v) (hp : Places cfg log v) (hnew : req.txbytes = 0)
    (hfresh : req.uid ∉ (pushed log).map DramReq.uid) :
    Outgoing cfg (.push req :: log) { v with mrqq := v.mrqq ++ [req] } := by
  have hnot : req ∉ pushed log := fun hmem => hfresh (List.mem_map_of_mem hmem)
  have hbursts := hp.unknown req hnot
  have hinflight : v.inflight req = 0 := by
    unfold View.inflight
    rw [List.count_eq_zero]
    intro hmem
    obtain ⟨r, hr, heq⟩ := List.mem_map.mp hmem
    exact hnot (heq ▸ h.data r hr)
  constructor
  · intro r hr
    exact List.mem_cons_of_mem _ (h.data r hr)
  · intro r hr
    rcases List.mem_cons.mp hr with rfl | hr
    · show v.dqbytes r.uid + v.inflight r * _ = bursts r log * _
      rw [h.fresh _ hfresh, hinflight, hbursts]
      simp
    · exact h.dqbytes r hr
  · intro uid huid
    exact h.fresh uid fun hmem => huid (List.mem_cons_of_mem _ hmem)
  · intro r
    show r ∈ Event.finished log ↔ r ∈ req :: pushed log ∧ bursts r log = _ ∧ v.inflight r = 0
    rw [h.finished r, List.mem_cons]
    constructor
    · rintro ⟨hr, hrest⟩
      exact ⟨.inr hr, hrest⟩
    · rintro ⟨rfl | hr, hrest⟩
      · rw [hbursts] at hrest
        exact absurd hrest.1 needed_pos.ne
      · exact ⟨hr, hrest⟩
  · exact h.once
  · exact h.returned

theorem Outgoing.burst (hatom : 0 < cfg.dramAtomSize) (h : Outgoing cfg log v) (hp : Places cfg log v)
    (hreq : v.mrq b = some req) (hdata : v'.data = v.data ++ [req])
    (hdq : v'.dqbytes = v.dqbytes) (hret : v'.returnq = v.returnq) :
    Outgoing cfg (.burst req.core last :: log) v' := by
  have hlt := hp.bursts_lt hatom hreq
  have hinflight : ∀ r, v'.inflight r = v.inflight r + if r = req.core then 1 else 0 := by
    intro r
    unfold View.inflight
    rw [hdata, List.map_append, List.count_append, List.map_singleton, List.count_singleton]
    by_cases heq : r = req.core
    · simp [heq]
    · simp [heq, Ne.symm heq]
  constructor
  · intro r hr
    rw [hdata] at hr
    rcases List.mem_append.mp hr with hr | hr
    · exact h.data r hr
    · obtain rfl := List.mem_singleton.mp hr
      exact hp.core_mem_pushed hreq
  · intro r hr
    rw [hdq, hinflight, bursts_cons, Nat.add_mul, ← Nat.add_assoc, h.dqbytes r hr, Nat.add_mul]
  · rw [hdq]
    exact h.fresh
  · intro r
    show r ∈ Event.finished log ↔ r ∈ pushed log ∧ _
    rw [hinflight, bursts_cons, h.finished r]
    by_cases heq : r = req.core
    · subst heq
      rw [if_pos rfl]
      constructor
      · rintro ⟨-, hbursts, -⟩
        omega
      · rintro ⟨-, -, hzero⟩
        omega
    · rw [if_neg heq, Nat.add_zero, Nat.add_zero]
  · exact h.once
  · rw [hret]
    exact h.returned

theorem Outgoing.pop (h : Outgoing cfg log v) {uid : Nat} {rest : List Nat}
    (hhead : v.returnq = uid :: rest) : Outgoing cfg (.pop uid :: log) { v with returnq := rest } := by
  refine ⟨h.data, h.dqbytes, h.fresh, h.finished, h.once, ?_⟩
  show (uid :: popped log).reverse ++ rest = _
  rw [List.reverse_cons, List.append_assoc, List.singleton_append, ← hhead]
  exact h.returned

theorem inflight_tail (hhead : v.data = req :: rest) (hdata : v'.data = rest)
    (r : DramReq) : v.inflight r = v'.inflight r + if r = req.core then 1 else 0 := by
  unfold View.inflight
  rw [hhead, hdata, List.map_cons, List.count_cons]
  by_cases heq : r = req.core
  · simp [heq]
  · simp [heq, Ne.symm heq]

theorem Outgoing.done_iff (hatom : 0 < cfg.dramAtomSize) (h : Outgoing cfg log v)
    (hp : Places cfg log v) (hhead : v.data = req :: rest) (hdata : v'.data = rest) :
    req.nbytes ≤ v.dqbytes req.uid + cfg.dramAtomSize ↔
      bursts req.core log = needed cfg req.core ∧ v'.inflight req.core = 0 := by
  have hmem : req.core ∈ pushed log := by
    apply h.data
    rw [hhead]
    exact List.mem_cons_self
  have hle := hp.bursts_le hatom hmem
  have hdq := h.dqbytes _ hmem
  rw [inflight_tail hhead hdata, if_pos rfl, Nat.succ_mul, ← Nat.add_assoc, Nat.add_right_comm] at hdq
  -- the bursts that are out
  have hout : v'.inflight req.core + 1 ≤ bursts req.core log := by
    have hmul : (v'.inflight req.core + 1) * cfg.dramAtomSize ≤ bursts req.core log * cfg.dramAtomSize := by
      rw [← hdq, Nat.succ_mul]
      omega
    exact Nat.le_of_mul_le_mul_right hmul hatom
  obtain ⟨m, hm⟩ := Nat.exists_eq_add_of_le hout
  have hmdq : v.dqbytes req.uid + cfg.dramAtomSize = (m + 1) * cfg.dramAtomSize := by
    have hbursts : bursts req.core log = m + 1 + v'.inflight req.core := by omega
    rw [hbursts, Nat.add_mul] at hdq
    exact Nat.add_right_cancel hdq
  have hneeded : req.nbytes ≤ v.dqbytes req.uid + cfg.dramAtomSize ↔ needed cfg req.core ≤ m + 1 := by
    rw [hmdq, needed_le_iff hatom (Nat.succ_pos _)]
    rfl
  rw [hneeded]
  constructor
  · intro hge
    constructor <;> omega
  · rintro ⟨heq, hzero⟩
    omega

theorem Outgoing.out (hatom : 0 < cfg.dramAtomSize) (h : Outgoing cfg log v) (hp : Places cfg log v)
    (hhead : v.data = req :: rest) (hdata : v'.data = rest)
    (hdqb : v'.dqbytes = update v.dqbytes req.uid (v.dqbytes req.uid + cfg.dramAtomSize))
    (hret : v'.returnq =
      if req.nbytes ≤ v.dqbytes req.uid + cfg.dramAtomSize ∧ req.isWriteback = false then
        v.returnq ++ [req.uid]
      else v.returnq) :
    Outgoing cfg (.out req.core (decide (req.nbytes ≤ v.dqbytes req.uid + cfg.dramAtomSize)) :: log)
      v' := by
  have hmem : req.core ∈ pushed log := by
    apply h.data
    rw [hhead]
    exact List.mem_cons_self
  have huid : ∀ r ∈ pushed log, r ≠ req.core → r.uid ≠ req.uid := by
    intro r hr hne heq
    exact hne (List.inj_on_of_nodup_map hp.nodup hr hmem heq)
  have hnot : req.core ∉ Event.finished log := by
    intro hfin
    have hzero := ((h.finished _).mp hfin).2.2
    unfold View.inflight at hzero
    rw [hhead] at hzero
    simp at hzero
  have hdone := h.done_iff hatom hp hhead hdata
  have htail := inflight_tail hhead hdata
  constructor
  · intro r hr
    rw [hdata] at hr
    apply h.data r
    rw [hhead]
    exact List.mem_cons_of_mem _ hr
  · intro r hr
    have hdq := h.dqbytes r hr
    rw [htail] at hdq
    rw [hdqb, bursts_cons_of_none rfl]
    by_cases heq : r = req.core
    · subst heq
      rw [if_pos rfl, Nat.succ_mul, ← Nat.add_assoc, Nat.add_right_comm] at hdq
      rw [← hdq]
      exact congrArg (· + _) (update_self ..)
    · rw [if_neg heq, Nat.add_zero] at hdq
      rw [update_of_ne (huid r hr heq)]
      exact hdq
  · intro uid hout
    have hne : uid ≠ req.uid := by
      rintro rfl
      exact hout (List.mem_map.mpr ⟨req.core, hmem, rfl⟩)
    rw [hdqb, update_of_ne hne]
    exact h.fresh uid hout
  · intro r
    rw [bursts_cons_of_none rfl]
    show r ∈ Event.finished _ ↔ r ∈ pushed log ∧ _
    have hold := h.finished r
    rw [htail] at hold
    by_cases heq : r = req.core
    · subst heq
      by_cases hbytes : req.nbytes ≤ v.dqbytes req.uid + cfg.dramAtomSize
      · rw [decide_eq_true hbytes]
        exact ⟨fun _ => ⟨hmem, hdone.mp hbytes⟩, fun _ => List.mem_cons_self⟩
      · rw [decide_eq_false hbytes]
        constructor
        · intro hfin
          exact absurd hfin hnot
        · rintro ⟨-, hrest⟩
          exact absurd (hdone.mpr hrest) hbytes
    · rw [if_neg heq, Nat.add_zero] at hold
      rw [← hold]
      by_cases hbytes : req.nbytes ≤ v.dqbytes req.uid + cfg.dramAtomSize
      · rw [decide_eq_true hbytes]
        exact List.mem_cons.trans (or_iff_right heq)
      · rw [decide_eq_false hbytes]
        exact Iff.rfl
  · by_cases hbytes : req.nbytes ≤ v.dqbytes req.uid + cfg.dramAtomSize
    · rw [decide_eq_true hbytes]
      exact List.nodup_cons.mpr ⟨hnot, h.once⟩
    · rw [decide_eq_false hbytes]
      exact h.once
  · rw [hret]
    show (popped log).reverse ++ _ = _
    by_cases hbytes : req.nbytes ≤ v.dqbytes req.uid + cfg.dramAtomSize
    · rw [decide_eq_true hbytes]
      show _ = ((req.core :: Event.finished log).reverse.filter _).map _
      rw [List.reverse_cons, List.filter_append, List.map_append, ← h.returned]
      by_cases hwb : req.isWriteback = false
      · rw [if_pos ⟨hbytes, hwb⟩, ← List.append_assoc]
        have hcore : req.core.isWriteback = false := hwb
        simp only [List.filter_cons, hcore, Bool.not_false, if_true, List.filter_nil]
        rfl
      · rw [if_neg fun hand => hwb hand.2]
        have hcore : req.core.isWriteback = true := (Bool.not_eq_false _).mp hwb
        simp [hcore]
    · rw [decide_eq_false hbytes, if_neg fun hand => hbytes hand.1]
      exact h.returned

end Steps

/-! ## Every history -/

section Histories

variable {cfg : MemoryConfig} {log : List Event} {v : View}

theorem accounts_init : Places cfg [] (Dram.init cfg).view ∧ Outgoing cfg [] (Dram.init cfg).view := by
  have hdata : (Dram.init cfg).view.data = [] := by
    show (List.replicate cfg.CL.toNat none).filterMap id = []
    simp
  have hwaiting : (Dram.init cfg).view.waiting cfg = 0 := by
    simp [View.waiting, Dram.init, Dram.view]
  have hserving : (Dram.init cfg).view.serving cfg = 0 := by
    simp [View.serving, Dram.init, Dram.view]
  constructor
  · constructor
    · exact List.nodup_nil
    · intro req hreq
      cases hreq
    · rw [hwaiting, hserving]
      rfl
    · intro b req hreq
      cases hreq
    · intro req hreq
      rw [hwaiting] at hreq
      exact absurd hreq (Multiset.notMem_zero req)
    · intro b req hreq
      cases hreq
    · intro req hreq
      cases hreq
    · intro req _
      rfl
  · constructor
    · intro req hreq
      rw [hdata] at hreq
      cases hreq
    · intro req hreq
      cases hreq
    · intro uid _
      rfl
    · intro req
      constructor
      · intro hreq
        cases hreq
      · rintro ⟨hreq, -⟩
        cases hreq
    · exact List.nodup_nil
    · rfl

/-- **The accounts hold** of every history. -/
theorem History.accounts (hatom : 0 < cfg.dramAtomSize) (h : History cfg log v) :
    Places cfg log v ∧ Outgoing cfg log v := by
  induction h with
  | init => exact accounts_init
  | @step log v e v' _ hmove hfresh ih =>
    obtain ⟨hp, ho⟩ := ih
    cases hmove with
    | push hnew hbk => exact ⟨hp.push hnew hbk (hfresh _ rfl), ho.push hp hnew (hfresh _ rfl)⟩
    | accept hhead => exact ⟨hp.accept hhead, ho.frame rfl rfl rfl rfl rfl rfl rfl⟩
    | assignHead hhead hnone => exact ⟨hp.assignHead hhead hnone, ho.frame rfl rfl rfl rfl rfl rfl rfl⟩
    | assign hb hperm hnone => exact ⟨hp.assign hb hperm hnone, ho.frame rfl rfl rfl rfl rfl rfl rfl⟩
    | burst hreq => exact ⟨hp.burst hatom hreq rfl rfl rfl, ho.burst hatom hp hreq rfl rfl rfl⟩
    | out hhead => exact ⟨hp.frame rfl rfl rfl rfl rfl rfl, ho.out hatom hp hhead rfl rfl rfl⟩
    | pop hhead => exact ⟨hp.frame rfl rfl rfl rfl rfl rfl, ho.pop hhead⟩

end Histories

end GpgpuSimRuby.Memory
