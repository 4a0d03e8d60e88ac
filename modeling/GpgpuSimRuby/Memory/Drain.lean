import GpgpuSimRuby.Library.Draining
import GpgpuSimRuby.Memory.Transfers

/-!
# The controller drains

Once nothing is pushed any more, cycles and pops of `returnq` bring every request to its end. Every
event makes the work that is left smaller, and a row command brings a bank nearer to its request. A
cycle that does neither counts down what the next command waits for.
-/

namespace GpgpuSimRuby.Memory

open Library Function

/-- No assertion of the pipelines fails and every bank belongs to one of the groups. -/
structure MemoryConfig.Regular (cfg : MemoryConfig) : Prop where
  atom : 0 < cfg.dramAtomSize
  latency : cfg.WL.toNat ≤ cfg.CL.toNat
  room : 0 < cfg.schedQueueSize
  groups : ∀ b < cfg.nbk, b >>> cfg.bkTagLength < cfg.nbkgrp

/-! ## Work -/

/-- Two for each byte, for its command and its data. -/
def DramReq.left (req : DramReq) : Nat := 2 * (req.nbytes - req.txbytes + 1)

def bankWork (mrq : Option DramReq) : Nat := (mrq.map DramReq.left).getD 0

def queueWork (queue : List DramReq) : Nat := (queue.map fun req => req.left + 1).sum

/-- What is left to do for the requests and the data. -/
def View.work (cfg : MemoryConfig) (v : View) : Nat :=
  (v.mrqq.map fun req => req.left + 2).sum + ∑ b ∈ Finset.range cfg.nbk, queueWork (v.queue b) +
    ∑ b ∈ Finset.range cfg.nbk, bankWork (v.mrq b) + v.data.length

section Work

variable {cfg : MemoryConfig} {log es : List Event} {v v' : View} {req : DramReq} {b : Nat} {e : Event}

theorem work_burst (hatom : 0 < cfg.dramAtomSize) (req : DramReq) :
    bankWork (Dram.sentBurst cfg req) + 1 < req.left := by
  unfold Dram.sentBurst bankWork DramReq.left
  split
  · next hmore =>
    simp only [Option.map_some, Option.getD_some]
    omega
  · simp only [Option.map_none, Option.getD_none]
    omega

theorem Moves.work_lt (hatom : 0 < cfg.dramAtomSize) (h : Moves cfg v e v') (hp : Places cfg log v)
    (hpushed : e.pushed? = none) (hpopped : e.popped? = none) : v'.work cfg < v.work cfg := by
  unfold View.work
  cases h with
  | push => cases hpushed
  | pop => cases hpopped
  | @accept req rest hhead =>
    have hmem : req ∈ v.waiting cfg := by
      unfold View.waiting
      rw [hhead]
      simp
    have hbk := (hp.new req (hp.mem_pushed hmem)).2
    have hsum := sum_range_update queueWork v.queue (req :: v.queue req.bk) hbk
    have hcons : queueWork (req :: v.queue req.bk) = req.left + 1 + queueWork (v.queue req.bk) :=
      List.sum_cons
    rw [hhead, List.map_cons, List.sum_cons]
    dsimp only
    omega
  | @assignHead req rest hhead hnone =>
    have hmem : req ∈ v.waiting cfg := by
      unfold View.waiting
      rw [hhead]
      simp
    have hbk := (hp.new req (hp.mem_pushed hmem)).2
    have hsum := sum_range_update bankWork v.mrq (some req) hbk
    have hsome : bankWork (some req) = req.left := rfl
    rw [hhead, List.map_cons, List.sum_cons]
    dsimp only
    omega
  | @assign req rest b hb hperm hnone =>
    have hsum := sum_range_update bankWork v.mrq (some req) hb
    have hsum' := sum_range_update queueWork v.queue rest hb
    have hsome : bankWork (some req) = req.left := rfl
    have hnil : bankWork (v.mrq b) = 0 := by
      rw [hnone]
      rfl
    have hqueue : queueWork (v.queue b) = req.left + 1 + queueWork rest :=
      (hperm.map _).sum_eq.trans List.sum_cons
    dsimp only
    omega
  | @burst req b hreq =>
    have hsum := sum_range_update bankWork v.mrq (Dram.sentBurst cfg req) (hp.bank b req hreq).2.1
    have hsome : bankWork (v.mrq b) = req.left := by
      rw [hreq]
      rfl
    have hless := work_burst hatom req
    dsimp only
    rw [List.length_append, List.length_singleton]
    omega
  | @out req rest hhead =>
    dsimp only
    rw [hhead, List.length_cons]
    omega

theorem Traces.work_le (hatom : 0 < cfg.dramAtomSize) (h : Traces cfg v es v') (hlog : History cfg log v)
    (hpushed : Event.pushed es = []) (hpopped : Event.popped es = []) :
    v'.work cfg + es.length ≤ v.work cfg := by
  induction h with
  | nil => exact Nat.le_refl _
  | cons hes hmove ih =>
    obtain ⟨hpush, hpushes⟩ := List.forall_mem_cons.mp (List.filterMap_eq_nil_iff.mp hpushed)
    obtain ⟨hpop, hpops⟩ := List.forall_mem_cons.mp (List.filterMap_eq_nil_iff.mp hpopped)
    have hpushes := List.filterMap_eq_nil_iff.mpr hpushes
    have hle := ih hpushes (List.filterMap_eq_nil_iff.mpr hpops)
    have hlt := hmove.work_lt hatom ((hlog.append hes hpushes).accounts hatom).1 hpush hpop
    rw [List.length_cons]
    omega

end Work

/-! ## No assertion fails -/

namespace Dram

variable {cfg : MemoryConfig} {d d' : Dram} {j : Nat} {mrq : DramReq}

/-- The queues have room for what comes. -/
structure Fit (cfg : MemoryConfig) (d : Dram) : Prop where
  rwq : d.rwq.Fits cfg.CL.toNat
  returnq : d.returnq.length ≤ cfg.schedQueueSize
  /-- the row that is served has requests -/
  lastRow : ∀ b row, d.lastRow b = some row → ∃ req ∈ d.queue b, req.row = row
  fifo : cfg.schedulerType = .fifo → ∀ b, d.queue b = []

theorem exists_bankLoop_issued {c : Command} (js : List Nat) :
    ∃ y, js.foldlM (issueBank cfg) (d, some c) = .ok y := by
  induction js with
  | nil => exact ⟨_, rfl⟩
  | cons j js ih =>
    have hj : issueBank cfg (d, some c) j = .ok (d, some c) := by
      unfold issueBank
      dsimp only
      cases (d.bk ((j + d.prio) % cfg.nbk)).mrq <;> rfl
    rw [List.foldlM_cons, hj, ok_bind]
    exact ih

namespace Fit

theorem init (cfg : MemoryConfig) : Fit cfg (.init cfg) where
  rwq := by
    have hlen : (List.replicate cfg.CL.toNat (none : Option DramReq)).length = cfg.CL.toNat :=
      List.length_replicate
    refine ⟨rfl, Nat.le_refl _, ?_, ?_⟩ <;>
      simp only [Dram.init, FifoPipeline.new, hlen] <;> omega
  returnq := Nat.zero_le _
  lastRow b row h := by cases h
  fifo _ _ := rfl

section

variable (h : Fit cfg d)
include h

theorem congr (hrwq : d'.rwq = d.rwq) (hret : d'.returnq = d.returnq)
    (hlast : d'.lastRow = d.lastRow) (hqueue : d'.queue = d.queue) : Fit cfg d' := by
  obtain ⟨hfits, hreturn, hrow, hfifo⟩ := h
  refine ⟨?_, ?_, ?_, ?_⟩
  · rwa [hrwq]
  · rwa [hret]
  · rwa [hlast, hqueue]
  · rwa [hqueue]

theorem dataOut (hreg : cfg.Regular) : ∃ d', d.dataOut cfg = .ok d' := by
  obtain ⟨cmd, rwq, hpop, -⟩ := h.rwq.pop
  unfold Dram.dataOut
  split
  · exact ⟨d, rfl⟩
  · next hroom =>
    rw [hpop, ok_bind]
    cases cmd with
    | none => exact ⟨_, rfl⟩
    | some req =>
      dsimp only
      split
      · exact ⟨_, rfl⟩
      · have hlt : d.returnq.length < cfg.schedQueueSize := by
          have hpos := hreg.room
          by_contra hge
          exact hroom ⟨Nat.le_of_not_lt hge, hpos.ne'⟩
        rw [assert_pos hlt]
        exact ⟨_, rfl⟩

theorem outs (hout : Outs cfg d d') : Fit cfg d' := by
  have hfits : ∀ {cmd rwq}, d.rwq.pop = .ok (cmd, rwq) → rwq.Fits cfg.CL.toNat := by
    intro cmd rwq hpop
    obtain ⟨cmd', rwq', hpop', hfits⟩ := h.rwq.pop
    cases hpop.symm.trans hpop'
    exact hfits
  cases hout with
  | full => exact h
  | empty hpop => exact ⟨hfits hpop, h.returnq, h.lastRow, h.fifo⟩
  | data hpop hret =>
    refine ⟨hfits hpop, ?_, h.lastRow, h.fifo⟩
    rcases hret with rfl | ⟨rfl, hlt⟩
    · exact h.returnq
    · dsimp only
      rw [List.length_append, List.length_singleton]
      omega

/-! The scheduler -/

theorem schedulerFifo : Fit cfg d.schedulerFifo := by
  unfold Dram.schedulerFifo
  split
  · exact h
  · split
    · exact h.congr rfl rfl rfl rfl
    · exact h

theorem takeReqs (hfrfcfs : cfg.schedulerType ≠ .fifo) (reqs : List DramReq) :
    Fit cfg (takeReqs cfg reqs d) := by
  induction reqs generalizing d with
  | nil => exact h.congr rfl rfl rfl rfl
  | cons req rest ih =>
    unfold Dram.takeReqs
    split
    · apply ih
      refine ⟨h.rwq, h.returnq, ?_, fun hfifo => absurd hfifo hfrfcfs⟩
      intro b row hrow
      obtain ⟨r, hr, hreq⟩ := h.lastRow b row hrow
      refine ⟨r, ?_, hreq⟩
      show r ∈ update d.queue req.bk (req :: d.queue req.bk) b
      by_cases hb : b = req.bk
      · subst hb
        rw [update_self]
        exact List.mem_cons_of_mem _ hr
      · rwa [update_of_ne hb]
    · exact h.congr rfl rfl rfl rfl

theorem schedule (hfrfcfs : cfg.schedulerType ≠ .fifo)
    (hreq : d.schedule j = some (mrq, d')) : Fit cfg d' := by
  rw [Frfcfs.schedule_eq] at hreq
  obtain ⟨r, -, hx⟩ := Option.map_eq_some_iff.mp hreq
  cases hx
  refine ⟨h.rwq, h.returnq, ?_, fun hfifo => absurd hfifo hfrfcfs⟩
  intro b row hrow
  unfold Frfcfs.scheduled at hrow ⊢
  dsimp only at hrow ⊢
  by_cases hb : b = j
  · subst hb
    rw [update_self] at hrow ⊢
    split at hrow
    · next hleft =>
      obtain rfl := Option.some.inj hrow
      exact hleft
    · cases hrow
  · rw [update_of_ne hb] at hrow ⊢
    exact h.lastRow b row hrow

theorem schedulerFrfcfs (hfrfcfs : cfg.schedulerType ≠ .fifo) :
    Fit cfg (d.schedulerFrfcfs cfg) := by
  have htake := h.takeReqs hfrfcfs d.mrqq
  unfold Dram.schedulerFrfcfs
  dsimp only
  split
  · exact htake
  · next b req d₂ hfound =>
    obtain ⟨i, hi, hbank⟩ := List.exists_of_findSome?_eq_some hfound
    split at hbank
    · obtain ⟨⟨r, d₃⟩, hr, hx⟩ := Option.map_eq_some_iff.mp hbank
      cases hx
      exact (htake.schedule hfrfcfs hr).congr rfl rfl rfl rfl
    · cases hbank

theorem scheduler : Fit cfg (d.scheduler cfg) := by
  unfold Dram.scheduler
  split
  · exact h.schedulerFifo
  · next hfrfcfs =>
    apply h.schedulerFrfcfs
    rw [hfrfcfs]
    decide

/-! The bank loop -/

theorem turn (hreg : cfg.Regular) (hfull : d.rwq.full = false) (isWrite : Bool) :
    ∃ d', d.turn cfg isWrite = .ok d' ∧ Fit cfg d' ∧ d'.rwq.nodes.length ≤ cfg.CL.toNat := by
  have hlen := h.rwq.full_eq_false.mp hfull
  have hk : (if isWrite then cfg.WL.toNat else cfg.CL.toNat) ≤ cfg.CL.toNat := by
    cases isWrite
    · exact Nat.le_refl _
    · exact hreg.latency
  obtain ⟨rwq, hset, hfits, hlen'⟩ := h.rwq.setMinLength hlen hk
  unfold Dram.turn
  split
  · exact ⟨d, rfl, h, hlen⟩
  · rw [hset]
    exact ⟨_, rfl, ⟨hfits, h.returnq, h.lastRow, h.fifo⟩, hlen'⟩

theorem read (hreg : cfg.Regular) (hfull : d.rwq.full = false) (grp : Nat) :
    ∃ d', d.read cfg j grp mrq = .ok d' ∧ Fit cfg d' := by
  obtain ⟨d₁, hturn, hfit, hlen⟩ := h.turn hreg hfull false
  obtain ⟨rwq, hpush, hfits⟩ := hfit.rwq.push (some mrq) hlen
  unfold Dram.read
  rw [hturn, ok_bind, hpush]
  exact ⟨_, rfl, hfits, hfit.returnq, hfit.lastRow, hfit.fifo⟩

theorem write (hreg : cfg.Regular) (hfull : d.rwq.full = false) (grp : Nat) :
    ∃ d', d.write cfg j grp mrq = .ok d' ∧ Fit cfg d' := by
  obtain ⟨d₁, hturn, hfit, hlen⟩ := h.turn hreg hfull true
  obtain ⟨rwq, hpush, hfits⟩ := hfit.rwq.push (some mrq) hlen
  unfold Dram.write
  rw [hturn, ok_bind, hpush]
  exact ⟨_, rfl, hfits, hfit.returnq, hfit.lastRow, hfit.fifo⟩

theorem served (hreg : cfg.Regular) {y : Dram × Option Command}
    (hserved : Served cfg d j mrq y) : Fit cfg y.1 := by
  cases hserved with
  | read hrd hd =>
    obtain ⟨-, -, -, -, -, -, -, hfull⟩ := hrd
    obtain ⟨d', hd', hfit⟩ := h.read hreg hfull (j >>> cfg.bkTagLength)
    cases hd.symm.trans hd'
    exact hfit
  | write hwr hd =>
    obtain ⟨-, -, -, -, -, -, -, hfull⟩ := hwr
    obtain ⟨d', hd', hfit⟩ := h.write hreg hfull (j >>> cfg.bkTagLength)
    cases hd.symm.trans hd'
    exact hfit
  | activate => exact h.congr rfl rfl rfl rfl
  | precharge => exact h.congr rfl rfl rfl rfl
  | nothing => exact h

theorem issueBank (hreg : cfg.Regular) (i : Nat) : ∃ y, issueBank cfg (d, none) i = .ok y := by
  unfold Dram.issueBank
  dsimp only
  split
  · next mrq hmrq hissued =>
    split
    · next hrd =>
      obtain ⟨d', hd', -⟩ := h.read hreg hrd.2.2.2.2.2.2.2 (((i + d.prio) % cfg.nbk) >>> cfg.bkTagLength)
      rw [hd']
      exact ⟨_, rfl⟩
    · split
      · next hwr =>
        obtain ⟨d', hd', -⟩ :=
          h.write hreg hwr.2.2.2.2.2.2.2 (((i + d.prio) % cfg.nbk) >>> cfg.bkTagLength)
        rw [hd']
        exact ⟨_, rfl⟩
      · split
        · exact ⟨_, rfl⟩
        · split <;> exact ⟨_, rfl⟩
  · exact ⟨_, rfl⟩

theorem bankLoop (hreg : cfg.Regular) (js : List Nat) :
    ∃ y, js.foldlM (Dram.issueBank cfg) (d, none) = .ok y := by
  induction js with
  | nil => exact ⟨_, rfl⟩
  | cons j js ih =>
    rw [List.foldlM_cons]
    obtain ⟨⟨d₁, issued⟩, hz⟩ := h.issueBank hreg j
    rw [hz, ok_bind]
    cases issued with
    | some c => exact exists_bankLoop_issued js
    | none =>
      obtain rfl : d₁ = d := by
        rcases issueBank_served hz with ⟨-, hsame⟩ | ⟨mrq, -, hserved⟩
        · cases hsame
          rfl
        · exact hserved.progress
      exact ih

/-- **A cycle** meets no assertion that fails. -/
theorem cycle (hreg : cfg.Regular) : ∃ d', d.cycle cfg = .ok d' ∧ Fit cfg d' := by
  obtain ⟨d₁, hout⟩ := h.dataOut hreg
  have h₂ := (h.outs (dataOut_outs hout)).scheduler
  obtain ⟨⟨d₂, command⟩, hloop⟩ := h₂.bankLoop hreg (List.range cfg.nbk)
  have hfit : Fit cfg d₂ := by
    cases bankLoop_serves hloop with
    | nothing => exact h₂
    | one _ _ hserved => exact h₂.served hreg hserved
  unfold Dram.cycle
  rw [hout, ok_bind, hloop]
  exact ⟨_, rfl, hfit.congr rfl rfl rfl rfl⟩

theorem push {req : DramReq} (hd : d.push cfg req = some (.ok d')) : Fit cfg d' := by
  unfold Dram.push at hd
  split at hd
  · obtain ⟨_, -, hd⟩ := bind_eq_ok.mp (Option.some.inj hd)
    cases hd
    exact h.congr rfl rfl rfl rfl
  · cases hd

theorem popReturn : Fit cfg d.popReturn := by
  refine ⟨h.rwq, ?_, h.lastRow, h.fifo⟩
  show d.returnq.tail.length ≤ _
  rw [List.length_tail]
  exact Nat.le_trans (Nat.sub_le _ _) h.returnq

end

end Fit

/-! ## Waiting for the next command -/

/-- How many row commands a bank is away from the row of its request. -/
def Bank.stage (b : Bank) : Nat :=
  match b.mrq, b.state with
  | none, _ => 0
  | some _, .idle => 1
  | some mrq, .active => if b.currRow = mrq.row then 0 else 2

def stage (cfg : MemoryConfig) (d : Dram) : Nat := ∑ b ∈ Finset.range cfg.nbk, Bank.stage (d.bk b)

/-- The counters of a bank are at most `n`. -/
structure Bank.Within (n : Nat) (b : Bank) : Prop where
  RCDc : b.RCDc ≤ n
  RCDWRc : b.RCDWRc ≤ n
  RASc : b.RASc ≤ n
  RPc : b.RPc ≤ n
  RCc : b.RCc ≤ n
  WTPc : b.WTPc ≤ n
  RTPc : b.RTPc ≤ n

/-- What the next command waits for takes `n` cycles at most. -/
structure Within (cfg : MemoryConfig) (n : Nat) (d : Dram) : Prop where
  RRDc : d.RRDc ≤ n
  CCDc : d.CCDc ≤ n
  RTWc : d.RTWc ≤ n
  WTRc : d.WTRc ≤ n
  bank : ∀ b < cfg.nbk, Bank.Within n (d.bk b)
  group : ∀ g < cfg.nbkgrp, (d.bkgrp g).CCDLc ≤ n ∧ (d.bkgrp g).RTPLc ≤ n
  lag : d.rwq.lag ≤ n

theorem exists_le_of_lt (f : Nat → Nat) (n : Nat) : ∃ m, ∀ i < n, f i ≤ m :=
  ⟨(Finset.range n).sup f, fun _ hi => Finset.le_sup (Finset.mem_range.mpr hi)⟩

theorem exists_within (cfg : MemoryConfig) (d : Dram) : ∃ n, Within cfg n d := by
  obtain ⟨m, hm⟩ := exists_le_of_lt (fun b => (d.bk b).RCDc + (d.bk b).RCDWRc + (d.bk b).RASc +
    (d.bk b).RPc + (d.bk b).RCc + (d.bk b).WTPc + (d.bk b).RTPc) cfg.nbk
  obtain ⟨k, hk⟩ := exists_le_of_lt (fun g => (d.bkgrp g).CCDLc + (d.bkgrp g).RTPLc) cfg.nbkgrp
  refine ⟨m + k + d.RRDc + d.CCDc + d.RTWc + d.WTRc + d.rwq.lag, ?_, ?_, ?_, ?_, ?_, ?_, ?_⟩
  case refine_5 =>
    intro b hb
    have hbank := hm b hb
    constructor <;> omega
  case refine_6 =>
    intro g hg
    have hgroup := hk g hg
    omega
  all_goals omega

theorem Within.tick {n : Nat} (h : Within cfg (n + 1) d) {rwq : FifoPipeline DramReq}
    (hlag : rwq.lag = d.rwq.lag - 1) : Within cfg n (Dram.tick cfg { d with rwq }) := by
  obtain ⟨hrrd, hccd, hrtw, hwtr, hbank, hgroup, hlag'⟩ := h
  constructor
  case bank =>
    intro b hb
    obtain ⟨h₁, h₂, h₃, h₄, h₅, h₆, h₇⟩ := hbank b hb
    have htick : (Dram.tick cfg { d with rwq }).bk b = Bank.tick (d.bk b) := if_pos hb
    rw [htick]
    unfold Bank.tick
    constructor <;> dsimp only <;> omega
  case group =>
    intro g hg
    obtain ⟨h₁, h₂⟩ := hgroup g hg
    have htick : (Dram.tick cfg { d with rwq }).bkgrp g = BankGroup.tick (d.bkgrp g) := if_pos hg
    rw [htick]
    unfold BankGroup.tick
    dsimp only
    omega
  case lag =>
    show rwq.lag ≤ n
    omega
  all_goals
    unfold Dram.tick
    dsimp only
    omega

theorem stage_tick : stage cfg (d.tick cfg) = stage cfg d := by
  unfold stage
  apply Finset.sum_congr rfl
  intro b hb
  have htick : (d.tick cfg).bk b = Bank.tick (d.bk b) := if_pos (Finset.mem_range.mp hb)
  rw [htick]
  rfl

theorem stage_setBank (hj : j < cfg.nbk) (b : Bank) :
    stage cfg d + Bank.stage b = stage cfg (d.setBank j b) + Bank.stage (d.bk j) :=
  sum_range_update Bank.stage d.bk b hj

theorem Served.stage_lt {c : Command} (h : Served cfg d j mrq (d', some c)) (hj : j < cfg.nbk)
    (hmrq : (d.bk j).mrq = some mrq) (hrow : c.isColumn = false) : stage cfg d' < stage cfg d := by
  cases h with
  | read => cases hrow
  | write => cases hrow
  | activate hact =>
    have hsum := stage_setBank (d := d) hj ((d.activate cfg j mrq).bk j)
    have hbefore : Bank.stage (d.bk j) = 1 := by
      unfold Bank.stage
      rw [hmrq, hact.2.1]
    have hafter : Bank.stage ((d.activate cfg j mrq).bk j) = 0 := by
      unfold Bank.stage
      simp [Dram.activate, setBank, hmrq]
    have hsame : stage cfg (d.setBank j ((d.activate cfg j mrq).bk j)) =
        stage cfg (d.activate cfg j mrq) := by
      unfold stage Dram.activate setBank
      simp
    omega
  | precharge hpre =>
    have hsum := stage_setBank (d := d) hj ((d.precharge cfg j).bk j)
    have hbefore : Bank.stage (d.bk j) = 2 := by
      unfold Bank.stage
      rw [hmrq, hpre.2.1]
      exact if_neg hpre.1
    have hafter : Bank.stage ((d.precharge cfg j).bk j) = 1 := by
      unfold Bank.stage
      simp [Dram.precharge, setBank, hmrq]
    have hsame : stage cfg (d.setBank j ((d.precharge cfg j).bk j)) = stage cfg (d.precharge cfg j) := by
      unfold stage Dram.precharge setBank
      simp
    omega

theorem Within.served (h : Within cfg 0 d) (hreg : cfg.Regular) (hj : j < cfg.nbk)
    (hfull : d.rwq.full = false) : ¬ Served cfg d j mrq (d, none) := by
  intro hserved
  obtain ⟨hrrd, hccd, hrtw, hwtr, hbank, hgroup, -⟩ := h
  obtain ⟨hrcd, hrcdwr, hras, hrp, hrc, hwtp, hrtp⟩ := hbank j hj
  obtain ⟨hccdl, hrtpl⟩ := hgroup _ (hreg.groups j hj)
  generalize hy : (d, (none : Option Command)) = y at hserved
  cases hserved with
  | read | write | activate | precharge => cases congrArg Prod.snd hy
  | nothing hread hwrite hactivate hprecharge =>
    cases hstate : (d.bk j).state with
    | idle =>
      exact hactivate ⟨Nat.le_zero.mp hrrd, hstate, Nat.le_zero.mp hrp, Nat.le_zero.mp hrc⟩
    | active =>
      by_cases hrow : (d.bk j).currRow = mrq.row
      · cases hdir : mrq.isWrite with
        | false =>
          exact hread ⟨Nat.le_zero.mp hccd, Nat.le_zero.mp hrcd, Nat.le_zero.mp hccdl, hrow, hdir,
            Nat.le_zero.mp hwtr, hstate, hfull⟩
        | true =>
          exact hwrite ⟨Nat.le_zero.mp hccd, Nat.le_zero.mp hrcdwr, Nat.le_zero.mp hccdl, hrow, hdir,
            Nat.le_zero.mp hrtw, hstate, hfull⟩
      · exact hprecharge ⟨hrow, hstate, Nat.le_zero.mp hras, Nat.le_zero.mp hwtp, Nat.le_zero.mp hrtp,
          Nat.le_zero.mp hrtpl⟩

/-! ## Progress -/

/-- No request is left. -/
structure Idle (cfg : MemoryConfig) (d : Dram) : Prop where
  waiting : d.view.waiting cfg = 0
  serving : d.view.serving cfg = 0
  data : d.view.data = []

theorem Fit.queue_eq_nil (h : Fit cfg d) (hnone : d.schedule j = none) : d.queue j = [] := by
  rw [Frfcfs.schedule_eq] at hnone
  have hnone := Option.map_eq_none_iff.mp hnone
  unfold Frfcfs.stickyReady at hnone
  cases hlast : d.lastRow j with
  | some row =>
    rw [hlast] at hnone
    obtain ⟨req, hreq, hrow⟩ := h.lastRow j row hlast
    have hno := List.find?_eq_none.mp hnone req (List.mem_reverse.mpr hreq)
    exact absurd (decide_eq_true hrow) hno
  | none =>
    rw [hlast] at hnone
    exact List.getLast?_eq_none_iff.mp (Option.or_eq_none_iff.mp hnone).2

theorem Fit.scheduler_progress (h : Fit cfg d) (hreg : cfg.Regular) {log : List Event}
    (hp : Places cfg log d.view) : ∃ es, Traces cfg d.view es (d.scheduler cfg).view ∧ Silent es ∧
      (es = [] → d.scheduler cfg = d ∧ ((∀ b < cfg.nbk, (d.bk b).mrq = none) → d.view.waiting cfg = 0)) := by
  have hwaiting : d.mrqq = [] → (∀ b < cfg.nbk, d.queue b = []) → d.view.waiting cfg = 0 := by
    intro hmrqq hqueue
    unfold View.waiting
    have hsum : ∑ b ∈ Finset.range cfg.nbk, (d.view.queue b : Multiset DramReq) = 0 := by
      apply Finset.sum_eq_zero
      intro b hb
      exact congrArg (fun l : List DramReq => (l : Multiset DramReq)) (hqueue b (Finset.mem_range.mp hb))
    rw [hsum, add_zero]
    exact congrArg (fun l : List DramReq => (l : Multiset DramReq)) hmrqq
  unfold Dram.scheduler
  split
  · next hfifo =>
    obtain ⟨es, hes, hsilent, hidle⟩ := @schedulerFifo_traces cfg d
    refine ⟨es, hes, hsilent, fun hnil => ⟨(hidle hnil).1, fun hbanks => ?_⟩⟩
    rcases (hidle hnil).2 with hmrqq | ⟨req, hreq, hbusy⟩
    · exact hwaiting hmrqq fun b _ => h.fifo hfifo b
    · have hmem : req ∈ d.view.waiting cfg := Multiset.mem_add.mpr (.inl (Multiset.mem_coe.mpr hreq))
      exact absurd (hbanks req.bk (hp.new req (hp.mem_pushed hmem)).2) hbusy
  · obtain ⟨es, hes, hsilent, hidle⟩ := @schedulerFrfcfs_traces cfg d
    refine ⟨es, hes, hsilent, fun hnil => ⟨(hidle hnil).1, fun hbanks => ?_⟩⟩
    obtain ⟨-, hroom, hschedule⟩ := hidle hnil
    have hqueue : ∀ b < cfg.nbk, d.queue b = [] := fun b hb =>
      h.queue_eq_nil (hschedule b hb (hbanks b hb))
    rcases hroom with hmrqq | hfull
    · exact hwaiting hmrqq hqueue
    · have hzero : d.numPending cfg = 0 := by
        unfold numPending
        apply List.sum_eq_zero
        intro k hk
        obtain ⟨b, hb, rfl⟩ := List.mem_map.mp hk
        rw [hqueue b (List.mem_range.mp hb)]
        rfl
      have hpos := hreg.room
      omega

/-- The work that is left, and the row commands before the next burst. -/
def measure (cfg : MemoryConfig) (d : Dram) : ℕ ×ₗ ℕ := toLex (d.view.work cfg, stage cfg d)

theorem measure_lt_of_work (h : d'.view.work cfg < d.view.work cfg) : measure cfg d' < measure cfg d :=
  Prod.Lex.toLex_lt_toLex.mpr (.inl h)

theorem measure_lt_of_stage (hwork : d'.view.work cfg ≤ d.view.work cfg)
    (h : stage cfg d' < stage cfg d) : measure cfg d' < measure cfg d := by
  rcases Nat.lt_or_eq_of_le hwork with hlt | heq
  · exact measure_lt_of_work hlt
  · exact Prod.Lex.toLex_lt_toLex.mpr (.inr ⟨heq, h⟩)

theorem idle_of_nothing (hreg : cfg.Regular) (hwithin : Within cfg 0 d) (hdata : d.view.data = [])
    (hfull : d.rwq.full = false) (hwaiting : (∀ b < cfg.nbk, (d.bk b).mrq = none) → d.view.waiting cfg = 0)
    (hloop : Serves cfg d (List.range cfg.nbk) (d, none)) : Idle cfg d := by
  have hbanks : ∀ b < cfg.nbk, (d.bk b).mrq = none := by
    intro b hb
    obtain ⟨i, hi, rfl⟩ := exists_turn hb d.prio
    cases hmrq : (d.bk ((i + d.prio) % cfg.nbk)).mrq with
    | none => rfl
    | some mrq =>
      cases hloop with
      | nothing hserved => exact absurd (hserved i hi mrq hmrq) (hwithin.served hreg hb hfull)
  refine ⟨hwaiting hbanks, ?_, hdata⟩
  unfold View.serving
  apply Finset.sum_eq_zero
  intro b hb
  have hnone : d.view.mrq b = none := hbanks b (Finset.mem_range.mp hb)
  rw [hnone]
  rfl

/-- **A cycle makes progress**, or brings the next progress nearer, until no request is left. -/
theorem Fit.cycle_advances (h : Fit cfg d) (hreg : cfg.Regular) {log : List Event}
    (hlog : History cfg log d.view) (hroom : d.returnq.length < cfg.schedQueueSize)
    (hd' : d.cycle cfg = .ok d') : Library.Machine.Advances (measure cfg) (Within cfg) (Idle cfg) d d' := by
  obtain ⟨d₁, hout, hd'⟩ := bind_eq_ok.mp hd'
  obtain ⟨⟨d₂, command⟩, hloop, hd'⟩ := bind_eq_ok.mp hd'
  cases hd'
  have hview : ((d₂.tick cfg).record command).view = d₂.view := (view_record command).trans view_tick
  -- each part leaves no more work
  have houts := dataOut_outs hout
  obtain ⟨es₁, hes₁, hsilent₁⟩ := houts.traces
  have hlog₁ := hlog.append hes₁ hsilent₁.pushed
  have hwork₁ := hes₁.work_le hreg.atom hlog hsilent₁.pushed hsilent₁.popped
  obtain ⟨es₂, hes₂, hsilent₂, hidle⟩ :=
    (h.outs houts).scheduler_progress hreg (hlog₁.accounts hreg.atom).1
  have hlog₂ := hlog₁.append hes₂ hsilent₂.pushed
  have hwork₂ := hes₂.work_le hreg.atom hlog₁ hsilent₂.pushed hsilent₂.popped
  have hloopWork : d₂.view.work cfg ≤ (d₁.scheduler cfg).view.work cfg := by
    cases bankLoop_sends hloop with
    | nothing => exact Nat.le_refl _
    | row _ hsame => rw [hsame]
    | column _ _ _ hmove => exact (hmove.work_lt hreg.atom (hlog₂.accounts hreg.atom).1 rfl rfl).le
  cases houts with
  | full hfull => exact absurd hroom (Nat.not_lt.mpr hfull)
  | data _ _ hmove =>
    refine .inl (measure_lt_of_work ?_)
    have hlt := hmove.work_lt hreg.atom (hlog.accounts hreg.atom).1 rfl rfl
    rw [hview]
    exact Nat.lt_of_le_of_lt (hloopWork.trans ((Nat.le_add_right _ _).trans hwork₂)) hlt
  | @empty rwq hpop =>
    by_cases hnil : es₂ = []
    case neg =>
      refine .inl (measure_lt_of_work ?_)
      have hpos := List.length_pos_iff.mpr hnil
      rw [hview]
      omega
    obtain ⟨hsame, hwaiting⟩ := hidle hnil
    rw [hsame] at hloop hloopWork
    have hwork : ((d₂.tick cfg).record command).view.work cfg ≤ d.view.work cfg := by
      rw [hview]
      omega
    obtain ⟨hlag, hzero⟩ := h.rwq.pop_none hpop
    have hfit := h.outs (.empty hpop)
    cases bankLoop_serves hloop with
    | @one i mrq _ c hi hmrq hserved =>
      have hturn : (i + d.prio) % cfg.nbk < cfg.nbk :=
        Nat.mod_lt _ (Nat.lt_of_le_of_lt (Nat.zero_le i) (List.mem_range.mp hi))
      cases hcolumn : c.isColumn with
      | true =>
        refine .inl (measure_lt_of_work ?_)
        rw [hview]
        cases hserved.sends hmrq with
        | row hrow => cases hcolumn.symm.trans hrow
        | column _ _ _ hmove =>
          have hlt := hmove.work_lt hreg.atom (hlog₁.accounts hreg.atom).1 rfl rfl
          exact Nat.lt_of_lt_of_le hlt ((Nat.le_add_right _ _).trans hwork₁)
      | false =>
        refine .inl (measure_lt_of_stage hwork ?_)
        have hstage : stage cfg ((d₂.tick cfg).record (some c)) = stage cfg d₂ := stage_tick
        rw [hstage]
        exact hserved.stage_lt hturn hmrq hcolumn
    | nothing hserved =>
      have hafter : ((Dram.tick cfg { d with rwq }).record none).view = d.view := by
        rw [hview]
        unfold view
        rw [show d.rwq.contents = rwq.contents from FifoPipeline.pop_contents hpop]
      refine .inr ⟨?_, fun n hn => ?_, fun hn => ?_⟩
      · unfold measure
        rw [hafter]
        have hstage : stage cfg ((Dram.tick cfg { d with rwq }).record none) = stage cfg d := stage_tick
        rw [hstage]
      · have htick := hn.tick hlag
        exact ⟨htick.RRDc, htick.CCDc, htick.RTWc, htick.WTRc, htick.bank, htick.group, htick.lag⟩
      · obtain ⟨hempty, hlen⟩ := hzero (Nat.le_zero.mp hn.lag)
        have hlag₀ : rwq.lag ≤ 0 := by
          rw [hlag]
          exact (Nat.sub_le _ _).trans hn.lag
        have hwithin : Within cfg 0 { d with rwq } :=
          ⟨hn.RRDc, hn.CCDc, hn.RTWc, hn.WTRc, hn.bank, hn.group, hlag₀⟩
        have hfull : rwq.full = false := hfit.rwq.full_eq_false.mpr (hlen.trans h.rwq.min)
        have hdata : Dram.view { d with rwq } = d.view := hview.symm.trans hafter
        have hidle := idle_of_nothing hreg hwithin (by rw [hdata]; exact hempty) hfull hwaiting
          (.nothing hserved)
        obtain ⟨hwait, hserve, hdataEmpty⟩ := hidle
        rw [hdata] at hwait hserve hdataEmpty
        rw [← hafter] at hwait hserve hdataEmpty
        exact ⟨hwait, hserve, hdataEmpty⟩

end Dram

end GpgpuSimRuby.Memory
