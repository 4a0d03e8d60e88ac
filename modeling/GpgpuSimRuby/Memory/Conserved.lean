import GpgpuSimRuby.Memory.Drain

/-!
# No request is lost

Every request that is pushed gets the bursts that it needs, by column commands to its bank and row,
and is then replied to or deleted once. In the queues and the banks it is in one place at a time;
only a bank that has more bursts to send keeps a request whose data are in `rwq`.
-/

namespace GpgpuSimRuby.Memory

open Library Event

/-! ## Runs -/

def Act.pushed? : Act → Option DramReq
  | .push req => some req
  | _ => none

/-- The requests that a run pushes. -/
def pushes (as : List Act) : List DramReq := as.filterMap Act.pushed?

/-- The uids that an action takes out of `returnq`. -/
def Act.takes : Act → Dram → List Nat
  | .pop, d => d.returnq.take 1
  | _, _ => []

/-- The uids that the pops of a run from `d` take out of `returnq`, in their order. -/
def returns (cfg : MemoryConfig) : List Act → Dram → List Nat
  | [], _ => []
  | a :: as, d =>
    match (dram cfg).step d a with
    | some (.ok d') => a.takes d ++ returns cfg as d'
    | _ => []

/-- Every push makes a new request, of which nothing has been transferred. -/
structure NewRequests (as : List Act) : Prop where
  txbytes : ∀ req ∈ pushes as, req.txbytes = 0
  uids : ((pushes as).map DramReq.uid).Nodup

/-- The column commands that were issued, the newest first. -/
def Dram.columns (d : Dram) : List Command := (d.commands.map Prod.snd).filter Command.isColumn

/-- The log of a run that has pushed `reqs` and popped `outs`, the newest first. -/
structure Recorded (cfg : MemoryConfig) (reqs : List DramReq) (outs : List Nat) (log : List Event)
    (d : Dram) : Prop where
  history : History cfg log d.view
  pushed : Event.pushed log = reqs
  popped : Event.popped log = outs
  commands : Event.commands log = d.columns

section Recorded

variable {cfg : MemoryConfig} {reqs : List DramReq} {outs : List Nat} {log : List Event} {d d' : Dram}
  {as : List Act}

theorem Recorded.init (cfg : MemoryConfig) : Recorded cfg [] [] [] (.init cfg) :=
  ⟨.init, rfl, rfl, rfl⟩

theorem Recorded.push (h : Recorded cfg reqs outs log d) {req : DramReq} (hd : d.push cfg req = some (.ok d'))
    (hnew : req.txbytes = 0) (hfresh : req.uid ∉ reqs.map DramReq.uid) :
    Recorded cfg (req :: reqs) outs (.push req :: log) d' := by
  unfold Dram.push at hd
  split at hd
  · next hbk =>
    obtain ⟨_, -, hd⟩ := bind_eq_ok.mp (Option.some.inj hd)
    cases hd
    refine ⟨.step h.history (Moves.push hnew hbk) ?_, ?_, h.popped, h.commands⟩
    · intro r hr
      cases hr
      rwa [h.pushed]
    · show req :: Event.pushed log = _
      rw [h.pushed]
  · cases hd

theorem Recorded.cycle (h : Recorded cfg reqs outs log d) (hatom : 0 < cfg.dramAtomSize)
    (hd : d.cycle cfg = .ok d') : ∃ log', Recorded cfg reqs outs log' d' := by
  obtain ⟨es, hes, hpushed, hpopped, c, hcolumns, hcommands⟩ :=
    Dram.cycle_traces hatom h.history hd
  refine ⟨es ++ log, h.history.append hes hpushed, ?_, ?_, ?_⟩
  · rw [Event.pushed, List.filterMap_append]
    show Event.pushed es ++ Event.pushed log = _
    rw [hpushed, h.pushed, List.nil_append]
  · rw [Event.popped, List.filterMap_append]
    show Event.popped es ++ Event.popped log = _
    rw [hpopped, h.popped, List.nil_append]
  · rw [Event.commands, List.filterMap_append]
    show Event.commands es ++ Event.commands log = _
    unfold Dram.columns
    rw [hcolumns, h.commands, hcommands, List.filter_append]
    rfl

theorem Recorded.popReturn (h : Recorded cfg reqs outs log d) :
    ∃ log', Recorded cfg reqs ((Act.pop.takes d).reverse ++ outs) log' d.popReturn := by
  cases hret : d.returnq with
  | nil =>
    have hsame : d.popReturn = d := by
      unfold Dram.popReturn
      rw [hret, List.tail_nil, ← hret]
    have htakes : Act.pop.takes d = [] := by
      show d.returnq.take 1 = []
      rw [hret, List.take_nil]
    rw [hsame, htakes]
    exact ⟨log, h⟩
  | cons uid rest =>
    have hpop : d.popReturn = { d with returnq := rest } := by
      unfold Dram.popReturn
      rw [hret, List.tail_cons]
    have htakes : Act.pop.takes d = [uid] := by
      show d.returnq.take 1 = [uid]
      rw [hret, List.take_succ_cons, List.take_zero]
    rw [hpop, htakes]
    have hmove : Moves cfg d.view (.pop uid) { d.view with returnq := rest } := Moves.pop hret
    refine ⟨.pop uid :: log, .step h.history hmove ?_, h.pushed, ?_, h.commands⟩
    · intro req hreq
      cases hreq
    · show uid :: Event.popped log = _
      rw [h.popped]
      rfl

theorem returns_cons {a : Act} (hstep : (dram cfg).step d a = some (.ok d')) :
    returns cfg (a :: as) d = a.takes d ++ returns cfg as d' := by
  show (match (dram cfg).step d a with
    | some (.ok d₁) => a.takes d ++ returns cfg as d₁
    | _ => []) = _
  rw [hstep]

theorem Recorded.run (h : Recorded cfg reqs outs log d) (hatom : 0 < cfg.dramAtomSize)
    (hnew : ∀ req ∈ pushes as, req.txbytes = 0)
    (huids : (((pushes as).reverse ++ reqs).map DramReq.uid).Nodup)
    (hrun : (dram cfg).run as d = some d') :
    ∃ log', Recorded cfg ((pushes as).reverse ++ reqs) ((returns cfg as d).reverse ++ outs)
      log' d' := by
  induction as generalizing reqs outs log d with
  | nil =>
    cases hrun
    exact ⟨log, h⟩
  | cons a as ih =>
    unfold Machine.run at hrun
    split at hrun
    · next d₁ hstep =>
      rw [returns_cons hstep]
      cases a with
      | push req =>
        have hcons : pushes (.push req :: as) = req :: pushes as := rfl
        rw [hcons, List.reverse_cons, List.append_assoc, List.singleton_append] at huids ⊢
        rw [hcons] at hnew
        obtain ⟨hzero, hrest⟩ := List.forall_mem_cons.mp hnew
        have hfresh : req.uid ∉ reqs.map DramReq.uid := by
          rw [List.map_append] at huids
          exact (List.nodup_cons.mp (List.nodup_append.mp huids).2.1).1
        exact ih (h.push hstep hzero hfresh) hrest huids hrun
      | cycle =>
        obtain ⟨log', hlog'⟩ := h.cycle hatom (Option.some.inj hstep)
        exact ih hlog' hnew huids hrun
      | pop =>
        cases hstep
        obtain ⟨log', hlog'⟩ := h.popReturn
        rw [List.reverse_append, List.append_assoc]
        exact ih hlog' hnew huids hrun
    · cases hrun

/-- The log of a whole run. -/
theorem NewRequests.recorded (hnew : NewRequests as) (hatom : 0 < cfg.dramAtomSize)
    (hrun : (dram cfg).run as (.init cfg) = some d) :
    ∃ log, Recorded cfg (pushes as).reverse (returns cfg as (.init cfg)).reverse log d := by
  have huids : (((pushes as).reverse ++ []).map DramReq.uid).Nodup := by
    rw [List.append_nil, List.map_reverse, List.nodup_reverse]
    exact hnew.uids
  have hlog := (Recorded.init cfg).run hatom hnew.txbytes huids hrun
  rwa [List.append_nil, List.append_nil] at hlog

end Recorded

/-! ## What the log says -/

/-- What a log of a run says of the requests that were pushed. -/
structure Conserves (cfg : MemoryConfig) (as : List Act) (log : List Event) (d : Dram) : Prop where
  recorded : Recorded cfg (pushes as).reverse (returns cfg as (.init cfg)).reverse log d
  /-- every request waits, or is in a bank, or has been transferred -/
  ledger : (pushes as : Multiset DramReq) = d.view.waiting cfg + d.view.serving cfg + transferred log
  nodup : (d.view.waiting cfg + d.view.serving cfg + (transferred log : Multiset DramReq)).Nodup
  /-- the data in `rwq` are of requests of which bursts were sent -/
  sent : ∀ req ∈ d.rwq.contents, req.core ∈ pushes as ∧ req.core ∉ d.view.waiting cfg
  /-- a bank keeps a request whose data are in `rwq` only as long as it needs more bursts -/
  shared : ∀ req ∈ d.rwq.contents, req.core ∈ d.view.serving cfg →
    bursts req.core log < needed cfg req.core
  most : ∀ req ∈ pushes as, bursts req log ≤ needed cfg req
  exact : ∀ req ∈ transferred log, bursts req log = needed cfg req
  done : ∀ req, req ∈ finished log ↔ req ∈ transferred log ∧ req ∉ d.rwq.contents.map DramReq.core
  once : (finished log).Nodup
  /-- the pops return those that need a reply, in the order in which they were done -/
  returned : returns cfg as (.init cfg) ++ d.returnq =
    ((finished log).reverse.filter fun req => !req.isWriteback).map DramReq.uid

section Conserves

variable {cfg : MemoryConfig} {as : List Act} {log : List Event} {d : Dram} {req : DramReq}

theorem Places.transferred_iff {v : View} (hatom : 0 < cfg.dramAtomSize) (h : Places cfg log v)
    (hreq : req ∈ pushed log) : req ∈ transferred log ↔ bursts req log = needed cfg req := by
  constructor
  · exact h.sent req
  · intro hbursts
    have hmem : req ∈ (pushed log : Multiset DramReq) := Multiset.mem_coe.mpr hreq
    rw [h.ledger] at hmem
    rcases Multiset.mem_add.mp hmem with hmem | hsent
    · rcases Multiset.mem_add.mp hmem with hwait | hserv
      · rw [h.unsent req hwait] at hbursts
        exact absurd hbursts needed_pos.ne
      · obtain ⟨b, -, hb⟩ := Multiset.mem_sum.mp hserv
        obtain ⟨r, hr, rfl⟩ := List.mem_map.mp (Multiset.mem_coe.mp hb)
        exact absurd hbursts (h.bursts_lt hatom (by simpa using hr)).ne
    · exact Multiset.mem_coe.mp hsent

theorem Outgoing.inflight_le {v : View} (hatom : 0 < cfg.dramAtomSize) (h : Outgoing cfg log v)
    (hreq : req ∈ pushed log) : v.inflight req ≤ bursts req log := by
  have hdq := h.dqbytes req hreq
  apply Nat.le_of_mul_le_mul_right ?_ hatom
  omega

theorem Recorded.conserves (hatom : 0 < cfg.dramAtomSize)
    (h : Recorded cfg (pushes as).reverse (returns cfg as (.init cfg)).reverse log d) :
    Conserves cfg as log d := by
  obtain ⟨hp, ho⟩ := h.history.accounts hatom
  have hmem : ∀ {r}, r ∈ pushes as ↔ r ∈ Event.pushed log := by
    intro r
    rw [h.pushed, List.mem_reverse]
  have hinflight : ∀ {r}, d.view.inflight r = 0 ↔ r ∉ d.rwq.contents.map DramReq.core :=
    List.count_eq_zero
  have hdata : ∀ r ∈ d.rwq.contents, 0 < d.view.inflight r.core := by
    intro r hr
    exact List.count_pos_iff.mpr (List.mem_map_of_mem hr)
  constructor
  case recorded => exact h
  case ledger =>
    have hperm : (pushes as : Multiset DramReq) = Event.pushed log := by
      rw [h.pushed, Multiset.coe_reverse]
    rw [hperm]
    exact hp.ledger
  case nodup => exact hp.nodup_ledger
  case sent =>
    intro r hr
    have hpush := ho.data r hr
    refine ⟨hmem.mpr hpush, ?_⟩
    intro hwait
    have hle := ho.inflight_le hatom hpush
    have hpos := hdata r hr
    rw [hp.unsent _ hwait] at hle
    omega
  case shared =>
    intro r hr hserv
    obtain ⟨b, -, hb⟩ := Multiset.mem_sum.mp hserv
    obtain ⟨r', hr', heq⟩ := List.mem_map.mp (Multiset.mem_coe.mp hb)
    rw [← heq]
    exact hp.bursts_lt hatom (by simpa using hr')
  case most => exact fun r hr => hp.bursts_le hatom (hmem.mp hr)
  case exact => exact hp.sent
  case done =>
    intro r
    rw [ho.finished r, ← hinflight]
    constructor
    · rintro ⟨hr, hbursts, hzero⟩
      exact ⟨(hp.transferred_iff hatom hr).mpr hbursts, hzero⟩
    · rintro ⟨hsent, hzero⟩
      have hpush : r ∈ (Event.pushed log : Multiset DramReq) := by
        rw [hp.ledger]
        exact Multiset.mem_add.mpr (.inr (Multiset.mem_coe.mpr hsent))
      exact ⟨Multiset.mem_coe.mp hpush, hp.sent r hsent, hzero⟩
  case once => exact ho.once
  case returned =>
    have hreturned := ho.returned
    rwa [h.popped, List.reverse_reverse] at hreturned

theorem Conserves.finished_of_idle (h : Conserves cfg as log d) (hidle : d.Idle cfg)
    (hreq : req ∈ pushes as) : req ∈ finished log := by
  have hmem : req ∈ (pushes as : Multiset DramReq) := Multiset.mem_coe.mpr hreq
  rw [h.ledger, hidle.waiting, hidle.serving, zero_add, zero_add] at hmem
  have hdata : d.rwq.contents = [] := hidle.data
  refine (h.done req).mpr ⟨Multiset.mem_coe.mp hmem, ?_⟩
  rw [hdata]
  exact List.not_mem_nil

end Conserves

/-! ## Every run -/

section Runs

variable {cfg : MemoryConfig} {as : List Act} {d d' : Dram}

theorem Dram.Fit.run (h : d.Fit cfg) (hreg : cfg.Regular) (hrun : (dram cfg).run as d = some d') :
    d'.Fit cfg := by
  induction as generalizing d with
  | nil =>
    cases hrun
    exact h
  | cons a as ih =>
    unfold Machine.run at hrun
    split at hrun
    · next d₁ hstep =>
      cases a with
      | push req => exact ih (h.push hstep) hrun
      | cycle =>
        obtain ⟨d₂, hd₂, hfit⟩ := h.cycle hreg
        cases hd₂.symm.trans (Option.some.inj hstep)
        exact ih hfit hrun
      | pop =>
        cases hstep
        exact ih h.popReturn hrun
    · cases hrun

theorem Dram.Within.of_popReturn {n : Nat} (h : d.Within cfg n) : d.popReturn.Within cfg n :=
  ⟨h.RRDc, h.CCDc, h.RTWc, h.WTRc, h.bank, h.group, h.lag⟩

theorem round_advances (hreg : cfg.Regular) {reqs : List DramReq}
    (hd : d.Fit cfg ∧ ∃ outs log, Recorded cfg reqs outs log d) :
    ∃ t, (dram cfg).run [.pop, .cycle] d = some t ∧
      (t.Fit cfg ∧ ∃ outs log, Recorded cfg reqs outs log t) ∧
      Machine.Advances (Dram.measure cfg) (Dram.Within cfg) (Dram.Idle cfg) d t := by
  obtain ⟨hfit, outs, log, hlog⟩ := hd
  have hpop := hfit.popReturn
  obtain ⟨log', hlog'⟩ := hlog.popReturn
  have hroom : d.popReturn.returnq.length < cfg.schedQueueSize := by
    have hlen : d.popReturn.returnq.length = d.returnq.length - 1 := List.length_tail
    have hle := hfit.returnq
    have hpos := hreg.room
    omega
  obtain ⟨t, ht, hfit'⟩ := hpop.cycle hreg
  refine ⟨t, ?_, ⟨hfit', _, hlog'.cycle hreg.atom ht⟩, ?_⟩
  · have hstep : (dram cfg).step d.popReturn .cycle = some (.ok t) := congrArg some ht
    show (dram cfg).run [.cycle] d.popReturn = some t
    unfold Machine.run
    rw [hstep]
    rfl
  · rcases hpop.cycle_advances hreg hlog'.history hroom ht with hlt | ⟨heq, hnext, hidle⟩
    · exact .inl hlt
    · exact .inr ⟨heq, fun n hn => hnext n hn.of_popReturn, fun hn => hidle hn.of_popReturn⟩

/-- Pops and cycles in turn, and then pops. -/
def drain (n m : Nat) : List Act := Machine.rounds [.pop, .cycle] n ++ List.replicate m .pop

theorem pushes_append_drain (as : List Act) (n m : Nat) : pushes (as ++ drain n m) = pushes as := by
  have hnone : pushes (drain n m) = [] := by
    refine List.filterMap_eq_nil_iff.mpr fun a ha => ?_
    rcases List.mem_append.mp ha with ha | ha
    · obtain ⟨round, hround, ha⟩ := List.mem_flatten.mp ha
      rw [List.eq_of_mem_replicate hround] at ha
      rcases List.mem_pair.mp ha with rfl | rfl <;> rfl
    · rw [List.eq_of_mem_replicate ha]
      rfl
  have hpushes : pushes (as ++ drain n m) = pushes as ++ pushes (drain n m) :=
    List.filterMap_append
  rw [hpushes, hnone, List.append_nil]

/-- Pops empty `returnq`, and change nothing else. -/
theorem run_pops (d : Dram) :
    (dram cfg).run (List.replicate d.returnq.length .pop) d = some { d with returnq := [] } := by
  generalize hq : d.returnq = q
  induction q generalizing d with
  | nil =>
    show some d = _
    rw [← hq]
  | cons uid rest ih =>
    have hpop : d.popReturn.returnq = rest := congrArg List.tail hq
    exact ih d.popReturn hpop

theorem Dram.Idle.of_returnq {uids : List Nat} (h : d.Idle cfg) :
    Dram.Idle cfg { d with returnq := uids } := ⟨h.waiting, h.serving, h.data⟩

/-- **No request is lost.** In every run of new requests each of them waits, is in a bank or has been
transferred; it gets no more bursts than it needs, exactly these with the last one, and it is done once,
when the data of all of them are out. In a regular configuration all requests are done after enough
cycles, if `returnq` is popped and nothing more is pushed, and then the pops empty it. -/
theorem dram_conserves (cfg : MemoryConfig) (hatom : 0 < cfg.dramAtomSize) (hnew : NewRequests as)
    (hrun : (dram cfg).run as (.init cfg) = some d) :
    (∃ log, Conserves cfg as log d) ∧
      (cfg.Regular → ∃ n m t log, (dram cfg).run (as ++ drain n m) (.init cfg) = some t ∧
        Conserves cfg (as ++ drain n m) log t ∧ t.returnq = [] ∧
        ∀ req ∈ pushes as, req ∈ finished log ∧ bursts req log = needed cfg req) := by
  obtain ⟨log, hlog⟩ := hnew.recorded hatom hrun
  refine ⟨⟨log, hlog.conserves hatom⟩, ?_⟩
  intro hreg
  obtain ⟨n, t, hrounds, -, hidle⟩ := Machine.drains (M := dram cfg)
    (fun s hs => round_advances hreg hs) (Dram.exists_within cfg)
    ⟨(Dram.Fit.init cfg).run hreg hrun, _, log, hlog⟩
  have hdrain := Machine.run_append hrounds (run_pops t)
  have hall := Machine.run_append hrun hdrain
  have hpushes := pushes_append_drain as n t.returnq.length
  have hnew' : NewRequests (as ++ drain n t.returnq.length) := by
    refine ⟨?_, ?_⟩
    · rw [hpushes]
      exact hnew.txbytes
    · rw [hpushes]
      exact hnew.uids
  obtain ⟨log', hlog'⟩ := hnew'.recorded hatom hall
  have hconserves := hlog'.conserves hatom
  refine ⟨n, _, _, log', hall, hconserves, rfl, ?_⟩
  intro req hreq
  rw [← hpushes] at hreq
  have hdone := hconserves.finished_of_idle hidle.of_returnq hreq
  exact ⟨hdone, hconserves.exact req ((hconserves.done req).mp hdone).1⟩

/-- A read of two bursts, and one of nothing. -/
def wideRead : DramReq := ⟨1, 0, 7, 64, 0, false, false⟩
def emptyRead : DramReq := ⟨1, 0, 7, 0, 0, false, false⟩

theorem regular_twoBanks : twoBanks.Regular where
  atom := by decide
  latency := by decide
  room := by decide
  groups := by decide

theorem dram_conserves_wide : ∃ n m t log,
    (dram twoBanks).run ([.push wideRead] ++ drain n m) (.init twoBanks) = some t ∧
      t.returnq = [] ∧ wideRead ∈ finished log ∧ bursts wideRead log = 2 := by
  have hnew : NewRequests [.push wideRead] := ⟨by decide, by decide⟩
  obtain ⟨d, hd⟩ : ∃ d, (dram twoBanks).run [.push wideRead] (.init twoBanks) = some d := ⟨_, rfl⟩
  obtain ⟨-, hdrains⟩ := dram_conserves twoBanks (by decide) hnew hd
  obtain ⟨n, m, t, log, hrun, -, hempty, hdone⟩ := hdrains regular_twoBanks
  obtain ⟨hfinished, hbursts⟩ := hdone wideRead List.mem_cons_self
  exact ⟨n, m, t, log, hrun, hempty, hfinished, hbursts⟩

/-- After its first burst the wide read is in its bank and in `rwq`, and the read of nothing gets a
column command. -/
theorem not_onePlace_wide :
    (∃ d, (dram twoBanks).Reachable d ∧ (d.bk 0).mrq = some { wideRead with txbytes := 32 } ∧
      d.rwq.contents = [wideRead]) ∧
    ((dram twoBanks).run [.push emptyRead, .cycle, .cycle, .cycle, .cycle]
      (.init twoBanks)).map Dram.columns =
      some [.rd 0 7] ∧ (emptyRead.nbytes + twoBanks.dramAtomSize - 1) / twoBanks.dramAtomSize = 0 := by
  obtain ⟨d, -, hd, hplaces⟩ := (dram twoBanks).exists_reachable_of_run
    [.push wideRead, .cycle, .cycle, .cycle, .cycle] (fun d => ((d.bk 0).mrq, d.rwq.contents))
    (y := (some { wideRead with txbytes := 32 }, [wideRead])) (by rfl)
  obtain ⟨hbank, hdata⟩ := Prod.mk.inj hplaces
  exact ⟨⟨d, hd, hbank, hdata⟩, by rfl, by rfl⟩

end Runs

end GpgpuSimRuby.Memory
