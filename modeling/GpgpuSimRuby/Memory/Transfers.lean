import GpgpuSimRuby.Memory.DramTiming
import GpgpuSimRuby.Memory.Frfcfs
import GpgpuSimRuby.Memory.Pipelines

/-!
# How a cycle moves the requests

Each part of a cycle is a few of the events that move requests: the data of one burst go out, the
scheduler takes requests and hands one to a bank, and the bank loop sends at most one burst, whose
column command is the one that is recorded. So every run of the controller has a history.
-/

namespace GpgpuSimRuby.Memory

open Library Function

/-! ## Several events -/

/-- Events that follow each other, the newest first. -/
inductive Traces (cfg : MemoryConfig) : View → List Event → View → Prop
  | nil {v} : Traces cfg v [] v
  | cons {v es v' e v''} : Traces cfg v es v' → Moves cfg v' e v'' → Traces cfg v (e :: es) v''

namespace Traces

variable {cfg : MemoryConfig} {v v' v'' : View} {es es' : List Event} {e : Event}

theorem single (h : Moves cfg v e v') : Traces cfg v [e] v' := .cons .nil h

theorem trans (h : Traces cfg v es v') (h' : Traces cfg v' es' v'') : Traces cfg v (es' ++ es) v'' := by
  induction h' with
  | nil => exact h
  | cons _ hmove ih => exact .cons ih hmove

end Traces

namespace Moves

variable {cfg : MemoryConfig} {v : View} {req : DramReq} {rest : List DramReq}

theorem out_keep (h : v.data = req :: rest)
    (hkeep : ¬ (req.nbytes ≤ v.dqbytes req.uid + cfg.dramAtomSize ∧ req.isWriteback = false)) :
    Moves cfg v (.out req.core (decide (req.nbytes ≤ v.dqbytes req.uid + cfg.dramAtomSize)))
      { v with
        data := rest
        dqbytes := update v.dqbytes req.uid (v.dqbytes req.uid + cfg.dramAtomSize) } := by
  have hmove := @Moves.out cfg v req rest h
  rwa [if_neg hkeep] at hmove

theorem out_reply (h : v.data = req :: rest)
    (hreply : req.nbytes ≤ v.dqbytes req.uid + cfg.dramAtomSize ∧ req.isWriteback = false) :
    Moves cfg v (.out req.core (decide (req.nbytes ≤ v.dqbytes req.uid + cfg.dramAtomSize)))
      { v with
        data := rest
        dqbytes := update v.dqbytes req.uid (v.dqbytes req.uid + cfg.dramAtomSize)
        returnq := v.returnq ++ [req.uid] } := by
  have hmove := @Moves.out cfg v req rest h
  rwa [if_pos hreply] at hmove

end Moves

theorem History.append {cfg : MemoryConfig} {log es : List Event} {v v' : View} (h : History cfg log v)
    (hes : Traces cfg v es v') (hpushed : Event.pushed es = []) : History cfg (es ++ log) v' := by
  induction hes with
  | nil => exact h
  | cons _ hmove ih =>
    obtain ⟨hnone, hrest⟩ := List.forall_mem_cons.mp (List.filterMap_eq_nil_iff.mp hpushed)
    refine .step (ih (List.filterMap_eq_nil_iff.mpr hrest)) hmove ?_
    rintro req rfl
    cases hnone

/-! ## The parts of a cycle -/

namespace Dram

variable {cfg : MemoryConfig} {d d' : Dram} {j : Nat} {req : DramReq}

theorem view_setBank (d : Dram) (j : Nat) (b : Bank) :
    (d.setBank j b).view = { d.view with mrq := update d.view.mrq j b.mrq } := by
  have hmrq : (d.setBank j b).view.mrq = update d.view.mrq j b.mrq := by
    funext i
    by_cases hi : i = j
    · subst hi
      simp [view, setBank]
    · simp [view, setBank, hi]
  rw [← hmrq]
  rfl

theorem view_of_mrq (hmrq : ∀ b, (d'.bk b).mrq = (d.bk b).mrq) (hmrqq : d'.mrqq = d.mrqq)
    (hqueue : d'.queue = d.queue) (hrwq : d'.rwq = d.rwq) (hdq : d'.dqbytes = d.dqbytes)
    (hret : d'.returnq = d.returnq) : d'.view = d.view := by
  unfold view
  simp only [hmrq, hmrqq, hqueue, hrwq, hdq, hret]

theorem view_tick : (d.tick cfg).view = d.view := by
  refine view_of_mrq (fun b => ?_) rfl rfl rfl rfl rfl
  by_cases hb : b < cfg.nbk <;> simp [tick, Bank.tick, hb]

theorem view_record (c : Option Command) : (d.record c).view = d.view := rfl

/-- Events that neither push nor pop and send no command. -/
structure Silent (es : List Event) : Prop where
  pushed : Event.pushed es = []
  popped : Event.popped es = []
  commands : Event.commands es = []

namespace Silent

variable {es es' : List Event}

theorem nil : Silent [] := ⟨rfl, rfl, rfl⟩

theorem append (h : Silent es) (h' : Silent es') : Silent (es ++ es') := by
  constructor
  · rw [Event.pushed, List.filterMap_append]
    exact List.append_eq_nil_iff.mpr ⟨h.pushed, h'.pushed⟩
  · rw [Event.popped, List.filterMap_append]
    exact List.append_eq_nil_iff.mpr ⟨h.popped, h'.popped⟩
  · rw [Event.commands, List.filterMap_append]
    exact List.append_eq_nil_iff.mpr ⟨h.commands, h'.commands⟩

end Silent

/-- What goes out in a cycle: nothing while `returnq` is full, or an empty place, or the data of a
burst. -/
inductive Outs (cfg : MemoryConfig) (d : Dram) : Dram → Prop
  | full : cfg.schedQueueSize ≤ d.returnq.length → cfg.schedQueueSize ≠ 0 → Outs cfg d d
  | empty {rwq} : d.rwq.pop = .ok (none, rwq) → Outs cfg d { d with rwq }
  | data {req rwq returnq} : d.rwq.pop = .ok (some req, rwq) →
      returnq = d.returnq ∨ (returnq = d.returnq ++ [req.uid] ∧ d.returnq.length < cfg.schedQueueSize) →
      Moves cfg d.view (.out req.core (decide (req.nbytes ≤ d.dqbytes req.uid + cfg.dramAtomSize)))
        { d.view with
          data := rwq.contents
          dqbytes := update d.dqbytes req.uid (d.dqbytes req.uid + cfg.dramAtomSize)
          returnq } →
      Outs cfg d { d with
        rwq
        dqbytes := update d.dqbytes req.uid (d.dqbytes req.uid + cfg.dramAtomSize)
        returnq }

theorem dataOut_outs (h : d.dataOut cfg = .ok d') : Outs cfg d d' := by
  unfold dataOut at h
  split at h
  · next hfull =>
    cases h
    exact .full hfull.1 hfull.2
  · obtain ⟨⟨cmd, rwq⟩, hpop, h⟩ := bind_eq_ok.mp h
    have hcontents := FifoPipeline.pop_contents hpop
    cases cmd with
    | none =>
      cases h
      exact .empty hpop
    | some req =>
      dsimp only at h
      split at h
      · next hkeep =>
        cases h
        apply Outs.data hpop (.inl rfl)
        apply Moves.out_keep hcontents
        rintro ⟨hle, hwb⟩
        rcases hkeep with hlt | hwb'
        · exact absurd hle (Nat.not_le.mpr hlt)
        · rw [hwb] at hwb'
          cases hwb'
      · next hreply =>
        obtain ⟨_, hroom, h⟩ := bind_eq_ok.mp h
        cases h
        rw [not_or, Nat.not_lt] at hreply
        apply Outs.data hpop (.inr ⟨rfl, assert_eq_ok.mp hroom⟩)
        exact Moves.out_reply hcontents ⟨hreply.1, (Bool.not_eq_true _).mp hreply.2⟩

theorem Outs.traces (h : Outs cfg d d') : ∃ es, Traces cfg d.view es d'.view ∧ Silent es := by
  cases h with
  | full => exact ⟨[], .nil, .nil⟩
  | @empty rwq hpop =>
    have hcontents : d.rwq.contents = rwq.contents := FifoPipeline.pop_contents hpop
    have hview : Dram.view { d with rwq } = d.view := by
      unfold view
      rw [hcontents]
    rw [hview]
    exact ⟨[], .nil, .nil⟩
  | data _ _ hmove => exact ⟨_, .single hmove, rfl, rfl, rfl⟩

theorem schedulerFifo_traces : ∃ es, Traces cfg d.view es d.schedulerFifo.view ∧ Silent es ∧
    (es = [] → d.schedulerFifo = d ∧ (d.mrqq = [] ∨ ∃ req ∈ d.mrqq, (d.bk req.bk).mrq ≠ none)) := by
  unfold schedulerFifo
  split
  · next hnil => exact ⟨[], .nil, .nil, fun _ => ⟨rfl, .inl hnil⟩⟩
  · next head rest hmrqq =>
    split
    · next hnone =>
      refine ⟨[.assign head], .single ?_, ⟨rfl, rfl, rfl⟩, fun hes => by cases hes⟩
      have hmove := @Moves.assignHead cfg d.view head rest hmrqq hnone
      have hview : Dram.view
          { d.setBank head.bk { d.bk head.bk with mrq := some head } with mrqq := rest } =
          { (d.setBank head.bk { d.bk head.bk with mrq := some head }).view with mrqq := rest } := rfl
      rw [hview, view_setBank]
      exact hmove
    · next hbusy =>
      refine ⟨[], .nil, .nil, fun _ => ⟨rfl, .inr ⟨head, ?_, hbusy⟩⟩⟩
      rw [hmrqq]
      exact List.mem_cons_self

theorem takeReqs_traces (reqs : List DramReq) :
    ∃ es, Traces cfg { d with mrqq := reqs }.view es (takeReqs cfg reqs d).view ∧ Silent es ∧
      (es = [] → takeReqs cfg reqs d = { d with mrqq := reqs } ∧
        (reqs = [] ∨ cfg.schedQueueSize ≤ d.numPending cfg)) := by
  induction reqs generalizing d with
  | nil => exact ⟨[], .nil, .nil, fun _ => ⟨rfl, .inl rfl⟩⟩
  | cons req rest ih =>
    unfold takeReqs
    split
    · obtain ⟨es, hes, hsilent, -⟩ := @ih (d.addReq req)
      have hmove : Moves cfg { d with mrqq := req :: rest }.view (.accept req)
          { d.addReq req with mrqq := rest }.view := Moves.accept rfl
      refine ⟨es ++ [.accept req], (Traces.single hmove).trans hes, hsilent.append ⟨rfl, rfl, rfl⟩, ?_⟩
      intro hnil
      cases (List.append_eq_nil_iff.mp hnil).2
    · next hfull =>
      rw [not_or, Nat.not_lt] at hfull
      exact ⟨[], .nil, .nil, fun _ => ⟨rfl, .inr hfull.2⟩⟩

theorem schedule_moves (hj : j < cfg.nbk) (hnone : (d.bk j).mrq = none) (h : d.schedule j = some (req, d')) :
    Moves cfg d.view (.assign req) (d'.setBank j { d'.bk j with mrq := some req }).view := by
  rw [Frfcfs.schedule_eq] at h
  obtain ⟨r, hr, h⟩ := Option.map_eq_some_iff.mp h
  cases h
  have hmem := Frfcfs.mem_of_stickyReady hr
  have hperm : (d.queue j).Perm (req :: ((d.queue j).reverse.erase req).reverse) := by
    have herase := List.perm_cons_erase (List.mem_reverse.mpr hmem)
    exact ((List.reverse_perm _).symm.trans herase).trans ((List.reverse_perm _).symm.cons req)
  rw [view_setBank]
  exact Moves.assign hj hperm hnone

theorem exists_turn {b : Nat} (hb : b < cfg.nbk) (prio : Nat) :
    ∃ i ∈ List.range cfg.nbk, (i + prio) % cfg.nbk = b := by
  have hpos : 0 < cfg.nbk := Nat.lt_of_le_of_lt (Nat.zero_le b) hb
  have hlt : prio % cfg.nbk < cfg.nbk := Nat.mod_lt _ hpos
  refine ⟨(b + (cfg.nbk - prio % cfg.nbk)) % cfg.nbk, List.mem_range.mpr (Nat.mod_lt _ hpos), ?_⟩
  rw [Nat.mod_add_mod, ← Nat.add_mod_mod]
  have hsum : b + (cfg.nbk - prio % cfg.nbk) + prio % cfg.nbk = b + cfg.nbk := by omega
  rw [hsum, Nat.add_mod_right, Nat.mod_eq_of_lt hb]

theorem schedulerFrfcfs_traces : ∃ es, Traces cfg d.view es (d.schedulerFrfcfs cfg).view ∧ Silent es ∧
      (es = [] → d.schedulerFrfcfs cfg = d ∧ (d.mrqq = [] ∨ cfg.schedQueueSize ≤ d.numPending cfg) ∧
        ∀ b < cfg.nbk, (d.bk b).mrq = none → d.schedule b = none) := by
  obtain ⟨es, hes, hsilent, hidle⟩ := @takeReqs_traces cfg d d.mrqq
  unfold schedulerFrfcfs
  dsimp only
  split
  · next hfound =>
    refine ⟨es, hes, hsilent, ?_⟩
    intro hnil
    obtain ⟨hsame, hroom⟩ := hidle hnil
    have hsame : d.takeReqs cfg d.mrqq = d := hsame
    rw [hsame] at hfound ⊢
    refine ⟨rfl, hroom, ?_⟩
    intro b hb hnone
    obtain ⟨i, hi, rfl⟩ := exists_turn hb d.prio
    have hturn := List.findSome?_eq_none_iff.mp hfound i hi
    rw [if_pos hnone] at hturn
    exact Option.map_eq_none_iff.mp hturn
  · next b req d₂ hfound =>
    obtain ⟨i, hi, hbank⟩ := List.exists_of_findSome?_eq_some hfound
    split at hbank
    · next hnone =>
      obtain ⟨⟨r, d₃⟩, hr, hx⟩ := Option.map_eq_some_iff.mp hbank
      cases hx
      have hpos : 0 < cfg.nbk := Nat.lt_of_le_of_lt (Nat.zero_le i) (List.mem_range.mp hi)
      have hmove := schedule_moves (Nat.mod_lt _ hpos) hnone hr
      exact ⟨.assign r :: es, .cons hes hmove, ⟨hsilent.pushed, hsilent.popped, hsilent.commands⟩,
        fun hnil => by cases hnil⟩
    · cases hbank

theorem scheduler_traces : ∃ es, Traces cfg d.view es (d.scheduler cfg).view ∧ Silent es := by
  unfold scheduler
  split
  · obtain ⟨es, hes, hsilent, -⟩ := @schedulerFifo_traces cfg d
    exact ⟨es, hes, hsilent⟩
  · obtain ⟨es, hes, hsilent, -⟩ := @schedulerFrfcfs_traces cfg d
    exact ⟨es, hes, hsilent⟩

/-! ## Column commands -/

theorem turn_view {isWrite : Bool} (h : d.turn cfg isWrite = .ok d') : d'.view = d.view := by
  unfold turn at h
  split at h
  · cases h
    rfl
  · obtain ⟨rwq, hlen, h⟩ := bind_eq_ok.mp h
    cases h
    have hdata : rwq.contents = d.rwq.contents := FifoPipeline.setMinLength_contents hlen
    unfold view
    rw [hdata]

theorem burst_moves {d₁ : Dram} {rwq : FifoPipeline DramReq} (hreq : (d.bk j).mrq = some req)
    (hturn : d₁.view = d.view) (hpush : d₁.rwq.push (some req) = .ok rwq)
    (hdata : d'.rwq = rwq)
    (hview : { d'.view with data := d₁.view.data } =
      { d₁.view with mrq := update d₁.view.mrq j (sentBurst cfg req) }) :
    Moves cfg d.view (.burst req.core (sentBurst cfg req).isNone) d'.view := by
  have hcontents : d'.view.data = d.view.data ++ [req] := by
    show d'.rwq.contents = _
    rw [hdata, FifoPipeline.push_contents hpush]
    show d₁.view.data ++ [req] = _
    rw [hturn]
  have hafter : d'.view = { d.view with
      data := d.view.data ++ [req]
      mrq := update d.view.mrq j (sentBurst cfg req) } := by
    rw [hturn] at hview
    rw [← hcontents]
    exact congrArg (fun v : View => { v with data := d'.view.data }) hview
  rw [hafter]
  exact Moves.burst hreq

theorem read_moves {grp : Nat} (hreq : (d.bk j).mrq = some req) (h : d.read cfg j grp req = .ok d') :
    Moves cfg d.view (.burst req.core (sentBurst cfg req).isNone) d'.view := by
  obtain ⟨d₁, hturn, h⟩ := bind_eq_ok.mp h
  obtain ⟨rwq, hpush, h⟩ := bind_eq_ok.mp h
  cases h
  apply burst_moves hreq (turn_view hturn) hpush rfl
  rw [view_setBank]
  rfl

theorem write_moves {grp : Nat} (hreq : (d.bk j).mrq = some req) (h : d.write cfg j grp req = .ok d') :
    Moves cfg d.view (.burst req.core (sentBurst cfg req).isNone) d'.view := by
  obtain ⟨d₁, hturn, h⟩ := bind_eq_ok.mp h
  obtain ⟨rwq, hpush, h⟩ := bind_eq_ok.mp h
  cases h
  apply burst_moves hreq (turn_view hturn) hpush rfl
  rw [view_setBank]
  rfl

theorem activate_view (mrq : DramReq) : (d.activate cfg j mrq).view = d.view := by
  refine view_of_mrq (fun b => ?_) rfl rfl rfl rfl rfl
  by_cases hb : b = j
  · subst hb
    simp [activate, setBank]
  · simp [activate, setBank, hb]

theorem precharge_view : (d.precharge cfg j).view = d.view := by
  refine view_of_mrq (fun b => ?_) rfl rfl rfl rfl rfl
  by_cases hb : b = j
  · subst hb
    simp [precharge, setBank]
  · simp [precharge, setBank, hb]

end Dram

/-- The commands that move data. -/
def Command.isColumn : Command → Bool
  | .rd _ _ | .wr _ _ => true
  | _ => false

namespace Dram

variable {cfg : MemoryConfig} {d d' : Dram}

/-- What the bank loop sends: a burst with its column command, or nothing. -/
inductive Sends (cfg : MemoryConfig) (d : Dram) : Dram × Option Command → Prop
  | nothing : Sends cfg d (d, none)
  | row {d₂ c} : c.isColumn = false → d₂.view = d.view → Sends cfg d (d₂, some c)
  | column {d₂ j req c} : (d.bk j).mrq = some req → c.isColumn = true →
      (req.bk = j → Event.command? (.burst req.core (sentBurst cfg req).isNone) = some c) →
      Moves cfg d.view (.burst req.core (sentBurst cfg req).isNone) d₂.view → Sends cfg d (d₂, some c)

theorem Served.sends {j : Nat} {mrq : DramReq} {y : Dram × Option Command} (h : Served cfg d j mrq y)
    (hmrq : (d.bk j).mrq = some mrq) : Sends cfg d y := by
  cases h with
  | read hrd hd =>
    obtain ⟨-, -, -, -, hread, -⟩ := hrd
    refine .column hmrq rfl ?_ (read_moves hmrq hd)
    rintro rfl
    simp [Event.command?, DramReq.core, hread]
  | write hwr hd =>
    obtain ⟨-, -, -, -, hwrite, -⟩ := hwr
    refine .column hmrq rfl ?_ (write_moves hmrq hd)
    rintro rfl
    simp [Event.command?, DramReq.core, hwrite]
  | activate hact => exact .row rfl (activate_view mrq)
  | precharge hpre => exact .row rfl precharge_view
  | nothing => exact .nothing

theorem bankLoop_sends {js : List Nat} {y : Dram × Option Command}
    (h : js.foldlM (issueBank cfg) (d, none) = .ok y) : Sends cfg d y := by
  cases bankLoop_serves h with
  | nothing => exact .nothing
  | one _ hmrq hserved => exact hserved.sends hmrq

theorem cycle_traces {log : List Event} (hatom : 0 < cfg.dramAtomSize) (hlog : History cfg log d.view)
    (h : d.cycle cfg = .ok d') : ∃ es, Traces cfg d.view es d'.view ∧ Event.pushed es = [] ∧
      Event.popped es = [] ∧ ∃ c : Option Command, Event.commands es = c.toList.filter Command.isColumn ∧
        d'.commands.map Prod.snd = c.toList ++ d.commands.map Prod.snd := by
  obtain ⟨d₁, hout, h⟩ := bind_eq_ok.mp h
  obtain ⟨⟨d₂, command⟩, hloop, h⟩ := bind_eq_ok.mp h
  cases h
  have hquiet : Quiet d (d₁.scheduler cfg) := (dataOut_quiet hout).trans scheduler_quiet
  have hview : ((d₂.tick cfg).record command).view = d₂.view :=
    (view_record command).trans view_tick
  have hfront : ∃ es, Traces cfg d.view es (d₁.scheduler cfg).view ∧ Silent es := by
    obtain ⟨es, hes, hsilent⟩ := @scheduler_traces cfg d₁
    obtain ⟨es', hes', hsilent'⟩ := (dataOut_outs hout).traces
    exact ⟨es ++ es', hes'.trans hes, hsilent.append hsilent'⟩
  obtain ⟨es, hes, hsilent⟩ := hfront
  have hissued : ∀ c, command = some c → ((d₂.tick cfg).record command).commands.map Prod.snd =
      c :: d.commands.map Prod.snd := by
    rintro c rfl
    have hissues : Issues cfg (d₁.scheduler cfg) d₂ c := bankLoop_ok hloop
    show c :: d₂.commands.map Prod.snd = _
    rw [hissues.commands, hquiet.commands]
  cases bankLoop_sends hloop with
  | nothing =>
    refine ⟨es, hview ▸ hes, hsilent.pushed, hsilent.popped, none, hsilent.commands, ?_⟩
    exact congrArg (List.map Prod.snd) hquiet.commands
  | @row _ c hrow hsame =>
    rw [hsame] at hview
    refine ⟨es, hview ▸ hes, hsilent.pushed, hsilent.popped, some c, ?_, hissued c rfl⟩
    rw [hsilent.commands, Option.toList_some, List.filter_cons_of_neg (by simp [hrow])]
    rfl
  | @column _ j req c hreq hcolumn hcommand hmove =>
    have hbk : req.bk = j :=
      (((hlog.append hes hsilent.pushed).accounts hatom).1.bank j req hreq).1
    refine ⟨.burst req.core (sentBurst cfg req).isNone :: es, ?_, hsilent.pushed, hsilent.popped, some c,
      ?_, hissued c rfl⟩
    · rw [hview]
      exact .cons hes hmove
    unfold Event.commands
    rw [List.filterMap_cons_some (hcommand hbk)]
    show c :: Event.commands es = _
    rw [hsilent.commands, Option.toList_some, List.filter_cons_of_pos hcolumn]
    rfl

end Dram

end GpgpuSimRuby.Memory
