import GpgpuSimRuby.Cache.TexCache

/-!
# The steps of the texture cache

What an access, a cycle and a fill do, with their assertions: of the FIFOs none can fail, since room is
looked for before anything is pushed and nothing is popped that is empty.
-/

namespace GpgpuSimRuby.Cache

open Library Function

namespace TexCache

variable {tc : TexConfig} {s t : TexCache} {mf : MemFetch} {addr time : Nat}

structure WellFormed (s : TexCache) : Prop where
  fragmentFifo : s.fragmentFifo.WellFormed
  requestFifo : s.requestFifo.WellFormed
  rob : s.rob.WellFormed
  resultFifo : s.resultFifo.WellFormed

/-- No line is reserved between two calls. -/
def Settled (lines : Lines) : Prop := ∀ i, (lines i).status = .invalid ∨ (lines i).status = .valid

/-- The entry of an access that has found its block in the line `index`, or has reserved it. -/
def entry (s : TexCache) (mf : MemFetch) (index : Nat) (miss : Bool) : FragmentEntry :=
  ⟨mf, index, miss, s.dataSize mf.id⟩

/-- What an access does. -/
inductive Accesses (tc : TexConfig) (s : TexCache) (addr : Nat) (mf : MemFetch) (time : Nat) :
    CacheRequestStatus → TexCache → Prop
  | full : s.fragmentFifo.full ∨ s.requestFifo.full ∨ s.rob.full →
      Accesses tc s addr mf time .reservationFail s
  | hit {index place fragmentFifo} :
      s.fragmentFifo.full = false → s.requestFifo.full = false → s.rob.full = false →
      Lines.probe tc.cfg s.tags (tc.cfg.blockAddr addr) = .ok (.hit index) →
      s.fragmentFifo.push (s.entry mf index false) = .ok (place, fragmentFifo) →
      Accesses tc s addr mf time .hitReserved { s with
        tags := Lines.setLine s.tags index { s.tags index with lastAccessTime := time }
        fragmentFifo }
  | miss {index place fragmentFifo robIndex rob place' requestFifo} :
      s.fragmentFifo.full = false → s.requestFifo.full = false → s.rob.full = false →
      Lines.probe tc.cfg s.tags (tc.cfg.blockAddr addr) = .ok (.miss index) →
      s.fragmentFifo.push (s.entry mf index true) = .ok (place, fragmentFifo) →
      s.rob.push ⟨false, index, mf, tc.cfg.blockAddr addr⟩ = .ok (robIndex, rob) →
      s.requestFifo.push mf = .ok (place', requestFifo) →
      Accesses tc s addr mf time .miss { s with
        tags := Lines.setStatus (Lines.allocate tc.cfg s.tags index (tc.cfg.blockAddr addr) time) index .valid
        fragmentFifo
        rob
        requestFifo
        extraMfFields := update s.extraMfFields mf.id (some robIndex)
        dataSize := update s.dataSize mf.id tc.cfg.lineSz }

theorem not_full (h : ¬ (s.fragmentFifo.full || s.requestFifo.full || s.rob.full) = true) :
    s.fragmentFifo.full = false ∧ s.requestFifo.full = false ∧ s.rob.full = false := by
  rw [Bool.not_eq_true, Bool.or_eq_false_iff, Bool.or_eq_false_iff] at h
  exact ⟨h.1.1, h.1.2, h.2⟩

theorem tagAccess_ok (hset : Settled s.tags) {block : Nat} {a : Lines.Accessed}
    (h : Lines.accessClean tc.cfg s.tags block time = .ok a) :
    (∃ index, a.probe = .hit index ∧ Lines.probe tc.cfg s.tags block = .ok (.hit index) ∧
      a.lines = Lines.setLine s.tags index { s.tags index with lastAccessTime := time }) ∨
    (∃ index, a.probe = .miss index ∧ Lines.probe tc.cfg s.tags block = .ok (.miss index) ∧
      a.lines = Lines.allocate tc.cfg s.tags index block time) ∨ a.probe = .reservationFail := by
  obtain ⟨hprobe, hanswered⟩ := Lines.access_ok (Lines.accessClean_ok h).1
  cases hp : a.probe with
  | hit index =>
    rw [hp] at hprobe hanswered
    exact .inl ⟨index, rfl, hprobe, hanswered.1⟩
  | hitReserved index =>
    rw [hp] at hprobe
    have hreserved : (s.tags index).status = .reserved := (Lines.probe_ok hprobe).2.2
    rcases hset index with hstatus | hstatus <;> cases hreserved.symm.trans hstatus
  | miss index =>
    rw [hp] at hprobe hanswered
    unfold Lines.Answered at hanswered
    dsimp only at hanswered
    rw [if_pos tc.isOnMiss] at hanswered
    exact .inr (.inl ⟨index, rfl, hprobe, hanswered.1⟩)
  | reservationFail => exact .inr (.inr rfl)

theorem requestBlock_ok {block index : Nat} (h : s.requestBlock tc mf block index = .ok t) :
    ∃ robIndex rob place requestFifo, s.rob.push ⟨false, index, mf, block⟩ = .ok (robIndex, rob) ∧
      s.requestFifo.push mf = .ok (place, requestFifo) ∧
      t = { s with
        rob
        extraMfFields := update s.extraMfFields mf.id (some robIndex)
        dataSize := update s.dataSize mf.id tc.cfg.lineSz
        tags := Lines.setStatus s.tags index .valid
        requestFifo } := by
  obtain ⟨⟨robIndex, rob⟩, hrob, h⟩ := bind_eq_ok.mp h
  obtain ⟨tags, htags, h⟩ := bind_eq_ok.mp h
  obtain ⟨⟨place, requestFifo⟩, hrequest, h⟩ := bind_eq_ok.mp h
  cases h
  obtain ⟨_, -, hfill⟩ := bind_eq_ok.mp (mapError_eq_ok.mp htags)
  obtain ⟨-, rfl⟩ := Lines.fillLine_ok hfill
  exact ⟨robIndex, rob, place, requestFifo, mapError_eq_ok.mp hrob, mapError_eq_ok.mp hrequest, rfl⟩

theorem access_ok (hset : Settled s.tags) {status : CacheRequestStatus}
    (h : s.access tc addr mf time = .ok (status, t)) : Accesses tc s addr mf time status t := by
  unfold access at h
  split at h
  · next hfull =>
    cases h
    apply Accesses.full
    simpa [or_assoc] using hfull
  · next hroom =>
    obtain ⟨hfragment, hrequest, hrob⟩ := not_full hroom
    obtain ⟨_, -, h⟩ := bind_eq_ok.mp h
    obtain ⟨a, ha, h⟩ := bind_eq_ok.mp h
    obtain ⟨_, hfail, h⟩ := bind_eq_ok.mp h
    obtain ⟨_, -, h⟩ := bind_eq_ok.mp h
    obtain ⟨⟨place, fragmentFifo⟩, hpush, h⟩ := bind_eq_ok.mp h
    have hpush := mapError_eq_ok.mp hpush
    rcases tagAccess_ok hset (mapError_eq_ok.mp ha) with
      ⟨index, hp, hprobe, hlines⟩ | ⟨index, hp, hprobe, hlines⟩ | hp
    · rw [hp] at hpush h
      cases h
      rw [hlines]
      exact .hit hfragment hrequest hrob hprobe hpush
    · rw [hp] at hpush h
      obtain ⟨u, hu, h⟩ := bind_eq_ok.mp h
      cases h
      obtain ⟨robIndex, rob, place', requestFifo, hrobPush, hrequestPush, rfl⟩ := requestBlock_ok hu
      dsimp only
      rw [hlines]
      exact .miss hfragment hrequest hrob hprobe hpush hrobPush hrequestPush
    · rw [hp] at hfail
      exact absurd rfl (assert_eq_ok.mp hfail)

theorem access_error (hw : s.WellFormed) (hset : Settled s.tags) {e : TexFault}
    (h : s.access tc addr mf time = .error e) :
    e = .dataSize ∨ e = .tagReservationFail ∨ ∃ f, e = .tags f := by
  unfold access at h
  split at h
  · cases h
  · next hroom =>
    obtain ⟨hfragment, hrequest, hrob⟩ := not_full hroom
    rcases bind_eq_error.mp h with h | ⟨_, -, h⟩
    · exact .inl (assert_eq_error.mp h).2.symm
    rcases bind_eq_error.mp h with h | ⟨a, ha, h⟩
    · obtain ⟨f, -, rfl⟩ := mapError_eq_error.mp h
      exact .inr (.inr ⟨f, rfl⟩)
    rcases bind_eq_error.mp h with h | ⟨_, -, h⟩
    · exact .inr (.inl (assert_eq_error.mp h).2.symm)
    rcases bind_eq_error.mp h with h | ⟨_, -, h⟩
    · have hreserved : a.probe.status = .hitReserved := not_not.mp (assert_eq_error.mp h).1
      rcases tagAccess_ok hset (mapError_eq_ok.mp ha) with ⟨_, hp, -⟩ | ⟨_, hp, -⟩ | hp <;>
        · rw [hp] at hreserved
          cases hreserved
    rcases bind_eq_error.mp h with h | ⟨⟨place, fragmentFifo⟩, hpush, h⟩
    · obtain ⟨f, hpush, -⟩ := mapError_eq_error.mp h
      obtain ⟨_, hok, -⟩ := hw.fragmentFifo.push hfragment
        ⟨mf, a.probe.index (wordSize - 1), decide (a.probe.status = .miss), s.dataSize mf.id⟩
      cases hpush.symm.trans hok
    dsimp only at h
    split at h
    · rcases bind_eq_error.mp h with h | ⟨u, -, h⟩
      · rcases bind_eq_error.mp h with h | ⟨⟨robIndex, rob⟩, -, h⟩
        · obtain ⟨f, hpush, -⟩ := mapError_eq_error.mp h
          obtain ⟨_, hok, -⟩ := hw.rob.push hrob
            ⟨false, a.probe.index (wordSize - 1), mf, tc.cfg.blockAddr addr⟩
          cases hpush.symm.trans hok
        rcases bind_eq_error.mp h with h | ⟨tags, -, h⟩
        · obtain ⟨f, -, rfl⟩ := mapError_eq_error.mp h
          exact .inr (.inr ⟨f, rfl⟩)
        have h := bind_return_eq_error.mp h
        obtain ⟨f, hpush, -⟩ := mapError_eq_error.mp h
        obtain ⟨_, hok, -⟩ := hw.requestFifo.push hrequest mf
        cases hpush.symm.trans hok
      · cases h
    · cases h

/-! ## Cycles -/

theorem sendRequest_ok (hw : s.WellFormed) (memportFull : Bool) :
    ∃ sent requestFifo, s.sendRequest memportFull = .ok (sent, { s with requestFifo }) ∧
      requestFifo.WellFormed ∧ s.requestFifo.contents = sent.toList ++ requestFifo.contents ∧
      (memportFull = false → s.requestFifo.contents ≠ [] → sent ≠ none) := by
  unfold sendRequest
  split
  · next hsend =>
    obtain ⟨hempty, -⟩ := hsend
    obtain ⟨mf, rest, hcons⟩ := List.exists_cons_of_ne_nil (RingBuffer.empty_eq_false.mp hempty)
    obtain ⟨requestFifo, hpop, hwell, hrest, -⟩ := hw.requestFifo.pop hcons
    rw [RingBuffer.top_eq hw.requestFifo hcons, mapError_eq_ok.mpr hpop]
    refine ⟨some mf, requestFifo, rfl, hwell, ?_, fun _ _ hnone => by cases hnone⟩
    rw [hcons, hrest]
    rfl
  · next hkeep =>
    refine ⟨none, s.requestFifo, rfl, hw.requestFifo, rfl, ?_⟩
    intro hport hne
    exact absurd ⟨RingBuffer.empty_eq_false.mpr hne, hport⟩ hkeep

/-- The block that a fragment needs. -/
def block (tc : TexConfig) (e : FragmentEntry) : Nat := tc.cfg.blockAddr e.request.addr

/-- The data array after a fragment was served. -/
def stored (tc : TexConfig) (cache : Nat → DataBlock) (e : FragmentEntry) : Nat → DataBlock :=
  update cache e.cacheIndex ⟨true, block tc e⟩

/-- The entries of the reorder buffer are those of the misses among the fragments, in their order. -/
structure Lockstep (tc : TexConfig) (s : TexCache) : Prop where
  entries : (s.rob.contents.map fun r => (r.request, r.index)) =
    (s.fragmentFifo.contents.filter (·.miss)).map fun e => (e.request, e.cacheIndex)
  blocks : ∀ r ∈ s.rob.contents, r.blockAddr = tc.cfg.blockAddr r.request.addr

/-- The oldest fragment has to wait: for room, or for its block. -/
def Waits (s : TexCache) : Prop :=
  s.fragmentFifo.contents = [] ∨ s.resultFifo.full = true ∨
    ∃ e es r rs, s.fragmentFifo.contents = e :: es ∧ e.miss = true ∧ s.rob.contents = r :: rs ∧
      r.ready = false

/-- What a cycle does to the fragments. -/
inductive Serves (tc : TexConfig) (s : TexCache) : TexCache → Prop
  | waits : Waits s → Serves tc s s
  | miss {e es r rs place resultFifo rob fragmentFifo} : s.fragmentFifo.contents = e :: es → e.miss = true →
      s.rob.contents = r :: rs → r.ready = true → r.request = e.request →
      s.resultFifo.full = false → s.resultFifo.push e.request = .ok (place, resultFifo) →
      s.rob.pop = .ok (r, rob) → s.fragmentFifo.pop = .ok (e, fragmentFifo) →
      Serves tc s { s with cache := stored tc s.cache e, resultFifo, rob, fragmentFifo }
  | hit {e es place resultFifo fragmentFifo} : s.fragmentFifo.contents = e :: es → e.miss = false →
      (s.cache e.cacheIndex).valid = true → block tc e ≠ 0 →
      s.resultFifo.full = false → s.resultFifo.push e.request = .ok (place, resultFifo) →
      s.fragmentFifo.pop = .ok (e, fragmentFifo) →
      Serves tc s { s with cache := stored tc s.cache e, resultFifo, fragmentFifo }

/-- The assertions on a hit hold. -/
def Servable (tc : TexConfig) (s : TexCache) (e : FragmentEntry) : Prop :=
  (s.cache e.cacheIndex).valid = true ∧ block tc e ≠ 0

theorem Lockstep.head (h : Lockstep tc s) {e : FragmentEntry} {es : List FragmentEntry}
    (hcons : s.fragmentFifo.contents = e :: es) (hmiss : e.miss = true) :
    ∃ r rs, s.rob.contents = r :: rs ∧ r.request = e.request ∧ r.index = e.cacheIndex ∧
      r.blockAddr = block tc e ∧
      (rs.map fun r => (r.request, r.index)) =
        (es.filter (·.miss)).map fun e => (e.request, e.cacheIndex) := by
  have hentries := h.entries
  rw [hcons, List.filter_cons_of_pos hmiss, List.map_cons] at hentries
  cases hrob : s.rob.contents with
  | nil =>
    rw [hrob] at hentries
    cases hentries
  | cons r rs =>
    rw [hrob, List.map_cons] at hentries
    obtain ⟨hhead, htail⟩ := List.cons_eq_cons.mp hentries
    obtain ⟨hrequest, hindex⟩ := Prod.mk.inj hhead
    have hblock := h.blocks r (by rw [hrob]; exact List.mem_cons_self)
    refine ⟨r, rs, rfl, hrequest, hindex, ?_, htail⟩
    rw [hblock, hrequest]
    rfl

theorem peek_head (hw : s.WellFormed) {r : RobEntry} {rs : List RobEntry}
    (hrob : s.rob.contents = r :: rs) : s.rob.peek s.rob.nextPopIndex = .ok r := by
  have hnum : 0 < s.rob.num := by
    rw [← RingBuffer.length_contents, hrob]
    exact Nat.succ_pos _
  have hslot := RingBuffer.slot_zero hw.rob (Nat.lt_of_lt_of_le hnum hw.rob.num)
  have hpeek := hw.rob.peek hnum
  rw [hslot] at hpeek
  have hdata : s.rob.data s.rob.tail = r := RingBuffer.top_eq hw.rob hrob
  rw [hdata] at hpeek
  exact hpeek

theorem serveFragment_cases (hw : s.WellFormed) (hl : Lockstep tc s) :
    (∃ t, s.serveFragment tc = .ok t ∧ Serves tc s t) ∨
      ∃ e es f, s.fragmentFifo.contents = e :: es ∧ e.miss = false ∧ s.resultFifo.full = false ∧
        ¬ Servable tc s e ∧ s.serveFragment tc = .error f ∧ (f = .dataValid ∨ f = .dataBlock) := by
  unfold serveFragment
  by_cases hgo : s.fragmentFifo.empty = false ∧ s.resultFifo.full = false
  case neg =>
    rw [if_neg hgo]
    refine .inl ⟨s, rfl, .waits ?_⟩
    by_cases hnil : s.fragmentFifo.contents = []
    · exact .inl hnil
    · refine .inr (.inl ?_)
      by_contra hfull
      exact hgo ⟨RingBuffer.empty_eq_false.mpr hnil, (Bool.not_eq_true _).mp hfull⟩
  rw [if_pos hgo]
  obtain ⟨hempty, hfull⟩ := hgo
  obtain ⟨e, es, hcons⟩ := List.exists_cons_of_ne_nil (RingBuffer.empty_eq_false.mp hempty)
  obtain ⟨fragmentFifo, hpop, -⟩ := hw.fragmentFifo.pop hcons
  obtain ⟨resultFifo, hpush, -⟩ := hw.resultFifo.push hfull e.request
  rw [RingBuffer.top_eq hw.fragmentFifo hcons]
  dsimp only
  cases hmiss : e.miss with
  | true =>
    obtain ⟨r, rs, hrob, hrequest, hindex, hblock, -⟩ := hl.head hcons hmiss
    obtain ⟨rob, hrobPop, -⟩ := hw.rob.pop hrob
    refine .inl ?_
    rw [if_pos rfl]
    unfold serveMiss
    have hown : r.blockAddr = tc.cfg.blockAddr e.request.addr := hblock
    rw [mapError_eq_ok.mpr (peek_head hw hrob), ok_bind, assert_pos hrequest, ok_bind, assert_pos hown,
      ok_bind]
    cases hready : r.ready with
    | true =>
      rw [if_pos rfl, assert_pos hindex, ok_bind, mapError_eq_ok.mpr hpush, mapError_eq_ok.mpr hrobPop,
        mapError_eq_ok.mpr hpop, hindex, hblock]
      exact ⟨_, rfl, .miss hcons hmiss hrob hready hrequest hfull hpush hrobPop hpop⟩
    | false =>
      rw [if_neg (by decide)]
      exact ⟨s, rfl, .waits (.inr (.inr ⟨e, es, r, rs, hcons, hmiss, hrob, hready⟩))⟩
  | false =>
    rw [if_neg (by decide)]
    unfold serveHit
    by_cases hvalid : (s.cache e.cacheIndex).valid = true
    case neg =>
      rw [assert_neg hvalid]
      exact .inr ⟨e, es, .dataValid, hcons, hmiss, hfull, fun h => hvalid h.1, rfl, .inl rfl⟩
    by_cases hblock : block tc e = 0
    · refine .inr ⟨e, es, .dataBlock, hcons, hmiss, hfull, fun h => h.2 hblock, ?_, .inr rfl⟩
      rw [assert_pos hvalid, ok_bind]
      dsimp only
      have hzero : ¬ tc.cfg.blockAddr e.request.addr ≠ 0 := not_not.mpr hblock
      rw [assert_neg hzero]
      rfl
    · refine .inl ?_
      rw [assert_pos hvalid, ok_bind]
      dsimp only
      have hpos : tc.cfg.blockAddr e.request.addr ≠ 0 := hblock
      rw [assert_pos hpos, ok_bind, mapError_eq_ok.mpr hpush, mapError_eq_ok.mpr hpop]
      have hserved : Serves tc s _ := .hit hcons hmiss hvalid hblock hfull hpush hpop
      unfold stored at hserved
      rw [hvalid]
      exact ⟨_, rfl, hserved⟩

/-! ## Blocks from memory, and results -/

/-- Every entry of the reorder buffer is found by its request. -/
def Placed (s : TexCache) : Prop :=
  ∀ i r, s.rob.contents[i]? = some r → s.extraMfFields r.request.id = some (s.rob.slot i)

theorem fill_ok (hw : s.WellFormed) (hl : Lockstep tc s) (hp : Placed s) {i : Nat} {r : RobEntry}
    (hr : s.rob.contents[i]? = some r) (hready : r.ready = false) :
    ∃ rob, s.fill tc r.request = .ok { s with rob } ∧ rob.WellFormed ∧
      rob.contents = s.rob.contents.modify i (fun r => { r with ready := true }) ∧
      ∀ j, rob.slot j = s.rob.slot j := by
  have hi : i < s.rob.num := by
    rw [← RingBuffer.length_contents]
    exact (List.getElem?_eq_some_iff.mp hr).1
  have hdata : s.rob.data (s.rob.slot i) = r :=
    Option.some.inj ((RingBuffer.getElem?_contents hi).symm.trans hr)
  have hempty : s.rob.empty = false := by
    rw [RingBuffer.empty_eq_false]
    intro hnil
    rw [hnil] at hr
    cases hr
  have hpeek := hw.rob.peek hi
  rw [hdata] at hpeek
  obtain ⟨rob, hmodify, hwell, hcontents, -, hslot⟩ :=
    hw.rob.modify hi fun r : RobEntry => { r with ready := true }
  unfold fill
  rw [hp i r hr]
  dsimp only
  rw [assert_pos hempty, ok_bind, mapError_eq_ok.mpr hpeek, ok_bind, assert_pos hready, ok_bind,
    mapError_eq_ok.mpr hmodify, ok_bind, assert_pos (hl.blocks r (List.mem_of_getElem? hr))]
  exact ⟨rob, rfl, hwell, hcontents, hslot⟩

theorem nextAccess_ok (hw : s.WellFormed) {rest : List MemFetch}
    (hcons : s.resultFifo.contents = mf :: rest) :
    ∃ resultFifo, s.nextAccess = .ok (mf, { s with resultFifo }) ∧ resultFifo.WellFormed ∧
      resultFifo.contents = rest ∧ resultFifo.size = s.resultFifo.size := by
  obtain ⟨resultFifo, hpop, hwell, hrest, hsize, -⟩ := hw.resultFifo.pop hcons
  unfold nextAccess
  rw [mapError_eq_ok.mpr hpop]
  exact ⟨resultFifo, rfl, hwell, hrest, hsize⟩

theorem accessReady_iff : s.accessReady = true ↔ s.resultFifo.contents ≠ [] := by
  unfold accessReady
  rw [Bool.not_eq_true', RingBuffer.empty_eq_false]

end TexCache

end GpgpuSimRuby.Cache
