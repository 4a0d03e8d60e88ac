import GpgpuSimRuby.Cache.TexInvariant
import GpgpuSimRuby.Library.Draining

/-!
# What the texture cache delivers

The tags are ahead of the data array by the fragments that wait. Replaying these on the data array
gives what the tags say, so a hit finds its block when its turn comes, whatever was reserved in
between, if it was a hit on its own block. The assertion that would check this assigns; it fails on
every hit for block `0`.
-/

namespace GpgpuSimRuby.Cache

open Library Function

namespace TexCache

variable {tc : TexConfig} {cache : Nat → DataBlock} {frags : List FragmentEntry} {e : FragmentEntry}

/-! ## Replaying the fragments -/

/-- The data array after all of the fragments were served. -/
def replay (tc : TexConfig) (cache : Nat → DataBlock) (frags : List FragmentEntry) : Nat → DataBlock :=
  frags.foldl (stored tc) cache

/-- Each hit finds its own block, which is not `0`. -/
def Agree (tc : TexConfig) : (Nat → DataBlock) → List FragmentEntry → Prop
  | _, [] => True
  | cache, e :: es =>
    (e.miss = false → cache e.cacheIndex = ⟨true, block tc e⟩ ∧ block tc e ≠ 0) ∧
      Agree tc (stored tc cache e) es

theorem replay_append : replay tc cache (frags ++ [e]) = stored tc (replay tc cache frags) e := by
  unfold replay
  rw [List.foldl_append]
  rfl

theorem Agree.append (h : Agree tc cache frags) (he : e.miss = false →
    replay tc cache frags e.cacheIndex = ⟨true, block tc e⟩ ∧ block tc e ≠ 0) :
    Agree tc cache (frags ++ [e]) := by
  induction frags generalizing cache with
  | nil => exact ⟨he, trivial⟩
  | cons e' es ih =>
    obtain ⟨hhead, htail⟩ := h
    exact ⟨hhead, ih htail he⟩

@[simp]
theorem stored_self : stored tc cache e e.cacheIndex = ⟨true, block tc e⟩ := update_self ..

theorem stored_of_ne {i : Nat} (h : i ≠ e.cacheIndex) : stored tc cache e i = cache i :=
  update_of_ne h ..

/-- The tags are what the data array will be. -/
structure Ahead (tc : TexConfig) (s : TexCache) : Prop where
  agree : Agree tc s.cache s.fragmentFifo.contents
  current : ∀ i, (s.tags i).status = .valid →
    replay tc s.cache s.fragmentFifo.contents i = ⟨true, (s.tags i).blockAddr⟩

/-- Every accepted hit is on its own block, which is not `0`. -/
def Own (tc : TexConfig) (s : TexCache) (mf : MemFetch) : Prop :=
  ∀ index, s.fragmentFifo.full = false → s.requestFifo.full = false → s.rob.full = false →
    Lines.probe tc.cfg s.tags (tc.cfg.blockAddr mf.addr) = .ok (.hit index) →
    (s.tags index).blockAddr = tc.cfg.blockAddr mf.addr ∧ tc.cfg.blockAddr mf.addr ≠ 0

variable {s t : TexCache} {mf : MemFetch} {time : Nat} {status : CacheRequestStatus}

theorem status_of_hit (hset : Settled s.tags) {block index : Nat}
    (hprobe : Lines.probe tc.cfg s.tags block = .ok (.hit index)) : (s.tags index).status = .valid := by
  rcases hset index with hinvalid | hvalid
  · rcases (Lines.probe_ok hprobe).2.2 with hst | hst <;> cases hinvalid.symm.trans hst
  · exact hvalid

theorem Ahead.access (h : Ahead tc s) (hw : s.WellFormed) (hset : Settled s.tags) (hown : Own tc s mf)
    (ha : Accesses tc s mf.addr mf time status t) : Ahead tc t := by
  cases ha with
  | full => exact h
  | @hit index place fragmentFifo hfragment hrequest hrob hprobe hpush =>
    obtain ⟨_, hok, -, hcontents, -⟩ := hw.fragmentFifo.push hfragment (s.entry mf index false)
    cases hpush.symm.trans hok
    obtain ⟨hblock, hne⟩ := hown index hfragment hrequest hrob hprobe
    have hvalid := h.current index (status_of_hit hset hprobe)
    rw [hblock] at hvalid
    constructor
    · dsimp only
      rw [hcontents]
      exact h.agree.append fun _ => ⟨hvalid, hne⟩
    · intro i hi
      dsimp only at hi ⊢
      rw [hcontents, replay_append]
      by_cases hindex : i = index
      · subst hindex
        rw [Lines.setLine_self]
        dsimp only
        rw [hblock]
        exact stored_self
      · rw [Lines.setLine_of_ne hindex] at hi ⊢
        rw [stored_of_ne hindex]
        exact h.current i hi
  | @miss index place fragmentFifo robIndex rob place' requestFifo hfragment hrequest hrob hprobe hpush
      hpushRob hpushRequest =>
    obtain ⟨_, hok, -, hcontents, -⟩ := hw.fragmentFifo.push hfragment (s.entry mf index true)
    cases hpush.symm.trans hok
    constructor
    · dsimp only
      rw [hcontents]
      apply h.agree.append
      intro hmiss
      cases hmiss
    · intro i hi
      unfold Lines.setStatus Lines.allocate at hi ⊢
      dsimp only at hi ⊢
      rw [Lines.setLine_setLine] at hi ⊢
      rw [hcontents, replay_append]
      by_cases hindex : i = index
      · subst hindex
        rw [Lines.setLine_self]
        dsimp only
        rw [Lines.setLine_self]
        dsimp only
        rw [CacheConfig.blockAddr_blockAddr]
        exact stored_self
      · rw [Lines.setLine_of_ne hindex] at hi ⊢
        rw [stored_of_ne hindex]
        exact h.current i hi

theorem Ahead.serve (h : Ahead tc s) (hw : s.WellFormed) (hserves : Serves tc s t) : Ahead tc t := by
  cases hserves with
  | waits => exact h
  | miss hcons _ _ _ _ _ _ _ hpop =>
    obtain ⟨_, hok, -, hrest, -⟩ := hw.fragmentFifo.pop hcons
    cases hpop.symm.trans hok
    obtain ⟨hagree, hcurrent⟩ := h
    rw [hcons] at hagree hcurrent
    rw [← hrest] at hagree hcurrent
    exact ⟨hagree.2, hcurrent⟩
  | hit hcons _ _ _ _ _ hpop =>
    obtain ⟨_, hok, -, hrest, -⟩ := hw.fragmentFifo.pop hcons
    cases hpop.symm.trans hok
    obtain ⟨hagree, hcurrent⟩ := h
    rw [hcons] at hagree hcurrent
    rw [← hrest] at hagree hcurrent
    exact ⟨hagree.2, hcurrent⟩

theorem Ahead.servable (h : Ahead tc s) {es : List FragmentEntry} (hcons : s.fragmentFifo.contents = e :: es)
    (hmiss : e.miss = false) : s.cache e.cacheIndex = ⟨true, block tc e⟩ ∧ Servable tc s e := by
  have hagree := h.agree
  rw [hcons] at hagree
  obtain ⟨hown, hne⟩ := hagree.1 hmiss
  refine ⟨hown, ?_, hne⟩
  rw [hown]

end TexCache

namespace TexRun

variable {tc : TexConfig} {s t : TexRun} {a : TexAct} {e : TexFault}

/-! ## Runs -/

/-- No accepted hit is for block `0`, and none is on a line that has another block. -/
def OwnHits (tc : TexConfig) (s : TexRun) : TexAct → Prop
  | .access mf _ _ => TexCache.Own tc s.core mf
  | _ => True

structure Good (tc : TexConfig) (s : TexRun) : Prop where
  inv : Inv tc s
  ahead : TexCache.Ahead tc s.core
  size : s.core.resultFifo.size = tc.resultFifoEntries

theorem good_init : Good tc (texCache tc).init where
  inv := inv_init
  ahead := by
    refine ⟨trivial, ?_⟩
    intro i hi
    cases hi
  size := rfl

theorem served {core core' : TexCache} (hw : core.WellFormed) (h : TexCache.Serves tc core core') :
    core'.resultFifo.size = core.resultFifo.size ∧ core'.requestFifo = core.requestFifo ∧
      ((TexCache.Waits core ∧ core' = core) ∨
        ∃ e, core.fragmentFifo.contents = e :: core'.fragmentFifo.contents ∧
          core'.resultFifo.contents = core.resultFifo.contents ++ [e.request]) := by
  cases h with
  | waits hwaits => exact ⟨rfl, rfl, .inl ⟨hwaits, rfl⟩⟩
  | miss hcons _ _ _ _ hfull hpush _ hpop =>
    obtain ⟨_, hok, -, hrest, -⟩ := hw.fragmentFifo.pop hcons
    cases hpop.symm.trans hok
    obtain ⟨_, hok, -, hresult, hsize, -⟩ := hw.resultFifo.push hfull _
    cases hpush.symm.trans hok
    refine ⟨hsize, rfl, .inr ⟨_, ?_, hresult⟩⟩
    rw [hrest, hcons]
  | hit hcons _ _ _ hfull hpush hpop =>
    obtain ⟨_, hok, -, hrest, -⟩ := hw.fragmentFifo.pop hcons
    cases hpop.symm.trans hok
    obtain ⟨_, hok, -, hresult, hsize, -⟩ := hw.resultFifo.push hfull _
    cases hpush.symm.trans hok
    refine ⟨hsize, rfl, .inr ⟨_, ?_, hresult⟩⟩
    rw [hrest, hcons]

/-- **A step** that meets the condition keeps the data array in agreement. -/
theorem Good.step (h : Good tc s) (hown : OwnHits tc s a) (hs : (texCache tc).step s a = some (.ok t)) :
    Good tc t := by
  have hsteps := h.inv.steps hs
  have hinv := h.inv.step hsteps
  obtain ⟨hagree, hcurrent⟩ := h.ahead
  cases hsteps with
  | @access mf dataSize time status core _ ha =>
    have hafter : TexCache.Ahead tc core :=
      TexCache.Ahead.access (s := { s.core with dataSize := update s.core.dataSize mf.id dataSize })
        ⟨hagree, hcurrent⟩ (h.inv.asked _).wellFormed h.inv.settled hown ha
    have hsize : core.resultFifo.size = tc.resultFifoEntries := by
      cases ha <;> exact h.size
    refine ⟨hinv, ?_, ?_⟩
    · split
      · exact hafter
      · exact hafter
    · split
      · exact hsize
      · exact hsize
  | @cycle memportFull sent requestFifo core hwell hcontents _ hserves =>
    have hw : TexCache.WellFormed { s.core with requestFifo } := (h.inv.send hwell hcontents).wellFormed
    have hbefore : TexCache.Ahead tc { s.core with requestFifo } := ⟨hagree, hcurrent⟩
    exact ⟨hinv, hbefore.serve hw hserves, (served hw hserves).1.trans h.size⟩
  | fill => exact ⟨hinv, ⟨hagree, hcurrent⟩, h.size⟩
  | nextAccess _ _ _ hsize => exact ⟨hinv, ⟨hagree, hcurrent⟩, hsize.trans h.size⟩

theorem Good.step_error (h : Good tc s) (hs : (texCache tc).step s a = some (.error e)) :
    (∃ mf dataSize time, a = .access mf dataSize time) ∧
      (e = .dataSize ∨ e = .tagReservationFail ∨ ∃ f, e = .tags f) := by
  cases h.inv.steps hs with
  | refused he => exact ⟨⟨_, _, _, rfl⟩, he⟩
  | aborted hcons hmiss hnot => exact absurd (h.ahead.servable hcons hmiss).2 hnot

/-! ## Draining -/

/-- The actions without new accesses. -/
def Draining : TexAct → Prop
  | .access .. => False
  | _ => True

/-- How many steps are left for what is in the cache. -/
def pending (s : TexRun) : Nat :=
  2 * s.core.fragmentFifo.contents.length + s.core.resultFifo.contents.length +
    2 * s.core.requestFifo.contents.length + s.memory.length

theorem Good.exists_step (h : Good tc s) (henabled : (texCache tc).step s a ≠ none)
    (hdraining : Draining a) : ∃ t, (texCache tc).step s a = some (.ok t) := by
  cases hs : (texCache tc).step s a with
  | none => exact absurd hs henabled
  | some r =>
    cases r with
    | ok t => exact ⟨t, rfl⟩
    | error e =>
      obtain ⟨⟨mf, dataSize, time, rfl⟩, -⟩ := h.step_error hs
      exact hdraining.elim

/-- A cycle makes progress if there is something to ask for, or the oldest fragment need not wait. -/
theorem Good.progress_cycle (h : Good tc s)
    (hwork : s.core.requestFifo.contents ≠ [] ∨ ¬ TexCache.Waits s.core) :
    ∃ t, (texCache tc).step s (.cycle false) = some (.ok t) ∧ pending t < pending s := by
  obtain ⟨t, ht⟩ := h.exists_step (a := .cycle false) (by intro hnone; cases hnone) trivial
  refine ⟨t, ht, ?_⟩
  cases h.inv.steps ht with
  | @cycle _ sent requestFifo core hwell hcontents hsent hserves =>
    have hw : TexCache.WellFormed { s.core with requestFifo } := (h.inv.send hwell hcontents).wellFormed
    obtain ⟨-, hrequest, hfragments⟩ := served hw hserves
    have hlen := congrArg List.length hcontents
    rw [List.length_append] at hlen
    have hpending : pending { s with core, memory := s.memory ++ sent.toList } + sent.toList.length =
        2 * core.fragmentFifo.contents.length + core.resultFifo.contents.length +
          2 * s.core.requestFifo.contents.length + s.memory.length := by
      unfold pending
      dsimp only
      rw [hrequest, List.length_append, hlen]
      ring
    unfold pending at hpending ⊢
    rcases hfragments with ⟨hwaits, rfl⟩ | ⟨e, hcons, hresult⟩
    · rcases hwork with hne | hserve
      · cases sent with
        | none => exact absurd rfl (hsent rfl hne)
        | some mf =>
          dsimp only [Option.toList_some, List.length_singleton] at hpending ⊢
          omega
      · exact absurd hwaits hserve
    · have hfrag := congrArg List.length hcons
      rw [List.length_cons] at hfrag
      have hres := congrArg List.length hresult
      rw [List.length_append, List.length_singleton] at hres
      dsimp only at hpending hfrag hres ⊢
      omega

theorem Good.progress (h : Good tc s) (hroom : 0 < tc.resultFifoEntries) :
    (s.core.fragmentFifo.contents = [] ∧ s.core.resultFifo.contents = []) ∨
      ∃ a t, Draining a ∧ (texCache tc).step s a = some (.ok t) ∧ Good tc t ∧ pending t < pending s := by
  by_cases hresult : s.core.resultFifo.contents = []
  case neg =>
    obtain ⟨t, ht⟩ := h.exists_step (a := .nextAccess) (by
      unfold texCache
      dsimp only
      rw [if_pos (TexCache.accessReady_iff.mpr hresult)]
      exact Option.some_ne_none _) trivial
    refine .inr ⟨.nextAccess, t, trivial, ht, h.step (a := .nextAccess) trivial ht, ?_⟩
    cases h.inv.steps ht with
    | nextAccess hcons _ hrest =>
      unfold pending
      dsimp only
      rw [hcons, hrest, List.length_cons]
      omega
  by_cases hfragments : s.core.fragmentFifo.contents = []
  case pos => exact .inl ⟨hfragments, hresult⟩
  refine .inr ?_
  by_cases hwork : s.core.requestFifo.contents ≠ [] ∨ ¬ TexCache.Waits s.core
  case pos =>
    obtain ⟨t, ht, hlt⟩ := h.progress_cycle hwork
    exact ⟨.cycle false, t, trivial, ht, h.step (a := .cycle false) trivial ht, hlt⟩
  -- the oldest fragment waits for a block that memory has been asked for
  obtain ⟨hrequests, hwaits⟩ := not_or.mp hwork
  rcases not_not.mp hwaits with hnil | hfull | ⟨e, es, r, rs, -, -, hrob, hready⟩
  · exact absurd hnil hfragments
  · have hnum : s.core.resultFifo.num = s.core.resultFifo.size := of_decide_eq_true hfull
    rw [← RingBuffer.length_contents, hresult, h.size] at hnum
    exact absurd hnum (Nat.ne_of_lt hroom)
  · have hmem : r.request ∈ s.memory := by
      have hout : r.request ∈ (s.core.rob.contents.filter fun r => !r.ready).map RobEntry.request := by
        rw [hrob, List.filter_cons_of_pos (by simp [hready]), List.map_cons]
        exact List.mem_cons_self
      have hin := h.inv.outstanding.mem_iff.mpr hout
      rwa [not_not.mp hrequests, List.nil_append] at hin
    obtain ⟨t, ht⟩ := h.exists_step (a := .fill r.request) (by
      unfold texCache
      dsimp only
      rw [if_pos hmem]
      exact Option.some_ne_none _) trivial
    refine ⟨.fill r.request, t, trivial, ht, h.step (a := .fill r.request) trivial ht, ?_⟩
    cases h.inv.steps ht with
    | fill =>
      have hlen := List.length_erase_of_mem hmem
      have hpos := List.length_pos_of_mem hmem
      unfold pending
      dsimp only
      omega

/-! ## In-order delivery -/

/-- What the cache has been given and what it gives back. -/
structure Delivers (tc : TexConfig) (s : TexRun) : Prop where
  /-- the results are the oldest accesses, the others are on their way in order -/
  order : s.accepted = s.results ++ s.core.resultFifo.contents ++
    s.core.fragmentFifo.contents.map FragmentEntry.request
  once : s.accepted.Nodup
  fifos : ∀ a e, (texCache tc).step s a ≠ some (.error (.fifo e))
  served : ∀ a e, (texCache tc).step s a = some (.error e) →
    ∃ mf dataSize time, a = .access mf dataSize time
  own : ∀ e es, s.core.fragmentFifo.contents = e :: es → e.miss = false →
    s.core.cache e.cacheIndex = ⟨true, TexCache.block tc e⟩
  /-- nothing is lost -/
  drains : ∃ as t, (∀ a ∈ as, Draining a) ∧ (texCache tc).run as s = some t ∧ t.results = s.accepted

theorem Good.order_of_draining (h : Good tc s) (hd : Draining a)
    (hs : (texCache tc).step s a = some (.ok t)) : t.accepted = s.accepted := by
  cases h.inv.steps hs with
  | access => exact hd.elim
  | cycle => rfl
  | fill => rfl
  | nextAccess => rfl

theorem Good.delivers (h : Good tc s) (hroom : 0 < tc.resultFifoEntries) : Delivers tc s where
  order := h.inv.order
  once := h.inv.ids.of_map _
  fifos a e hs := by
    rcases (h.step_error hs).2 with he | he | ⟨f, he⟩ <;> cases he
  served a e hs := (h.step_error hs).1
  own e es hcons hmiss := (h.ahead.servable hcons hmiss).1
  drains := by
    have hprogress : ∀ u, Good tc u ∧ u.accepted = s.accepted →
        (u.core.fragmentFifo.contents = [] ∧ u.core.resultFifo.contents = []) ∨
          ∃ a v, Draining a ∧ (texCache tc).step u a = some (.ok v) ∧
            (Good tc v ∧ v.accepted = s.accepted) ∧ pending v < pending u := by
      rintro u ⟨hu, haccepted⟩
      rcases hu.progress hroom with hdone | ⟨a, v, ha, hv, hgood, hlt⟩
      · exact .inl hdone
      · exact .inr ⟨a, v, ha, hv, ⟨hgood, (hu.order_of_draining ha hv).trans haccepted⟩, hlt⟩
    obtain ⟨as, t, has, hrun, ⟨hgood, haccepted⟩, hfragments, hresult⟩ :=
      Machine.exists_run_of_progress hprogress ⟨h, rfl⟩
    refine ⟨as, t, has, hrun, ?_⟩
    have horder := hgood.inv.order
    rw [hfragments, hresult, List.append_nil, List.map_nil, List.append_nil, haccepted] at horder
    exact horder.symm

/-- **In-order delivery.** In every run whose accepted hits are on their own blocks, none of them
block `0`, and with an entry in the result FIFO. -/
theorem texCache_delivers (hroom : 0 < tc.resultFifoEntries)
    (h : (texCache tc).ReachableUnder (OwnHits tc) s) : Delivers tc s :=
  have hgood : Good tc s := h.invariant good_init fun _ _ _ hs hown ht => hs.step hown ht
  hgood.delivers hroom

/-! ## Sizes that are powers of two

There the tag and the set say which block it is, so a hit can only fail for block `0`. -/

/-- Every block is in a line of its set, under its tag. -/
def Filed (cfg : CacheConfig) (lines : Lines) : Prop :=
  ∀ i, (lines i).status = .valid → i ∈ cfg.ways (lines i).blockAddr ∧
    (lines i).tag = cfg.tag (lines i).blockAddr ∧ cfg.blockAddr (lines i).blockAddr = (lines i).blockAddr

theorem blockAddr_lt (cfg : CacheConfig) (addr : Nat) : cfg.blockAddr addr < wordSize := by
  have hle : cfg.blockAddr addr ≤ wordSize - 1 - (cfg.lineSz + wordSize - 1) % wordSize :=
    Nat.and_le_right
  have hpos : 0 < wordSize := by decide
  omega

theorem setIndex_of_mem {cfg : CacheConfig} {block block' i : Nat} (h : i ∈ cfg.ways block)
    (h' : i ∈ cfg.ways block') : cfg.setIndex block = cfg.setIndex block' := by
  unfold CacheConfig.ways at h h'
  obtain ⟨way, hway, rfl⟩ := List.mem_map.mp h
  obtain ⟨way', hway', heq⟩ := List.mem_map.mp h'
  have hlt := List.mem_range.mp hway
  have hlt' := List.mem_range.mp hway'
  have hpos : 0 < cfg.assoc := Nat.zero_lt_of_lt hlt
  have hdiv := congrArg (· / cfg.assoc) heq
  rw [Nat.mul_comm, Nat.mul_add_div hpos, Nat.mul_comm, Nat.mul_add_div hpos, Nat.div_eq_of_lt hlt,
    Nat.div_eq_of_lt hlt', Nat.add_zero, Nat.add_zero] at hdiv
  exact hdiv.symm

theorem Filed.hit {cfg : CacheConfig} {lines : Lines} (h : Filed cfg lines)
    (hpow : CacheConfig.PowersOfTwo cfg) (hn : cfg.nset < wordSize) (hl : cfg.lineSz < wordSize)
    {addr index : Nat}
    (hvalid : (lines index).status = .valid)
    (hprobe : Lines.probe cfg lines (cfg.blockAddr addr) = .ok (.hit index)) :
    (lines index).blockAddr = cfg.blockAddr addr := by
  obtain ⟨hway, htag, hown⟩ := h index hvalid
  obtain ⟨hway', htag', -⟩ := Lines.probe_ok hprobe
  have hword {x : Nat} (hx : x < wordSize) : x < 2 ^ 64 ∧ x / 2 ^ 32 = 0 :=
    ⟨lt_trans hx (by decide), Nat.div_eq_of_lt hx⟩
  have hlt : (lines index).blockAddr < wordSize := hown ▸ blockAddr_lt cfg _
  obtain ⟨hline, hlineUpper⟩ := hword hlt
  obtain ⟨haddr, haddrUpper⟩ := hword (blockAddr_lt cfg addr)
  have hfaithful := (CacheConfig.powersOfTwo_iff hn hl).mpr hpow _ _ hline haddr
    (hlineUpper.trans haddrUpper.symm)
  have hsame := hfaithful.1.mp (Prod.ext (htag.symm.trans htag') (setIndex_of_mem hway hway'))
  rw [hown, CacheConfig.blockAddr_blockAddr] at hsame
  exact hsame

theorem Filed.access {core core' : TexCache} {mf : MemFetch} {time : Nat} {status : CacheRequestStatus}
    (h : Filed tc.cfg core.tags) (ha : TexCache.Accesses tc core mf.addr mf time status core') :
    Filed tc.cfg core'.tags := by
  cases ha with
  | full => exact h
  | @hit index _ _ _ _ _ hprobe _ =>
    intro i hi
    dsimp only at hi ⊢
    by_cases hindex : i = index
    · subst hindex
      rw [Lines.setLine_self] at hi ⊢
      exact h i hi
    · rw [Lines.setLine_of_ne hindex] at hi ⊢
      exact h i hi
  | @miss index _ _ _ _ _ _ _ _ _ hprobe _ _ _ =>
    intro i hi
    unfold Lines.setStatus Lines.allocate at hi ⊢
    dsimp only at hi ⊢
    rw [Lines.setLine_setLine] at hi ⊢
    by_cases hindex : i = index
    · subst hindex
      rw [Lines.setLine_self, Lines.setLine_self]
      dsimp only
      rw [CacheConfig.blockAddr_blockAddr]
      exact ⟨(Lines.probe_ok hprobe).1, rfl, CacheConfig.blockAddr_blockAddr _ _⟩
    · rw [Lines.setLine_of_ne hindex] at hi ⊢
      exact h i hi

theorem Filed.step (hinv : Inv tc s) (h : Filed tc.cfg s.core.tags)
    (hs : (texCache tc).step s a = some (.ok t)) : Filed tc.cfg t.core.tags := by
  cases hinv.steps hs with
  | @access mf dataSize time status core _ ha =>
    have hbefore : Filed tc.cfg ({ s.core with
      dataSize := update s.core.dataSize mf.id dataSize } : TexCache).tags := h
    have hafter : Filed tc.cfg core.tags := hbefore.access ha
    split
    · exact hafter
    · exact hafter
  | cycle _ _ _ hserves => cases hserves <;> exact h
  | fill => exact h
  | nextAccess => exact h

/-- What every reachable state keeps, whatever the hits are on. -/
structure Kept (tc : TexConfig) (s : TexRun) : Prop where
  inv : Inv tc s
  filed : Filed tc.cfg s.core.tags

theorem kept_of_reachable (h : (texCache tc).Reachable s) : Kept tc s := by
  refine h.invariant ⟨inv_init, ?_⟩ ?_
  · intro s a t hs _ ht
    exact ⟨hs.inv.step (hs.inv.steps ht), hs.filed.step hs.inv ht⟩
  · intro i hi
    cases hi

theorem own_of_powersOfTwo (hpow : CacheConfig.PowersOfTwo tc.cfg) (hn : tc.cfg.nset < wordSize)
    (hl : tc.cfg.lineSz < wordSize) (h : (texCache tc).Reachable s) {mf : MemFetch}
    (hne : tc.cfg.blockAddr mf.addr ≠ 0) : TexCache.Own tc s.core mf := by
  obtain ⟨hinv, hfiled⟩ := kept_of_reachable h
  intro index _ _ _ hprobe
  exact ⟨hfiled.hit hpow hn hl (TexCache.status_of_hit hinv.settled hprobe) hprobe, hne⟩

def OffBlockZero (tc : TexConfig) : TexAct → Prop
  | .access mf _ _ => tc.cfg.blockAddr mf.addr ≠ 0
  | _ => True

/-- **In-order delivery where the sizes are powers of two**: only block `0` has to be left alone. -/
theorem delivers_of_powersOfTwo (hroom : 0 < tc.resultFifoEntries) (hpow : CacheConfig.PowersOfTwo tc.cfg)
    (hn : tc.cfg.nset < wordSize) (hl : tc.cfg.lineSz < wordSize)
    (h : (texCache tc).ReachableUnder (fun _ => OffBlockZero tc) s) : Delivers tc s := by
  have hgood : Good tc s := by
    induction h with
    | init => exact good_init
    | @step u a v hu hoff hv ih =>
      have hown : OwnHits tc u a := by
        cases a with
        | access mf dataSize time => exact own_of_powersOfTwo hpow hn hl hu.reachable hoff
        | _ => trivial
      exact ih.step hown hv
  exact hgood.delivers hroom

/-! ## The default configuration -/

def defaultTex : TexConfig where
  cfg := ⟨8, 128, 5, .lru, .readOnly, .onMiss, .noWriteAllocate, 128, 4, 128⟩
  mshrType := .texFifo
  resultFifoEntries := 2
  isTexFifo := rfl
  isReadOnly := rfl
  isOnMiss := rfl

/-- Texture fetches number `id`. -/
def texel (id addr : Nat) : MemFetch := ⟨id, addr, .textureAccR, false, false⟩

theorem texCache_delivers_hit : ∃ s, (texCache defaultTex).run
      [.access (texel 0 128) 32 0, .access (texel 1 160) 32 1, .cycle false, .fill (texel 0 128)]
      (texCache defaultTex).init = some s ∧ Delivers defaultTex s := by
  obtain ⟨s, hrun⟩ : ∃ s, (texCache defaultTex).run
      [.access (texel 0 128) 32 0, .access (texel 1 160) 32 1, .cycle false, .fill (texel 0 128)]
      (texCache defaultTex).init = some s := ⟨_, rfl⟩
  refine ⟨s, hrun, texCache_delivers (by decide) (Machine.ReachableUnder.of_run .init ?_ hrun)⟩
  refine ⟨?_, ?_, trivial, trivial, trivial⟩
  · intro index _ _ _ hprobe
    cases hprobe
  · intro index _ _ _ hprobe
    cases hprobe
    exact ⟨rfl, by decide⟩

theorem delivers_of_powersOfTwo_hit : ∃ s, (texCache defaultTex).run
      [.access (texel 0 128) 32 0, .cycle false, .fill (texel 0 128), .access (texel 1 160) 32 1]
      (texCache defaultTex).init = some s ∧ Delivers defaultTex s := by
  have h0 : defaultTex.cfg.blockAddr 128 ≠ 0 := by decide
  have h1 : defaultTex.cfg.blockAddr 160 ≠ 0 := by decide
  refine (texCache defaultTex).exists_run_of (fun _ => OffBlockZero defaultTex) (fun _ => ())
    (y := ()) ⟨h0, trivial, trivial, h1, trivial⟩ rfl fun s hs _ => ?_
  exact delivers_of_powersOfTwo (by decide) ⟨rfl, by decide, by decide⟩ (by decide) (by decide) hs

/-- The second fetch of block `0` finds it, and the assertion fails. -/
theorem not_delivers_zero : ∃ s, (texCache defaultTex).Reachable s ∧
    (texCache defaultTex).step s (.cycle false) = some (.error .dataBlock) ∧ ¬ Delivers defaultTex s := by
  obtain ⟨s, -, hs, hfault⟩ := (texCache defaultTex).exists_reachable_of_run
    [.access (texel 0 0) 32 0, .cycle false, .fill (texel 0 0), .cycle false, .access (texel 1 0) 32 1]
    (fun s => ((texCache defaultTex).step s (.cycle false)).map (Except.map fun _ => ()))
    (y := some (.error .dataBlock)) (by rfl)
  have herror : (texCache defaultTex).step s (.cycle false) = some (.error .dataBlock) := by
    obtain ⟨r, hr, hmap⟩ := Option.map_eq_some_iff.mp hfault
    cases r with
    | error e =>
      cases hmap
      exact hr
    | ok s' => cases hmap
  refine ⟨s, hs, herror, ?_⟩
  intro h
  obtain ⟨mf, dataSize, time, ha⟩ := h.served _ _ herror
  cases ha

end TexRun

end GpgpuSimRuby.Cache
