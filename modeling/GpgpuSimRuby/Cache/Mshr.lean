import GpgpuSimRuby.Cache.TagArray

/-!
# Miss status holding registers

`mshr_table`. An entry holds the accesses that wait for one block; a fill makes the entry ready, and
`next_access` then hands its accesses out one after the other. An entry can be merged into until its
last access is handed out.
-/

namespace GpgpuSimRuby.Cache

open Library

/-! ## Requests -/

inductive MemAccessType where
  | globalAccR | localAccR | constAccR | textureAccR | globalAccW | localAccW | l1WrbkAcc | l2WrbkAcc
  | instAccR | l2WrAllocR | memFence | rubyDramR | rubyDramW
  deriving DecidableEq, Repr

/-- A `mem_fetch`; its data size changes and is kept beside it, by `id`. -/
structure MemFetch where
  id : Nat
  addr : Nat
  accessType : MemAccessType
  isWrite : Bool
  isAtomic : Bool
  deriving DecidableEq, Repr

/-! ## The table -/

structure MshrEntry where
  list : List MemFetch := []
  hasAtomic : Bool := false
  deriving DecidableEq, Repr

/-- `blocks` are the keys of `m_data`; other blocks have an empty entry. -/
structure MshrTable where
  blocks : List Nat := []
  entry : Nat → MshrEntry := fun _ => {}
  currentResponse : List Nat := []

namespace MshrTable

variable (cfg : CacheConfig) (t : MshrTable)

def probe (blockAddr : Nat) : Bool := blockAddr ∈ t.blocks

def full (blockAddr : Nat) : Bool :=
  if t.probe blockAddr then cfg.mshrMaxMerge ≤ (t.entry blockAddr).list.length
  else cfg.mshrEntries ≤ t.blocks.length

def setEntry (blockAddr : Nat) (e : MshrEntry) : MshrTable :=
  { t with entry := Function.update t.entry blockAddr e }

/-- `m_data[block_addr].m_list.push_back(mf)`. -/
def pushBack (blockAddr : Nat) (mf : MemFetch) : MshrTable :=
  { t.setEntry blockAddr
      ⟨(t.entry blockAddr).list ++ [mf], (t.entry blockAddr).hasAtomic || mf.isAtomic⟩ with
    blocks := if t.probe blockAddr then t.blocks else blockAddr :: t.blocks }

def add (blockAddr : Nat) (mf : MemFetch) : Except Fault MshrTable := do
  let t' := t.pushBack blockAddr mf
  assert (t'.blocks.length ≤ cfg.mshrEntries) .mshrEntries
  assert ((t'.entry blockAddr).list.length ≤ cfg.mshrMaxMerge) .mshrMerged
  return t'

def markReady (blockAddr : Nat) : Except Fault MshrTable := do
  assert (t.probe blockAddr) .mshrNoEntry
  let t' := { t with currentResponse := t.currentResponse ++ [blockAddr] }
  assert (t'.currentResponse.length ≤ t'.blocks.length) .mshrResponses
  return t'

def accessReady : Bool := t.currentResponse ≠ []

/-- Release the entry in front. -/
def release (blockAddr : Nat) : MshrTable :=
  { t.setEntry blockAddr {} with
    blocks := t.blocks.erase blockAddr
    currentResponse := t.currentResponse.tail }

def nextAccess : Except Fault (MemFetch × MshrTable) :=
  match t.currentResponse with
  | [] => .error .mshrNotReady
  | blockAddr :: _ =>
    match (t.entry blockAddr).list with
    | [] => .error .mshrEmptyEntry
    | mf :: rest =>
      if rest = [] then .ok (mf, t.release blockAddr)
      else .ok (mf, t.setEntry blockAddr { t.entry blockAddr with list := rest })

variable {cfg t} {t' : MshrTable} {blockAddr b : Nat} {mf : MemFetch} {e : MshrEntry}

@[simp]
theorem setEntry_self : (t.setEntry blockAddr e).entry blockAddr = e := Function.update_self ..

@[simp]
theorem setEntry_blocks : (t.setEntry blockAddr e).blocks = t.blocks := rfl

@[simp]
theorem setEntry_currentResponse :
    (t.setEntry blockAddr e).currentResponse = t.currentResponse := rfl

theorem setEntry_of_ne (h : b ≠ blockAddr) : (t.setEntry blockAddr e).entry b = t.entry b :=
  Function.update_of_ne h _ _

@[simp]
theorem release_self : (t.release blockAddr).entry blockAddr = {} := setEntry_self

theorem release_of_ne (h : b ≠ blockAddr) : (t.release blockAddr).entry b = t.entry b :=
  setEntry_of_ne h

@[simp]
theorem pushBack_self : (t.pushBack blockAddr mf).entry blockAddr =
    ⟨(t.entry blockAddr).list ++ [mf], (t.entry blockAddr).hasAtomic || mf.isAtomic⟩ :=
  setEntry_self

theorem pushBack_of_ne (h : b ≠ blockAddr) : (t.pushBack blockAddr mf).entry b = t.entry b :=
  setEntry_of_ne h

theorem mem_pushBack : b ∈ (t.pushBack blockAddr mf).blocks ↔ b = blockAddr ∨ b ∈ t.blocks := by
  show b ∈ (if t.probe blockAddr then t.blocks else blockAddr :: t.blocks) ↔ _
  by_cases hp : blockAddr ∈ t.blocks
  · simp only [probe, hp, decide_true, if_true]
    constructor
    · exact .inr
    · rintro (rfl | h)
      · exact hp
      · exact h
  · simp [probe, hp]

@[simp]
theorem probe_iff : t.probe blockAddr = true ↔ blockAddr ∈ t.blocks := decide_eq_true_iff

/-! ## Tables that keep their limits -/

/-- Entries are not empty and keep the limits; the ready ones are different entries. -/
structure Sound (cfg : CacheConfig) (t : MshrTable) : Prop where
  nodup : t.blocks.Nodup
  entries : t.blocks.length ≤ cfg.mshrEntries
  absent : ∀ b, b ∉ t.blocks → t.entry b = {}
  present : ∀ b ∈ t.blocks, (t.entry b).list ≠ []
  merged : ∀ b, (t.entry b).list.length ≤ cfg.mshrMaxMerge
  ready : t.currentResponse.Nodup
  response : ∀ b ∈ t.currentResponse, b ∈ t.blocks

theorem Sound.empty : Sound cfg {} where
  nodup := List.nodup_nil
  entries := Nat.zero_le _
  absent _ _ := rfl
  present b hb := by cases hb
  merged _ := Nat.zero_le _
  ready := List.nodup_nil
  response b hb := by cases hb

theorem add_ok (h : t.add cfg blockAddr mf = .ok t') :
    t' = t.pushBack blockAddr mf ∧ t'.blocks.length ≤ cfg.mshrEntries ∧
      (t'.entry blockAddr).list.length ≤ cfg.mshrMaxMerge := by
  obtain ⟨_, he, h⟩ := bind_eq_ok.mp h
  obtain ⟨_, hm, h⟩ := bind_eq_ok.mp h
  cases h
  exact ⟨rfl, assert_eq_ok.mp he, assert_eq_ok.mp hm⟩

/-- An access that is added to a table that is not full trips no assertion, but for a merge limit of
zero: `full` does not look at it for a new entry. -/
theorem Sound.add_ne_error (h : Sound cfg t) (hfull : t.full cfg blockAddr = false)
    (hlimit : 0 < cfg.mshrMaxMerge) {e : Fault} : t.add cfg blockAddr mf ≠ .error e := by
  intro herr
  by_cases hp : t.probe blockAddr
  · have hlen : (t.entry blockAddr).list.length < cfg.mshrMaxMerge := by
      simpa [full, hp] using hfull
    rcases bind_eq_error.mp herr with herr | ⟨_, _, herr⟩
    · apply (assert_eq_error.mp herr).1
      simpa [pushBack, hp] using h.entries
    · have herr := bind_return_eq_error.mp herr
      apply (assert_eq_error.mp herr).1
      simpa using hlen
  · have hlen : t.blocks.length < cfg.mshrEntries := by simpa [full, hp] using hfull
    have hnil : (t.entry blockAddr).list = [] := by
      rw [h.absent blockAddr fun hb => hp (probe_iff.mpr hb)]
    rcases bind_eq_error.mp herr with herr | ⟨_, _, herr⟩
    · apply (assert_eq_error.mp herr).1
      simpa [pushBack, hp] using hlen
    · have herr := bind_return_eq_error.mp herr
      apply (assert_eq_error.mp herr).1
      simpa [hnil] using Nat.succ_le_of_lt hlimit

theorem Sound.add (h : Sound cfg t) (ha : t.add cfg blockAddr mf = .ok t') : Sound cfg t' := by
  obtain ⟨rfl, hentries, hmerged⟩ := add_ok ha
  refine ⟨?_, hentries, ?_, ?_, ?_, h.ready, ?_⟩
  · show (if t.probe blockAddr then t.blocks else blockAddr :: t.blocks).Nodup
    split
    · exact h.nodup
    · next hp => exact List.nodup_cons.mpr ⟨fun hb => hp (probe_iff.mpr hb), h.nodup⟩
  · intro b hb
    rw [mem_pushBack, not_or] at hb
    rw [pushBack_of_ne hb.1]
    exact h.absent b hb.2
  · intro b hb
    by_cases hbb : b = blockAddr
    · subst hbb
      simp
    · rw [pushBack_of_ne hbb]
      exact h.present b ((mem_pushBack.mp hb).resolve_left hbb)
  · intro b
    by_cases hbb : b = blockAddr
    · rw [hbb]
      exact hmerged
    · rw [pushBack_of_ne hbb]
      exact h.merged b
  · intro b hb
    exact mem_pushBack.mpr (.inr (h.response b hb))

theorem markReady_ok (h : t.markReady blockAddr = .ok t') :
    t' = { t with currentResponse := t.currentResponse ++ [blockAddr] } ∧ blockAddr ∈ t.blocks := by
  obtain ⟨_, hp, h⟩ := bind_eq_ok.mp h
  obtain ⟨_, _, h⟩ := bind_eq_ok.mp h
  cases h
  exact ⟨rfl, probe_iff.mp (assert_eq_ok.mp hp)⟩

section Ready

variable (h : Sound cfg t) (hb : blockAddr ∈ t.blocks) (hr : blockAddr ∉ t.currentResponse)

include h hr in
theorem Sound.nodup_response : (t.currentResponse ++ [blockAddr]).Nodup := by
  refine List.nodup_append.mpr ⟨h.ready, List.nodup_singleton blockAddr, ?_⟩
  rintro b hb _ hb' rfl
  exact hr (List.mem_singleton.mp hb' ▸ hb)

include h hb hr in
theorem Sound.markReady_ne_error {e : Fault} : t.markReady blockAddr ≠ .error e := by
  intro herr
  rcases bind_eq_error.mp herr with herr | ⟨_, _, herr⟩
  · exact (assert_eq_error.mp herr).1 (probe_iff.mpr hb)
  · have herr := bind_return_eq_error.mp herr
    apply (assert_eq_error.mp herr).1
    apply List.Nodup.length_le_of_subset (h.nodup_response hr)
    intro b hb'
    rcases List.mem_append.mp hb' with hb' | hb'
    · exact h.response b hb'
    · exact List.mem_singleton.mp hb' ▸ hb

end Ready

theorem Sound.markReady (h : Sound cfg t) (hr : blockAddr ∉ t.currentResponse)
    (hm : t.markReady blockAddr = .ok t') : Sound cfg t' := by
  obtain ⟨rfl, hb⟩ := markReady_ok hm
  refine ⟨h.nodup, h.entries, h.absent, h.present, h.merged, h.nodup_response hr, ?_⟩
  intro b hb'
  rcases List.mem_append.mp hb' with hb' | hb'
  · exact h.response b hb'
  · exact List.mem_singleton.mp hb' ▸ hb

theorem nextAccess_ok (h : t.nextAccess = .ok (mf, t')) :
    ∃ b rest tail, t.currentResponse = b :: tail ∧ (t.entry b).list = mf :: rest ∧
      t' = if rest = [] then t.release b else t.setEntry b { t.entry b with list := rest } := by
  unfold nextAccess at h
  split at h
  · cases h
  · next b tail hb =>
    split at h
    · cases h
    · next mf' rest hl =>
      refine ⟨b, rest, tail, hb, ?_⟩
      split at h
      · next hr =>
        cases h
        exact ⟨hl, (if_pos hr).symm⟩
      · next hr =>
        cases h
        exact ⟨hl, (if_neg hr).symm⟩

theorem Sound.nextAccess_ne_error (h : Sound cfg t) (hready : t.accessReady = true) {e : Fault} :
    t.nextAccess ≠ .error e := by
  intro herr
  unfold nextAccess at herr
  split at herr
  · next hb => simp [accessReady, hb] at hready
  · next b tail hb =>
    split at herr
    · next hl => exact h.present b (h.response b (hb ▸ List.mem_cons_self)) hl
    · split at herr <;> cases herr

theorem Sound.release (h : Sound cfg t) {tail : List Nat} (hb : t.currentResponse = blockAddr :: tail) :
    Sound cfg (t.release blockAddr) := by
  have hready : (blockAddr :: tail).Nodup := hb ▸ h.ready
  have hmem {b : Nat} : b ∈ (t.release blockAddr).blocks ↔ b ≠ blockAddr ∧ b ∈ t.blocks :=
    h.nodup.mem_erase_iff
  have hresp : (t.release blockAddr).currentResponse = tail := by
    show t.currentResponse.tail = tail
    rw [hb, List.tail_cons]
  refine ⟨h.nodup.erase blockAddr, ?_, ?_, ?_, ?_, ?_, ?_⟩
  · exact le_trans List.length_erase_le h.entries
  · intro b hnot
    by_cases hbb : b = blockAddr
    · subst hbb
      exact setEntry_self
    · exact (setEntry_of_ne hbb).trans (h.absent b fun hin => hnot (hmem.mpr ⟨hbb, hin⟩))
  · intro b hin
    obtain ⟨hbb, hin⟩ := hmem.mp hin
    show ((t.setEntry blockAddr {}).entry b).list ≠ []
    rw [setEntry_of_ne hbb]
    exact h.present b hin
  · intro b
    show ((t.setEntry blockAddr {}).entry b).list.length ≤ _
    by_cases hbb : b = blockAddr
    · subst hbb
      simp
    · rw [setEntry_of_ne hbb]
      exact h.merged b
  · rw [hresp]
    exact hready.of_cons
  · rw [hresp]
    intro b hin
    refine hmem.mpr ⟨?_, h.response b (hb ▸ List.mem_cons_of_mem _ hin)⟩
    rintro rfl
    exact (List.nodup_cons.mp hready).1 hin

theorem Sound.pop (h : Sound cfg t) {rest : List MemFetch} (hl : (t.entry blockAddr).list = mf :: rest)
    (hrest : rest ≠ []) : Sound cfg (t.setEntry blockAddr { t.entry blockAddr with list := rest }) := by
  refine ⟨h.nodup, h.entries, ?_, ?_, ?_, h.ready, h.response⟩
  · intro b hnot
    by_cases hbb : b = blockAddr
    · subst hbb
      rw [h.absent b hnot] at hl
      cases hl
    · exact (setEntry_of_ne hbb).trans (h.absent b hnot)
  · intro b hin
    by_cases hbb : b = blockAddr
    · subst hbb
      simpa using hrest
    · rw [setEntry_of_ne hbb]
      exact h.present b hin
  · intro b
    by_cases hbb : b = blockAddr
    · subst hbb
      have hle := h.merged b
      rw [hl, List.length_cons] at hle
      simpa using Nat.le_of_succ_le hle
    · rw [setEntry_of_ne hbb]
      exact h.merged b

theorem Sound.nextAccess (h : Sound cfg t) (hn : t.nextAccess = .ok (mf, t')) : Sound cfg t' := by
  obtain ⟨b, rest, tail, hb, hl, rfl⟩ := nextAccess_ok hn
  split
  · exact h.release hb
  · next hrest => exact h.pop hl hrest

theorem Sound.waiting_nextAccess (h : Sound cfg t) (hn : t.nextAccess = .ok (mf, t')) :
    b ∈ t'.blocks ∧ b ∉ t'.currentResponse ↔ b ∈ t.blocks ∧ b ∉ t.currentResponse := by
  obtain ⟨b', rest, tail, hcur, -, rfl⟩ := nextAccess_ok hn
  split
  · show b ∈ t.blocks.erase b' ∧ b ∉ t.currentResponse.tail ↔ _
    have hready : (b' :: tail).Nodup := hcur ▸ h.ready
    have hbt := (List.nodup_cons.mp hready).1
    rw [h.nodup.mem_erase_iff, hcur, List.tail_cons, List.mem_cons, not_or]
    tauto
  · exact Iff.rfl

/-! ## The accesses that wait -/

/-- The accesses of all entries. -/
def waiting (t : MshrTable) : List MemFetch := t.blocks.flatMap fun b => (t.entry b).list

theorem Sound.mem_blocks (h : Sound cfg t) (hmf : mf ∈ (t.entry b).list) : b ∈ t.blocks := by
  by_contra hb
  rw [h.absent b hb] at hmf
  cases hmf

theorem Sound.mem_waiting (h : Sound cfg t) : mf ∈ t.waiting ↔ ∃ b, mf ∈ (t.entry b).list := by
  unfold waiting
  rw [List.mem_flatMap]
  constructor
  · rintro ⟨b, -, hmf⟩
    exact ⟨b, hmf⟩
  · rintro ⟨b, hmf⟩
    exact ⟨b, h.mem_blocks hmf, hmf⟩

theorem Sound.entry_eq (h : Sound cfg t) (hn : t.waiting.Nodup) {b' : Nat} (hmf : mf ∈ (t.entry b).list)
    (hmf' : mf ∈ (t.entry b').list) : b = b' := by
  by_contra hne
  have hsymm : Std.Symm (Function.onFun List.Disjoint fun b => (t.entry b).list) :=
    ⟨fun _ _ hdisj => hdisj.symm⟩
  have hpair := (List.nodup_flatMap.mp hn).2
  exact hpair.forall (h.mem_blocks hmf) (h.mem_blocks hmf') hne hmf hmf'

theorem waiting_perm (hb : blockAddr ∈ t.blocks) :
    t.waiting.Perm ((t.entry blockAddr).list ++
      (t.blocks.erase blockAddr).flatMap fun b => (t.entry b).list) :=
  (List.perm_cons_erase hb).flatMap_right _

theorem flatMap_congr_erase (t' : MshrTable) (h : Sound cfg t)
    (he : ∀ b, b ≠ blockAddr → t'.entry b = t.entry b) :
    ((t.blocks.erase blockAddr).flatMap fun b => (t'.entry b).list) =
      (t.blocks.erase blockAddr).flatMap fun b => (t.entry b).list := by
  apply List.flatMap_congr
  intro b hb
  rw [he b (h.nodup.mem_erase_iff.mp hb).1]

theorem Sound.waiting_pushBack (h : Sound cfg t) :
    (t.pushBack blockAddr mf).waiting.Perm (mf :: t.waiting) := by
  have hothers := flatMap_congr_erase (t.pushBack blockAddr mf) h fun b hb => pushBack_of_ne hb
  by_cases hp : blockAddr ∈ t.blocks
  · have hblocks : (t.pushBack blockAddr mf).blocks = t.blocks := if_pos (probe_iff.mpr hp)
    have hperm : (t.pushBack blockAddr mf).waiting.Perm (((t.entry blockAddr).list ++ [mf]) ++
        (t.blocks.erase blockAddr).flatMap fun b => (t.entry b).list) := by
      unfold waiting
      rw [hblocks, ← hothers]
      have hself : ((t.pushBack blockAddr mf).entry blockAddr).list =
          (t.entry blockAddr).list ++ [mf] := by rw [pushBack_self]
      rw [← hself]
      exact (List.perm_cons_erase hp).flatMap_right _
    refine hperm.trans ?_
    rw [List.append_assoc]
    refine List.perm_middle.trans ?_
    exact ((waiting_perm hp).symm).cons mf
  · have hblocks : (t.pushBack blockAddr mf).blocks = blockAddr :: t.blocks :=
      if_neg fun hprobe => hp (probe_iff.mp hprobe)
    unfold waiting
    rw [hblocks, List.flatMap_cons, pushBack_self, h.absent blockAddr hp]
    rw [List.erase_of_not_mem hp] at hothers
    rw [hothers]
    exact List.Perm.refl _

theorem Sound.waiting_nextAccess_perm (h : Sound cfg t)
    (hn : t.nextAccess = .ok (mf, t')) : t.waiting.Perm (mf :: t'.waiting) := by
  obtain ⟨b, rest, tail, hcur, hl, rfl⟩ := nextAccess_ok hn
  have hb : b ∈ t.blocks := h.response b (hcur ▸ List.mem_cons_self)
  refine (waiting_perm hb).trans ?_
  rw [hl, List.cons_append]
  refine List.Perm.cons mf ?_
  split
  · next hrest =>
    subst hrest
    rw [← flatMap_congr_erase (t.release b) h fun b' hb' => release_of_ne hb']
    exact List.Perm.refl _
  · rw [← flatMap_congr_erase (t.setEntry b { t.entry b with list := rest }) h
      fun b' hb' => setEntry_of_ne hb']
    have hself : ((t.setEntry b { t.entry b with list := rest }).entry b).list = rest := by
      rw [setEntry_self]
    unfold waiting
    rw [setEntry_blocks]
    refine List.Perm.trans ?_ ((List.perm_cons_erase hb).flatMap_right _).symm
    rw [List.flatMap_cons, hself]

theorem blocks_nextAccess (hn : t.nextAccess = .ok (mf, t')) (hb : b ∈ t'.blocks) : b ∈ t.blocks := by
  obtain ⟨b', rest, tail, -, -, rfl⟩ := nextAccess_ok hn
  split at hb
  · exact List.mem_of_mem_erase hb
  · exact hb

end MshrTable

end GpgpuSimRuby.Cache
