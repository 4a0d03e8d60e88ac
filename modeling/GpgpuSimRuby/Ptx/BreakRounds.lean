import GpgpuSimRuby.Library.Settle
import GpgpuSimRuby.Ptx.BreakTargets

/-!
# Breaks go where they should

What one round of the loop over the breaks does in terms of the graph: every block that ends in a
`break` goes to the label of the last `breakaddr` of the nearest block that dominates it and has one.
The next round starts from the graph that this makes, in which other blocks may be nearest.

* A `breakaddr` in the entry block is not found.
* An edge to the entry block makes the assertion of `find_idominators` fail.
* Two breaks that change each other's dominators can go back and forth for ever. Where breaks can be
  ranked such that no break depends on one of its own rank or a higher one, the rounds come to an end.
-/

namespace GpgpuSimRuby.Ptx

open Library

namespace BasicBlocks

variable (f : Function) (c : BasicBlocks)

/-- The edges of a graph, turned round. -/
def Back {c : BasicBlocks} (g : c.Graph) (v w : c.Id) : Prop := v ∈ g w

/-- The block `d` lies on every path from the entry block to `b`. -/
abbrev Dominates {c : BasicBlocks} (g : c.Graph) (d b : c.Id) : Prop :=
  Postdominates (Back g) (0 : c.Id) d b

/-- There is a path from the entry block to `b`. -/
def Reached {c : BasicBlocks} (g : c.Graph) (b : c.Id) : Prop := ∃ l, Path (Back g) (0 : c.Id) b l

/-- The nearest block with a `breakaddr` among those that dominate `b`. -/
def Nearest (g : c.Graph) (b d : c.Id) : Prop :=
  Dominates g d b ∧ HasBreakaddr f c d ∧ ∀ e, Dominates g e b → HasBreakaddr f c e → Dominates g e d

/-- The successors of the `break` at `q` that goes to the label of the `breakaddr` `j`: the block of the
label, and with a guard the next one. -/
def Goes (j : Inst) (q : Nat) (i : Inst) (ids : Finset c.Id) : Prop :=
  ∃ r t, f.LabelOf j.target r ∧ c.bb r = some t.val ∧ ∀ x, x ∈ ids ↔
    x = t ∨ i.hasPred = true ∧ ∃ r j, f.FirstInst (q + 1) r j ∧ c.bb r = some x.val

/-- The successors that the `break` at `q` should have: it goes where the last `breakaddr` of the
nearest block says. -/
def Turned (g : c.Graph) (b : c.Id) (q : Nat) (i : Inst) (ids : Finset c.Id) : Prop :=
  ∃ d j, Nearest f c g b d ∧ LastBreakaddr f c d j ∧ Goes f c j q i ids

/-- One round. -/
structure Round (g g' : c.Graph) : Prop where
  keep : ∀ b, (∀ q i, ¬ EndsInBreak f c b q i) → g' b = g b
  turn : ∀ b q i, EndsInBreak f c b q i → Turned f c g b q i (g' b)

/-- Every `break` goes where it should. -/
def BreaksRight (g : c.Graph) : Prop :=
  ∀ b q i, EndsInBreak f c b q i → Turned f c g b q i (g b)

/-- What a round depends on: no edge goes to the entry block, and every block that ends in a `break` is
dominated by a block with a `breakaddr` that is not the entry block. -/
structure RoundOk (g : c.Graph) : Prop where
  entry : ∀ b, (0 : c.Id) ∉ g b
  breakaddr : ∀ b q i, EndsInBreak f c b q i → ∃ d ≠ (0 : c.Id), Dominates g d b ∧ HasBreakaddr f c d

/-- A graph in which every `break` goes where it goes in `g₀`, or where some `breakaddr` says. -/
structure Candidate (g₀ g : c.Graph) : Prop where
  keep : ∀ b, (∀ q i, ¬ EndsInBreak f c b q i) → g b = g₀ b
  goes : ∀ b q i, EndsInBreak f c b q i → g b = g₀ b ∨
    ∃ p j, f.inst? p = some j ∧ j.opcode = .BREAKADDR ∧ Goes f c j q i (g b)

/-- The breaks have ranks such that, wherever they go, the nearest block with a `breakaddr` depends only
on where the breaks of lower rank go. -/
def Stratified (g₀ : c.Graph) : Prop :=
  ∃ rank : c.Id → Nat, ∀ g g', Candidate f c g₀ g → Candidate f c g₀ g' →
    ∀ b q i, EndsInBreak f c b q i → Reached g b → Reached g' b →
      (∀ e, rank e < rank b → g e = g' e) → ∀ d, Nearest f c g b d → Nearest f c g' b d

end BasicBlocks

open BasicBlocks

/-! ## The analysis of the dominators -/

section Dominators

variable {f : Function} {c : BasicBlocks} {g : c.Graph} {old idom : c.Id → Option c.Id}
  {b d e : c.Id} {fuel : Nat}

theorem backEdge_eq (h : 2 ≤ c.blocks.length + 1) : Cfg.BackEdge ⟨_, h, g⟩ = Back g := by
  funext v w
  exact propext Cfg.backEdge_iff

theorem predecessorIds_entry_iff (h : 2 ≤ c.blocks.length + 1) :
    Cfg.predecessorIds ⟨_, h, g⟩ (Cfg.entry ⟨_, h, g⟩) = ∅ ↔ ∀ b, (0 : c.Id) ∉ g b := by
  rw [Finset.eq_empty_iff_forall_notMem]
  exact forall_congr' fun b => by
    simp only [Cfg.predecessorIds, Finset.mem_filter, Finset.mem_univ, true_and]
    exact Iff.rfl

/-- `immediatedominator_id` after the analysis. -/
structure IdomOk (g : c.Graph) (old idom : c.Id → Option c.Id) : Prop where
  entry : idom 0 = old 0
  eq : ∀ b d, Reached g b → ImmediatePostdominator (Back g) (0 : c.Id) d b → idom b = some d

/-- **The analysis** finds the immediate dominators if no edge goes to the entry block. -/
theorem analyseDominators_ok (h : c.analyseDominators fuel g old = .ok idom) :
    (∀ b, (0 : c.Id) ∉ g b) ∧ IdomOk g old idom := by
  unfold analyseDominators at h
  split at h
  swap
  · cases h
  next hsize =>
  cases hD : Cfg.findDominators ⟨_, hsize, g⟩ fuel with
  | none =>
    rw [hD] at h
    cases h
  | some D =>
    rw [hD] at h
    have h := mapError_eq_ok.mp h
    have heq := Cfg.findIdominators_eq h
    rw [heq] at h
    refine ⟨(predecessorIds_entry_iff hsize).mp ((Cfg.findIdominators_ok_iff hD).mp h), ?_⟩
    subst heq
    constructor
    · exact Cfg.immediatedominatorId_entry hD
    · intro b d hb hd
      rw [← backEdge_eq hsize] at hd
      unfold Reached at hb
      rw [← backEdge_eq hsize] at hb
      exact Cfg.immediatedominatorId_eq hD hb hd

theorem exists_analyseDominators (hsize : 2 ≤ c.blocks.length + 1) (hentry : ∀ b, (0 : c.Id) ∉ g b) :
    ∃ N, ∀ fuel ≥ N, ∀ old, ∃ idom, c.analyseDominators fuel g old = .ok idom := by
  obtain ⟨N, D, hfuel⟩ := Cfg.exists_findDominators ⟨_, hsize, g⟩
  refine ⟨N, fun fuel hle old => ?_⟩
  have hiff : Cfg.findIdominators _ D old = .ok (Cfg.immediatedominatorId _ D old) ↔ _ :=
    Cfg.findIdominators_ok_iff (hfuel fuel hle)
  have hok := hiff.mpr ((predecessorIds_entry_iff hsize).mpr hentry)
  unfold analyseDominators
  rw [dif_pos hsize, hfuel fuel hle]
  exact ⟨_, mapError_eq_ok.mpr hok⟩

theorem nearest_iff (hd : ImmediatePostdominator (Back g) (0 : c.Id) d b)
    (hno : ¬ HasBreakaddr f c b) : Nearest f c g b e ↔ Nearest f c g d e := by
  have hup : ∀ x, Dominates g x b → HasBreakaddr f c x → Dominates g x d := by
    intro x hx hhas
    have hne : x ≠ b := by
      rintro rfl
      exact hno hhas
    rcases hd.2 x ⟨hne, hx⟩ with rfl | hstrict
    · exact .refl
    · exact hstrict.2
  constructor
  · rintro ⟨hdom, hhas, hall⟩
    exact ⟨hup e hdom hhas, hhas, fun x hx hx' => hall x (hx.trans hd.1.2) hx'⟩
  · rintro ⟨hdom, hhas, hall⟩
    exact ⟨hdom.trans hd.1.2, hhas, fun x hx hx' => hall x (hup x hx hx') hx'⟩

theorem BasicBlocks.Nearest.unique (hb : Reached g b) (hd : Nearest f c g b d)
    (he : Nearest f c g b e) : d = e :=
  Postdominates.antisymm (hd.1.reaches hb) (he.2.2 d hd.1 hd.2.1) (hd.2.2 e he.1 he.2.1)

open Classical in
theorem exists_nearest (hb : Reached g b) (hd : Dominates g d b) (hhas : HasBreakaddr f c d) :
    ∃ e, Nearest f c g b e := by
  obtain ⟨l, hl⟩ := hb
  have hne : ({e | Dominates g e b ∧ HasBreakaddr f c e} : Finset c.Id).Nonempty :=
    ⟨d, by simpa using ⟨hd, hhas⟩⟩
  obtain ⟨e, he, hfirst⟩ := Postdominates.exists_first hl hne
    fun x hx => (Finset.mem_filter.mp hx).2.1
  have he := (Finset.mem_filter.mp he).2
  exact ⟨e, he.1, he.2, fun x hx hx' => hfirst x (by simpa using ⟨hx, hx'⟩)⟩

theorem BasicBlocks.Nearest.ne_entry (h : Nearest f c g b e) (hd : Dominates g d b)
    (hhas : HasBreakaddr f c d) (hne : d ≠ 0) : e ≠ 0 := by
  rintro rfl
  exact hne (h.2.2 d hd hhas).eq_goal

end Dominators

/-! ## The search up the dominator tree -/

section Find

variable {f : Function} {fid : FuncId} {fresh : Nat → Slot} {s : Program} {a : Assembled}
  {c : BasicBlocks} {g : c.Graph} {old idom : c.Id → Option c.Id} {b d : c.Id} {fuel : Nat} {i : Inst}
  (hg : Program.Good f fid fresh s a) (hc : f.WellCut c)
include hg hc

/-- **What is found** is the last `breakaddr` of the nearest block, which is not the entry block. -/
theorem findBreakTarget_found (hidom : IdomOk g old idom) (hold : old 0 = none) (hb : Reached g b)
    (h : c.findBreakTarget f fid a idom fuel b = .ok i) :
    ∃ d ≠ (0 : c.Id), Nearest f c g b d ∧ LastBreakaddr f c d i := by
  induction fuel generalizing b with
  | zero => cases h
  | succ fuel ih =>
    unfold findBreakTarget at h
    by_cases hentry : b = 0
    · rw [hentry, hidom.entry, hold] at h
      cases h
    obtain ⟨d, hd⟩ := ImmediatePostdominator.exists_of_ne hb hentry
    rw [hidom.eq b d hb hd] at h
    obtain ⟨found, hfound, h⟩ := bind_eq_ok.mp h
    cases hblk : c.blocks[b.val]? with
    | none =>
      unfold searchBlock at hfound
      rw [hblk] at hfound
      cases hfound
    | some blk =>
      rcases searchBlock_spec hg hc hentry hblk with ⟨j, hj, hsearch⟩ | ⟨hno, hsearch⟩
      · obtain rfl := Except.ok.inj (hsearch.symm.trans hfound)
        obtain rfl := Except.ok.inj h
        have hlast := hj
        obtain ⟨q, hq, -⟩ := hj
        exact ⟨b, hentry, ⟨.refl, ⟨q, j, hq⟩, fun e he _ => he⟩, hlast⟩
      · obtain rfl := Except.ok.inj (hsearch.symm.trans hfound)
        obtain ⟨e, hne, hnear, hlast⟩ := ih (hd.1.2.reaches hb) h
        exact ⟨e, hne, (nearest_iff hd hno).mpr hnear, hlast⟩

/-- **The search comes to an end**, if the nearest block is not the entry block. -/
theorem exists_findBreakTarget (hexit : ∀ b : c.Id, c.blocks[b.val]? = none → g b = ∅)
    (hb : Reached g b) (hblk : ∃ blk, c.blocks[b.val]? = some blk) (hnear : Nearest f c g b d)
    (hd : d ≠ 0) : ∃ N, ∀ fuel ≥ N, ∀ old idom, IdomOk g old idom →
      ∃ i, c.findBreakTarget f fid a idom fuel b = .ok i := by
  obtain ⟨l, hl⟩ := hb
  -- up the tree the paths to the entry block become shorter
  induction hn : l.length using Nat.strong_induction_on generalizing b l with
  | _ n ih =>
    have hentry : b ≠ 0 := by
      rintro rfl
      exact hd hnear.1.eq_goal
    obtain ⟨e, he⟩ := ImmediatePostdominator.exists_of_ne ⟨l, hl⟩ hentry
    obtain ⟨blk, hblk⟩ := hblk
    rcases searchBlock_spec hg hc hentry hblk with ⟨j, hj, hsearch⟩ | ⟨hno, hsearch⟩
    · refine ⟨1, fun fuel hle old idom hidom => ⟨j, ?_⟩⟩
      obtain ⟨fuel, rfl⟩ := Nat.exists_eq_add_of_le' hle
      unfold findBreakTarget
      rw [hidom.eq b e ⟨l, hl⟩ he]
      simp only [hsearch, ok_bind]
    · obtain ⟨r, hr, -, -, hlt⟩ := hl.exists_suffix (he.1.2 l hl)
      have hblk' : ∃ blk, c.blocks[e.val]? = some blk := by
        obtain ⟨v, hv⟩ := hl.exists_edge (he.1.2 l hl) he.1.1
        cases hget : c.blocks[e.val]? with
        | some blk => exact ⟨blk, rfl⟩
        | none =>
          unfold Back at hv
          rw [hexit e hget] at hv
          exact absurd hv (Finset.notMem_empty v)
      obtain ⟨N, hN⟩ := ih r.length (hn ▸ hlt he.1.1) hblk' ((nearest_iff he hno).mp hnear) r hr rfl
      refine ⟨N + 1, fun fuel hle old idom hidom => ?_⟩
      obtain ⟨fuel, rfl⟩ := Nat.exists_eq_add_of_le' (Nat.le_of_add_left_le hle)
      obtain ⟨i, hi⟩ := hN fuel (by omega) old idom hidom
      refine ⟨i, ?_⟩
      unfold findBreakTarget
      rw [hidom.eq b e ⟨l, hl⟩ he]
      simp only [hsearch, ok_bind]
      exact hi

end Find

/-! ## The successors of a block that ends in a break -/

section Connect

variable {f : Function} {fid : FuncId} {fresh : Nat → Slot} {s : Program} {a : Assembled}
  {c : BasicBlocks} {g g' : c.Graph} {old idom : c.Id → Option c.Id} {b d t : c.Id} {fuel q r : Nat}
  {i j : Inst} {ids : Finset c.Id} {blocks : List c.Id} {x x' : c.Graph × Bool} {name : String}

theorem bbOf_eq (hb : c.bb q = some b.val) : c.bbOf fid (some (fid, q)) = .ok b := by
  unfold bbOf
  rw [getBb_eq hb]
  exact dif_pos b.isLt

theorem bbAt_label (hg : Program.Good f fid fresh s a) (hr : f.LabelOf name r)
    (ht : c.bb r = some t.val) : c.bbAt f fid a ((a.labels name).getD 0) = .ok t := by
  obtain ⟨p, j, hp, hfirst⟩ := hr
  have hlabel : a.labels name = some (f.offset p) :=
    (hg.labels name (f.offset p)).mpr ⟨p, (List.getElem?_eq_some_iff.mp hp).1, hp, rfl⟩
  unfold bbAt
  rw [hlabel, Option.getD_some, slot_of_firstInst hg hfirst]
  exact bbOf_eq ht

theorem bbAt_next (hg : Program.Good f fid fresh s a) (hi : f.inst? q = some i)
    (hr : f.FirstInst (q + 1) r j) (ht : c.bb r = some t.val) :
    c.bbAt f fid a (f.offset q + i.size.bytes) = .ok t := by
  unfold bbAt
  rw [← Function.offset_inst hi, slot_of_firstInst hg hr]
  exact bbOf_eq ht

theorem exists_id (hc : f.WellCut c) (hi : f.inst? q = some i) : ∃ b : c.Id, c.bb q = some b.val := by
  obtain ⟨d, hd, hlt⟩ := hc.bb q i hi
  exact ⟨⟨d, by omega⟩, hd⟩

theorem BasicBlocks.EndsInBreak.bb (h : EndsInBreak f c b q i) (hc : f.WellCut c) : c.bb q = some b.val := by
  obtain ⟨blk, hblk, rfl, -⟩ := h
  exact (hc.spans b.val blk hblk).ends.2.2

theorem BasicBlocks.EndsInBreak.unique (h : EndsInBreak f c b q i) (h' : EndsInBreak f c b r j) :
    q = r ∧ i = j := by
  obtain ⟨blk, hblk, rfl, hi, -⟩ := h
  obtain ⟨blk', hblk', rfl, hj, -⟩ := h'
  obtain rfl := Option.some.inj (hblk.symm.trans hblk')
  exact ⟨rfl, Option.some.inj (hi.symm.trans hj)⟩

/-- What the breaks of a function depend on: every `breakaddr` names a label with code behind it, and
there is code behind every `break` that ends a block. -/
structure BasicBlocks.BreakCode (f : Function) (c : BasicBlocks) : Prop where
  target : ∀ q i, f.inst? q = some i → i.opcode = .BREAKADDR → ∃ r, f.LabelOf i.target r
  next : ∀ b q i, EndsInBreak f c b q i → ∃ r j, f.FirstInst (q + 1) r j

section Break

variable (hg : Program.Good f fid fresh s a) (hc : f.WellCut c) (hcode : BreakCode f c)
include hg hc hcode

theorem breakIds_of_found (hb : EndsInBreak f c b q i) (hnear : Nearest f c g b d)
    (hlast : LastBreakaddr f c d j) (hfind : c.findBreakTarget f fid a idom fuel b = .ok j) :
    ∃ ids, c.breakIds f fid a idom fuel q i (f.offset q) = .ok ids ∧ Turned f c g b q i ids := by
  have hbreakaddr := hlast
  obtain ⟨p, ⟨hp, -, hop⟩, -⟩ := hbreakaddr
  obtain ⟨r, hr⟩ := hcode.target p j hp hop
  have hlabel := hr
  obtain ⟨p₁, j₁, -, hfirst⟩ := hlabel
  obtain ⟨t, ht⟩ := exists_id hc hfirst.inst
  obtain ⟨r₂, j₂, hnext⟩ := hcode.next b q i hb
  obtain ⟨t₂, ht₂⟩ := exists_id hc hnext.inst
  have hi : f.inst? q = some i := by
    obtain ⟨-, -, -, hi, -⟩ := hb
    exact hi
  unfold breakIds
  rw [bbOf_eq (hb.bb hc), ok_bind, hfind, ok_bind, bbAt_label hg hr ht, ok_bind]
  by_cases hpred : i.hasPred = true
  · rw [if_pos hpred, bbAt_next hg hi hnext ht₂, ok_bind]
    refine ⟨_, rfl, d, j, hnear, hlast, r, t, hr, ht, fun x => ?_⟩
    rw [Finset.mem_insert, Finset.mem_singleton]
    apply or_congr Iff.rfl
    constructor
    · rintro rfl
      exact ⟨hpred, r₂, j₂, hnext, ht₂⟩
    · rintro ⟨-, r', j', hr', hx⟩
      obtain rfl := hr'.unique hnext
      exact Fin.ext (Option.some.inj (hx.symm.trans ht₂))
  · rw [if_neg hpred]
    refine ⟨_, rfl, d, j, hnear, hlast, r, t, hr, ht, fun x => ?_⟩
    rw [Finset.mem_singleton]
    constructor
    · exact .inl
    · rintro (rfl | ⟨h, -⟩)
      · rfl
      · exact absurd h hpred

/-- **The successors** of a `break` are those it should have. -/
theorem breakIds_turned (hidom : IdomOk g old idom) (hold : old 0 = none) (hreach : Reached g b)
    (hb : EndsInBreak f c b q i) (h : c.breakIds f fid a idom fuel q i (f.offset q) = .ok ids) :
    Turned f c g b q i ids ∧ ∃ d ≠ (0 : c.Id), Dominates g d b ∧ HasBreakaddr f c d := by
  have hfind : ∃ j, c.findBreakTarget f fid a idom fuel b = .ok j := by
    unfold breakIds at h
    rw [bbOf_eq (hb.bb hc), ok_bind] at h
    obtain ⟨j, hj, -⟩ := bind_eq_ok.mp h
    exact ⟨j, hj⟩
  obtain ⟨j, hj⟩ := hfind
  obtain ⟨d, hd, hnear, hlast⟩ := findBreakTarget_found hg hc hidom hold hreach hj
  obtain ⟨ids', hids', hturned⟩ := breakIds_of_found hg hc hcode hb hnear hlast hj
  obtain rfl := Except.ok.inj (h.symm.trans hids')
  exact ⟨hturned, d, hd, hnear.1, hnear.2.1⟩

end Break

/-! ## The loop over the blocks -/

theorem connectBreak_of_break (hg : Program.Good f fid fresh s a) (hb : EndsInBreak f c b q i) :
    c.connectBreak f fid a idom fuel b x = (do
      let ids ← c.breakIds f fid a idom fuel q i (f.offset q)
      .ok (Function.update x.1 b ids, x.2 || decide (x.1 b ≠ ids))) := by
  obtain ⟨blk, hblk, rfl, hi, hop⟩ := hb
  unfold connectBreak
  simp only [hblk, hi, (hg.insn _ i hi).1]
  exact if_pos hop

theorem connectBreak_of_not (hg : Program.Good f fid fresh s a) (hc : f.WellCut c)
    (hb : ∀ q i, ¬ EndsInBreak f c b q i) : c.connectBreak f fid a idom fuel b x = .ok x := by
  unfold connectBreak
  cases hblk : c.blocks[b.val]? with
  | none => rfl
  | some blk =>
    obtain ⟨⟨i, hi⟩, -⟩ := (hc.spans b.val blk hblk).ends
    simp only [hi, (hg.insn _ i hi).1]
    exact if_neg fun hop => hb blk.ptxEnd i ⟨blk, hblk, rfl, hi, hop⟩

/-- What the loop does to the blocks of a list: those that end in a `break` get their successors. -/
structure Connected (f : Function) (fid : FuncId) (a : Assembled) (c : BasicBlocks)
    (idom : c.Id → Option c.Id) (fuel : Nat) (blocks : List c.Id) (x x' : c.Graph × Bool) : Prop where
  keep : ∀ b, b ∉ blocks ∨ (∀ q i, ¬ EndsInBreak f c b q i) → x'.1 b = x.1 b
  turn : ∀ b ∈ blocks, ∀ q i, EndsInBreak f c b q i →
    c.breakIds f fid a idom fuel q i (f.offset q) = .ok (x'.1 b)
  modified : x'.2 = true ↔ x.2 = true ∨ x'.1 ≠ x.1

theorem connectBreaks_spec (hg : Program.Good f fid fresh s a) (hc : f.WellCut c)
    (hnd : blocks.Nodup) (h : c.connectBreaks f fid a idom fuel blocks x = .ok x') :
    Connected f fid a c idom fuel blocks x x' := by
  induction blocks generalizing x with
  | nil =>
    obtain rfl := Except.ok.inj h
    exact ⟨fun _ _ => rfl, fun b hb => absurd hb List.not_mem_nil, by simp⟩
  | cons b blocks ih =>
    obtain ⟨y, hy, h⟩ := bind_eq_ok.mp h
    obtain ⟨hb, hnd⟩ := List.nodup_cons.mp hnd
    obtain ⟨hkeep, hturn, hmod⟩ := ih hnd h
    have hsame : x'.1 b = y.1 b := hkeep b (.inl hb)
    by_cases hbreak : ∃ q i, EndsInBreak f c b q i
    · obtain ⟨q, i, hqi⟩ := hbreak
      rw [connectBreak_of_break hg hqi] at hy
      obtain ⟨ids, hids, hy⟩ := bind_eq_ok.mp hy
      obtain rfl := Except.ok.inj hy
      dsimp only at hkeep hmod hsame
      rw [Function.update_self] at hsame
      have hother : ∀ d, d ≠ b → Function.update x.1 b ids d = x.1 d :=
        fun d hd => Function.update_of_ne hd _ _
      refine ⟨?_, ?_, ?_⟩
      · intro d hd
        have hne : d ≠ b := by
          rintro rfl
          rcases hd with hd | hd
          · exact hd List.mem_cons_self
          · exact hd q i hqi
        rw [hkeep d (hd.imp_left fun hno hmem => hno (List.mem_cons_of_mem _ hmem))]
        exact hother d hne
      · intro d hd r j hrj
        rcases List.mem_cons.mp hd with rfl | hd
        · obtain ⟨rfl, rfl⟩ := hqi.unique hrj
          rw [hids, hsame]
        · exact hturn d hd r j hrj
      · rw [hmod, Bool.or_eq_true, decide_eq_true_eq, or_assoc]
        apply or_congr Iff.rfl
        constructor
        · rintro (hne | hne) heq
          · exact hne (by rw [← heq, hsame])
          · apply hne
            funext d
            by_cases hd : d = b
            · subst hd
              rw [Function.update_self, hsame]
            · rw [hother d hd, heq]
        · intro hne
          by_contra hno
          rw [not_or, not_not, not_not] at hno
          apply hne
          rw [hno.2, ← hno.1, Function.update_eq_self]
    · have hbreak : ∀ q i, ¬ EndsInBreak f c b q i := fun q i hqi => hbreak ⟨q, i, hqi⟩
      rw [connectBreak_of_not hg hc hbreak] at hy
      obtain rfl := Except.ok.inj hy
      refine ⟨?_, ?_, hmod⟩
      · intro d hd
        apply hkeep d
        exact hd.imp_left fun hno hmem => hno (List.mem_cons_of_mem _ hmem)
      · intro d hd r j hrj
        rcases List.mem_cons.mp hd with rfl | hd
        · exact absurd hrj (hbreak r j)
        · exact hturn d hd r j hrj

theorem exists_connectBreaks (hg : Program.Good f fid fresh s a) (hc : f.WellCut c)
    (h : ∀ b q i, EndsInBreak f c b q i → ∃ ids, c.breakIds f fid a idom fuel q i (f.offset q) = .ok ids) :
    ∃ x', c.connectBreaks f fid a idom fuel blocks x = .ok x' := by
  induction blocks generalizing x with
  | nil => exact ⟨x, rfl⟩
  | cons b blocks ih =>
    unfold connectBreaks
    by_cases hbreak : ∃ q i, EndsInBreak f c b q i
    · obtain ⟨q, i, hqi⟩ := hbreak
      obtain ⟨ids, hids⟩ := h b q i hqi
      rw [connectBreak_of_break hg hqi, hids]
      exact ih
    · rw [connectBreak_of_not hg hc fun q i hqi => hbreak ⟨q, i, hqi⟩]
      exact ih

end Connect

/-! ## Rounds -/

section Rounds

variable {f : Function} {fid : FuncId} {fresh : Nat → Slot} {s : Program} {a : Assembled}
  {c : BasicBlocks} {g g' g₀ g₁ : c.Graph} {old idom : c.Id → Option c.Id} {b : c.Id}
  {fuel k q rounds : Nat} {i : Inst} {r : c.Graph × Bool} {ids ids' : Finset c.Id} {name : String}

theorem Function.LabelOf.unique {p : Nat} (h : f.LabelOf name p) (h' : f.LabelOf name q) : p = q := by
  obtain ⟨x, i, hx, hi⟩ := h
  obtain ⟨y, j, hy, hj⟩ := h'
  obtain rfl := Function.label_unique hx hy
  exact hi.unique hj

theorem BasicBlocks.Turned.unique (hb : Reached g b) (h : Turned f c g b q i ids)
    (h' : Turned f c g b q i ids') : ids = ids' := by
  obtain ⟨d, j, hnear, hlast, p, t, hlabel, ht, hmem⟩ := h
  obtain ⟨d', j', hnear', hlast', p', t', hlabel', ht', hmem'⟩ := h'
  obtain rfl := hnear.unique hb hnear'
  obtain rfl := hlast.unique hlast'
  obtain rfl := hlabel.unique hlabel'
  obtain rfl := Fin.ext (Option.some.inj (ht.symm.trans ht'))
  ext x
  rw [hmem, hmem']

theorem BasicBlocks.Round.unique (hreach : ∀ b q i, EndsInBreak f c b q i → Reached g b)
    (h : Round f c g g') (h' : Round f c g g₁) : g' = g₁ := by
  funext b
  by_cases hb : ∃ q i, EndsInBreak f c b q i
  · obtain ⟨q, i, hqi⟩ := hb
    exact (h.turn b q i hqi).unique (hreach b q i hqi) (h'.turn b q i hqi)
  · have hb : ∀ q i, ¬ EndsInBreak f c b q i := fun q i hqi => hb ⟨q, i, hqi⟩
    rw [h.keep b hb, h'.keep b hb]

section Code

variable (hg : Program.Good f fid fresh s a) (hc : f.WellCut c) (hcode : BreakCode f c)
include hg hc hcode

/-- **`connect_break_targets`** makes one round. -/
theorem connectBreakTargets_round (hidom : IdomOk g old idom) (hold : old 0 = none)
    (hreach : ∀ b q i, EndsInBreak f c b q i → Reached g b)
    (h : c.connectBreakTargets f fid a idom fuel g = .ok r) :
    Round f c g r.1 ∧ (r.2 = true ↔ r.1 ≠ g) ∧ ∀ b q i, EndsInBreak f c b q i →
      ∃ d ≠ (0 : c.Id), Dominates g d b ∧ HasBreakaddr f c d := by
  obtain ⟨hkeep, hturn, hmod⟩ := connectBreaks_spec hg hc (List.nodup_finRange _) h
  have hturned := fun b q i hqi =>
    breakIds_turned hg hc hcode hidom hold (hreach b q i hqi) hqi (hturn b (List.mem_finRange b) q i hqi)
  refine ⟨⟨fun b hb => hkeep b (.inr hb), fun b q i hqi => (hturned b q i hqi).1⟩, ?_,
    fun b q i hqi => (hturned b q i hqi).2⟩
  simpa using hmod

theorem exists_round (hsize : 2 ≤ c.blocks.length + 1) (hexit : ∀ b : c.Id, c.blocks[b.val]? = none → g b = ∅)
    (hreach : ∀ b q i, EndsInBreak f c b q i → Reached g b) (hok : RoundOk f c g) :
    ∃ N, ∀ fuel ≥ N, ∀ old, old 0 = none → ∃ idom r, c.analyseDominators fuel g old = .ok idom ∧
      IdomOk g old idom ∧ c.connectBreakTargets f fid a idom fuel g = .ok r := by
  obtain ⟨N₁, hN₁⟩ := exists_analyseDominators hsize hok.entry
  have hfind : ∀ b : c.Id, ∃ N, (∃ q i, EndsInBreak f c b q i) → ∀ fuel ≥ N, ∀ old idom,
      IdomOk g old idom → ∃ i, c.findBreakTarget f fid a idom fuel b = .ok i := by
    intro b
    by_cases hb : ∃ q i, EndsInBreak f c b q i
    · obtain ⟨q, i, hqi⟩ := hb
      obtain ⟨d, hne, hdom, hhas⟩ := hok.breakaddr b q i hqi
      obtain ⟨e, he⟩ := exists_nearest (hreach b q i hqi) hdom hhas
      have hblk := hqi
      obtain ⟨blk, hblk, -⟩ := hblk
      obtain ⟨N, hN⟩ := exists_findBreakTarget hg hc hexit (hreach b q i hqi) ⟨blk, hblk⟩ he
        (he.ne_entry hdom hhas hne)
      exact ⟨N, fun _ => hN⟩
    · exact ⟨0, fun h => absurd h hb⟩
  choose N₂ hN₂ using hfind
  refine ⟨max N₁ (Finset.univ.sup N₂), fun fuel hle old hold => ?_⟩
  obtain ⟨idom, hidom⟩ := hN₁ fuel (le_trans (le_max_left _ _) hle) old
  have hidomOk := (analyseDominators_ok hidom).2
  have hconnect : ∃ r, c.connectBreakTargets f fid a idom fuel g = .ok r := by
    apply exists_connectBreaks hg hc
    intro b q i hqi
    have hle₂ : N₂ b ≤ fuel :=
      le_trans (Finset.le_sup (Finset.mem_univ b)) (le_trans (le_max_right _ _) hle)
    obtain ⟨j, hj⟩ := hN₂ b ⟨q, i, hqi⟩ fuel hle₂ old idom hidomOk
    obtain ⟨d, -, hnear, hlast⟩ :=
      findBreakTarget_found hg hc hidomOk hold (hreach b q i hqi) hj
    obtain ⟨ids, hids, -⟩ := breakIds_of_found hg hc hcode hqi hnear hlast hj
    exact ⟨ids, hids⟩
  obtain ⟨r, hr⟩ := hconnect
  exact ⟨idom, r, hidom, hidomOk, hr⟩

/-! ## The loop -/

/-- The graphs of the rounds: in all of them the breaks can be reached. -/
def BasicBlocks.BreaksReached (f : Function) (c : BasicBlocks) (g₀ : c.Graph) : Prop :=
  ∀ k g, Steps (Round f c) g₀ k g → ∀ b q i, EndsInBreak f c b q i → Reached g b

omit hg hc hcode in
theorem BasicBlocks.BreaksReached.deterministic (h : BreaksReached f c g₀) : Deterministic (Round f c) g₀ :=
  fun k g _ _ hk hz hz' => hz.unique (h k g hk) hz'

omit hg hc hcode in
theorem keep_steps (h : Steps (Round f c) g₀ k g) (hb : ∀ q i, ¬ EndsInBreak f c b q i) : g b = g₀ b := by
  induction h with
  | zero => rfl
  | succ _ hround ih => rw [hround.keep b hb, ih]

omit hg hc hcode in
theorem exit_steps (hexit : ∀ b : c.Id, c.blocks[b.val]? = none → g₀ b = ∅)
    (h : Steps (Round f c) g₀ k g) (hb : c.blocks[b.val]? = none) : g b = ∅ := by
  rw [keep_steps h, hexit b hb]
  rintro q i ⟨blk, hblk, -⟩
  rw [hb] at hblk
  cases hblk

omit hg hc hcode in
theorem candidate_steps (h : Steps (Round f c) g₀ k g) : Candidate f c g₀ g where
  keep _ hb := keep_steps h hb
  goes b q i hqi := by
    cases h with
    | zero => exact .inl rfl
    | succ _ hround =>
      obtain ⟨d, j, -, ⟨p, hp, -⟩, hgoes⟩ := hround.turn b q i hqi
      exact .inr ⟨p, j, hp.1, hp.2.2, hgoes⟩

omit hg hc hcode in
/-- The rounds of breaks that have ranks. -/
theorem exists_ranked (hreach : BreaksReached f c g₀) (h : Stratified f c g₀) :
    ∃ rank, Ranked (Round f c) rank g₀ := by
  obtain ⟨rank, hrank⟩ := h
  refine ⟨rank, fun k l y y' z z' hy hz hyy hzz b hlow => ?_⟩
  by_cases hb : ∃ q i, EndsInBreak f c b q i
  · obtain ⟨q, i, hqi⟩ := hb
    obtain ⟨d, j, hnear, hlast, hgoes⟩ := hyy.turn b q i hqi
    have hnear' : Nearest f c z b d :=
      hrank y z (candidate_steps hy) (candidate_steps hz) b q i hqi (hreach k y hy b q i hqi)
        (hreach l z hz b q i hqi) hlow d hnear
    exact BasicBlocks.Turned.unique (hreach l z hz b q i hqi) ⟨d, j, hnear', hlast, hgoes⟩
      (hzz.turn b q i hqi)
  · have hb : ∀ q i, ¬ EndsInBreak f c b q i := fun q i hqi => hb ⟨q, i, hqi⟩
    rw [keep_steps (hy.succ hyy) hb, keep_steps (hz.succ hzz) hb]

omit hg hc hcode in
theorem breakRounds_succ (hidom : c.analyseDominators fuel g old = .ok idom)
    (hr : c.connectBreakTargets f fid a idom fuel g = .ok r) :
    c.breakRounds f fid a fuel (rounds + 1) (g, old) =
      if r.2 then c.breakRounds f fid a fuel rounds (r.1, idom) else .ok (r.1, idom) := by
  show (do
    let idom ← c.analyseDominators fuel g old
    let r ← c.connectBreakTargets f fid a idom fuel g
    if r.2 then c.breakRounds f fid a fuel rounds (r.1, idom) else .ok (r.1, idom)) = _
  rw [hidom, ok_bind, hr, ok_bind]

/-- **Where every round can be made** and the run settles, the loop ends. -/
theorem breakRounds_ok (hreach : BreaksReached f c g₀) {N : Nat}
    (hN : ∀ k g, Steps (Round f c) g₀ k g → ∀ fuel ≥ N, ∀ old, old 0 = none → ∃ idom r,
      c.analyseDominators fuel g old = .ok idom ∧ IdomOk g old idom ∧
        c.connectBreakTargets f fid a idom fuel g = .ok r)
    {m : Nat} (hk : Steps (Round f c) g₀ k g) (hold : old 0 = none)
    (hm : Steps (Round f c) g₀ (k + m) g₁) (hfix : Round f c g₁ g₁) (hfuel : fuel ≥ N)
    (hrounds : rounds ≥ m + 1) : ∃ idom, c.breakRounds f fid a fuel rounds (g, old) = .ok (g₁, idom) := by
  have hdet := hreach.deterministic
  induction m generalizing k g old rounds with
  | zero =>
    obtain ⟨rounds, rfl⟩ := Nat.exists_eq_add_of_le' hrounds
    obtain rfl := hm.unique hdet hk
    obtain ⟨idom, r, hidom, hidomOk, hr⟩ := hN k g₁ hk fuel hfuel old hold
    obtain ⟨hround, hmod, -⟩ :=
      connectBreakTargets_round hg hc hcode hidomOk hold (hreach k g₁ hk) hr
    have hsame : r.1 = g₁ := hround.unique (hreach k g₁ hk) hfix
    have hmod : ¬ r.2 = true := fun h => hmod.mp h hsame
    refine ⟨idom, ?_⟩
    rw [Nat.zero_add, breakRounds_succ hidom hr, if_neg hmod, hsame]
  | succ m ih =>
    obtain ⟨rounds, rfl⟩ := Nat.exists_eq_add_of_le' hrounds
    obtain ⟨idom, r, hidom, hidomOk, hr⟩ := hN k g hk fuel hfuel old hold
    obtain ⟨hround, hmod, -⟩ :=
      connectBreakTargets_round hg hc hcode hidomOk hold (hreach k g hk) hr
    rw [show rounds + (m + 1 + 1) = rounds + (m + 1) + 1 by omega, breakRounds_succ hidom hr]
    by_cases hr2 : r.2 = true
    · rw [if_pos hr2]
      exact ih (hk.succ hround) (hidomOk.entry.trans hold)
        (by rwa [show k + 1 + m = k + (m + 1) by omega]) (by omega)
    · rw [if_neg hr2]
      -- the run has settled already
      have hsame : r.1 = g := by
        by_contra hne
        exact hr2 (hmod.mpr hne)
      rw [hsame] at hround ⊢
      obtain rfl := (hk.of_fixed hround (Nat.le_add_right k (m + 1))).unique hdet hm
      exact ⟨idom, rfl⟩

/-- **Where the loop ends**, every round could be made, and the run has settled. -/
theorem breakRounds_settled (hreach : BreaksReached f c g₀) {res : c.Graph × (c.Id → Option c.Id)}
    (hk : Steps (Round f c) g₀ k g) (hold : old 0 = none)
    (h : c.breakRounds f fid a fuel rounds (g, old) = .ok res) :
    ∃ m, Steps (Round f c) g₀ (k + m) res.1 ∧ Round f c res.1 res.1 ∧
      ∀ t ≤ m, ∀ g', Steps (Round f c) g₀ (k + t) g' → RoundOk f c g' := by
  have hdet := hreach.deterministic
  induction rounds generalizing k g old with
  | zero => cases h
  | succ rounds ih =>
    obtain ⟨idom, hidom, h⟩ := bind_eq_ok.mp h
    obtain ⟨r, hr, h⟩ := bind_eq_ok.mp h
    obtain ⟨hentry, hidomOk⟩ := analyseDominators_ok hidom
    obtain ⟨hround, hmod, hbreakaddr⟩ :=
      connectBreakTargets_round hg hc hcode hidomOk hold (hreach k g hk) hr
    have hok : ∀ g', Steps (Round f c) g₀ k g' → RoundOk f c g' := by
      intro g' hg'
      obtain rfl := hk.unique hdet hg'
      exact ⟨hentry, hbreakaddr⟩
    by_cases hr2 : r.2 = true
    · rw [if_pos hr2] at h
      obtain ⟨m, hm, hfix, hall⟩ := ih (hk.succ hround) (hidomOk.entry.trans hold) h
      refine ⟨m + 1, by rwa [show k + (m + 1) = k + 1 + m by omega], hfix, ?_⟩
      intro t ht g' hg'
      rcases t with _ | t
      · exact hok g' hg'
      · exact hall t (by omega) g' (by rwa [show k + 1 + t = k + (t + 1) by omega])
    · rw [if_neg hr2] at h
      obtain rfl := Except.ok.inj h
      have hsame : r.1 = g := by
        by_contra hne
        exact hr2 (hmod.mpr hne)
      rw [hsame] at hround ⊢
      refine ⟨0, hk, hround, ?_⟩
      intro t ht g' hg'
      obtain rfl : t = 0 := by omega
      exact hok g' hg'

theorem exists_fuel (hsize : 2 ≤ c.blocks.length + 1)
    (hexit : ∀ b : c.Id, c.blocks[b.val]? = none → g₀ b = ∅) (hreach : BreaksReached f c g₀)
    (hok : ∀ k g, Steps (Round f c) g₀ k g → RoundOk f c g) :
    ∃ N, ∀ k g, Steps (Round f c) g₀ k g → ∀ fuel ≥ N, ∀ old, old 0 = none → ∃ idom r,
      c.analyseDominators fuel g old = .ok idom ∧ IdomOk g old idom ∧
        c.connectBreakTargets f fid a idom fuel g = .ok r := by
  have hall : ∀ g : c.Graph, ∃ N, (∃ k, Steps (Round f c) g₀ k g) → ∀ fuel ≥ N, ∀ old,
      old 0 = none → ∃ idom r, c.analyseDominators fuel g old = .ok idom ∧ IdomOk g old idom ∧
        c.connectBreakTargets f fid a idom fuel g = .ok r := by
    intro g
    by_cases hg' : ∃ k, Steps (Round f c) g₀ k g
    · obtain ⟨k, hk⟩ := hg'
      obtain ⟨N, hN⟩ := exists_round hg hc hcode hsize (fun b hb => exit_steps hexit hk hb)
        (hreach k g hk) (hok k g hk)
      exact ⟨N, fun _ => hN⟩
    · exact ⟨0, fun h => absurd h hg'⟩
  choose N hN using hall
  refine ⟨Finset.univ.sup N, fun k g hk fuel hle => ?_⟩
  exact hN g ⟨k, hk⟩ fuel (le_trans (Finset.le_sup (Finset.mem_univ g)) hle)

/-- The loop ends, with every `break` going where it should. -/
def BasicBlocks.BreaksSettle (f : Function) (fid : FuncId) (a : Assembled) (c : BasicBlocks)
    (g₀ : c.Graph) : Prop :=
  ∃ N g, (∀ fuel ≥ N, ∀ rounds ≥ N, ∃ idom,
    c.breakRounds f fid a fuel rounds (g₀, fun _ => none) = .ok (g, idom)) ∧ BreaksRight f c g

/-- In the graph with which the loop starts and in all those that the rounds make of it, a round can be
made. -/
def BasicBlocks.BreaksOk (f : Function) (c : BasicBlocks) (g₀ : c.Graph) : Prop :=
  ∀ k g, Steps (Round f c) g₀ k g → RoundOk f c g

theorem breaksOk_of_settle (hreach : BreaksReached f c g₀) (h : BreaksSettle f fid a c g₀) :
    BreaksOk f c g₀ := by
  obtain ⟨N, g, hall, -⟩ := h
  obtain ⟨idom, hrun⟩ := hall N le_rfl N le_rfl
  obtain ⟨m, hm, hfix, hok⟩ := breakRounds_settled hg hc hcode hreach .zero rfl hrun
  simp only [Nat.zero_add] at hm hok
  intro k g' hk
  rcases Nat.le_total k m with hle | hle
  · exact hok k hle g' hk
  · obtain rfl := hk.unique hreach.deterministic (hm.of_fixed hfix hle)
    exact hok m le_rfl _ hm

theorem settle_of_breaksOk (hsize : 2 ≤ c.blocks.length + 1)
    (hexit : ∀ b : c.Id, c.blocks[b.val]? = none → g₀ b = ∅) (hreach : BreaksReached f c g₀)
    (hstrat : Stratified f c g₀) (hok : BreaksOk f c g₀) : BreaksSettle f fid a c g₀ := by
  obtain ⟨N, hN⟩ := exists_fuel hg hc hcode hsize hexit hreach hok
  have htotal : ∀ k g, Steps (Round f c) g₀ k g → ∃ g', Round f c g g' := by
    intro k g hk
    obtain ⟨idom, r, -, hidomOk, hr⟩ := hN k g hk N le_rfl (fun _ => none) rfl
    exact ⟨r.1, (connectBreakTargets_round hg hc hcode hidomOk rfl (hreach k g hk) hr).1⟩
  obtain ⟨rank, hranked⟩ := exists_ranked hreach hstrat
  obtain ⟨m, g₁, hm, hfix⟩ := hranked.exists_fixed htotal
  refine ⟨max N (m + 1), g₁, fun fuel hfuel rounds hrounds => ?_, hfix.turn⟩
  exact breakRounds_ok hg hc hcode hreach hN .zero rfl (by rwa [Nat.zero_add]) hfix
    (le_trans (le_max_left _ _) hfuel) (le_trans (le_max_right _ _) hrounds)

end Code

end Rounds

end GpgpuSimRuby.Ptx
