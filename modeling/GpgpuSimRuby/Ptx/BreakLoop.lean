import GpgpuSimRuby.Ptx.BreakRounds

/-!
# The loop over the breaks of an assembled function

When the loop of `ptx_assemble` ends with the breaks going where they should. The rounds start from the
graph of `connect_basic_blocks`, in which a `break` goes on to the next block.
-/

namespace GpgpuSimRuby.Ptx

open Library BasicBlocks

section Assembled

variable {f : Function} {fid : FuncId} {fresh : Nat → Slot} {s : Program} {a : Assembled}
  {c : BasicBlocks} {ids : List (Finset Nat)} {b : c.Id} {q : Nat} {i : Inst}

theorem length_connectFrom {blocks : List BasicBlock}
    (h : c.connectFrom f fid a blocks = .ok ids) : ids.length = blocks.length := by
  induction blocks generalizing ids with
  | nil =>
    obtain rfl := Except.ok.inj h
    rfl
  | cons blk blocks ih =>
    obtain ⟨x, -, h⟩ := bind_eq_ok.mp h
    obtain ⟨rest, hrest, h⟩ := bind_eq_ok.mp h
    obtain rfl := Except.ok.inj h
    rw [List.length_cons, List.length_cons, ih hrest]

theorem graph_exit (h : c.connectBasicBlocks f fid a = .ok ids) (hb : c.blocks[b.val]? = none) :
    c.graph ids b = ∅ := by
  have hlen := length_connectFrom h
  have hge := List.getElem?_eq_none_iff.mp hb
  unfold graph
  rw [List.getD_eq_getElem?_getD, List.getElem?_eq_none (by omega), Option.getD_none]
  simp

theorem two_le_length (hc : f.createBasicBlocks = .ok c) : 2 ≤ c.blocks.length + 1 := by
  obtain ⟨_, -, hc⟩ := bind_eq_ok.mp hc
  obtain rfl := Except.ok.inj hc
  simp

/-- There is code behind a `break` that ends a block, where `connect_basic_blocks` has found it. -/
theorem exists_next (hg : Program.Good f fid fresh s a)
    (h : c.connectBasicBlocks f fid a = .ok ids) (hb : EndsInBreak f c b q i) :
    ∃ r j, f.FirstInst (q + 1) r j := by
  obtain ⟨blk, hblk, rfl, hi, hop⟩ := hb
  obtain ⟨succ, hsucc, -⟩ := connectFrom_get h hblk
  have hret : ¬ i.Returns := by
    intro hret
    rcases hret with h | h | h <;> rw [hop] at h <;> cases h
  have hjump : ¬ i.Jumps := by
    intro hjump
    have := hjump.1
    rw [hop] at this
    cases this
  rw [connectBlock_eq hg hi, if_neg hret] at hsucc
  obtain ⟨target, -, hsucc⟩ := bind_eq_ok.mp hsucc
  obtain ⟨next, hnext, -⟩ := bind_eq_ok.mp hsucc
  by_contra hno
  rw [nextIds_of_end hi hjump] at hnext
  · cases hnext
  · intro k hk
    cases hik : f.inst? k with
    | none => rfl
    | some j => exact absurd (exists_firstInst_succ hik hk) hno

theorem breakCode (hg : Program.Good f fid fresh s a) (hf : f.Followed)
    (hids : c.connectBasicBlocks f fid a = .ok ids) : BreakCode f c := by
  constructor
  · intro q i hi hop
    obtain ⟨r, hr, -⟩ := hg.addresses hf q i hi (.inr (.inl hop))
    exact ⟨r, hr⟩
  · intro b q i hb
    exact exists_next hg hids hb

end Assembled

section Candidates

variable {f : Function} {c : BasicBlocks} {g₀ g : c.Graph} {q r : Nat} {i j : Inst} {t : c.Id}
  {ids : Finset c.Id}

theorem goes_eq (h : Goes f c j q i ids) (hpred : ¬ i.hasPred) (hr : f.LabelOf j.target r)
    (ht : c.bb r = some t.val) : ids = {t} := by
  obtain ⟨r', t', hr', ht', hmem⟩ := h
  obtain rfl := hr.unique hr'
  obtain rfl := Fin.ext (Option.some.inj (ht.symm.trans ht'))
  ext x
  rw [hmem, Finset.mem_singleton]
  exact or_iff_left fun h => hpred h.1

/-- Where every `breakaddr` says what the graph has already, there is no other candidate. -/
theorem candidate_eq (h : ∀ b q i, EndsInBreak f c b q i → ∀ p j ids, f.inst? p = some j →
    j.opcode = .BREAKADDR → Goes f c j q i ids → ids = g₀ b) (hg : Candidate f c g₀ g) : g = g₀ := by
  funext b
  by_cases hb : ∃ q i, EndsInBreak f c b q i
  · obtain ⟨q, i, hqi⟩ := hb
    rcases hg.goes b q i hqi with heq | ⟨p, j, hj, hop, hgoes⟩
    · exact heq
    · exact h b q i hqi p j _ hj hop hgoes
  · exact hg.keep b fun q i hqi => hb ⟨q, i, hqi⟩

end Candidates

/-- The blocks of a function, none where they cannot be made. -/
def Function.blocks (f : Function) : BasicBlocks :=
  match f.createBasicBlocks with
  | .ok c => c
  | .error _ => ⟨[], fun _ => none⟩

section LaterBreakaddr

/-- `nop; @p bra end; loop: breakaddr end; body: break; end: exit`. -/
def laterBreakaddr : Function where
  items := [.inst { opcode := .OTHER }, .inst { opcode := .BRA, hasPred := true, target := "end" },
    .label "loop", .inst { opcode := .BREAKADDR, target := "end" }, .label "body",
    .inst { opcode := .BREAK }, .label "end", .inst { opcode := .EXIT }]
  labels_nodup := by decide

/-- Its graph, as `connect_basic_blocks` makes it. -/
def laterGraph : laterBreakaddr.blocks.Graph := laterBreakaddr.blocks.graph [{3, 1}, {2}, {3}, {4}]

theorem followed_laterBreakaddr : laterBreakaddr.Followed := by
  intro name h
  cases h

theorem breakaddr_laterBreakaddr {p : Nat} {i : Inst} (h : laterBreakaddr.inst? p = some i)
    (hop : i.opcode = .BREAKADDR) : i = { opcode := .BREAKADDR, target := "end" } := by
  have hp : p < 8 := Function.lt_length h
  interval_cases p
  · obtain rfl := Option.some.inj h
    cases hop
  · obtain rfl := Option.some.inj h
    cases hop
  · cases h
  · exact (Option.some.inj h).symm
  · cases h
  · obtain rfl := Option.some.inj h
    cases hop
  · cases h
  · obtain rfl := Option.some.inj h
    cases hop

theorem endsInBreak_laterBreakaddr {b : laterBreakaddr.blocks.Id} {q : Nat} {i : Inst}
    (h : EndsInBreak laterBreakaddr laterBreakaddr.blocks b q i) :
    b = ⟨2, by decide⟩ ∧ i = { opcode := .BREAK } := by
  obtain ⟨blk, hblk, rfl, hi, hop⟩ := h
  obtain ⟨b, hb⟩ := b
  have hb : b < 4 := (List.getElem?_eq_some_iff.mp hblk).1
  interval_cases b <;> obtain rfl := Option.some.inj hblk <;> obtain rfl := Option.some.inj hi
  · cases hop
  · cases hop
  · exact ⟨rfl, rfl⟩
  · cases hop

theorem candidate_laterBreakaddr {g : laterBreakaddr.blocks.Graph}
    (h : Candidate laterBreakaddr laterBreakaddr.blocks laterGraph g) : g = laterGraph := by
  apply candidate_eq _ h
  intro b q i hqi p j ids hj hop hgoes
  obtain ⟨rfl, rfl⟩ := endsInBreak_laterBreakaddr hqi
  obtain rfl := breakaddr_laterBreakaddr hj hop
  have hend : laterBreakaddr.LabelOf "end" 7 :=
    ⟨6, _, rfl, (Function.FirstInst.self (i := { opcode := .EXIT }) rfl).of_label rfl⟩
  exact goes_eq hgoes (by decide) hend (t := ⟨3, by decide⟩) rfl

theorem stratified_laterBreakaddr : Stratified laterBreakaddr laterBreakaddr.blocks laterGraph := by
  refine ⟨fun _ => 0, fun g g' hg hg' b q i _ _ _ _ d hd => ?_⟩
  obtain rfl := candidate_laterBreakaddr hg
  obtain rfl := candidate_laterBreakaddr hg'
  exact hd

theorem breaksReached_laterBreakaddr : BreaksReached laterBreakaddr laterBreakaddr.blocks laterGraph := by
  intro k g hk b q i hqi
  obtain rfl := candidate_laterBreakaddr (candidate_steps hk)
  obtain ⟨rfl, rfl⟩ := endsInBreak_laterBreakaddr hqi
  have h₁ : (⟨1, by decide⟩ : laterBreakaddr.blocks.Id) ∈ laterGraph 0 := by decide
  have h₂ : (⟨2, by decide⟩ : laterBreakaddr.blocks.Id) ∈ laterGraph ⟨1, by decide⟩ := by decide
  exact ⟨_, .step h₂ (.step h₁ .done)⟩

theorem breaksOk_laterBreakaddr : BreaksOk laterBreakaddr laterBreakaddr.blocks laterGraph := by
  intro k g hk
  obtain rfl := candidate_laterBreakaddr (candidate_steps hk)
  refine ⟨by decide, ?_⟩
  intro b q i hqi
  obtain ⟨rfl, rfl⟩ := endsInBreak_laterBreakaddr hqi
  refine ⟨⟨1, by decide⟩, by decide, ?_, 3, _, rfl, rfl, rfl⟩
  intro l hl
  cases hl with
  | @step v w l he hl =>
    have hone : ∀ w : laterBreakaddr.blocks.Id,
        (⟨2, by decide⟩ : laterBreakaddr.blocks.Id) ∈ laterGraph w → w = ⟨1, by decide⟩ := by
      decide
    obtain rfl := hone w he
    exact List.mem_cons_of_mem _ hl.head_mem

end LaterBreakaddr

section EntryBreakaddr

/-- `@p bra end; breakaddr end; body: break; end: exit`. The branch comes first and does not end its
block. -/
def entryBreakaddr : Function where
  items := [.inst { opcode := .BRA, hasPred := true, target := "end" },
    .inst { opcode := .BREAKADDR, target := "end" }, .label "body", .inst { opcode := .BREAK },
    .label "end", .inst { opcode := .EXIT }]
  labels_nodup := by decide

/-- Its graph, as `connect_basic_blocks` makes it. -/
def entryGraph : entryBreakaddr.blocks.Graph := entryBreakaddr.blocks.graph [{1}, {2}, {3}]

theorem followed_entryBreakaddr : entryBreakaddr.Followed := by
  intro name h
  cases h

theorem breakaddr_entryBreakaddr {p : Nat} {i : Inst} (h : entryBreakaddr.inst? p = some i)
    (hop : i.opcode = .BREAKADDR) : p = 1 ∧ i = { opcode := .BREAKADDR, target := "end" } := by
  have hp : p < 6 := Function.lt_length h
  interval_cases p
  · obtain rfl := Option.some.inj h
    cases hop
  · exact ⟨rfl, (Option.some.inj h).symm⟩
  · cases h
  · obtain rfl := Option.some.inj h
    cases hop
  · cases h
  · obtain rfl := Option.some.inj h
    cases hop

theorem endsInBreak_entryBreakaddr {b : entryBreakaddr.blocks.Id} {q : Nat} {i : Inst}
    (h : EndsInBreak entryBreakaddr entryBreakaddr.blocks b q i) :
    b = ⟨1, by decide⟩ ∧ i = { opcode := .BREAK } := by
  obtain ⟨blk, hblk, rfl, hi, hop⟩ := h
  obtain ⟨b, hb⟩ := b
  have hb : b < 3 := (List.getElem?_eq_some_iff.mp hblk).1
  interval_cases b <;> obtain rfl := Option.some.inj hblk <;> obtain rfl := Option.some.inj hi
  · cases hop
  · exact ⟨rfl, rfl⟩
  · cases hop

theorem breaksReached_entryBreakaddr : BreaksReached entryBreakaddr entryBreakaddr.blocks entryGraph := by
  intro k g hk b q i hqi
  have hg : g = entryGraph := by
    apply candidate_eq _ (candidate_steps hk)
    intro b q i hqi p j ids hj hop hgoes
    obtain ⟨rfl, rfl⟩ := endsInBreak_entryBreakaddr hqi
    obtain ⟨rfl, rfl⟩ := breakaddr_entryBreakaddr hj hop
    have hend : entryBreakaddr.LabelOf "end" 5 :=
      ⟨4, _, rfl, (Function.FirstInst.self (i := { opcode := .EXIT }) rfl).of_label rfl⟩
    exact goes_eq hgoes (by decide) hend (t := ⟨2, by decide⟩) rfl
  obtain ⟨rfl, rfl⟩ := endsInBreak_entryBreakaddr hqi
  rw [hg]
  have hedge : (⟨1, by decide⟩ : entryBreakaddr.blocks.Id) ∈ entryGraph 0 := by decide
  exact ⟨_, .step hedge .done⟩

theorem not_breaksOk_entryBreakaddr : ¬ BreaksOk entryBreakaddr entryBreakaddr.blocks entryGraph := by
  intro h
  have hbreak : EndsInBreak entryBreakaddr entryBreakaddr.blocks ⟨1, by decide⟩ 3
      { opcode := .BREAK } := ⟨⟨3, 3⟩, rfl, rfl, rfl, rfl⟩
  obtain ⟨d, hne, -, p, i, hi, hp, hop⟩ := (h 0 _ .zero).breakaddr _ 3 _ hbreak
  obtain ⟨rfl, rfl⟩ := breakaddr_entryBreakaddr hi hop
  exact hne (Fin.ext (Option.some.inj hp).symm)

end EntryBreakaddr

end GpgpuSimRuby.Ptx
