import GpgpuSimRuby.Library.GreedyMatching
import GpgpuSimRuby.Library.Loops

/-!
# The arbiter of the operand collector

`arbiter_t` has a queue of read requests for each register bank. Every cycle `allocate_reads`
matches the banks whose queue is not empty to the collector units at the heads of the queues, with a
wavefront allocator: it goes over the diagonals of the request matrix, from one that rotates.
-/

namespace GpgpuSimRuby.Shader

open Library

namespace OperandCollector

/-- What `arbiter_t::init` is called with, and asserts. -/
structure Dims where
  numBanks : Nat
  numCollectors : Nat
  numBanks_pos : 0 < numBanks
  numCollectors_pos : 0 < numCollectors

/-- `MAX_REG_OPERANDS`. -/
def maxRegOperands : Nat := 8

/-- An index of `m_src_op` and `m_not_ready`. -/
abbrev OperandIdx := Fin (maxRegOperands * 2)

/-- A valid `op_t` of a collector unit. -/
structure Op (d : Dims) where
  ocId : Fin d.numCollectors
  operand : OperandIdx
  register : Nat
  bank : Fin d.numBanks
  deriving DecidableEq

/-- `alloc_t`. -/
inductive Alloc where
  | noAlloc | readAlloc | writeAlloc
  deriving DecidableEq, Repr

def Alloc.isFree (a : Alloc) : Bool := a = .noAlloc
def Alloc.isWrite (a : Alloc) : Bool := a = .writeAlloc

/-- The assertions of the operand collector. -/
inductive Fault where
  /-- `assert(_square > 0)` -/
  | square
  /-- `assert( oc_id < _outputs )` -/
  | request
  /-- `assert( output < _outputs )` -/
  | output
  /-- `assert(is_free())` of `alloc_read` and `alloc_write` -/
  | bankNotFree
  /-- `assert(m_free)` of `collector_unit_t::allocate` -/
  | unitNotFree
  /-- `assert(m_not_ready.none())` of `allocate` and `dispatch` -/
  | notReady
  /-- `assert( dst->empty() )` of `move_warp` into a collector unit -/
  | moveWarp
  /-- `get_free` of a register set that is full -/
  | noFreeRegister
  /-- `dispatch` of a unit without an instruction or an output register -/
  | noInst
  deriving DecidableEq, Repr

/-- `arbiter_t`. -/
structure Arbiter (d : Dims) where
  queue : Fin d.numBanks → List (Op d)
  allocatedBank : Fin d.numBanks → Alloc
  lastCu : Nat

variable {d : Dims}

/-! ## `allocate_reads` -/

/-- The larger side of the request matrix. -/
def Dims.square (d : Dims) : Nat := if d.numBanks > d.numCollectors then d.numBanks else d.numCollectors

namespace Arbiter

variable (a : Arbiter d)

/-- `_request[input][output]`. -/
def request (input : Fin d.numBanks) (output : Nat) : Bool :=
  match (a.queue input).head? with
  | none => false
  | some op => decide (op.ocId.val = output)

/-- `_inmatch` and `_outmatch` before the first diagonal: a bank that is written is as good as
matched. -/
def cleared : Matching (Fin d.numBanks) Nat where
  row input := if (a.allocatedBank input).isWrite then some 0 else none
  col _ := none

/-- One step along a diagonal, from the output and the matching so far. -/
def stepDiagonal (st : Nat × Matching (Fin d.numBanks) Nat) (input : Fin d.numBanks) :
    Except Fault (Nat × Matching (Fin d.numBanks) Nat) := do
  assert (st.1 < d.numCollectors) .output
  -- the code tests `output < _outputs` once more here
  .ok ((st.1 + 1) % d.square, st.2.offer a.request (input, st.1))

/-- The loop over the diagonals. -/
def wavefront : Except Fault (Matching (Fin d.numBanks) Nat) :=
  (List.range d.square).foldlM (fun m p =>
    ((List.finRange d.numBanks).foldlM a.stepDiagonal ((a.lastCu + p) % d.square, m)).map Prod.snd)
    a.cleared

/-- Does the bank's queue lose its head under the matching? -/
def granted (m : Matching (Fin d.numBanks) Nat) (input : Fin d.numBanks) : Bool :=
  (m.row input).isSome && !(a.allocatedBank input).isWrite

/-- The granted operands, by bank, and the arbiter after they have left their queues. -/
def grant (m : Matching (Fin d.numBanks) Nat) : List (Op d) × Arbiter d :=
  ((List.finRange d.numBanks).flatMap fun b =>
      if a.granted m b then (a.queue b).head?.toList else [],
    { a with
      queue := fun b => if a.granted m b then (a.queue b).tail else a.queue b
      lastCu := (a.lastCu + 1) % d.square })

/-- The assertion that the head of a queue passes when `_request` is filled in. -/
def checkRequest (b : Fin d.numBanks) : Except Fault Unit :=
  match (a.queue b).head? with
  | none => .ok ()
  | some op => assert (op.ocId.val < d.numCollectors) .request

/-- `allocate_reads`. -/
def allocateReads : Except Fault (List (Op d) × Arbiter d) := do
  assert (0 < d.square) .square
  (List.finRange d.numBanks).forM a.checkRequest
  let m ← a.wavefront
  .ok (a.grant m)

/-! ## The diagonals -/

variable {j n : Nat} {st : Nat × Matching (Fin d.numBanks) Nat} {i : Fin d.numBanks}

theorem exists_add_mod (base : Nat) (h : j < n) : ∃ i < n, (base + i) % n = j := by
  have hbase : base % n < n := Nat.mod_lt _ (by omega)
  by_cases hle : base % n ≤ j
  · refine ⟨j - base % n, by omega, ?_⟩
    rw [← Nat.mod_add_mod, Nat.add_sub_cancel' hle, Nat.mod_eq_of_lt h]
  · refine ⟨j + n - base % n, by omega, ?_⟩
    rw [← Nat.mod_add_mod, Nat.add_sub_cancel' (by omega), Nat.add_mod_right, Nat.mod_eq_of_lt h]

theorem val_of_finRange_eq {done rest : List (Fin n)} {x : Fin n}
    (h : List.finRange n = done ++ x :: rest) : x.val = done.length := by
  have hx : (List.finRange n)[done.length]? = some x := by
    rw [h, List.getElem?_append_right le_rfl, Nat.sub_self, List.getElem?_cons_zero]
  obtain ⟨hlt, hx⟩ := List.getElem?_eq_some_iff.mp hx
  rw [List.getElem_finRange] at hx
  rw [← hx]
  rfl

variable {a : Arbiter d} {m : Matching (Fin d.numBanks) Nat}

/-- The pairs that the diagonal from `output` comes by. -/
def diagonal (output : Nat) (inputs : List (Fin d.numBanks)) : List (Fin d.numBanks × Nat) :=
  inputs.map fun i => (i, (output + i.val) % d.square)

theorem mod_square_lt (n : Nat) : n % d.square < d.square := by
  apply Nat.mod_lt
  have := d.numBanks_pos
  unfold Dims.square
  split <;> omega

/-- What a step along the diagonal from `output` keeps. -/
structure Along (a : Arbiter d) (output : Nat) (es : List (Fin d.numBanks × Nat))
    (done : List (Fin d.numBanks)) (st : Nat × Matching (Fin d.numBanks) Nat) : Prop where
  output_eq : st.1 = (output + done.length) % d.square
  inRange : ∀ i ∈ done, (output + i.val) % d.square < d.numCollectors
  grown : Matching.Grown a.request a.cleared (es ++ diagonal output done) st.2

variable {output : Nat} {es : List (Fin d.numBanks × Nat)}

theorem Along.nil (hout : output < d.square) (h : Matching.Grown a.request a.cleared es m) :
    Along a output es [] (output, m) where
  output_eq := (Nat.mod_eq_of_lt hout).symm
  inRange _ hi := absurd hi List.not_mem_nil
  grown := by simpa [diagonal] using h

/-- **One step along a diagonal**, which ends well inside the request matrix. -/
theorem Along.step {done rest : List (Fin d.numBanks)}
    {x : Fin d.numBanks}
    (hsplit : List.finRange d.numBanks = done ++ x :: rest) (h : Along a output es done st)
    (hlt : st.1 < d.numCollectors) :
    ∃ st', a.stepDiagonal st x = .ok st' ∧ Along a output es (done ++ [x]) st' := by
  have hval : x.val = done.length := val_of_finRange_eq hsplit
  have hst : st.1 = (output + x.val) % d.square := by rw [hval, h.output_eq]
  refine ⟨((st.1 + 1) % d.square, st.2.offer a.request (x, st.1)), ?_, ?_, ?_, ?_⟩
  · unfold stepDiagonal
    rw [assert_pos hlt, ok_bind]
  · rw [h.output_eq, Nat.mod_add_mod, List.length_append, List.length_singleton, Nat.add_assoc]
  · intro i hi
    rcases List.mem_append.mp hi with hi | hi
    · exact h.inRange i hi
    · rw [List.mem_singleton.mp hi, ← hst]
      exact hlt
  · have hgrown := h.grown.offer (x, st.1)
    rw [List.append_assoc] at hgrown
    have hdiag : diagonal output (done ++ [x]) = diagonal output done ++ [(x, st.1)] := by
      simp [diagonal, hst]
    rw [hdiag]
    exact hgrown

theorem Along.of_ok
    (hout : output < d.square) (h : Matching.Grown a.request a.cleared es m)
    (hok : (List.finRange d.numBanks).foldlM a.stepDiagonal (output, m) = .ok st) :
    Along a output es (List.finRange d.numBanks) st := by
  apply foldlM_ok_invariant hok (.nil hout h)
  intro done x rest c c' hsplit hc hstep
  have hlt : c.1 < d.numCollectors := by
    unfold stepDiagonal at hstep
    obtain ⟨_, hlt, _⟩ := bind_eq_ok.mp hstep
    exact assert_eq_ok.mp hlt
  obtain ⟨c'', hc'', halong⟩ := hc.step hsplit hlt
  rw [hstep] at hc''
  cases hc''
  exact halong

/-! ## Fewer banks than collector units -/

theorem square_of_le (h : d.numBanks ≤ d.numCollectors) : d.square = d.numCollectors :=
  if_neg (by omega)

theorem cleared_grown (a : Arbiter d) : Matching.Grown a.request a.cleared [] a.cleared := .nil fun _ => rfl

/-- **All diagonals.** -/
theorem wavefront_ok (h : d.numBanks ≤ d.numCollectors) :
    ∃ m, a.wavefront = .ok m ∧ Matching.Grown a.request a.cleared
      ((List.range d.square).flatMap fun p =>
        diagonal ((a.lastCu + p) % d.square) (List.finRange d.numBanks)) m := by
  apply foldlM_invariant fun done (m : Matching (Fin d.numBanks) Nat) =>
    Matching.Grown a.request a.cleared (done.flatMap fun p =>
      diagonal ((a.lastCu + p) % d.square) (List.finRange d.numBanks)) m
  · exact a.cleared_grown
  · intro done p rest m _ hm
    have hout := mod_square_lt (d := d) (a.lastCu + p)
    -- the output of every step is a residue, and these all name collector units
    obtain ⟨st, hst, halong⟩ := foldlM_invariant _ (Along.nil hout hm)
      fun done' x rest' c hsplit hc => hc.step hsplit <| by
        rw [hc.output_eq, ← square_of_le h]
        exact mod_square_lt _
    refine ⟨st.2, map_eq_ok.mpr ⟨st, hst, rfl⟩, ?_⟩
    rw [List.flatMap_append, List.flatMap_singleton]
    exact halong.grown

theorem mem_diagonals (i : Fin d.numBanks) (hj : j < d.square) :
    (i, j) ∈ (List.range d.square).flatMap fun p =>
      diagonal ((a.lastCu + p) % d.square) (List.finRange d.numBanks) := by
  obtain ⟨p, hp, hmod⟩ := exists_add_mod (a.lastCu + i.val) hj
  apply List.mem_flatMap.mpr
  refine ⟨p, List.mem_range.mpr hp, List.mem_map.mpr ⟨i, List.mem_finRange i, ?_⟩⟩
  rw [Nat.mod_add_mod, Nat.add_right_comm, hmod]

theorem request_iff :
    a.request i j = true ↔ ∃ op, (a.queue i).head? = some op ∧ op.ocId.val = j := by
  unfold request
  cases (a.queue i).head? with
  | none => simp
  | some op => simp

theorem cleared_row : a.cleared.row i = none ↔ (a.allocatedBank i).isWrite = false := by
  show (if (a.allocatedBank i).isWrite then some 0 else none) = none ↔ _
  split <;> simp [*]

/-- What one call of the arbiter is to do: `winner` tells the banks that are granted. -/
structure Arbitrated (a : Arbiter d) (winner : Fin d.numBanks → Bool) (grants : List (Op d))
    (a' : Arbiter d) : Prop where
  /-- each granted bank gives the head of its queue, which leaves the queue -/
  grants_eq : grants = (List.finRange d.numBanks).flatMap fun b =>
    if winner b then (a.queue b).head?.toList else []
  queue_eq : ∀ b, a'.queue b = if winner b then (a.queue b).tail else a.queue b
  head : ∀ b, winner b = true → (a.queue b).head? ≠ none
  /-- no bank is granted that is allocated to a write -/
  notWrite : ∀ b, winner b = true → (a.allocatedBank b).isWrite = false
  /-- no collector unit is served by two banks -/
  collector : ∀ b b' op op', winner b = true → winner b' = true → (a.queue b).head? = some op →
    (a.queue b').head? = some op' → op.ocId = op'.ocId → b = b'
  /-- a head is left only where its collector unit is served by another bank -/
  maximal : ∀ b op, (a.queue b).head? = some op → (a.allocatedBank b).isWrite = false →
    winner b = false → ∃ b' op', winner b' = true ∧ (a.queue b').head? = some op' ∧ op'.ocId = op.ocId
  allocatedBank_eq : a'.allocatedBank = a.allocatedBank

theorem granted_iff (h : Matching.Grown a.request a.cleared es m) {b : Fin d.numBanks} :
    a.granted m b = true ↔ (a.allocatedBank b).isWrite = false ∧
      ∃ op, (a.queue b).head? = some op ∧ m.row b = some op.ocId.val := by
  unfold granted
  constructor
  · intro hb
    rw [Bool.and_eq_true, Option.isSome_iff_exists, Bool.not_eq_true'] at hb
    obtain ⟨⟨j, hj⟩, hw⟩ := hb
    obtain ⟨hreq, -, -⟩ := h.matched b j hj (cleared_row.mpr hw)
    obtain ⟨op, hop, rfl⟩ := request_iff.mp hreq
    exact ⟨hw, op, hop, hj⟩
  · rintro ⟨hw, op, -, hrow⟩
    simp [hw, hrow]

/-- **A maximal matching is granted as the arbiter is to grant.** -/
theorem grant_arbitrated
    (h : Matching.Grown a.request a.cleared es m) (hall : ∀ i, ∀ op, (a.queue i).head? = some op →
      (i, op.ocId.val) ∈ es) :
    Arbitrated a (a.granted m) (a.grant m).1 (a.grant m).2 where
  grants_eq := rfl
  queue_eq _ := rfl
  head b hb := by
    obtain ⟨-, op, hop, -⟩ := (granted_iff h).mp hb
    simp [hop]
  notWrite b hb := ((granted_iff h).mp hb).1
  collector b b' op op' hb hb' hop hop' heq := by
    obtain ⟨hw, o, ho, hrow⟩ := (granted_iff h).mp hb
    obtain ⟨hw', o', ho', hrow'⟩ := (granted_iff h).mp hb'
    obtain rfl : o = op := Option.some.inj (ho.symm.trans hop)
    obtain rfl : o' = op' := Option.some.inj (ho'.symm.trans hop')
    rw [← heq] at hrow'
    exact h.injective hrow (cleared_row.mpr hw) hrow' (cleared_row.mpr hw')
  maximal b op hop hw hb := by
    have hreq : a.request b op.ocId.val = true := request_iff.mpr ⟨op, hop, rfl⟩
    rcases h.maximal b op.ocId.val (hall b op hop) hreq with hrow | hcol
    · obtain ⟨j, hj⟩ := Option.ne_none_iff_exists'.mp hrow
      simp [granted, hj, hw] at hb
    · -- the column is taken by a bank whose head wants the same collector unit
      obtain ⟨b', hb'⟩ := Option.ne_none_iff_exists'.mp hcol
      obtain ⟨hrow, h₀⟩ := h.column b' op.ocId.val hb'
      obtain ⟨hreq', -, -⟩ := h.matched b' op.ocId.val hrow h₀
      obtain ⟨op', hop', hid⟩ := request_iff.mp hreq'
      refine ⟨b', op', ?_, hop', Fin.ext hid⟩
      exact (granted_iff h).mpr ⟨cleared_row.mp h₀, op', hop', by rw [hrow, hid]⟩
  allocatedBank_eq := rfl

theorem checkRequest_ok (a : Arbiter d) (b : Fin d.numBanks) : a.checkRequest b = .ok () := by
  unfold checkRequest
  cases (a.queue b).head? with
  | none => rfl
  | some op => exact assert_pos op.ocId.isLt

theorem requests_ok (a : Arbiter d) : (List.finRange d.numBanks).forM a.checkRequest = .ok () := by
  induction List.finRange d.numBanks with
  | nil => rfl
  | cons b l ih =>
    show (a.checkRequest b >>= fun _ => l.forM a.checkRequest) = .ok ()
    rw [checkRequest_ok, ok_bind, ih]

theorem allocateReads_eq (a : Arbiter d) : a.allocateReads = a.wavefront.map a.grant := by
  unfold allocateReads
  rw [assert_pos ((Nat.zero_le _).trans_lt (mod_square_lt 0)), ok_bind, requests_ok, ok_bind]
  rfl

theorem allocateReads_ok (a : Arbiter d) (h : d.numBanks ≤ d.numCollectors) :
    ∃ winner grants a', a.allocateReads = .ok (grants, a') ∧ Arbitrated a winner grants a' := by
  obtain ⟨m, hm, hgrown⟩ := wavefront_ok (a := a) h
  refine ⟨a.granted m, (a.grant m).1, (a.grant m).2, ?_, ?_⟩
  · rw [allocateReads_eq, hm]
    rfl
  · apply grant_arbitrated hgrown
    intro i op _
    apply mem_diagonals
    rw [square_of_le h]
    exact op.ocId.isLt

/-! ## More banks than collector units -/

theorem wavefront_ne_ok (h : d.numCollectors < d.numBanks) (m : Matching (Fin d.numBanks) Nat) :
    a.wavefront ≠ .ok m := by
  intro hok
  have hsquare : d.square = d.numBanks := if_pos h
  obtain ⟨n, hn⟩ : ∃ n, d.square = n + 1 := Nat.exists_eq_add_one.mpr (by
    rw [hsquare]
    exact d.numBanks_pos)
  unfold wavefront at hok
  rw [hn, List.range_succ_eq_map, List.foldlM_cons] at hok
  obtain ⟨m', hfirst, -⟩ := bind_eq_ok.mp hok
  rw [← hn] at hfirst
  obtain ⟨st, hst, -⟩ := map_eq_ok.mp hfirst
  have halong := Along.of_ok (mod_square_lt _) a.cleared_grown hst
  -- some bank of the diagonal is paired with the number just past the last collector unit
  obtain ⟨i, hi, hmod⟩ := exists_add_mod ((a.lastCu + 0) % d.square) (j := d.numCollectors)
    (n := d.square) (by omega)
  have hlt := halong.inRange ⟨i, by omega⟩ (List.mem_finRange _)
  dsimp only at hlt
  omega

/-- **The arbiter grants a maximal matching if and only if there are no more banks than collector
units.** Otherwise it stops at an index of the first diagonal. -/
theorem allocateReads_iff (a : Arbiter d) :
    (∃ winner grants a', a.allocateReads = .ok (grants, a') ∧ Arbitrated a winner grants a') ↔
      d.numBanks ≤ d.numCollectors := by
  constructor
  · rintro ⟨winner, grants, a', hok, -⟩
    by_contra hlt
    rw [allocateReads_eq] at hok
    obtain ⟨m, hm, -⟩ := map_eq_ok.mp hok
    exact wavefront_ne_ok (by omega) m hm
  · exact a.allocateReads_ok

/-- Two banks for one collector unit. -/
def twoBanks : Dims where
  numBanks := 2
  numCollectors := 1
  numBanks_pos := Nat.two_pos
  numCollectors_pos := Nat.one_pos

/-- An arbiter with nothing to do. -/
def init (d : Dims) : Arbiter d where
  queue _ := []
  allocatedBank _ := .noAlloc
  lastCu := 0

/-- The first call of all fails the assertion on `output`. -/
theorem not_arbitrated_twoBanks : ¬ ∃ winner grants a',
    (init twoBanks).allocateReads = .ok (grants, a') ∧ Arbitrated (init twoBanks) winner grants a' := by
  rintro ⟨winner, grants, a', hok, -⟩
  have hfault : (init twoBanks).allocateReads.map Prod.fst = .error .output := by decide
  rw [hok] at hfault
  cases hfault

end Arbiter

end OperandCollector

end GpgpuSimRuby.Shader
