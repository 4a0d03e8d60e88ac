import Mathlib

/-!
# Addition digit by digit

A chain of adders over the digits of two numbers, lowest first, each of which hands its carry to the
next.
-/

namespace GpgpuSimRuby.Library

/-- From a carry and two digits to a digit and a carry. -/
abbrev Adder := Nat → Nat → Nat → Nat × Nat

/-- The digits of the sum and the last carry. -/
def adderChain (f : Adder) : Nat → List (Nat × Nat) → List Nat × Nat
  | c, [] => ([], c)
  | c, d :: ds =>
    let s := f c d.1 d.2
    let r := adderChain f s.2 ds
    (s.1 :: r.1, r.2)

/-- The adder that carries with weight one. -/
def fullAdder (base : Nat) : Adder := fun c x y => ((x + y + c) % base, (x + y + c) / base)

section

variable {f g : Adder} {base c : Nat} {ds : List (Nat × Nat)}

theorem length_adderChain : (adderChain f c ds).1.length = ds.length := by
  induction ds generalizing c with
  | nil => rfl
  | cons d ds ih => exact congrArg (· + 1) ih

theorem ofDigits_adderChain (base c : Nat) (ds : List (Nat × Nat)) :
    Nat.ofDigits base (adderChain (fullAdder base) c ds).1 +
        base ^ ds.length * (adderChain (fullAdder base) c ds).2 =
      Nat.ofDigits base (ds.map Prod.fst) + Nat.ofDigits base (ds.map Prod.snd) + c := by
  induction ds generalizing c with
  | nil => simp [adderChain]
  | cons d ds ih =>
    have hdigit : (d.1 + d.2 + c) % base + base * ((d.1 + d.2 + c) / base) = d.1 + d.2 + c :=
      Nat.mod_add_div _ _
    simp only [adderChain, List.map_cons, Nat.ofDigits_cons, List.length_cons, fullAdder]
    rw [pow_succ']
    linear_combination hdigit + base * (ih ((d.1 + d.2 + c) / base))

theorem adderChain_lt (c : Nat) (ds : List (Nat × Nat)) (hbase : 0 < base) :
    ∀ r ∈ (adderChain (fullAdder base) c ds).1, r < base := by
  induction ds generalizing c with
  | nil => exact fun r hr => absurd hr List.not_mem_nil
  | cons d ds ih =>
    intro r hr
    rcases List.mem_cons.mp hr with rfl | hr
    · exact Nat.mod_lt _ hbase
    · exact ih _ r hr

theorem eq_adderChain_iff (ds : List (Nat × Nat)) (ws : List Nat) (cout : Nat) (hbase : 1 < base)
    (hlen : ws.length = ds.length) (hlt : ∀ r ∈ ws, r < base) :
    (Nat.ofDigits base ws = (Nat.ofDigits base (ds.map Prod.fst) + Nat.ofDigits base (ds.map Prod.snd)) %
        base ^ ds.length ∧
      cout = (Nat.ofDigits base (ds.map Prod.fst) + Nat.ofDigits base (ds.map Prod.snd)) /
        base ^ ds.length) ↔ (ws, cout) = adderChain (fullAdder base) 0 ds := by
  have hlen' : (adderChain (fullAdder base) 0 ds).1.length = ds.length := length_adderChain
  have hlt' := adderChain_lt 0 ds (zero_lt_one.trans hbase)
  have hbound := Nat.ofDigits_lt_base_pow_length hbase hlt'
  have hsum := ofDigits_adderChain base 0 ds
  rw [hlen'] at hbound
  rw [add_zero] at hsum
  rw [← hsum, Nat.add_mul_mod_self_left, Nat.mod_eq_of_lt hbound, Nat.add_mul_div_left _ _ (by positivity),
    Nat.div_eq_of_lt hbound, zero_add, Prod.ext_iff]
  refine and_congr_left fun _ => ⟨fun h => ?_, fun h => ?_⟩
  · exact Nat.ofDigits_inj_of_len_eq hbase (hlen.trans hlen'.symm) hlt hlt' h
  · exact congrArg (Nat.ofDigits base) h

/-- Where an adder goes wrong on every carry it gets, a chain of them is right exactly when no carry is
handed on. -/
theorem adderChain_eq_iff (hzero : ∀ d ∈ ds, f 0 d.1 d.2 = fullAdder base 0 d.1 d.2)
    (hcarry : ∀ d ∈ ds, (f 1 d.1 d.2).1 ≠ (fullAdder base 1 d.1 d.2).1)
    (hlt : ∀ d ∈ ds, d.1 < base ∧ d.2 < base) :
    adderChain f 0 ds = adderChain (fullAdder base) 0 ds ↔ ∀ d ∈ ds.dropLast, d.1 + d.2 < base := by
  induction ds with
  | nil => exact iff_of_true rfl fun d hd => absurd hd List.not_mem_nil
  | cons d ds ih =>
    have htail := ih (fun e he => hzero e (List.mem_cons_of_mem d he))
      (fun e he => hcarry e (List.mem_cons_of_mem d he)) fun e he => hlt e (List.mem_cons_of_mem d he)
    obtain ⟨hx, hy⟩ := hlt d List.mem_cons_self
    have hhead : adderChain f 0 (d :: ds) = adderChain (fullAdder base) 0 (d :: ds) ↔
        adderChain f ((d.1 + d.2) / base) ds = adderChain (fullAdder base) ((d.1 + d.2) / base) ds := by
      simp only [adderChain, hzero d List.mem_cons_self, fullAdder, add_zero, List.cons.injEq, true_and,
        Prod.ext_iff]
    rw [hhead]
    cases ds with
    | nil => exact iff_of_true rfl fun e he => absurd he List.not_mem_nil
    | cons e es =>
      rw [List.dropLast_cons_cons, List.forall_mem_cons, ← htail]
      by_cases hsum : d.1 + d.2 < base
      · rw [Nat.div_eq_of_lt hsum]
        exact (and_iff_right hsum).symm
      · -- The next adder gets a carry, and its digit is wrong.
        have hone : (d.1 + d.2) / base = 1 := Nat.div_eq_of_lt_le (by omega) (by omega)
        rw [hone]
        refine iff_of_false (fun h => ?_) fun h => hsum h.1
        have hdigit := congrArg (fun r => r.1.head?) h
        exact hcarry e (List.mem_cons_of_mem d List.mem_cons_self) (Option.some.inj hdigit)

end

end GpgpuSimRuby.Library
