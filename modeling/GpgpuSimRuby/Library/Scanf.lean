import Mathlib

/-!
# Formatted input

`sscanf` for the conversions `%u`, `%d` and `%c` and for ordinary characters: the values that are
assigned before the first piece of the format that does not match. `unsigned` has 32 bits and
`unsigned long`, in which a number is read, 64.
-/

namespace GpgpuSimRuby.Library.Scanf

/-- A piece of a format. -/
inductive Directive where
  | unsigned
  | char
  | ordinary (c : Char)
  deriving DecidableEq, Repr

inductive Value where
  | unsigned (n : Nat)
  | char (c : Char)
  deriving DecidableEq, Repr

/-- A number is read as `strtoul` does, which takes the sign as part of it, and stored in 32 bits. -/
def convert (negative : Bool) (n : Nat) : Nat :=
  (if n < 2 ^ 64 then (if negative then 2 ^ 64 - n else n) else 2 ^ 64 - 1) % 2 ^ 32

/-- An optional sign. -/
def sign : List Char → Bool × List Char
  | '-' :: s => (true, s)
  | '+' :: s => (false, s)
  | s => (false, s)

/-- White space, vertical tabs and form feeds included. -/
def isSpace (c : Char) : Bool := c.isWhitespace || c.toNat = 11 || c.toNat = 12

/-- `%u`: white space, a sign and digits. -/
def unsigned (s : List Char) : Option (Nat × List Char) :=
  let signed := sign (s.dropWhile isSpace)
  match signed.2.takeWhile Char.isDigit with
  | [] => none
  | digits => some (convert signed.1 (Nat.ofDigitChars 10 digits 0), signed.2.dropWhile Char.isDigit)

/-- A signed number is read as `strtol` does and stored in 32 bits. -/
def convertSigned (negative : Bool) (n : Nat) : BitVec 32 :=
  .ofInt 32 (if negative then max (-n) (-2 ^ 63) else min n (2 ^ 63 - 1))

/-- `%d`: as `%u`, with a signed number. -/
def signed (s : List Char) : Option (BitVec 32) :=
  let signed := sign (s.dropWhile isSpace)
  match signed.2.takeWhile Char.isDigit with
  | [] => none
  | digits => some (convertSigned signed.1 (Nat.ofDigitChars 10 digits 0))

/-- The values that are assigned. -/
def scan : List Directive → List Char → List Value
  | [], _ => []
  | .unsigned :: ds, s =>
    match unsigned s with
    | some (n, rest) => .unsigned n :: scan ds rest
    | none => []
  | .char :: ds, c :: rest => .char c :: scan ds rest
  | .char :: _, [] => []
  | .ordinary c :: ds, c' :: rest => if c = c' then scan ds rest else []
  | .ordinary _ :: _, [] => []

/-- `printf` under the same format. -/
def printf : List Directive → List Value → List Char
  | .unsigned :: ds, .unsigned n :: vs => Nat.toDigits 10 n ++ printf ds vs
  | .char :: ds, .char c :: vs => c :: printf ds vs
  | .ordinary c :: ds, vs => c :: printf ds vs
  | _, _ => []

/-- The values are of the kinds that the format asks for, and no digit follows a number. -/
def Fits : List Directive → List Value → Prop
  | [], vs => vs = []
  | .unsigned :: ds, .unsigned n :: vs =>
    n < 2 ^ 32 ∧ (∀ c ∈ (printf ds vs).head?, c.isDigit = false) ∧ Fits ds vs
  | .char :: ds, .char _ :: vs => Fits ds vs
  | .ordinary _ :: ds, vs => Fits ds vs
  | _, _ => False

variable {s rest : List Char} {n : Nat} {ds : List Directive} {c : Char}

theorem unsigned_lt (h : unsigned s = some (n, rest)) : n < 2 ^ 32 := by
  unfold unsigned at h
  dsimp only at h
  split at h
  · cases h
  · obtain ⟨rfl, -⟩ := Prod.mk.inj (Option.some.inj h)
    exact Nat.mod_lt _ (Nat.two_pow_pos 32)

theorem scan_unsigned_lt (h : .unsigned n ∈ scan ds s) : n < 2 ^ 32 := by
  induction ds generalizing s with
  | nil => cases h
  | cons d ds ih =>
    cases d with
    | unsigned =>
      unfold scan at h
      cases hu : unsigned s with
      | none =>
        rw [hu] at h
        cases h
      | some p =>
        rw [hu] at h
        rcases List.mem_cons.mp h with heq | hmem
        · obtain rfl := Value.unsigned.inj heq
          exact unsigned_lt hu
        · exact ih hmem
    | char =>
      cases s with
      | nil => cases h
      | cons c rest =>
        rcases List.mem_cons.mp h with heq | hmem
        · cases heq
        · exact ih hmem
    | ordinary c =>
      cases s with
      | nil => cases h
      | cons c' rest =>
        unfold scan at h
        split at h
        · exact ih h
        · cases h

theorem not_isSpace_of_isDigit (h : c.isDigit) : isSpace c = false := by
  have hge : 48 ≤ c.toNat := (Char.isDigit_iff_toNat.mp h).1
  have hne : ∀ d : Char, d.toNat < 48 → c ≠ d := by
    rintro d hd rfl
    omega
  have hws : c.isWhitespace = false := by
    unfold Char.isWhitespace
    simp [hne ' ' (by decide), hne '\t' (by decide), hne '\r' (by decide), hne '\n' (by decide)]
  have h11 : c.toNat ≠ 11 := by omega
  have h12 : c.toNat ≠ 12 := by omega
  simp [isSpace, hws, h11, h12]

theorem sign_of_isDigit (h : c.isDigit) : sign (c :: s) = (false, c :: s) := by
  unfold sign
  split
  · next heq =>
    obtain ⟨rfl, -⟩ := List.cons.inj heq
    cases h
  · next heq =>
    obtain ⟨rfl, -⟩ := List.cons.inj heq
    cases h
  · rfl

theorem unsigned_toDigits (hn : n < 2 ^ 32)
    (hrest : ∀ c ∈ rest.head?, c.isDigit = false) :
    unsigned (Nat.toDigits 10 n ++ rest) = some (n, rest) := by
  have hdigits : ∀ c ∈ Nat.toDigits 10 n, c.isDigit := fun c hc =>
    Nat.isDigit_of_mem_toDigits (by decide) (by decide) hc
  have hvalue : convert false (Nat.ofDigitChars 10 (Nat.toDigits 10 n) 0) = n := by
    rw [Nat.ofDigitChars_ten_toDigits]
    unfold convert
    rw [if_pos (by omega), if_neg (by decide), Nat.mod_eq_of_lt hn]
  have htake : (Nat.toDigits 10 n ++ rest).takeWhile Char.isDigit = Nat.toDigits 10 n := by
    rw [List.takeWhile_append_of_pos hdigits]
    cases rest with
    | nil => simp
    | cons c rest => simp [hrest c rfl]
  have hdrop : (Nat.toDigits 10 n ++ rest).dropWhile Char.isDigit = rest := by
    rw [List.dropWhile_append_of_pos hdigits]
    cases rest with
    | nil => simp
    | cons c rest => simp [hrest c rfl]
  obtain ⟨c, cs, hcs⟩ := List.exists_cons_of_ne_nil (Nat.toDigits_ne_nil (n := n) (b := 10))
  have hc : c.isDigit := hdigits c (by simp [hcs])
  have hsigned : sign ((Nat.toDigits 10 n ++ rest).dropWhile isSpace) =
      (false, Nat.toDigits 10 n ++ rest) := by
    rw [hcs, List.cons_append, List.dropWhile_cons_of_neg (by simp [not_isSpace_of_isDigit hc]),
      sign_of_isDigit hc]
  unfold unsigned
  simp only [hsigned, htake, hdrop]
  rw [hcs] at hvalue ⊢
  dsimp only
  rw [hvalue]

/-- What is printed under a format is scanned under it. -/
theorem scan_printf {vs : List Value} (h : Fits ds vs) : scan ds (printf ds vs) = vs := by
  fun_induction Fits ds vs with
  | case1 vs =>
    cases h
    rfl
  | case2 ds n vs ih =>
    obtain ⟨hn, hend, hfits⟩ := h
    simp only [printf, scan, unsigned_toDigits hn hend, ih hfits]
  | case3 ds c vs ih => simp only [printf, scan, ih h]
  | case4 c ds vs ih => simp only [printf, scan, if_true, ih h]
  | case5 => exact h.elim

end GpgpuSimRuby.Library.Scanf
