import Mathlib.Data.List.Prime
import Mathlib.FieldTheory.Finite.Basic
import Mathlib.NumberTheory.LucasPrimality

/-!
# Primes by their witnesses

A number is prime when some `a` has order `p - 1` below it, and the order is looked at through the
prime factors of `p - 1`. The powers are worked out bit by bit, so that a number of some hundred
bits is done by evaluation.
-/

namespace Lucas

/-- `a ^ e` below `m`, of an exponent that has this many bits. -/
def powMod (a m : Nat) : Nat → Nat → Nat
  | 0, _ => 1 % m
  | n + 1, e => powMod a m n (e / 2) ^ 2 * a ^ (e % 2) % m

theorem powMod_eq (a m : Nat) {n e : Nat} (he : e < 2 ^ n) : powMod a m n e = a ^ e % m := by
  induction n generalizing e with
  | zero =>
    obtain rfl : e = 0 := by omega
    rfl
  | succ n ih =>
    have hhalf : e / 2 < 2 ^ n := by
      rw [Nat.pow_succ] at he
      omega
    have hexp : a ^ e = (a ^ (e / 2)) ^ 2 * a ^ (e % 2) := by
      rw [← Nat.pow_mul, ← Nat.pow_add, Nat.div_add_mod']
    rw [powMod, ih hhalf, hexp, Nat.mul_mod, ← Nat.pow_mod, ← Nat.mul_mod]

/-- What `a` and the factors of `p - 1` show about `p`. -/
def Shows (p a : Nat) (factors : List Nat) : Prop :=
  1 < p ∧ factors.prod = p - 1 ∧ powMod a p (p.log2 + 1) (p - 1) = 1
    ∧ ∀ q ∈ factors, powMod a p (p.log2 + 1) ((p - 1) / q) ≠ 1

instance (p a : Nat) (factors : List Nat) : Decidable (Shows p a factors) :=
  inferInstanceAs (Decidable (_ ∧ _ ∧ _ ∧ _))

/-- **The test**: the factors are prime, and the powers are right. -/
theorem Shows.prime {p a : Nat} {factors : List Nat} (h : Shows p a factors)
    (hfactors : ∀ q ∈ factors, q.Prime) : p.Prime := by
  obtain ⟨hone, hprod, hfull, hpart⟩ := h
  have hiff (e : Nat) : (a : ZMod p) ^ e = 1 ↔ a ^ e % p = 1 := by
    rw [← Nat.cast_pow, ← Nat.cast_one, ZMod.natCast_eq_natCast_iff', Nat.mod_eq_of_lt hone]
  have hlt (q : Nat) : (p - 1) / q < 2 ^ (p.log2 + 1) := by
    have := Nat.div_le_self (p - 1) q
    have := Nat.lt_log2_self (n := p)
    omega
  refine lucas_primality p (a : ZMod p) ((hiff _).mpr ?_) fun q hq hdvd => ?_
  · have hbits := hlt 1
    rw [Nat.div_one] at hbits
    rw [← powMod_eq a p hbits]
    exact hfull
  · rw [← hprod, Prime.dvd_prod_iff hq.prime] at hdvd
    obtain ⟨r, hr, hqr⟩ := hdvd
    obtain rfl := (Nat.prime_dvd_prime_iff_eq hq (hfactors r hr)).mp hqr
    refine mt (hiff _).mp ?_
    rw [← powMod_eq a p (hlt q)]
    exact hpart q hr

/-- A number, its witness, and the prime factors of the number in front of it. -/
structure Row where
  p : Nat
  a : Nat
  factors : List Nat

/-- Each row shows its number, by factors that are known or that a row in front has shown. -/
def Checks : List Nat → List Row → Prop
  | _, [] => True
  | known, r :: rows =>
    Shows r.p r.a r.factors ∧ (∀ q ∈ r.factors, q ∈ known) ∧ Checks (r.p :: known) rows

instance Checks.decidable : ∀ known rows, Decidable (Checks known rows)
  | _, [] => .isTrue trivial
  | known, r :: rows =>
    have := Checks.decidable (r.p :: known) rows
    inferInstanceAs (Decidable (_ ∧ _ ∧ _))

/-- **A table of primes.** -/
theorem Checks.prime {known : List Nat} {rows : List Row} (h : Checks known rows)
    (hknown : ∀ q ∈ known, q.Prime) : ∀ r ∈ rows, r.p.Prime := by
  induction rows generalizing known with
  | nil => exact fun r hr => absurd hr List.not_mem_nil
  | cons r rows ih =>
    obtain ⟨hshows, hfactors, hrest⟩ := h
    have hr : r.p.Prime := hshows.prime fun q hq => hknown q (hfactors q hq)
    exact List.forall_mem_cons.mpr ⟨hr, ih hrest (List.forall_mem_cons.mpr ⟨hr, hknown⟩)⟩

/-- **Fermat's inverse.** -/
theorem pow_sub_two {p : Nat} [Fact p.Prime] (hp : 2 < p) (z : ZMod p) : z ^ (p - 2) = z⁻¹ := by
  obtain ⟨n, rfl⟩ : ∃ n, p = n + 3 := ⟨p - 3, by omega⟩
  show z ^ (n + 1) = z⁻¹
  by_cases hz : z = 0
  · rw [hz, inv_zero]
    exact zero_pow (Nat.succ_ne_zero n)
  · have hfull : z ^ (n + 1) * z = 1 := by
      rw [← pow_succ]
      exact ZMod.pow_card_sub_one_eq_one hz
    exact eq_inv_of_mul_eq_one_left hfull

end Lucas
