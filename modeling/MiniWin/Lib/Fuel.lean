import Mathlib.Data.Option.Basic

/-!
# Loops with a number of rounds

A loop that need not end becomes a function of the number of rounds that it may take, with `none`
for too few. That the number does not matter otherwise is `Fuel.Mono`, which passes from the parts
of a function to the whole.
-/

namespace Fuel

variable {α β : Type*} {f g : Nat → Option α}

/-- **With more rounds the result stays.** -/
def Mono (f : Nat → Option α) : Prop :=
  ∀ ⦃n m : Nat⦄, n ≤ m → ∀ ⦃r : α⦄, f n = some r → f m = some r

theorem Mono.const (x : Option α) : Mono fun _ => x := fun _ _ _ _ hr => hr

/-- One round more is enough. -/
theorem Mono.of_succ (h : ∀ n r, f n = some r → f (n + 1) = some r) : Mono f := by
  intro n m hnm r hr
  induction hnm with
  | refl => exact hr
  | step _ ih => exact h _ r ih

theorem Mono.bind {g : α → Nat → Option β} (hf : Mono f) (hg : ∀ a, Mono (g a)) :
    Mono fun n => (f n).bind fun a => g a n := by
  intro n m hnm r hr
  obtain ⟨a, ha, hr⟩ := Option.bind_eq_some_iff.mp hr
  exact Option.bind_eq_some_iff.mpr ⟨a, hf hnm ha, hg a hnm hr⟩

theorem Mono.map (hf : Mono f) (g : α → β) : Mono fun n => (f n).map g := by
  intro n m hnm r hr
  obtain ⟨a, ha, rfl⟩ := Option.map_eq_some_iff.mp hr
  exact Option.map_eq_some_iff.mpr ⟨a, hf hnm ha, rfl⟩

theorem Mono.ite (hf : Mono f) (hg : Mono g) (p : Prop) [Decidable p] :
    Mono fun n => if p then f n else g n := by
  intro n m hnm r hr
  dsimp only at hr ⊢
  split at hr
  · next hp => rw [if_pos hp, hf hnm hr]
  · next hp => rw [if_neg hp, hg hnm hr]

/-- There is one result at most. -/
theorem Mono.agree (hf : Mono f) {n m : Nat} {r s : α} (hr : f n = some r) (hs : f m = some s) :
    r = s := by
  have hr' := hf (Nat.le_max_left n m) hr
  have hs' := hf (Nat.le_max_right n m) hs
  exact Option.some.inj (hr'.symm.trans hs')

end Fuel
