import Mathlib.Data.List.Basic

/-!
# Searching for a run

A search that walks over numbered places and counts how many in a row are free, until the count
is the one it wants: what it finds is such a run, and what it passes over holds none.
-/

/-- The `n` places from `first` on are free. -/
def FreeRun (free : Nat → Bool) (first n : Nat) : Prop :=
  ∀ q, first ≤ q → q < first + n → free q = true

/-- The last place of the first run of `n` free places among the `len` places from `p` on, when
the `run` places in front of `p` are free. -/
def findRun (free : Nat → Bool) (n : Nat) : Nat → Nat → Nat → Option Nat
  | 0, _, _ => none
  | len + 1, p, run =>
    if free p then
      if run + 1 = n then some p else findRun free n len (p + 1) (run + 1)
    else findRun free n len (p + 1) 0

variable {free : Nat → Bool}

theorem FreeRun.snoc {first n : Nat} (h : FreeRun free first n) (hfree : free (first + n) = true) :
    FreeRun free first (n + 1) := by
  intro q hle hlt
  rcases Nat.lt_succ_iff_lt_or_eq.mp hlt with hq | rfl
  · exact h q hle hq
  · exact hfree

/-- **What is found is a run.** -/
theorem findRun_sound {n : Nat} : ∀ {len p run q : Nat}, run ≤ p → FreeRun free (p - run) run →
    findRun free n len p run = some q →
    q < p + len ∧ n ≤ q + 1 ∧ p - run ≤ q + 1 - n ∧ FreeRun free (q + 1 - n) n
  | 0, _, _, _, _, _, h => nomatch h
  | len + 1, p, run, q, hrun, hfree, h => by
    unfold findRun at h
    split at h
    swap
    · obtain ⟨hlt, hn, hle, hq⟩ := findRun_sound (Nat.zero_le _)
        (fun _ h₁ h₂ => absurd h₁ (Nat.not_le.mpr h₂)) h
      exact ⟨by omega, hn, by omega, hq⟩
    next hp =>
    have hfree' : FreeRun free (p - run) (run + 1) :=
      hfree.snoc (by rw [Nat.sub_add_cancel hrun]; exact hp)
    split at h
    · next hn =>
      obtain rfl := Option.some.inj h
      have hfirst : p + 1 - n = p - run := by omega
      exact ⟨by omega, by omega, by omega, by rw [hfirst, ← hn]; exact hfree'⟩
    · have hstart : p + 1 - (run + 1) = p - run := by omega
      obtain ⟨hlt, hn, hle, hq⟩ := findRun_sound (Nat.succ_le_succ hrun)
        (by rw [hstart]; exact hfree') h
      exact ⟨by omega, hn, by omega, hq⟩

/-- **Nothing is passed over**: when nothing is found from `p` on, every run that begins where
the counted places begin, or later, ends outside. -/
theorem findRun_complete {n : Nat} : ∀ {len p run first : Nat}, run ≤ p → run < n →
    findRun free n len p run = none → p - run ≤ first → FreeRun free first n → p + len < first + n
  | 0, p, run, first, hrun, hlt, _, hfirst, _ => by omega
  | len + 1, p, run, first, hrun, hlt, h, hfirst, hfree => by
    unfold findRun at h
    split at h
    · split at h
      · exact nomatch h
      · have := findRun_complete (Nat.succ_le_succ hrun) (by omega) h (by omega) hfree
        omega
    · next hp =>
      -- `p` is taken, so a run that begins before it ends before it, and is too short
      have hlate : p + 1 ≤ first := by
        by_contra hle
        exact hp (hfree p (by omega) (by omega))
      have := findRun_complete (Nat.zero_le _) (by omega) h (by omega) hfree
      omega
