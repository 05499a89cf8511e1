import Mathlib.Logic.Function.Basic

/-!
# Stores that can lose power

A tape is a store – a value at each place – together with the writes made to
it so far, oldest first. A power cut keeps the first few of the writes and
loses the rest, so what can be found after one is the store with a prefix of
the log played onto it.

`Through P t t'` says that the run from `t` to `t'` passes only through stores
that satisfy `P`, its two ends included. It composes along a run, one write at
a time, and `Through.cut` turns it into the statement about power cuts.
-/

variable {K V : Type} [DecidableEq K]

/-- The store with a list of writes played onto it, first write first. -/
def playWrites (d : K → V) (ws : List (K × V)) : K → V :=
  ws.foldl (fun d w => Function.update d w.1 w.2) d

@[simp] theorem playWrites_nil (d : K → V) : playWrites d [] = d := rfl

theorem playWrites_append (d : K → V) (ws vs : List (K × V)) :
    playWrites d (ws ++ vs) = playWrites (playWrites d ws) vs :=
  List.foldl_append

/-- A store with the writes made to it, oldest first. -/
structure Tape (K V : Type) where
  /-- What the store holds now. -/
  store : K → V
  /-- The writes made so far. -/
  log : List (K × V)

namespace Tape

/-- One more write. -/
def write (t : Tape K V) (k : K) (v : V) : Tape K V :=
  ⟨Function.update t.store k v, t.log ++ [(k, v)]⟩

/-- **Every store on the way satisfies `P`.** The later tape is the earlier one
with some writes made, and each prefix of those writes leaves a store that
satisfies `P`. -/
def Through (P : (K → V) → Prop) (t t' : Tape K V) : Prop :=
  ∃ ws, t'.log = t.log ++ ws ∧ t'.store = playWrites t.store ws
    ∧ ∀ k, P (playWrites t.store (ws.take k))

namespace Through

variable {P Q : (K → V) → Prop} {t t' t'' : Tape K V}

theorem refl (h : P t.store) : Through P t t :=
  ⟨[], by simp, rfl, fun k => by simpa using h⟩

/-- The store the run ends with. -/
theorem last (h : Through P t t') : P t'.store := by
  obtain ⟨ws, -, hs, hk⟩ := h
  rw [hs]
  simpa using hk ws.length

theorem mono (hPQ : ∀ d, P d → Q d) (h : Through P t t') : Through Q t t' := by
  obtain ⟨ws, hl, hs, hk⟩ := h
  exact ⟨ws, hl, hs, fun k => hPQ _ (hk k)⟩

/-- Runs compose. -/
theorem trans (h : Through P t t') (h' : Through P t' t'') : Through P t t'' := by
  obtain ⟨ws, hl, hs, hk⟩ := h
  obtain ⟨vs, hl', hs', hk'⟩ := h'
  refine ⟨ws ++ vs, by rw [hl', hl, List.append_assoc], by rw [hs', hs, playWrites_append], ?_⟩
  intro k
  rw [List.take_append, playWrites_append]
  by_cases hle : k ≤ ws.length
  · have hz : k - ws.length = 0 := by omega
    rw [hz]
    simpa using hk k
  · rw [List.take_of_length_le (by omega), ← hs]
    exact hk' _

/-- One write: the store before it and the store after it. -/
theorem write {k : K} {v : V} (h : P t.store) (h' : P (Function.update t.store k v)) :
    Through P t (t.write k v) := by
  refine ⟨[(k, v)], rfl, rfl, fun n => ?_⟩
  cases n with
  | zero => exact h
  | succ n => simpa [playWrites] using h'

/-- **The power cut.** If a run passes only through stores satisfying `P`, then
so does the store left when only the first `k` of its writes are kept. -/
theorem cut (h : Through P t t') (k : Nat) :
    P (playWrites t.store ((t'.log.drop t.log.length).take k)) := by
  obtain ⟨ws, hl, -, hk⟩ := h
  rw [hl, List.drop_left]
  exact hk k

end Through

end Tape
