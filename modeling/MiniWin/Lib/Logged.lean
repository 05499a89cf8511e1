import Mathlib.Data.List.Basic

/-!
# Computations with a log

A computation that may stop with an error, and the list of what it did on the way. `Under G P Q E`
is its specification in the style of rely and guarantee: as long as everything in the log is as `G`
says, everything in it is as `P` says, a result is as `Q` says and an error as `E` says. What `G`
asks for may be asked of the whole log at the end, so that it composes.
-/

/-- A computation that may stop with an error, and what it did on the way. -/
structure Logged (σ ε α : Type) where
  out : Except ε α
  log : List σ

namespace Logged

variable {σ ε α β : Type}

instance : Monad (Logged σ ε) where
  pure a := ⟨.ok a, []⟩
  bind x f :=
    match x.out with
    | .ok a => ⟨(f a).out, x.log ++ (f a).log⟩
    | .error e => ⟨.error e, x.log⟩

/-- A stop. -/
def stop (e : ε) : Logged σ ε α := ⟨.error e, []⟩

/-- A result, and what it took. -/
def emit (a : α) (l : List σ) : Logged σ ε α := ⟨.ok a, l⟩

variable {x : Logged σ ε α} {f : α → Logged σ ε β} {a : α} {e : ε} {s : σ}

theorem out_bind (x : Logged σ ε α) (f : α → Logged σ ε β) :
    (x >>= f).out = x.out >>= fun a => (f a).out := by
  obtain ⟨_ | _, _⟩ := x <;> rfl

theorem log_bind_ok (h : x.out = .ok a) : (x >>= f).log = x.log ++ (f a).log := by
  obtain ⟨_ | _, _⟩ := x
  · exact nomatch h
  · obtain rfl := Except.ok.inj h
    rfl

theorem log_bind_error (h : x.out = .error e) : (x >>= f).log = x.log := by
  obtain ⟨_ | _, _⟩ := x
  · rfl
  · exact nomatch h

/-- What comes first is in the log. -/
theorem mem_log_bind (h : s ∈ x.log) : s ∈ (x >>= f).log := by
  cases hout : x.out with
  | error e => rwa [log_bind_error hout]
  | ok a =>
    rw [log_bind_ok hout]
    exact List.mem_append_left _ h

/-! ## Specifications -/

/-- **What a computation does as long as its log allows it.** -/
def Under (G P : σ → Prop) (Q : α → Prop) (E : ε → Prop) (x : Logged σ ε α) : Prop :=
  (∀ s ∈ x.log, G s) →
    (∀ s ∈ x.log, P s) ∧ (∀ a, x.out = .ok a → Q a) ∧ ∀ e, x.out = .error e → E e

variable {G P : σ → Prop} {Q Q' : α → Prop} {R : β → Prop} {E : ε → Prop}

theorem under_pure (h : Q a) : Under G P Q E (pure a : Logged σ ε α) := by
  refine fun _ => ⟨nofun, fun b hb => ?_, nofun⟩
  rw [← Except.ok.inj hb]
  exact h

theorem under_stop (h : E e) : Under G P Q E (stop e : Logged σ ε α) := by
  refine fun _ => ⟨nofun, nofun, fun e' he => ?_⟩
  rw [← Except.error.inj he]
  exact h

theorem under_emit {l : List σ} (hlog : (∀ s ∈ l, G s) → (∀ s ∈ l, P s) ∧ Q a) :
    Under G P Q E (emit a l : Logged σ ε α) := by
  refine fun hG => ⟨(hlog hG).1, fun b hb => ?_, nofun⟩
  rw [← Except.ok.inj hb]
  exact (hlog hG).2

/-- **One computation after another.** -/
theorem Under.bind (hx : Under G P Q E x) (hf : ∀ a, Q a → Under G P R E (f a)) :
    Under G P R E (x >>= f) := by
  intro hG
  cases hout : x.out with
  | error e =>
    rw [log_bind_error hout] at hG ⊢
    obtain ⟨hP, -, hE⟩ := hx hG
    refine ⟨hP, fun b hb => ?_, fun e' he => ?_⟩
    · rw [out_bind, hout] at hb
      exact nomatch hb
    · rw [out_bind, hout] at he
      obtain rfl := Except.error.inj (show (Except.error e : Except ε β) = .error e' from he)
      exact hE e hout
  | ok a =>
    rw [log_bind_ok hout] at hG ⊢
    obtain ⟨hP, hQ, -⟩ := hx fun s hs => hG s (List.mem_append_left _ hs)
    obtain ⟨hP', hR, hE⟩ := hf a (hQ a hout) fun s hs => hG s (List.mem_append_right _ hs)
    rw [out_bind, hout]
    exact ⟨fun s hs => (List.mem_append.1 hs).elim (hP s) (hP' s), hR, hE⟩

theorem Under.imp (hx : Under G P Q E x) (h : ∀ a, Q a → Q' a) : Under G P Q' E x := fun hG => by
  obtain ⟨hP, hQ, hE⟩ := hx hG
  exact ⟨hP, fun a ha => h a (hQ a ha), hE⟩

end Logged
