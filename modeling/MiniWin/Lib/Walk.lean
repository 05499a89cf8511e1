import Mathlib.Logic.Relation

/-!
# Walks of a partial step

A step `f` leads from a place to the next one, or says that the walk is over. The walk from a
place may go on for ever; where it ends does not depend on how much of it has been walked before,
and a step that says less ends no later. A loop is a walk of at most so many rounds.
-/

namespace Walk

variable {α : Type} {f g : α → Option α} {a b c : α}

/-- The walk from `a` comes by `b`. -/
abbrev Leads (f : α → Option α) : α → α → Prop := Relation.ReflTransGen fun a b => f a = some b

/-- The walk from `a` comes to an end. -/
abbrev Halts (f : α → Option α) (a : α) : Prop := Acc (fun b a => f a = some b) a

theorem halts_of_none (h : f a = none) : Halts f a :=
  ⟨a, fun b hb => by rw [h] at hb; exact nomatch hb⟩

theorem halts_step (h : f a = some b) : Halts f a ↔ Halts f b := by
  refine ⟨fun ha => ha.inv h, fun hb => ⟨a, fun c hc => ?_⟩⟩
  obtain rfl := Option.some.inj (h.symm.trans hc)
  exact hb

/-- **How much has been walked does not matter.** -/
theorem Leads.halts (h : Leads f a b) : Halts f a ↔ Halts f b := by
  induction h with
  | refl => rfl
  | tail _ hs ih => exact ih.trans (halts_step hs)

theorem Leads.halts_of_none (h : Leads f a b) (hb : f b = none) : Halts f a :=
  h.halts.mpr (Walk.halts_of_none hb)

/-- **A walk ends in one place.** -/
theorem Leads.final_unique (hb : Leads f a b) (hc : Leads f a c) (hfb : f b = none)
    (hfc : f c = none) : b = c := by
  have stay : ∀ {x y : α}, f x = none → Leads f x y → x = y := by
    intro x y hx hxy
    rcases hxy.cases_head with heq | ⟨z, hz, -⟩
    · exact heq
    · rw [hx] at hz
      exact nomatch hz
  have unique : Relator.RightUnique fun a b => f a = some b := fun _ _ _ h₁ h₂ =>
    Option.some.inj (h₁.symm.trans h₂)
  rcases Relation.ReflTransGen.total_of_right_unique unique hb hc with h | h
  · exact stay hfb h
  · exact (stay hfc h).symm

/-- A step that says more goes on from where one that says less has ended. -/
theorem Leads.mono (hfg : ∀ a b, f a = some b → g a = some b) (h : Leads f a b) : Leads g a b :=
  Relation.ReflTransGen.mono hfg _ _ h

theorem halts_mono (hfg : ∀ a b, f a = some b → g a = some b) (h : Halts g a) : Halts f a :=
  Subrelation.accessible (fun hba => hfg _ _ hba) h

/-! ## Loops -/

/-- So many rounds, or fewer if the step says that it is over. -/
def rounds (f : α → Option α) : Nat → α → α
  | 0, a => a
  | n + 1, a =>
    match f a with
    | none => a
    | some a => rounds f n a

theorem rounds_of_none (h : f a = none) (n : Nat) : rounds f n a = a := by
  cases n with
  | zero => rfl
  | succ n => simp only [rounds, h]

theorem rounds_of_some (h : f a = some b) (n : Nat) : rounds f (n + 1) a = rounds f n b := by
  simp only [rounds, h]

theorem leads_rounds (f : α → Option α) (n : Nat) (a : α) : Leads f a (rounds f n a) := by
  induction n generalizing a with
  | zero => exact .refl
  | succ n ih =>
    cases hf : f a with
    | none => rw [rounds_of_none hf]
    | some b =>
      rw [rounds_of_some hf]
      exact .head hf (ih b)

/-- **A loop that uses something up comes to its end** before its rounds are over. -/
theorem rounds_final {μ : α → Nat} (hμ : ∀ a b, f a = some b → μ b < μ a) (n : Nat) (a : α)
    (hn : μ a ≤ n) : f (rounds f n a) = none := by
  induction n generalizing a with
  | zero =>
    cases hf : f a with
    | none => exact hf
    | some b => exact absurd (hμ a b hf) (by omega)
  | succ n ih =>
    cases hf : f a with
    | none => rwa [rounds_of_none hf]
    | some b =>
      rw [rounds_of_some hf]
      exact ih b (by have := hμ a b hf; omega)

/-- A loop that does in parts what another one does as a whole. -/
theorem rounds_semiconj {β : Type} {g : β → Option β} {φ : α → β}
    (h : ∀ a, (f a).map φ = g (φ a)) (n : Nat) (a : α) :
    φ (rounds f n a) = rounds g n (φ a) := by
  induction n generalizing a with
  | zero => rfl
  | succ n ih =>
    have ha := h a
    cases hf : f a with
    | none =>
      rw [hf] at ha
      rw [rounds_of_none hf, rounds_of_none ha.symm]
    | some b =>
      rw [hf] at ha
      rw [rounds_of_some hf, rounds_of_some ha.symm, ih]

/-- What every round keeps, the walk keeps. -/
theorem Leads.keeps {I : α → Prop} (hI : ∀ a b, f a = some b → I a → I b) (h : Leads f a b)
    (ha : I a) : I b := by
  induction h with
  | refl => exact ha
  | tail _ hs ih => exact hI _ _ hs ih

end Walk

/-!
## Readers of a stream

A reader has a state, the part of the stream that has come and is not used up, and what it has put
out. A step that is *stable* does with more of the stream what it does with less. Such a reader
does not see where the stream is cut: whenever it has got to a place, it gets there from the whole
stream at once.
-/

namespace Cursor

open Walk

/-- A reader at a place of its stream. -/
@[ext] structure Reader (σ α ω : Type) where
  state : σ
  rest : List α
  out : List ω

variable {ε σ α ω : Type} {f : ε → Reader σ α ω → Option (Reader σ α ω)} {x y z : Reader σ α ω}

/-- More of the stream comes. -/
def Reader.more (m : List α) (x : Reader σ α ω) : Reader σ α ω := { x with rest := x.rest ++ m }

theorem Reader.more_more (m m' : List α) (x : Reader σ α ω) :
    (x.more m).more m' = x.more (m ++ m') := by
  simp only [more, List.append_assoc]

/-- A step does the same when more of the stream has come. -/
def Stable (f : ε → Reader σ α ω → Option (Reader σ α ω)) : Prop :=
  ∀ e x y, f e x = some y → ∀ m, f e (x.more m) = some (y.more m)

/-- One step, if there is one to be made. -/
def tryStep (f : ε → Reader σ α ω → Option (Reader σ α ω)) (x : Reader σ α ω) (e : ε) :
    Reader σ α ω := (f e x).getD x

/-- One step after the other. -/
def oneByOne (f : ε → Reader σ α ω → Option (Reader σ α ω)) (es : List ε) (x : Reader σ α ω) :
    Reader σ α ω := es.foldl (tryStep f) x

/-- Steps are made, and more of the stream comes, in any order: the reader has then seen so much of
the stream, and its steps were made with `es`. -/
inductive Fed (f : ε → Reader σ α ω → Option (Reader σ α ω)) (s : σ) (o : List ω) :
    List ε → List α → Reader σ α ω → Prop
  | start : Fed f s o [] [] ⟨s, [], o⟩
  | more {es : List ε} {l : List α} {x : Reader σ α ω} (h : Fed f s o es l x) (m : List α) :
    Fed f s o es (l ++ m) (x.more m)
  | step {es : List ε} {l : List α} {x y : Reader σ α ω} (h : Fed f s o es l x) (e : ε)
    (hf : f e x = some y) : Fed f s o (es ++ [e]) l y

/-- **Where the stream is cut does not matter**, nor what comes behind it. -/
theorem Fed.oneByOne (hf : Stable f) {s : σ} {o : List ω} {es : List ε} {l : List α}
    (h : Fed f s o es l x) (m : List α) : oneByOne f es ⟨s, l ++ m, o⟩ = x.more m := by
  induction h generalizing m with
  | start => rfl
  | more h m' ih => rw [List.append_assoc, ih, Reader.more_more]
  | step h e hstep ih =>
    unfold Cursor.oneByOne at ih ⊢
    rw [List.foldl_append, ih]
    simp only [List.foldl_cons, List.foldl_nil, tryStep, hf e _ _ hstep m, Option.getD_some]

end Cursor
