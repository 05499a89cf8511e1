import MiniWin.Lib.Block
import Mathlib.Data.List.Chain
import Mathlib.Algebra.BigOperators.Group.List.Basic

/-!
# Boundary tags

A stretch of memory that is cut into blocks without a gap. Each block begins with a header of
four words: its size, the size of the block in front of it, and a word that tells a used block
from a free one; the fourth word is nobody's. The blocks are a list, and the lemmas here say what
the headers of a list, of its parts and of a changed list are.
-/

namespace BoundaryTag

/-- A block: its size, header included, and whether it is used. -/
structure Blk where
  size : Nat
  used : Bool
  deriving DecidableEq

/-- The size of all blocks together. -/
def total (bs : List Blk) : Nat := (bs.map Blk.size).sum

@[simp] theorem total_nil : total [] = 0 := rfl

@[simp] theorem total_cons (b : Blk) (bs : List Blk) : total (b :: bs) = b.size + total bs := rfl

@[simp] theorem total_append (xs ys : List Blk) : total (xs ++ ys) = total xs + total ys := by
  simp [total]

/-- The block `b` of the list begins at `a`, when the first begins at `h`. -/
def At (bs : List Blk) (h a : Nat) (b : Blk) : Prop :=
  ∃ pre post, bs = pre ++ b :: post ∧ a = h + total pre

section
variable {bs xs ys : List Blk} {h a a' : Nat} {b b' : Blk}

@[simp] theorem not_at_nil : ¬ At [] h a b := by
  rintro ⟨pre, post, hnil, -⟩
  exact absurd hnil.symm (List.append_ne_nil_of_right_ne_nil _ (List.cons_ne_nil _ _))

@[simp] theorem at_cons : At (b' :: bs) h a b ↔ (b = b' ∧ a = h) ∨ At bs (h + b'.size) a b := by
  constructor
  · rintro ⟨pre, post, hbs, rfl⟩
    cases pre with
    | nil =>
      obtain ⟨rfl, -⟩ := List.cons.inj hbs
      exact Or.inl ⟨rfl, rfl⟩
    | cons x pre =>
      obtain ⟨rfl, rfl⟩ := List.cons.inj hbs
      exact Or.inr ⟨pre, post, rfl, by rw [total_cons, Nat.add_assoc]⟩
  · rintro (⟨rfl, rfl⟩ | ⟨pre, post, rfl, rfl⟩)
    · exact ⟨[], bs, rfl, rfl⟩
    · exact ⟨b' :: pre, post, rfl, by rw [total_cons, Nat.add_assoc]⟩

@[simp] theorem at_append : At (xs ++ ys) h a b ↔ At xs h a b ∨ At ys (h + total xs) a b := by
  induction xs generalizing h with
  | nil => simp
  | cons x xs ih => rw [List.cons_append, at_cons, at_cons, ih, total_cons, or_assoc, Nat.add_assoc]

/-- A block is inside the stretch. -/
theorem At.range (hb : At bs h a b) : h ≤ a ∧ a + b.size ≤ h + total bs := by
  obtain ⟨pre, post, rfl, rfl⟩ := hb
  rw [total_append, total_cons]
  omega

/-- **Two blocks are the same, or apart.** -/
theorem At.apart (hb : At bs h a b) (hb' : At bs h a' b') :
    (a = a' ∧ b = b') ∨ a + b.size ≤ a' ∨ a' + b'.size ≤ a := by
  induction bs generalizing h with
  | nil => exact absurd hb not_at_nil
  | cons x bs ih =>
    rcases at_cons.mp hb with ⟨rfl, rfl⟩ | htail
    · rcases at_cons.mp hb' with ⟨rfl, rfl⟩ | htail'
      · exact Or.inl ⟨rfl, rfl⟩
      · exact Or.inr (Or.inl htail'.range.1)
    · rcases at_cons.mp hb' with ⟨rfl, rfl⟩ | htail'
      · exact Or.inr (Or.inr htail.range.1)
      · exact ih htail htail'

/-- A used block is not one that is free. -/
theorem at_cons_free (hu : b.used = true) (hfree : b'.used = false) :
    At (b' :: bs) h a b ↔ At bs (h + b'.size) a b := by
  rw [at_cons]
  refine or_iff_right fun hb => ?_
  rw [hb.1, hfree] at hu
  exact Bool.false_ne_true hu

theorem At.mem (hb : At bs h a b) : b ∈ bs := by
  obtain ⟨pre, post, rfl, -⟩ := hb
  exact List.mem_append_right _ List.mem_cons_self

end

/-! ## Headers -/

/-- A header. -/
structure Header (tag : Bool → Nat) (ram : Block) (a prev : Nat) (b : Blk) : Prop where
  size : ram.le32 a = b.size
  prev : ram.le32 (a + 4) = prev
  tag : ram.le32 (a + 8) = tag b.used

/-- **The headers of the blocks**, from `h` on, where the block in front has the size `prev`. -/
def Laid (tag : Bool → Nat) (ram : Block) : Nat → Nat → List Blk → Prop
  | _, _, [] => True
  | h, prev, b :: bs => Header tag ram h prev b ∧ Laid tag ram (h + b.size) b.size bs

/-- The size of the last block, or `prev` when there is none. -/
def lastSize (prev : Nat) : List Blk → Nat
  | [] => prev
  | b :: bs => lastSize b.size bs

@[simp] theorem lastSize_append (prev : Nat) (xs ys : List Blk) :
    lastSize prev (xs ++ ys) = lastSize (lastSize prev xs) ys := by
  induction xs generalizing prev with
  | nil => rfl
  | cons x xs ih => exact ih x.size

section
variable {tag : Bool → Nat} {ram ram' : Block} {h prev a : Nat} {b : Blk} {bs xs ys : List Blk}

theorem Header.congr (hb : Header tag ram a prev b) (hram : ∀ i < 12, ram' (a + i) = ram (a + i)) :
    Header tag ram' a prev b where
  size := (Block.le32_congr fun i hi => hram i (by omega)).trans hb.size
  prev := by
    rw [← hb.prev]
    refine Block.le32_congr fun i hi => ?_
    rw [Nat.add_assoc]
    exact hram (4 + i) (by omega)
  tag := by
    rw [← hb.tag]
    refine Block.le32_congr fun i hi => ?_
    rw [Nat.add_assoc]
    exact hram (8 + i) (by omega)

@[simp] theorem laid_append : Laid tag ram h prev (xs ++ ys) ↔
    Laid tag ram h prev xs ∧ Laid tag ram (h + total xs) (lastSize prev xs) ys := by
  induction xs generalizing h prev with
  | nil => simp [Laid, lastSize]
  | cons x xs ih => simp only [List.cons_append, Laid, ih, total_cons, lastSize, and_assoc,
      Nat.add_assoc]

/-- The headers are read from the stretch alone. -/
theorem Laid.congr (hl : Laid tag ram h prev bs) (hsize : ∀ b ∈ bs, 16 ≤ b.size)
    (hram : ∀ a, h ≤ a → a < h + total bs → ram' a = ram a) : Laid tag ram' h prev bs := by
  induction bs generalizing h prev with
  | nil => trivial
  | cons b bs ih =>
    have h16 := hsize b List.mem_cons_self
    rw [total_cons] at hram
    refine ⟨hl.1.congr fun i hi => hram _ (by omega) (by omega), ?_⟩
    exact ih hl.2 (fun x hx => hsize x (List.mem_cons_of_mem _ hx)) fun a hle hlt =>
      hram a (by omega) (by omega)

/-- The header of a block that begins at `a`. -/
theorem Laid.header (hl : Laid tag ram h prev bs) (hb : At bs h a b) :
    ∃ prev', Header tag ram a prev' b := by
  obtain ⟨pre, post, rfl, rfl⟩ := hb
  exact ⟨_, (laid_append.mp hl).2.1⟩

end

/-! ## Merged lists -/

/-- No two free blocks are side by side. -/
def Merged (bs : List Blk) : Prop := List.IsChain (fun x y : Blk => x.used = true ∨ y.used = true) bs

theorem merged_append_cons {pre post : List Blk} {b : Blk} : Merged (pre ++ b :: post) ↔
    Merged pre ∧ Merged post ∧ (∀ x ∈ pre.getLast?, x.used = true ∨ b.used = true)
      ∧ ∀ y ∈ post.head?, b.used = true ∨ y.used = true := by
  unfold Merged
  rw [List.isChain_append, List.isChain_cons]
  constructor
  · rintro ⟨hpre, ⟨hhead, hpost⟩, hlast⟩
    exact ⟨hpre, hpost, fun x hx => hlast x hx b rfl, hhead⟩
  · rintro ⟨hpre, hpost, hlast, hhead⟩
    refine ⟨hpre, ⟨hhead, hpost⟩, fun x hx y hy => ?_⟩
    obtain rfl := Option.some.inj hy
    exact hlast x hx

end BoundaryTag
