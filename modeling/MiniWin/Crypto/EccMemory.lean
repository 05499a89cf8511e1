import MiniWin.Lib.Arrays
import MiniWin.Crypto.EccField

/-!
# The arithmetic of the curves, in memory

`ecc_add_raw` to `ecc_compute_rr` of `kernel/ecc.h` with their pointers and local arrays. The arrays
of the caller lie in one object and may overlap; each local array is an object of its own, with the
size it is declared with. An addition or a multiplication that is to be exact stops the program if
the word cannot hold the result, and so does a cast of a carry to 32 bits.
-/

namespace Ecc

open Arrays Limbs

def ECC_MAX_LIMBS : ℕ := 12

inductive Obj
  | caller
  | auto (k size : ℕ)
  deriving DecidableEq

def Obj.size : Obj → Option ℕ
  | caller => none
  | auto _ size => some size

abbrev Words32 := Mem Obj UInt32

/-! ## Words -/

def plus (x y : UInt64) : Option UInt64 := if x.toNat + y.toNat < 2 ^ 64 then some (x + y) else none

def times (x y : UInt32) : Option UInt64 :=
  if x.toNat * y.toNat < 2 ^ 64 then some (x.toUInt64 * y.toUInt64) else none

def plus32 (x y : UInt32) : Option UInt32 := if x.toNat + y.toNat < 2 ^ 32 then some (x + y) else none

/-- `(u32)c` of a carry. -/
def carry32 (c : UInt64) : Option UInt32 := if c.toNat < 2 ^ 32 then some c.toUInt32 else none

def addStep (x y : UInt32) (c : UInt64) : Option (UInt32 × UInt64) := do
  let s ← plus (← plus x.toUInt64 y.toUInt64) c
  some (s.toUInt32, s >>> 32)

/-- The difference wraps around. -/
def subStep (x y : UInt32) (br : UInt64) : Option (UInt32 × UInt64) :=
  let d := x.toUInt64 - y.toUInt64 - br
  some (d.toUInt32, (d >>> 32) &&& 1)

def mulStep (b x y : UInt32) (c : UInt64) : Option (UInt32 × UInt64) := do
  let s ← plus (← plus x.toUInt64 (← times y b)) c
  some (s.toUInt32, s >>> 32)

theorem plus_eq {x y : UInt64} (h : x.toNat + y.toNat < 2 ^ 64) :
    plus x y = some (x + y) ∧ (x + y).toNat = x.toNat + y.toNat :=
  ⟨if_pos h, by rw [UInt64.toNat_add, Nat.mod_eq_of_lt h]⟩

theorem carry32_eq {c : UInt64} (h : c.toNat < 2 ^ 32) : carry32 c = some c.toUInt32 := if_pos h

theorem zipRow_add {a b : Words} {c : UInt64} (h : a.length = b.length) (hc : c.toNat ≤ 1) :
    ∃ c', zipRow addStep a b c = some ((addFrom a b c).1, c') ∧ c'.toNat ≤ 1
      ∧ c'.toUInt32 = (addFrom a b c).2 := by
  induction a generalizing b c with
  | nil => exact ⟨c, rfl, hc, rfl⟩
  | cons x a ih =>
    obtain ⟨y, b, rfl⟩ : ∃ y b', b = y :: b' := List.exists_cons_of_length_eq_add_one h.symm
    have hx := x.toNat_lt
    have hy := y.toNat_lt
    obtain ⟨hxy, hsum⟩ := plus_eq (x := x.toUInt64) (y := y.toUInt64)
      (by rw [UInt32.toNat_toUInt64, UInt32.toNat_toUInt64]; omega)
    rw [UInt32.toNat_toUInt64, UInt32.toNat_toUInt64] at hsum
    obtain ⟨hs, hval⟩ := plus_eq (x := x.toUInt64 + y.toUInt64) (y := c) (by omega)
    obtain ⟨s, hseq⟩ : ∃ s, x.toUInt64 + y.toUInt64 + c = s := ⟨_, rfl⟩
    rw [hseq] at hs hval
    have hsplit := Bignum.halves s
    obtain ⟨c', hrow, hle, hlow⟩ := ih (c := s >>> 32) (Nat.succ.inj h) (by omega)
    refine ⟨c', ?_, hle, ?_⟩
    · simp only [zipRow, addStep, hxy, hs, Option.bind_eq_bind, Option.bind_some, hrow, addFrom, hseq]
    · simp only [addFrom, hseq, hlow]

theorem zipRow_sub {a b : Words} (br : UInt64) (h : a.length = b.length) (hbr : br.toNat ≤ 1) :
    ∃ br', zipRow subStep a b br = some ((subFrom a b br).1, br') ∧ br'.toNat ≤ 1
      ∧ br'.toUInt32 = (subFrom a b br).2 := by
  induction a generalizing b br with
  | nil => exact ⟨br, rfl, hbr, rfl⟩
  | cons x a ih =>
    obtain ⟨y, b, rfl⟩ : ∃ y b', b = y :: b' := List.exists_cons_of_length_eq_add_one h.symm
    obtain ⟨br', hrow, hle, hlow⟩ := ih (((x.toUInt64 - y.toUInt64 - br) >>> 32) &&& 1)
      (Nat.succ.inj h) (by rw [UInt64.toNat_and]; exact Nat.and_le_right)
    refine ⟨br', ?_, hle, hlow⟩
    simp only [zipRow, subStep, Option.bind_eq_bind, Option.bind_some, hrow, subFrom]

theorem zipRow_mul {t a : Words} {c : UInt64} (b : UInt32) (h : t.length = a.length)
    (hc : c.toNat < 2 ^ 32) : zipRow (mulStep b) t a c = some (mulAdd b t a c) := by
  induction t generalizing a c with
  | nil => rfl
  | cons x t ih =>
    obtain ⟨y, a, rfl⟩ : ∃ y a', a = y :: a' := List.exists_cons_of_length_eq_add_one h.symm
    have hmul : y.toNat * b.toNat ≤ (2 ^ 32 - 1) * (2 ^ 32 - 1) :=
      Nat.mul_le_mul (Nat.le_pred_of_lt y.toNat_lt) (Nat.le_pred_of_lt b.toNat_lt)
    have hx := x.toNat_lt
    have htimes : times y b = some (y.toUInt64 * b.toUInt64) := if_pos (by omega)
    have hprod : (y.toUInt64 * b.toUInt64).toNat = y.toNat * b.toNat := by
      rw [UInt64.toNat_mul, UInt32.toNat_toUInt64, UInt32.toNat_toUInt64]
      omega
    obtain ⟨hxy, hsum⟩ := plus_eq (x := x.toUInt64) (y := y.toUInt64 * b.toUInt64)
      (by rw [UInt32.toNat_toUInt64]; omega)
    rw [UInt32.toNat_toUInt64] at hsum
    obtain ⟨hs, -⟩ := plus_eq (x := x.toUInt64 + y.toUInt64 * b.toUInt64) (y := c) (by omega)
    simp only [zipRow, mulStep, htimes, hxy, hs, Option.bind_eq_bind, Option.bind_some,
      ih (Nat.succ.inj h) (Bignum.high_lt _), mulAdd]

/-! ## The functions -/

namespace InMemory

variable {μ μ₀ : Words32} {n : ℕ}

def ecc_add_raw (r a b : Ptr Obj) (n : ℕ) (μ : Words32) : Option (Words32 × UInt32) := do
  let (μ, c) ← zipLoop Obj.size addStep n r a b μ 0
  some (μ, ← carry32 c)

def ecc_sub_raw (r a b : Ptr Obj) (n : ℕ) (μ : Words32) : Option (Words32 × UInt32) := do
  let (μ, br) ← zipLoop Obj.size subStep n r a b μ 0
  some (μ, ← carry32 br)

def ecc_copy (r a : Ptr Obj) (n : ℕ) (μ : Words32) : Option Words32 := copy Obj.size n r a μ

def ecc_zero (r : Ptr Obj) (n : ℕ) (μ : Words32) : Option Words32 := fill Obj.size 0 n r μ

/-- An array of the caller. -/
abbrev arr (i : ℕ) : Ptr Obj := ⟨.caller, i⟩

/-- What the functions use of `ecc_field_t`. -/
structure FieldAt where
  m : ℕ
  m0 : UInt32
  n : ℕ

/-- `u32 t[ECC_MAX_LIMBS + 2]` of `ecc_mm`. -/
def acc : Ptr Obj := ⟨.auto 0 (ECC_MAX_LIMBS + 2), 0⟩

/-- The first `u32[ECC_MAX_LIMBS]` of a function. -/
def fst : Ptr Obj := ⟨.auto 1 ECC_MAX_LIMBS, 0⟩

/-- The second one. -/
def snd : Ptr Obj := ⟨.auto 2 ECC_MAX_LIMBS, 0⟩

/-- The first half of a pass: the row times a limb. -/
def mulHalf (n : ℕ) (a : Ptr Obj) (bi : UInt32) (μ : Words32) : Option Words32 := do
  let (μ, c) ← zipLoop Obj.size (mulStep bi) n acc acc a μ 0
  let s ← plus (← load Obj.size μ acc n).toUInt64 c
  let μ ← store Obj.size μ acc n s.toUInt32
  store Obj.size μ acc (n + 1) (← carry32 (s >>> 32))

/-- The second half: the multiple of the modulus, one word further down. -/
def reduceHalf (f : FieldAt) (μ : Words32) : Option Words32 := do
  let t0 ← load Obj.size μ acc 0
  let mq := t0 * f.m0
  let c ← plus t0.toUInt64 (← times mq (← load Obj.size μ (arr f.m) 0))
  let (μ, c) ←
    zipLoop Obj.size (mulStep mq) (f.n - 1) acc (acc.add 1) ((arr f.m).add 1) μ (c >>> 32)
  let s ← plus (← load Obj.size μ acc f.n).toUInt64 c
  let μ ← store Obj.size μ acc (f.n - 1) s.toUInt32
  store Obj.size μ acc f.n
    (← plus32 (← load Obj.size μ acc (f.n + 1)) (← carry32 (s >>> 32)))

/-- One pass of the outer loop. The limb `b[i]`, which the inner loop reads each time, is not stored
to in between. -/
def mmPass (f : FieldAt) (a b : Ptr Obj) (μ : Words32) (i : ℕ) : Option Words32 := do
  reduceHalf f (← mulHalf f.n a (← load Obj.size μ b i) μ)

def ecc_mm (f : FieldAt) (r a b : Ptr Obj) (μ : Words32) : Option Words32 := do
  let μ ← fill Obj.size 0 (f.n + 2) acc μ
  let μ ← (List.range f.n).foldlM (mmPass f a b) μ
  let (μ, borrow) ← ecc_sub_raw fst acc (arr f.m) f.n μ
  if (← load Obj.size μ acc f.n) ≠ 0 ∨ borrow = 0 then ecc_copy r fst f.n μ
  else ecc_copy r acc f.n μ

def ecc_ma (f : FieldAt) (r a b : Ptr Obj) (μ : Words32) : Option Words32 := do
  let (μ, carry) ← ecc_add_raw fst a b f.n μ
  let (μ, borrow) ← ecc_sub_raw snd fst (arr f.m) f.n μ
  if carry ≠ 0 ∨ borrow = 0 then ecc_copy r snd f.n μ else ecc_copy r fst f.n μ

def ecc_ms (f : FieldAt) (r a b : Ptr Obj) (μ : Words32) : Option Words32 := do
  let (μ, borrow) ← ecc_sub_raw fst a b f.n μ
  let μ ← if borrow ≠ 0 then (ecc_add_raw fst fst (arr f.m) f.n μ).map Prod.fst else some μ
  ecc_copy r fst f.n μ

/-- One round: `x` is the first local array and `t` the second one. -/
def rrRound (m : Ptr Obj) (n : ℕ) (r_mod_m : Option (Ptr Obj)) (μ : Words32) (i : ℕ) :
    Option Words32 := do
  let (μ, carry) ← ecc_add_raw fst fst fst n μ
  let (μ, borrow) ← ecc_sub_raw snd fst m n μ
  let μ ← if carry ≠ 0 ∨ borrow = 0 then ecc_copy fst snd n μ else some μ
  if i = 32 * n - 1 then r_mod_m.elim (some μ) fun r => ecc_copy r fst n μ else some μ

def ecc_compute_rr (rr : Ptr Obj) (r_mod_m : Option (Ptr Obj)) (m : Ptr Obj) (n : ℕ)
    (μ : Words32) : Option Words32 := do
  let μ ← ecc_zero fst n μ
  let μ ← store Obj.size μ fst 0 1
  let μ ← (List.range (64 * n)).foldlM (rrRound m n r_mod_m) μ
  ecc_copy rr fst n μ

/-! ## What they do -/

variable {r a b : Ptr Obj}

/-- **A sum in memory** is the sum of the rows. -/
theorem add_raw_eq (hr : Room Obj.size r n) (ha : Room Obj.size a n) (hb : Room Obj.size b n)
    (hra : Behind r a n) (hrb : Behind r b n) :
    ecc_add_raw r a b n μ =
      some (put μ r (Ecc.ecc_add_raw (slice μ a n) (slice μ b n)).1,
        (Ecc.ecc_add_raw (slice μ a n) (slice μ b n)).2) := by
  obtain ⟨c, hrow, hle, hlow⟩ := zipRow_add (a := slice μ a n) (b := slice μ b n) (c := 0)
    (length_slice.trans length_slice.symm) (Nat.zero_le 1)
  unfold ecc_add_raw
  rw [zipLoop_eq _ hr ha hb hra hrb, hrow]
  simp only [Option.bind_eq_bind, Option.map_some, Option.bind_some, carry32_eq (c := c) (by omega),
    hlow, Ecc.ecc_add_raw]

theorem sub_raw_eq (hr : Room Obj.size r n) (ha : Room Obj.size a n) (hb : Room Obj.size b n)
    (hra : Behind r a n) (hrb : Behind r b n) :
    ecc_sub_raw r a b n μ =
      some (put μ r (Ecc.ecc_sub_raw (slice μ a n) (slice μ b n)).1,
        (Ecc.ecc_sub_raw (slice μ a n) (slice μ b n)).2) := by
  obtain ⟨c, hrow, hle, hlow⟩ := zipRow_sub (a := slice μ a n) (b := slice μ b n) 0
    (length_slice.trans length_slice.symm) (Nat.zero_le 1)
  unfold ecc_sub_raw
  rw [zipLoop_eq _ hr ha hb hra hrb, hrow]
  simp only [Option.bind_eq_bind, Option.map_some, Option.bind_some, carry32_eq (c := c) (by omega),
    hlow, Ecc.ecc_sub_raw]

theorem room_caller (i n : ℕ) : Room Obj.size (arr i) n := fun _ hs => nomatch hs

theorem behind_of_ne {r a : Ptr Obj} (h : r.obj ≠ a.obj) : Behind r a n := fun ho => absurd ho h

theorem slice_congr {p : Ptr Obj} (h : μ p.obj = μ₀ p.obj) : slice μ p n = slice μ₀ p n := by
  unfold slice
  rw [h]

theorem room_acc {i : ℕ} (hmax : n ≤ ECC_MAX_LIMBS) (hi : i ≤ n + 2) : Room Obj.size acc i := by
  rintro s ⟨⟩
  exact (Nat.zero_add _).le.trans (hi.trans (Nat.add_le_add_right hmax 2))

theorem plus_word (x : UInt32) {c : UInt64} (hc : c.toNat < 2 ^ 32) :
    plus x.toUInt64 c = some (x.toUInt64 + c) ∧ (x.toUInt64 + c).toNat = x.toNat + c.toNat := by
  have hx := x.toNat_lt
  have := plus_eq (x := x.toUInt64) (y := c) (by rw [UInt32.toNat_toUInt64]; omega)
  rwa [UInt32.toNat_toUInt64] at this

/-- Nothing but the accumulator has changed, and it holds these words. -/
structure Holds (μ₀ μ : Words32) (l : Words) : Prop where
  rest : ∀ o, o ≠ acc.obj → μ o = μ₀ o
  held : Has μ acc l

theorem mulHalf_eq {j : ℕ} (hmax : n ≤ ECC_MAX_LIMBS) (bi : UInt32) {t : Words} {tn x : UInt32}
    (hlen : t.length = n) (h : Holds μ₀ μ (t ++ [tn, x])) {l : Words} {c s : UInt64}
    (hl : mulAdd bi t (slice μ₀ (arr j) n) 0 = (l, c)) (hs : tn.toUInt64 + c = s) :
    ∃ μ', mulHalf n (arr j) bi μ = some μ' ∧ l.length = n ∧ (s >>> 32).toNat ≤ 1 ∧
      Holds μ₀ μ' (l ++ [s.toUInt32, (s >>> 32).toUInt32]) := by
  obtain ⟨hrest, hheld⟩ := h
  have hslice : slice μ acc n = t := by
    have := hheld.slice (n := n) 0 (by simp [hlen])
    rwa [List.drop_zero, List.take_left' hlen] at this
  have ha : slice μ (arr j) n = slice μ₀ (arr j) n := slice_congr (hrest _ nofun)
  have hlenA : t.length = (slice μ₀ (arr j) n).length := hlen.trans length_slice.symm
  obtain ⟨hlenl, hc, -⟩ := value_mulAdd bi t (slice μ₀ (arr j) n) 0 hlenA (by decide)
  have hrow := zipRow_mul (c := 0) bi hlenA (by decide)
  rw [hl] at hlenl hc hrow
  dsimp only at hlenl hc
  have h1 : Has (put μ acc l) acc (l ++ [tn, x]) := by
    have := hheld.put (show l.length ≤ _ by rw [hlenl, List.length_append]; omega)
    rwa [hlenl, List.drop_left] at this
  have hload := h1.load (room_acc hmax (by omega)) (hlen.symm.trans hlenl.symm)
  obtain ⟨hplus, hval⟩ := plus_word tn hc
  rw [hs] at hplus hval
  obtain ⟨hst2, h2⟩ := h1.store (room_acc hmax (by omega)) (hlen.symm.trans hlenl.symm) s.toUInt32
  rw [List.append_cons] at h2
  obtain ⟨hst3, h3⟩ := h2.store (i := n + 1) (room_acc hmax (by omega))
    (by rw [List.length_append, List.length_singleton]; omega) (s >>> 32).toUInt32
  rw [← List.append_cons] at h3
  refine ⟨_, ?_, hlenl.trans hlen, ?_, fun o ho => ?_, h3⟩
  · unfold mulHalf
    rw [zipLoop_eq _ (room_acc hmax (by omega)) (room_acc hmax (by omega)) (room_caller j n)
      (fun _ => .inl (Nat.le_refl _)) (behind_of_ne nofun), hslice, ha, hrow]
    simp only [Option.bind_eq_bind, Option.map_some, Option.bind_some, hload, hplus, hst2,
      carry32_eq (Bignum.high_lt s), hst3]
  · have := tn.toNat_lt
    have := Bignum.halves s
    omega
  · rw [poke_of_ne ho, poke_of_ne ho, put_of_ne ho, hrest o ho]

theorem reduceHalf_eq {f : FieldAt} {k : ℕ} (hn : f.n = k + 1)
    (hmax : f.n ≤ ECC_MAX_LIMBS) {y tn tn1 w : UInt32} {l l₂ ws : Words} {c u : UInt64}
    (hlen : l.length = k) (htn1 : tn1.toNat ≤ 1) (h : Holds μ₀ μ (y :: l ++ [tn, tn1]))
    (hw : slice μ₀ (arr f.m) f.n = w :: ws)
    (hl : mulAdd (y * f.m0) l ws
      ((y.toUInt64 + (y * f.m0).toUInt64 * w.toUInt64) >>> 32) = (l₂, c))
    (hu : tn.toUInt64 + c = u) :
    ∃ μ', reduceHalf f μ = some μ' ∧ l₂.length = k ∧
      Holds μ₀ μ' (l₂ ++ [u.toUInt32] ++ [tn1 + (u >>> 32).toUInt32, tn1]) := by
  obtain ⟨hrest, hheld⟩ := h
  have hM : slice μ (arr f.m) f.n = w :: ws :=
    (slice_congr (hrest .caller nofun)).trans hw
  rw [hn, slice_succ] at hM
  obtain ⟨hw0, hws⟩ := List.cons.inj hM
  have ht0 : load Obj.size μ acc 0 = some y :=
    Has.load (show Has μ acc ([] ++ y :: _) from hheld) (room_acc hmax (by omega)) rfl
  have hm0 : load Obj.size μ (arr f.m) 0 = some w :=
    (if_pos (room_caller f.m 1)).trans (congrArg some hw0)
  -- the lowest word
  have hmul : (y * f.m0).toNat * w.toNat ≤ (2 ^ 32 - 1) * (2 ^ 32 - 1) :=
    Nat.mul_le_mul (Nat.le_pred_of_lt (y * f.m0).toNat_lt) (Nat.le_pred_of_lt w.toNat_lt)
  have htimes : times (y * f.m0) w = some ((y * f.m0).toUInt64 * w.toUInt64) := if_pos (by omega)
  have hlow : plus y.toUInt64 ((y * f.m0).toUInt64 * w.toUInt64)
      = some (y.toUInt64 + (y * f.m0).toUInt64 * w.toUInt64) := by
    refine (plus_eq ?_).1
    have := y.toNat_lt
    rw [UInt64.toNat_mul, UInt32.toNat_toUInt64, UInt32.toNat_toUInt64, UInt32.toNat_toUInt64]
    omega
  obtain ⟨d, hd⟩ : ∃ d, (y.toUInt64 + (y * f.m0).toUInt64 * w.toUInt64) >>> 32 = d := ⟨_, rfl⟩
  have hd32 : d.toNat < 2 ^ 32 := hd ▸ Bignum.high_lt _
  rw [hd] at hl
  -- the other words
  have hl3 : slice μ (acc.add 1) k = l := by
    rw [hheld.slice 1 (by simp; omega), List.cons_append, List.drop_one, List.tail_cons,
      List.take_left' hlen]
  have hlenW : l.length = ws.length := by rw [← hws, length_slice, hlen]
  obtain ⟨hlen2, hc2, -⟩ := value_mulAdd (y * f.m0) l ws d hlenW hd32
  have hrow := zipRow_mul (y * f.m0) hlenW hd32
  rw [hl] at hlen2 hc2 hrow
  dsimp only at hlen2 hc2
  obtain ⟨z, hz⟩ : ∃ z, (y :: l).drop k = [z] :=
    List.length_eq_one_iff.mp (by rw [List.length_drop, List.length_cons]; omega)
  have h4 : Has (put μ acc l₂) acc (l₂ ++ [z] ++ [tn, tn1]) := by
    have := hheld.put
      (show l₂.length ≤ _ by simp only [List.length_append, List.length_cons]; omega)
    rwa [hlen2, hlen, List.drop_append_of_le_length (by rw [List.length_cons]; omega), hz,
      ← List.append_assoc] at this
  have hload4 := h4.load (i := f.n) (room_acc hmax (by omega))
    (by rw [List.length_append, List.length_singleton]; omega)
  obtain ⟨hplus, hval⟩ := plus_word tn hc2
  rw [hu] at hplus hval
  rw [← List.append_cons] at h4
  obtain ⟨hst5, h5⟩ := h4.store (i := k) (room_acc hmax (by omega)) (by omega) u.toUInt32
  rw [List.append_cons] at h5
  obtain ⟨hst6, h6⟩ := h5.store (i := f.n) (room_acc hmax (by omega))
    (by rw [List.length_append, List.length_singleton]; omega) (tn1 + (u >>> 32).toUInt32)
  rw [List.append_cons] at h5
  have hload5 := h5.load (i := f.n + 1) (room_acc hmax (by omega))
    (by simp only [List.length_append, List.length_singleton]; omega)
  have htop : plus32 tn1 (u >>> 32).toUInt32 = some (tn1 + (u >>> 32).toUInt32) := by
    have := Bignum.halves u
    have := tn.toNat_lt
    refine if_pos ?_
    rw [toNat_low _ (Bignum.high_lt u)]
    omega
  refine ⟨_, ?_, hlen2.trans hlen, fun o ho => ?_, h6⟩
  · have hkn : f.n - 1 = k := by omega
    have hroom : Room Obj.size (acc.add 1) k := (room_acc hmax (by omega : k + 1 ≤ _)).tail
    have hmroom : Room Obj.size ((arr f.m).add 1) k := room_caller (f.m + 1) k
    unfold reduceHalf
    simp only [Option.bind_eq_bind, Option.bind_some, ht0, hm0, htimes, hlow, hd, hkn]
    rw [zipLoop_eq _ (room_acc hmax (by omega)) hroom hmroom (fun _ => .inl (Nat.zero_le _))
      (behind_of_ne (by rintro ⟨⟩)), hl3, hws, hrow]
    simp only [Option.map_some, Option.bind_some, hload4, hplus, hst5, hload5,
      carry32_eq (Bignum.high_lt u), htop, hst6]
  · rw [poke_of_ne ho, poke_of_ne ho, put_of_ne ho, hrest o ho]

/-- **A pass in memory** is a pass over the rows. -/
theorem mmPass_eq {f : FieldAt} {j : ℕ} (hn : 0 < f.n)
    (hmax : f.n ≤ ECC_MAX_LIMBS) {b : Ptr Obj} {k : ℕ} {bi : UInt32}
    (hb : load Obj.size μ b k = some bi) (rr : Words) {t : Words × UInt32} (hlen : t.1.length = f.n)
    {x : UInt32} (h : Holds μ₀ μ (t.1 ++ [t.2, x])) {t' : Words × UInt32}
    (ht : mmRound ⟨slice μ₀ (arr f.m) f.n, f.m0, rr, f.n⟩ (slice μ₀ (arr j) f.n) t bi = t') :
    ∃ μ' x, mmPass f (arr j) b μ k = some μ' ∧ t'.1.length = f.n ∧
      Holds μ₀ μ' (t'.1 ++ [t'.2, x]) := by
  obtain ⟨⟨l, c⟩, hl⟩ : ∃ l, mulAdd bi t.1 (slice μ₀ (arr j) f.n) 0 = l := ⟨_, rfl⟩
  obtain ⟨μ₁, hmul, hlenl, htop, h₁⟩ := mulHalf_eq hmax bi hlen h hl rfl
  obtain ⟨n, hn⟩ : ∃ n, f.n = n + 1 := Nat.exists_eq_add_of_le' hn
  obtain ⟨y, l, rfl⟩ : ∃ y l', l = y :: l' :=
    List.exists_cons_of_length_eq_add_one (hlenl.trans hn)
  obtain ⟨w, ws, hw⟩ : ∃ w ws, slice μ₀ (arr f.m) f.n = w :: ws :=
    List.exists_cons_of_length_eq_add_one (length_slice.trans hn)
  have htop' := toNat_low _ (Bignum.high_lt (t.2.toUInt64 + c))
  obtain ⟨μ₂, hred, hlen₂, h₂⟩ := reduceHalf_eq hn hmax (Nat.succ.inj (hlenl.trans hn))
    (by omega) h₁ hw rfl rfl
  subst ht
  unfold mmRound
  simp only [hl, hw, List.headD_cons, List.tail_cons]
  refine ⟨μ₂, _, ?_, ?_, h₂⟩
  · unfold mmPass
    simp only [Option.bind_eq_bind, Option.bind_some, hb, hmul, hred]
  · rw [List.length_append, List.length_singleton, hlen₂, hn]

/-- **The passes in memory.** -/
theorem mmPasses_eq {f : FieldAt} {j p : ℕ} (hn : 0 < f.n)
    (hmax : f.n ≤ ECC_MAX_LIMBS) (rr : Words)
    (h : Holds μ₀ μ (List.replicate (f.n + 2) 0)) {k : ℕ} (hk : k ≤ f.n) {t : Words × UInt32}
    (ht : ((slice μ₀ (arr p) f.n).take k).foldl
      (mmRound ⟨slice μ₀ (arr f.m) f.n, f.m0, rr, f.n⟩ (slice μ₀ (arr j) f.n)) (Ecc.ecc_zero f.n, 0) = t) :
    ∃ μ' x, (List.range k).foldlM (mmPass f (arr j) (arr p)) μ = some μ' ∧
      t.1.length = f.n ∧ Holds μ₀ μ' (t.1 ++ [t.2, x]) := by
  induction k generalizing t with
  | zero =>
    subst ht
    refine ⟨μ, 0, rfl, List.length_replicate, ?_⟩
    rw [List.replicate_add] at h
    exact h
  | succ k ih =>
    obtain ⟨μ₁, x₁, hrun, hlen, h₁⟩ := ih (by omega) rfl
    have hk' : k < (slice μ₀ (arr p) f.n).length := by
      rw [length_slice]
      exact hk
    rw [List.take_succ_eq_append_getElem hk', List.foldl_append, List.foldl_cons, List.foldl_nil] at ht
    have hb : load Obj.size μ₁ (arr p) k = some (slice μ₀ (arr p) f.n)[k] := by
      rw [load, if_pos (room_caller p _), h₁.rest .caller (by rintro ⟨⟩)]
      simp [slice]
    obtain ⟨μ₂, x₂, hpass, hlen₂, h₂⟩ := mmPass_eq hn hmax hb rr hlen h₁ ht
    refine ⟨μ₂, x₂, ?_, hlen₂, h₂⟩
    rw [List.range_succ, List.foldlM_append, hrun]
    simp only [Option.bind_eq_bind, Option.bind_some, List.foldlM_cons, List.foldlM_nil, hpass]
    rfl

theorem room_fst (hmax : n ≤ ECC_MAX_LIMBS) : Room Obj.size fst n := by
  rintro s ⟨⟩
  exact (Nat.zero_add _).le.trans hmax

theorem room_snd (hmax : n ≤ ECC_MAX_LIMBS) : Room Obj.size snd n := by
  rintro s ⟨⟩
  exact (Nat.zero_add _).le.trans hmax

/-- The array `r` of the caller becomes this row, and nothing else of his changes. -/
def Gives (μ : Words32) (r : ℕ) (l : Words) (μ' : Words32) : Prop :=
  μ' .caller = put μ (arr r) l .caller

/-- The last copy. -/
theorem copy_out {p : Ptr Obj} {r : ℕ} {l : Words} (hp : Room Obj.size p n) (hne : Obj.caller ≠ p.obj)
    (hl : slice μ p n = l) (hμ : μ .caller = μ₀ .caller) :
    ∃ μ', ecc_copy (arr r) p n μ = some μ' ∧ Gives μ₀ r l μ' := by
  refine ⟨_, copy_eq (room_caller r n) hp (behind_of_ne hne), ?_⟩
  unfold Gives put
  rw [hl, hμ, Function.update_self, Function.update_self]

/-- **The product in memory**, wherever the arrays of the caller are. -/
theorem mm_run {f : FieldAt} {r a b : ℕ} (hn : 0 < f.n) (hmax : f.n ≤ ECC_MAX_LIMBS) (rr : Words) :
    ∃ μ', ecc_mm f (arr r) (arr a) (arr b) μ = some μ' ∧
      Gives μ r (Ecc.ecc_mm ⟨slice μ (arr f.m) f.n, f.m0, rr, f.n⟩ (slice μ (arr a) f.n)
        (slice μ (arr b) f.n)) μ' := by
  obtain ⟨t, ht⟩ : ∃ t, (slice μ (arr b) f.n).foldl
    (mmRound ⟨slice μ (arr f.m) f.n, f.m0, rr, f.n⟩ (slice μ (arr a) f.n)) (Ecc.ecc_zero f.n, 0) = t :=
    ⟨_, rfl⟩
  have hstart : Holds μ (put μ acc (List.replicate (f.n + 2) 0)) (List.replicate (f.n + 2) 0) :=
    ⟨fun o ho => put_of_ne ho, has_put _ _ _⟩
  obtain ⟨μ₁, x, hrun, hlen, hrest, hheld⟩ := mmPasses_eq (j := a) (p := b) (t := t) hn hmax rr hstart
    (Nat.le_refl f.n) (by rwa [List.take_of_length_le length_slice.le])
  have hslice : slice μ₁ acc f.n = t.1 := by
    have := hheld.slice (n := f.n) 0 (by simp [hlen])
    rwa [List.drop_zero, List.take_left' hlen] at this
  have hM : slice μ₁ (arr f.m) f.n = slice μ (arr f.m) f.n := slice_congr (hrest _ nofun)
  have hsub := sub_raw_eq (μ := μ₁) (r := fst) (a := acc) (room_fst hmax)
    (room_acc hmax (Nat.le_add_right _ 2)) (room_caller f.m f.n) (behind_of_ne nofun)
    (behind_of_ne nofun)
  rw [hslice, hM] at hsub
  obtain ⟨tmp, htmp⟩ : ∃ tmp, Ecc.ecc_sub_raw t.1 (slice μ (arr f.m) f.n) = tmp := ⟨_, rfl⟩
  rw [htmp] at hsub
  have hlentmp : tmp.1.length = f.n := by
    rw [← htmp, (sub_raw_cases (hlen.trans length_slice.symm)).1, hlen]
  have hheld₂ : Has (put μ₁ fst tmp.1) acc (t.1 ++ [t.2, x]) :=
    (slice_put_of_ne (p := fst) (q := acc) nofun).trans hheld
  have hload := hheld₂.load (room_acc hmax (by omega)) hlen.symm
  have hkept : put μ₁ fst tmp.1 .caller = μ .caller :=
    (put_of_ne (p := fst) (o := .caller) nofun).trans (hrest .caller nofun)
  have hrun : ecc_mm f (arr r) (arr a) (arr b) μ =
      if t.2 ≠ 0 ∨ tmp.2 = 0 then ecc_copy (arr r) fst f.n (put μ₁ fst tmp.1)
      else ecc_copy (arr r) acc f.n (put μ₁ fst tmp.1) := by
    unfold ecc_mm
    simp only [fill_eq (0 : UInt32) (room_acc hmax (Nat.le_refl _)), Option.bind_eq_bind, Option.bind_some,
      hrun, hsub, hload]
  have hrow : Ecc.ecc_mm ⟨slice μ (arr f.m) f.n, f.m0, rr, f.n⟩ (slice μ (arr a) f.n)
      (slice μ (arr b) f.n) = if t.2 ≠ 0 ∨ tmp.2 = 0 then tmp.1 else t.1 := by
    unfold Ecc.ecc_mm
    simp only [ht, htmp]
  rw [hrun, hrow]
  split
  · exact copy_out (room_fst hmax) nofun (slice_put _ _ hlentmp) hkept
  · exact copy_out (room_acc hmax (Nat.le_add_right _ 2)) nofun
      ((slice_put_of_ne (p := fst) (q := acc) nofun).trans hslice) hkept

theorem ma_run {f : FieldAt} {r a b : ℕ} (hmax : f.n ≤ ECC_MAX_LIMBS) (rr : Words) :
    ∃ μ', ecc_ma f (arr r) (arr a) (arr b) μ = some μ' ∧
      Gives μ r (Ecc.ecc_ma ⟨slice μ (arr f.m) f.n, f.m0, rr, f.n⟩ (slice μ (arr a) f.n)
        (slice μ (arr b) f.n)) μ' := by
  have hlen : (slice μ (arr a) f.n).length = (slice μ (arr b) f.n).length :=
    length_slice.trans length_slice.symm
  have hadd := add_raw_eq (μ := μ) (r := fst) (room_fst hmax) (room_caller a f.n)
    (room_caller b f.n) (behind_of_ne nofun) (behind_of_ne nofun)
  obtain ⟨t, ht⟩ : ∃ t, Ecc.ecc_add_raw (slice μ (arr a) f.n) (slice μ (arr b) f.n) = t := ⟨_, rfl⟩
  have hlent : t.1.length = f.n := by
    rw [← ht]
    exact (value_addFrom _ _ 0 hlen (Nat.zero_le 1)).1.trans length_slice
  rw [ht] at hadd
  have hsub := sub_raw_eq (μ := put μ fst t.1) (r := snd) (room_snd hmax) (room_fst hmax)
    (room_caller f.m f.n) (behind_of_ne nofun) (behind_of_ne nofun)
  rw [slice_put _ _ hlent, slice_put_of_ne (p := fst) (q := arr f.m) nofun] at hsub
  obtain ⟨u, hu⟩ : ∃ u, Ecc.ecc_sub_raw t.1 (slice μ (arr f.m) f.n) = u := ⟨_, rfl⟩
  have hlenu : u.1.length = f.n := by
    rw [← hu, (sub_raw_cases (hlent.trans length_slice.symm)).1, hlent]
  rw [hu] at hsub
  have hkept : put (put μ fst t.1) snd u.1 .caller = μ .caller :=
    (put_of_ne (p := snd) (o := .caller) nofun).trans (put_of_ne (p := fst) nofun)
  have hrun : ecc_ma f (arr r) (arr a) (arr b) μ =
      if t.2 ≠ 0 ∨ u.2 = 0 then ecc_copy (arr r) snd f.n (put (put μ fst t.1) snd u.1)
      else ecc_copy (arr r) fst f.n (put (put μ fst t.1) snd u.1) := by
    unfold ecc_ma
    simp only [hadd, Option.bind_eq_bind, Option.bind_some, hsub]
  have hrow : Ecc.ecc_ma ⟨slice μ (arr f.m) f.n, f.m0, rr, f.n⟩ (slice μ (arr a) f.n)
      (slice μ (arr b) f.n) = if t.2 ≠ 0 ∨ u.2 = 0 then u.1 else t.1 := by
    unfold Ecc.ecc_ma
    simp only [ht, hu]
  rw [hrun, hrow]
  split
  · exact copy_out (room_snd hmax) (by rintro ⟨⟩) (slice_put _ _ hlenu) hkept
  · exact copy_out (room_fst hmax) (by rintro ⟨⟩)
      ((slice_put_of_ne (p := snd) (q := fst) (by rintro ⟨⟩)).trans (slice_put _ _ hlent)) hkept

theorem ms_run {f : FieldAt} {r a b : ℕ} (hmax : f.n ≤ ECC_MAX_LIMBS) (rr : Words) :
    ∃ μ', ecc_ms f (arr r) (arr a) (arr b) μ = some μ' ∧
      Gives μ r (Ecc.ecc_ms ⟨slice μ (arr f.m) f.n, f.m0, rr, f.n⟩ (slice μ (arr a) f.n)
        (slice μ (arr b) f.n)) μ' := by
  have hlen : (slice μ (arr a) f.n).length = (slice μ (arr b) f.n).length :=
    length_slice.trans length_slice.symm
  have hsub := sub_raw_eq (μ := μ) (r := fst) (room_fst hmax) (room_caller a f.n)
    (room_caller b f.n) (behind_of_ne nofun) (behind_of_ne nofun)
  obtain ⟨t, ht⟩ : ∃ t, Ecc.ecc_sub_raw (slice μ (arr a) f.n) (slice μ (arr b) f.n) = t := ⟨_, rfl⟩
  have hlent : t.1.length = f.n := by
    rw [← ht, (sub_raw_cases hlen).1, length_slice]
  rw [ht] at hsub
  have hkept : put μ fst t.1 .caller = μ .caller := put_of_ne (p := fst) nofun
  by_cases hborrow : t.2 ≠ 0
  · have hadd := add_raw_eq (μ := put μ fst t.1) (r := fst) (room_fst hmax) (room_fst hmax)
      (room_caller f.m f.n) (fun _ => .inl (Nat.le_refl _)) (behind_of_ne nofun)
    rw [slice_put _ _ hlent, slice_put_of_ne (p := fst) (q := arr f.m) nofun] at hadd
    obtain ⟨u, hu⟩ : ∃ u, Ecc.ecc_add_raw t.1 (slice μ (arr f.m) f.n) = u := ⟨_, rfl⟩
    have hlenu : u.1.length = f.n := by
      rw [← hu]
      exact (value_addFrom _ _ 0 (hlent.trans length_slice.symm) (Nat.zero_le 1)).1.trans hlent
    rw [hu] at hadd
    have hrow : Ecc.ecc_ms ⟨slice μ (arr f.m) f.n, f.m0, rr, f.n⟩ (slice μ (arr a) f.n)
        (slice μ (arr b) f.n) = u.1 := by
      unfold Ecc.ecc_ms
      simp only [ht, hu, if_pos hborrow]
    rw [hrow]
    unfold ecc_ms
    simp only [hsub, Option.bind_eq_bind, Option.bind_some, if_pos hborrow, hadd, Option.map_some]
    exact copy_out (room_fst hmax) nofun (slice_put _ _ hlenu)
      ((put_of_ne (p := fst) (o := .caller) nofun).trans hkept)
  · have hrow : Ecc.ecc_ms ⟨slice μ (arr f.m) f.n, f.m0, rr, f.n⟩ (slice μ (arr a) f.n)
        (slice μ (arr b) f.n) = t.1 := by
      unfold Ecc.ecc_ms
      simp only [ht, if_neg hborrow]
    rw [hrow]
    unfold ecc_ms
    simp only [hsub, Option.bind_eq_bind, Option.bind_some, if_neg hborrow]
    exact copy_out (room_fst hmax) nofun (slice_put _ _ hlent) hkept

/-- **A doubling in memory.** -/
theorem rrRound_run {m : ℕ} (hmax : n ≤ ECC_MAX_LIMBS) (r_mod_m : Option ℕ) (i : ℕ) :
    ∃ μ', slice μ' fst n = Ecc.rrRound (slice μ (arr m) n) (slice μ fst n) ∧
      μ' .caller = μ .caller ∧
      rrRound (arr m) n (r_mod_m.map arr) μ i =
        if i = 32 * n - 1 then r_mod_m.elim (some μ') fun r => ecc_copy (arr r) fst n μ'
        else some μ' := by
  have hadd := add_raw_eq (μ := μ) (r := fst) (room_fst hmax) (room_fst hmax) (room_fst hmax)
    (fun _ => .inl (Nat.le_refl _)) (fun _ => .inl (Nat.le_refl _))
  obtain ⟨x, hx⟩ : ∃ x, Ecc.ecc_add_raw (slice μ fst n) (slice μ fst n) = x := ⟨_, rfl⟩
  have hlenx : x.1.length = n := by
    rw [← hx]
    exact (value_addFrom _ _ 0 rfl (Nat.zero_le 1)).1.trans length_slice
  rw [hx] at hadd
  have hsub := sub_raw_eq (μ := put μ fst x.1) (r := snd) (room_snd hmax) (room_fst hmax)
    (room_caller m n) (behind_of_ne nofun) (behind_of_ne nofun)
  rw [slice_put _ _ hlenx, slice_put_of_ne (p := fst) (q := arr m) nofun] at hsub
  obtain ⟨t, ht⟩ : ∃ t, Ecc.ecc_sub_raw x.1 (slice μ (arr m) n) = t := ⟨_, rfl⟩
  have hlent : t.1.length = n := by
    rw [← ht, (sub_raw_cases (hlenx.trans length_slice.symm)).1, hlenx]
  rw [ht] at hsub
  obtain ⟨μ₂, hμ₂⟩ : ∃ μ₂, put (put μ fst x.1) snd t.1 = μ₂ := ⟨_, rfl⟩
  rw [hμ₂] at hsub
  have hsnd : slice μ₂ snd n = t.1 := hμ₂ ▸ slice_put _ _ hlent
  have hfst : slice μ₂ fst n = x.1 := by
    rw [← hμ₂, slice_put_of_ne (p := snd) (q := fst) nofun, slice_put _ _ hlenx]
  have hkept : μ₂ .caller = μ .caller := by
    rw [← hμ₂, put_of_ne (p := snd) (o := .caller) nofun, put_of_ne (p := fst) (o := .caller) nofun]
  have hcopy : ecc_copy fst snd n μ₂ = some (put μ₂ fst t.1) := by
    rw [ecc_copy, copy_eq (room_fst hmax) (room_snd hmax) (behind_of_ne nofun), hsnd]
  refine ⟨if x.2 ≠ 0 ∨ t.2 = 0 then put μ₂ fst t.1 else μ₂, ?_, ?_, ?_⟩
  · unfold Ecc.rrRound
    simp only [hx, ht]
    split
    · exact slice_put _ _ hlent
    · exact hfst
  · split
    · exact (put_of_ne (p := fst) (o := .caller) nofun).trans hkept
    · exact hkept
  · unfold rrRound
    simp only [hadd, hsub, hcopy, Option.bind_eq_bind, Option.bind_some, Option.elim_map]
    split <;> rfl

/-- The memory after so many rounds. -/
structure Doubling (μ₀ μ : Words32) (r_mod_m : Option ℕ) (n k : ℕ) (s : Words × Words) : Prop where
  x : slice μ fst n = s.1
  caller : μ .caller =
    if 32 * n ≤ k then (r_mod_m.elim μ₀ fun r => put μ₀ (arr r) s.2) .caller else μ₀ .caller

/-- Two arrays of the caller do not overlap. -/
def Apart (r a n : ℕ) : Prop := r + n ≤ a ∨ a + n ≤ r

theorem doublings_run {m : ℕ} (hn : 0 < n) (hmax : n ≤ ECC_MAX_LIMBS) {r_mod_m : Option ℕ}
    (hone : 1 < value (slice μ₀ (arr m) n)) (hr : ∀ r ∈ r_mod_m, Apart m r n)
    (h : Doubling μ₀ μ r_mod_m n 0 (small n 1, Ecc.ecc_zero n)) (k : ℕ) :
    ∃ μ', (List.range k).foldlM (rrRound (arr m) n (r_mod_m.map arr)) μ = some μ' ∧
      Doubling μ₀ μ' r_mod_m n k (doublings (slice μ₀ (arr m) n) n k) := by
  induction k with
  | zero => exact ⟨μ, rfl, h⟩
  | succ k ih =>
    obtain ⟨μ₁, hrun, hx, hcaller⟩ := ih
    have hM : slice μ₁ (arr m) n = slice μ₀ (arr m) n := by
      have hlen := (doublings_eq (length_slice (μ := μ₀) (p := arr m)) hn hone k).half
      cases r_mod_m with
      | none => exact slice_congr (hcaller.trans (ite_self _))
      | some r =>
        split at hcaller
        · next hk =>
          refine (slice_congr (p := arr m) hcaller).trans (slice_put_of_apart ?_)
          rw [(hlen hk).1]
          exact hr r rfl
        · exact slice_congr hcaller
    obtain ⟨μ₂, hx₂, hkept, hround⟩ := rrRound_run (μ := μ₁) (m := m) hmax r_mod_m k
    rw [hM, hx] at hx₂
    rw [List.range_succ, List.foldlM_append, hrun, doublings_succ]
    simp only [Option.bind_eq_bind, Option.bind_some, List.foldlM_cons, List.foldlM_nil, hround]
    by_cases hk : k = 32 * n - 1
    · rw [if_pos hk, if_pos hk]
      rw [if_neg (by omega)] at hcaller
      cases r_mod_m with
      | none => exact ⟨μ₂, rfl, hx₂, (hkept.trans hcaller).trans (ite_self _).symm⟩
      | some r =>
        obtain ⟨μ₃, hcopy, hgives⟩ := @copy_out _ μ₀ _ _ r _ (room_fst hmax) (by rintro ⟨⟩) hx₂
          (hkept.trans hcaller)
        have hfst : slice μ₃ fst n = slice μ₂ fst n := by
          rw [ecc_copy, copy_eq (room_caller r n) (room_fst hmax) (behind_of_ne (by rintro ⟨⟩))] at hcopy
          rw [← Option.some.inj hcopy, slice_put_of_ne (p := arr r) (q := fst) (by rintro ⟨⟩)]
        refine ⟨μ₃, ?_, hfst.trans hx₂, ?_⟩
        · rw [Option.elim_some, hcopy]
          rfl
        · rw [if_pos (by omega)]
          exact hgives
    · rw [if_neg hk, if_neg hk]
      refine ⟨μ₂, rfl, hx₂, hkept.trans (hcaller.trans ?_)⟩
      exact if_congr (by omega) rfl rfl

/-- **The powers of two in memory.** The array `r_mod_m`, if there is one, does not overlap with the
modulus, which is read again after it has been stored to. -/
theorem compute_rr_run {m rr : ℕ} (hn : 0 < n) (hmax : n ≤ ECC_MAX_LIMBS) {r_mod_m : Option ℕ}
    (hone : 1 < value (slice μ (arr m) n)) (hr : ∀ r ∈ r_mod_m, Apart m r n) :
    ∃ μ', ecc_compute_rr (arr rr) (r_mod_m.map arr) (arr m) n μ = some μ' ∧
      Gives (r_mod_m.elim μ fun r => put μ (arr r) (Ecc.ecc_compute_rr (slice μ (arr m) n) n).2) rr
        (Ecc.ecc_compute_rr (slice μ (arr m) n) n).1 μ' := by
  obtain ⟨k, rfl⟩ : ∃ k, n = k + 1 := Nat.exists_eq_add_of_le' hn
  have hfill := fill_eq (μ := μ) (0 : UInt32) (room_fst hmax)
  have hzero := has_put μ fst (List.replicate (k + 1) (0 : UInt32))
  obtain ⟨hstore, hhas⟩ := Has.store (i := 0)
    (show Has _ fst ([] ++ (0 : UInt32) :: List.replicate k 0) from hzero)
    ((room_fst hmax).le (Nat.le_add_left 1 k)) rfl 1
  obtain ⟨μ₁, hμ₁⟩ : ∃ μ₁, poke (put μ fst (List.replicate (k + 1) (0 : UInt32))) fst 0 1 = μ₁ :=
    ⟨_, rfl⟩
  rw [hμ₁] at hstore hhas
  have hcaller : μ₁ .caller = μ .caller := by
    rw [← hμ₁, poke_of_ne (p := fst) (o := .caller) nofun, put_of_ne (p := fst) (o := .caller) nofun]
  have hstart : Doubling μ μ₁ r_mod_m (k + 1) 0 (small (k + 1) 1, Ecc.ecc_zero (k + 1)) := by
    refine ⟨?_, hcaller.trans (if_neg (by omega)).symm⟩
    unfold Has at hhas
    rw [List.nil_append, List.length_cons, List.length_replicate] at hhas
    exact hhas
  obtain ⟨μ₂, hrun, hx, hcaller₂⟩ := doublings_run hn hmax hone hr hstart (64 * (k + 1))
  rw [if_pos (by omega)] at hcaller₂
  unfold ecc_compute_rr ecc_zero
  simp only [hfill, hstore, hrun, Option.bind_eq_bind, Option.bind_some]
  exact copy_out (room_fst hmax) nofun hx hcaller₂

/-! ## An odd modulus -/

/-- A step of the iteration squares what is missing from the inverse. -/
theorem newton (m x : UInt32) :
    1 - m * (x * (2 - m * x)) = (1 - m * x) * (1 - m * x) := by grind

theorem one_sub_sq (l : UInt32) :
    1 - (4 * l + 1) * (4 * l + 1) = 8 * (0 - l * (2 * l + 1)) ∧
      1 - (4 * l + 3) * (4 * l + 3) = 8 * (0 - (l + 1) * (2 * l + 1)) := by
  constructor <;> grind

/-- An odd word is its own inverse in three bits. -/
theorem one_sub_sq_of_odd {m : UInt32} (h : m.toNat % 2 = 1) : ∃ y, 1 - m * m = 8 * y := by
  obtain ⟨l, hl⟩ : ∃ l : UInt32, m = 4 * l + 1 ∨ m = 4 * l + 3 := by
    refine ⟨m / 4, ?_⟩
    have := m.toNat_lt
    simp only [← UInt32.toNat_inj, UInt32.toNat_add, UInt32.toNat_mul, UInt32.toNat_div,
      UInt32.reduceToNat]
    omega
  rcases hl with rfl | rfl
  · exact ⟨_, (one_sub_sq l).1⟩
  · exact ⟨_, (one_sub_sq l).2⟩

/-- **The multiplier** of an odd word. -/
theorem neg_inv32_mul {m : UInt32} (h : m.toNat % 2 = 1) : ecc_neg_inv32 m * m + 1 = 0 := by
  obtain ⟨y, hy⟩ := one_sub_sq_of_odd h
  have hstep (x : UInt32) {a b : UInt32} (hx : 1 - m * x = a) (hb : a * a = b) :
      1 - m * (x * (2 - m * x)) = b := by
    rw [newton, hx, hb]
  have h1 := hstep m hy (show _ = 64 * (y * y) by grind)
  have h2 := hstep _ h1 (show _ = 4096 * (y * y * (y * y)) by grind)
  have h3 := hstep _ h2 (show _ = 16777216 * (y * y * (y * y) * (y * y * (y * y))) by grind)
  have h4 := hstep _ h3 (show _ = 0 by grind)
  have h5 := hstep _ h4 (by decide : (0 : UInt32) * 0 = 0)
  obtain ⟨x, hx⟩ : ∃ x, ecc_neg_inv32 m = 0 - x ∧ 1 - m * x = 0 := ⟨_, rfl, h5⟩
  rw [hx.1]
  grind

/-- Of the array `r` of the caller come out the limbs of a number, and his other words are as they
were. -/
def Yields (μ : Words32) (r n x : ℕ) (o : Option Words32) : Prop :=
  ∃ μ', o = some μ' ∧ value (slice μ' (arr r) n) = x ∧
    ∀ i, i < r ∨ r + n ≤ i → μ' .caller i = μ .caller i

theorem Gives.yields {r x : ℕ} {l : Words} {o : Option Words32}
    (h : ∃ μ', o = some μ' ∧ Gives μ r l μ') (hlen : l.length = n) (hx : value l = x) :
    Yields μ r n x o := by
  obtain ⟨μ', ho, hg⟩ := h
  refine ⟨μ', ho, ?_, fun i hi => ?_⟩
  · rw [← hx, slice_congr (p := arr r) hg, slice_put _ _ hlen]
  · rw [hg]
    exact put_of_outside (by rwa [hlen])

variable {M : Words}

/-- The modulus with the multiplier that the code derives. -/
theorem fits_of_odd (hodd : value M % 2 = 1) :
    Field.Fits ⟨M, ecc_neg_inv32 (M.headD 0), [], M.length⟩ := by
  cases M with
  | nil => exact absurd hodd (by decide)
  | cons w M =>
    rw [value_cons] at hodd
    exact ⟨rfl, Nat.succ_pos _, neg_inv32_mul (m := w) (by omega)⟩

theorem neg_inv32_eq (hodd : value M % 2 = 1) :
    ((ecc_neg_inv32 (M.headD 0)).toNat : ZMod (2 ^ 32)) = -(value M : ZMod (2 ^ 32))⁻¹ := by
  have hmul := (fits_of_odd hodd).m0
  dsimp only at hmul
  have hM : (value M : ZMod (2 ^ 32)) = ((M.headD 0).toNat : ℕ) := by
    cases M with
    | nil => exact absurd hodd (by decide)
    | cons w M =>
      rw [value_cons, Nat.cast_add, Nat.cast_mul, ZMod.natCast_self, zero_mul, add_zero]
      rfl
  generalize ecc_neg_inv32 (M.headD 0) = q at hmul ⊢
  have hzero : ((q.toNat * (M.headD 0).toNat + 1 : ℕ) : ZMod (2 ^ 32)) = 0 := by
    have := congrArg UInt32.toNat hmul
    rw [UInt32.toNat_add, UInt32.toNat_mul, Nat.mod_add_mod] at this
    exact (ZMod.natCast_eq_zero_iff _ _).mpr (Nat.dvd_of_mod_eq_zero this)
  rw [Nat.cast_add, Nat.cast_mul, Nat.cast_one, ← hM] at hzero
  have hinv : (value M : ZMod (2 ^ 32)) * -q.toNat = 1 := by linear_combination -hzero
  rw [ZMod.inv_eq_of_mul_eq_one _ _ _ hinv, neg_neg]

/-- What comes to so much times Montgomery's factor. -/
theorem eq_val_of_mul_eq {x k : ℕ} {y : ZMod (value M)} (hodd : value M % 2 = 1) (hlt : x < value M)
    (h : (x : ZMod (value M)) * 2 ^ k = y) : x = (y * (2 ^ k)⁻¹).val := by
  have hco : Nat.Coprime (2 ^ k) (value M) :=
    Nat.Coprime.pow_left k (Nat.coprime_two_left.mpr (Nat.odd_iff.mpr hodd))
  have hinv := ZMod.coe_mul_inv_eq_one (2 ^ k) hco
  rw [Nat.cast_pow, Nat.cast_ofNat] at hinv
  rw [← h, mul_assoc, hinv, mul_one, ZMod.val_cast_of_lt hlt]

/-- **Montgomery's arithmetic is exact.** For an odd modulus of at most `ECC_MAX_LIMBS` limbs whose
top bit is set: the multiplier is the inverse; the powers of two come out; and products, sums and
differences do, wherever in memory the numbers lie and wherever the result goes. No word is too
small for what is calculated in it, and no local array for its index. -/
theorem montgomery_exact (hmax : M.length ≤ ECC_MAX_LIMBS) (hodd : value M % 2 = 1)
    (htop : 2 ^ (32 * M.length) ≤ 2 * value M) :
    ((ecc_neg_inv32 (M.headD 0)).toNat : ZMod (2 ^ 32)) = -(value M : ZMod (2 ^ 32))⁻¹ ∧
      ∀ (μ : Words32) (m : ℕ), slice μ (arr m) M.length = M →
        (∀ (rr : ℕ) (r_mod_m : Option ℕ),
          (∀ r ∈ r_mod_m, Apart m r M.length ∧ Apart rr r M.length) →
          ∃ μ', ecc_compute_rr (arr rr) (r_mod_m.map arr) (arr m) M.length μ = some μ' ∧
            value (slice μ' (arr rr) M.length) = (2 ^ (32 * M.length)) ^ 2 % value M ∧
            (∀ r ∈ r_mod_m, value (slice μ' (arr r) M.length) = 2 ^ (32 * M.length) % value M) ∧
            ∀ i, i < rr ∨ rr + M.length ≤ i → (∀ r ∈ r_mod_m, i < r ∨ r + M.length ≤ i) →
              μ' .caller i = μ .caller i) ∧
        ∀ r a b x y : ℕ, value (slice μ (arr a) M.length) = x →
          value (slice μ (arr b) M.length) = y → x < value M → y < value M →
          Yields μ r M.length (x * y * (2 ^ (32 * M.length))⁻¹ : ZMod (value M)).val
              (ecc_mm ⟨m, ecc_neg_inv32 (M.headD 0), M.length⟩ (arr r) (arr a) (arr b) μ) ∧
            Yields μ r M.length (x + y : ZMod (value M)).val
              (ecc_ma ⟨m, ecc_neg_inv32 (M.headD 0), M.length⟩ (arr r) (arr a) (arr b) μ) ∧
            Yields μ r M.length (x - y : ZMod (value M)).val
              (ecc_ms ⟨m, ecc_neg_inv32 (M.headD 0), M.length⟩ (arr r) (arr a) (arr b) μ) := by
  have hf := fits_of_odd hodd
  have hn : 0 < M.length := hf.pos
  have hone : 1 < value M := by
    have := Nat.pow_le_pow_right (n := 2) (by decide) (show 32 ≤ 32 * M.length by omega)
    omega
  refine ⟨neg_inv32_eq hodd, fun μ m hm => ⟨fun rr r_mod_m hr => ?_, ?_⟩⟩
  · obtain ⟨μ', hrun, hgives⟩ := @compute_rr_run _ _ m rr hn hmax _ (by rwa [hm])
      fun r h => (hr r h).1
    rw [hm] at hgives
    have hrr := compute_rr_eq (m := M) rfl hn hone
    have hhalf := hrr.half (by omega)
    refine ⟨μ', hrun, ?_, fun r h => ?_, fun i hi hout => ?_⟩
    · rw [slice_congr (p := arr rr) hgives, slice_put _ _ hrr.width, hrr.value, ← Nat.pow_mul]
      congr 2
      omega
    · obtain rfl := h
      rw [slice_congr (p := arr r) hgives, slice_put_of_apart, Option.elim_some,
        slice_put _ _ hhalf.1, hhalf.2]
      rw [hrr.width]
      exact (hr r rfl).2.symm
    · rw [hgives]
      refine (put_of_outside (by rwa [hrr.width])).trans ?_
      cases r_mod_m with
      | none => rfl
      | some r => exact put_of_outside (by rw [hhalf.1]; exact hout r rfl)
  · rintro r a b x y rfl rfl hx hy
    obtain ⟨hmmlen, hmmlt, hmm⟩ := mm_eq hf (length_slice (p := arr a)) hx (length_slice (μ := μ) (p := arr b))
    obtain ⟨hmalen, hmalt, hma⟩ := ma_eq hf.width (length_slice (p := arr a))
      (length_slice (p := arr b)) hx hy
    obtain ⟨hmslen, hmslt, hms⟩ := ms_eq hf.width (length_slice (p := arr a))
      (length_slice (p := arr b)) hx hy
    have hrunmm := mm_run (f := ⟨m, ecc_neg_inv32 (M.headD 0), M.length⟩) (μ := μ) (r := r) (a := a)
      (b := b) hn hmax []
    have hrunma := ma_run (f := ⟨m, ecc_neg_inv32 (M.headD 0), M.length⟩) (μ := μ) (r := r) (a := a)
      (b := b) hmax []
    have hrunms := ms_run (f := ⟨m, ecc_neg_inv32 (M.headD 0), M.length⟩) (μ := μ) (r := r) (a := a)
      (b := b) hmax []
    rw [hm] at hrunmm hrunma hrunms
    refine ⟨Gives.yields hrunmm hmmlen (eq_val_of_mul_eq hodd hmmlt hmm),
      Gives.yields hrunma hmalen ?_, Gives.yields hrunms hmslen ?_⟩
    · rw [← hma, ZMod.val_cast_of_lt hmalt]
    · rw [← hms, ZMod.val_cast_of_lt hmslt]

/-- A number is squared in its place. -/
theorem montgomery_exact_squared :
    Yields (fun _ i => if i = 0 then 0xffffffff else 2) 1 1
      (2 * 2 * (2 ^ 32)⁻¹ : ZMod (value [0xffffffff])).val
      (ecc_mm ⟨0, ecc_neg_inv32 0xffffffff, 1⟩ (arr 1) (arr 1) (arr 1)
        fun _ i => if i = 0 then 0xffffffff else 2) :=
  (((montgomery_exact (M := [0xffffffff]) (by decide) (by decide) (by decide)).2 _ 0 rfl).2
    1 1 1 2 2 rfl rfl (by decide) (by decide)).1

end InMemory

end Ecc
