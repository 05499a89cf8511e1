import Mathlib.Data.Matrix.Mul
import Mathlib.LinearAlgebra.Matrix.Notation
import Mathlib.LinearAlgebra.Matrix.Circulant
import MiniWin.Crypto.Aes
import MiniWin.Lib.BinaryField

/-!
# AES is what FIPS 197 says

The standard computes in the field of 256 elements, the polynomials modulo `x⁸ + x⁴ + x³ + x + 1`: a
state is a matrix over it, the substitution is the inverse followed by an affine map of the bits, and
the mixing of the columns a product of matrices. `field` reads a block as such a state, and every
function of `aes.h` is the one of the standard there.

The tables are compared with the standard entry by entry (`sbox_spec`); everything else holds since
`aes_mul` is the product of the field. A block is deciphered since the two matrices are inverse to
each other (`unmix_mul_mix`).
-/

namespace Aes

open BinaryField

namespace Fips

/-- The field, by its modulus. -/
abbrev GF : Type := Classes (0x1b : BitVec 8)

/-- `x`. -/
noncomputable def x : GF := AdjoinRoot.root _

/-- The element of a byte. -/
noncomputable def el (b : UInt8) : GF := elem _ b.toBitVec

/-- The byte of an element. -/
noncomputable def byte (e : GF) : UInt8 := Function.invFun el e

/-- The affine map: bit `i` is the sum of the bits `i`, `i + 4`, `i + 5`, `i + 6` and `i + 7`, modulo
eight, and of bit `i` of `0x63`. -/
def affine (b : BitVec 8) : BitVec 8 :=
  b ^^^ b.rotateLeft 1 ^^^ b.rotateLeft 2 ^^^ b.rotateLeft 3 ^^^ b.rotateLeft 4 ^^^ 0x63

/-- The substitution. The inverse of zero is zero. -/
noncomputable def sub (e : GF) : GF := el ⟨affine (byte (Ring.inverse e)).toBitVec⟩

abbrev State : Type := Matrix (Fin 4) (Fin 4) GF

def shiftRows (s : State) : State := Matrix.of fun r c => s r (c + r)

noncomputable def mix : State :=
  !![x, x + 1, 1, 1;
     1, x, x + 1, 1;
     1, 1, x, x + 1;
     x + 1, 1, 1, x]

/-- A key is a row of words, `Nk` of them, and this is what it is expanded to. -/
noncomputable def keyExpansion (Nk : ℕ) (key : ℕ → Fin 4 → GF) (i : ℕ) : Fin 4 → GF :=
  if _h : i < Nk ∨ Nk = 0 then key i
  else
    let prev := keyExpansion Nk key (i - 1)
    keyExpansion Nk key (i - Nk) +
      if i % Nk = 0 then (fun j => sub (prev (j + 1))) + ![x ^ (i / Nk - 1), 0, 0, 0]
      else if 6 < Nk ∧ i % Nk = 4 then fun j => sub (prev j)
      else prev
termination_by i
decreasing_by all_goals omega

/-- Four words are the columns of a round key. -/
def roundKey (w : ℕ → Fin 4 → GF) (n : ℕ) : State := Matrix.of fun r c => w (4 * n + c) r

/-- The cipher, with the words of an expanded key. -/
noncomputable def cipher (Nr : ℕ) (w : ℕ → Fin 4 → GF) (s : State) : State :=
  let s := (List.range' 1 (Nr - 1)).foldl
    (fun s n => mix * shiftRows (s.map sub) + roundKey w n) (s + roundKey w 0)
  shiftRows (s.map sub) + roundKey w Nr

/-- The modulus is that of the standard. -/
theorem modulus_eq : modulus (0x1b : BitVec 8)
    = Polynomial.X ^ 8 + (Polynomial.X ^ 4 + Polynomial.X ^ 3 + Polynomial.X + 1) := by
  unfold modulus poly
  rw [Polynomial.ofFn_eq_sum_monomial]
  simp [Fin.sum_univ_eight, Polynomial.monomial_one_right_eq_X_pow]
  ring

end Fips

open Fips

/-! ## Bytes -/

theorem el_injective : Function.Injective el := fun _ _ h =>
  UInt8.toBitVec_inj.mp (elem_injective _ h)

@[simp] theorem byte_el (b : UInt8) : byte (el b) = b := Function.leftInverse_invFun el_injective b

@[simp] theorem el_zero : el 0 = 0 := elem_zero _

@[simp] theorem el_xor (a b : UInt8) : el (a ^^^ b) = el a + el b := by
  unfold el
  rw [UInt8.toBitVec_xor, elem_xor]

/-- A statement about all bytes. -/
theorem forall_byte {p : UInt8 → Prop} (h : ∀ i : Fin 256, p (UInt8.ofFin i)) (b : UInt8) : p b :=
  h b.toFin

theorem toBitVec_xtime (a : UInt8) : (aes_xtime a).toBitVec = double 0x1b a.toBitVec :=
  forall_byte (p := fun a => (aes_xtime a).toBitVec = double 0x1b a.toBitVec) (by decide +kernel) a

/-- A round of the loop of `aes_mul`, on the bits. -/
theorem mul_round_eq (s : UInt8 × UInt8 × UInt8) :
    Prod.map UInt8.toBitVec (Prod.map UInt8.toBitVec UInt8.toBitVec) (mul_round s)
      = mulStep 0x1b (Prod.map UInt8.toBitVec (Prod.map UInt8.toBitVec UInt8.toBitVec) s) := by
  obtain ⟨r, a, b⟩ := s
  have hbit : (b &&& 1 ≠ 0) ↔ b.toBitVec.getLsbD 0 = true :=
    forall_byte (p := fun b => (b &&& 1 ≠ 0) ↔ b.toBitVec.getLsbD 0 = true) (by decide +kernel) b
  have hshift : (b >>> 1).toBitVec = b.toBitVec >>> 1 :=
    forall_byte (p := fun b => (b >>> 1).toBitVec = b.toBitVec >>> 1) (by decide +kernel) b
  unfold mul_round mulStep
  simp only [Prod.map_apply, toBitVec_xtime, hshift, hbit, apply_ite UInt8.toBitVec,
    UInt8.toBitVec_xor]

/-- **`aes_mul` is the product.** -/
@[simp] theorem el_mul (a b : UInt8) : el (aes_mul a b) = el a * el b := by
  have hrun := Function.Semiconj.iterate_right mul_round_eq 8 (0, a, b)
  have hmul : (aes_mul a b).toBitVec = mul 0x1b a.toBitVec b.toBitVec :=
    congrArg Prod.fst hrun
  unfold el
  rw [hmul, elem_mul]

theorem el_xtime (a : UInt8) : el (aes_xtime a) = x * el a := by
  unfold el
  rw [toBitVec_xtime, elem_double]
  rfl

theorem el_one : el 1 = 1 := by
  have h : poly (1 : BitVec 8) = 1 := by
    rw [poly_shiftRight, show ((1 : BitVec 8) >>> 1) = 0 from rfl, poly_zero, mul_zero, add_zero]
    exact if_pos rfl
  unfold el
  rw [show UInt8.toBitVec 1 = 1 from rfl, elem, h, map_one]

theorem el_two : el 2 = x := by
  rw [show (2 : UInt8) = aes_xtime 1 from by decide, el_xtime, el_one, mul_one]

theorem el_three : el 3 = x + 1 := by
  rw [show (3 : UInt8) = 2 ^^^ 1 from by decide, el_xor, el_two, el_one]

/-- What the table says the inverse is: its entry with the affine map undone. -/
def inverse (b : UInt8) : UInt8 :=
  let c := (aes_sbox b).toBitVec
  ⟨c.rotateLeft 1 ^^^ c.rotateLeft 3 ^^^ c.rotateLeft 6 ^^^ 0x05⟩

/-- **The table is the inverse and the affine map**, entry by entry. -/
theorem sbox_spec (b : UInt8) : aes_mul b (inverse b) = (if b = 0 then 0 else 1) ∧
    (b = 0 → inverse b = 0) ∧ aes_sbox b = ⟨affine (inverse b).toBitVec⟩ ∧
    aes_inv_sbox (aes_sbox b) = b :=
  forall_byte (p := fun b => aes_mul b (inverse b) = (if b = 0 then 0 else 1) ∧
    (b = 0 → inverse b = 0) ∧ aes_sbox b = ⟨affine (inverse b).toBitVec⟩ ∧
    aes_inv_sbox (aes_sbox b) = b) (by decide +kernel) b

theorem inverse_el (b : UInt8) : Ring.inverse (el b) = el (inverse b) := by
  obtain ⟨hone, hzero, -, -⟩ := sbox_spec b
  by_cases h : b = 0
  · rw [hzero h, h, el_zero, Ring.inverse_zero]
  · have hmul : el b * el (inverse b) = 1 := by rw [← el_mul, hone, if_neg h, el_one]
    exact Ring.inverse_unit ⟨el b, el (inverse b), hmul, (mul_comm _ _).trans hmul⟩

@[simp] theorem el_sbox (b : UInt8) : el (aes_sbox b) = sub (el b) := by
  unfold sub
  rw [inverse_el, byte_el, (sbox_spec b).2.2.1]

/-! ## States -/

/-- A block as a state. -/
noncomputable def field (b : Block) : State := Matrix.of fun r c => el (cell b c r)

theorem cell_lt (c r : Fin 4) : 4 * c.val + r.val < 16 := by omega

theorem cell_ofFn (f : Fin 16 → UInt8) (c r : Fin 4) :
    cell (Vector.ofFn f) c r = f ⟨4 * c + r, cell_lt c r⟩ := by
  unfold cell
  exact Vector.getElem_ofFn _

theorem cell_zipWith (a b : Block) (c r : Fin 4) :
    cell (Vector.zipWith (· ^^^ ·) a b) c r = cell a c r ^^^ cell b c r := by
  unfold cell
  exact Vector.getElem_zipWith _

theorem cell_map (f : UInt8 → UInt8) (b : Block) (c r : Fin 4) :
    cell (b.map f) c r = f (cell b c r) := by
  unfold cell
  exact Vector.getElem_map _ _

/-- Blocks with the same columns. -/
theorem block_ext {a b : Block} (h : ∀ c r, cell a c r = cell b c r) : a = b := by
  refine Vector.ext fun i hi => ?_
  have hcell := h ⟨i / 4, by omega⟩ ⟨i % 4, by omega⟩
  unfold cell at hcell
  have hidx : 4 * (i / 4) + i % 4 = i := Nat.div_add_mod i 4
  simpa only [hidx] using hcell

theorem field_injective : Function.Injective field := fun _ _ h =>
  block_ext fun c r => el_injective (congrFun (congrFun h r) c)

theorem field_add_round_key (s k : Block) :
    field (aes_add_round_key s k) = field s + field k := by
  ext r c
  show el (cell (aes_add_round_key s k) c r) = el (cell s c r) + el (cell k c r)
  rw [aes_add_round_key, cell_zipWith, el_xor]

theorem field_sub_bytes (s : Block) : field (aes_sub_bytes s) = (field s).map sub := by
  ext r c
  show el (cell (aes_sub_bytes s) c r) = sub (el (cell s c r))
  rw [aes_sub_bytes, cell_map, el_sbox]

theorem cell_shift_rows (s : Block) (c r : Fin 4) :
    cell (aes_shift_rows s) c r = cell s (c + r) r := by
  fin_cases c <;> fin_cases r <;> simp [cell, aes_shift_rows]

theorem cell_inv_shift_rows (s : Block) (c r : Fin 4) :
    cell (aes_inv_shift_rows s) (c + r) r = cell s c r := by
  fin_cases c <;> fin_cases r <;> simp [cell, aes_inv_shift_rows]

theorem field_shift_rows (s : Block) : field (aes_shift_rows s) = shiftRows (field s) := by
  ext r c
  exact congrArg el (cell_shift_rows s c r)

theorem cell_columns (f : UInt8 → UInt8 → UInt8 → UInt8 → Word) (s : Block) (c r : Fin 4) :
    cell (columns f s) c r = (f (cell s c 0) (cell s c 1) (cell s c 2) (cell s c 3))[r] := by
  unfold columns
  rw [cell_ofFn]
  have hc : (⟨(4 * c + r) / 4, by omega⟩ : Fin 4) = c := Fin.ext (by simp; omega)
  have hr : (4 * c.val + r.val) % 4 = r.val := by omega
  simp only [hc, hr]
  rfl

theorem field_mix_columns (s : Block) : field (aes_mix_columns s) = mix * field s := by
  ext r c
  show el (cell (aes_mix_columns s) c r) = ∑ k, mix r k * el (cell s c k)
  rw [aes_mix_columns, cell_columns, Fin.sum_univ_four]
  fin_cases r <;> simp [mix, el_two, el_three] <;> ring

/-- The matrix of `aes_inv_mix_columns`. -/
noncomputable def unmix : State :=
  !![el 14, el 11, el 13, el 9;
     el 9, el 14, el 11, el 13;
     el 13, el 9, el 14, el 11;
     el 11, el 13, el 9, el 14]

theorem field_inv_mix_columns (s : Block) : field (aes_inv_mix_columns s) = unmix * field s := by
  ext r c
  show el (cell (aes_inv_mix_columns s) c r) = ∑ k, unmix r k * el (cell s c k)
  rw [aes_inv_mix_columns, cell_columns, Fin.sum_univ_four]
  fin_cases r <;> simp [unmix] <;> ring

theorem dot_el {a b c d a' b' c' d' e : UInt8}
    (h : aes_mul a a' ^^^ aes_mul b b' ^^^ aes_mul c c' ^^^ aes_mul d d' = e) :
    el a * el a' + el b * el b' + el c * el c' + el d * el d' = el e := by
  rw [← h]
  simp

/-- **The two matrices are inverse to each other.** -/
theorem unmix_mul_mix : unmix * mix = 1 := by
  have hmix : mix = Matrix.circulant ![el 2, el 1, el 1, el 3] := by
    rw [el_one, el_two, el_three]
    ext r c
    fin_cases r <;> fin_cases c <;> rfl
  have hunmix : unmix = Matrix.circulant ![el 14, el 9, el 13, el 11] := by
    ext r c
    fin_cases r <;> fin_cases c <;> rfl
  rw [hmix, hunmix, Matrix.circulant_mul, ← Matrix.circulant_single_one]
  congr 1
  funext r
  rw [Matrix.mulVec, dotProduct, Fin.sum_univ_four]
  -- the first column of the product
  fin_cases r <;> simp only [Matrix.circulant] <;> simp
  · exact (dot_el (e := 1) (by decide)).trans el_one
  · exact (dot_el (e := 0) (by decide)).trans el_zero
  · exact (dot_el (e := 0) (by decide)).trans el_zero
  · exact (dot_el (e := 0) (by decide)).trans el_zero

/-! ## Deciphering -/

theorem inv_mix_columns_mix_columns (s : Block) : aes_inv_mix_columns (aes_mix_columns s) = s := by
  refine field_injective ?_
  rw [field_inv_mix_columns, field_mix_columns, ← Matrix.mul_assoc, unmix_mul_mix, Matrix.one_mul]

theorem inv_shift_rows_shift_rows (s : Block) : aes_inv_shift_rows (aes_shift_rows s) = s :=
  block_ext fun c r => by
    have h := cell_inv_shift_rows (aes_shift_rows s) (c - r) r
    rw [cell_shift_rows, sub_add_cancel] at h
    exact h

theorem inv_sub_bytes_sub_bytes (s : Block) : aes_inv_sub_bytes (aes_sub_bytes s) = s :=
  block_ext fun c r => by
    rw [aes_inv_sub_bytes, aes_sub_bytes, cell_map, cell_map, (sbox_spec _).2.2.2]

theorem xor_xor (a b : Block) :
    Vector.zipWith (· ^^^ ·) (Vector.zipWith (· ^^^ ·) a b) b = a := block_ext fun c r => by
  rw [cell_zipWith, cell_zipWith, UInt8.xor_assoc, UInt8.xor_self, UInt8.xor_zero]

theorem decrypt_round_encrypt_round (b rk : Block) : decrypt_round (encrypt_round b rk) rk = b := by
  unfold decrypt_round encrypt_round
  rw [aes_add_round_key, aes_add_round_key, xor_xor, inv_mix_columns_mix_columns,
    inv_shift_rows_shift_rows, inv_sub_bytes_sub_bytes]

/-- Rounds undone in reverse order. -/
theorem foldl_reverse_foldl {α β : Type} {f g : α → β → α} (h : ∀ a b, g (f a b) b = a) (l : List β)
    (a : α) : l.reverse.foldl g (l.foldl f a) = a := by
  induction l generalizing a with
  | nil => rfl
  | cons b l ih => rw [List.foldl_cons, List.reverse_cons, List.foldl_append, ih, List.foldl_cons, h,
      List.foldl_nil]

/-- **A block is deciphered**, whatever the round keys are. -/
theorem decrypt_encrypt (ctx : Ctx) (b : Block) :
    aes128_decrypt_block ctx (aes128_encrypt_block ctx b) = b := by
  unfold aes128_decrypt_block aes128_encrypt_block
  rw [aes_add_round_key, aes_add_round_key, aes_add_round_key, aes_add_round_key, xor_xor,
    inv_shift_rows_shift_rows, inv_sub_bytes_sub_bytes,
    foldl_reverse_foldl fun b n => decrypt_round_encrypt_round b (ctx.round_key n), xor_xor]

/-! ## The keys -/

/-- The elements of a word. -/
noncomputable def els (w : Word) (j : Fin 4) : GF := el w[j]

/-- The words of a key. -/
noncomputable def keyOf (key : List UInt8) (i : ℕ) (j : Fin 4) : GF := el (key.getD (i * 4 + j) 0)

theorem els_zipWith (a b : Word) : els (Vector.zipWith (· ^^^ ·) a b) = els a + els b := by
  funext j
  show el (Vector.zipWith (· ^^^ ·) a b)[j.val] = el a[j] + el b[j]
  rw [Vector.getElem_zipWith, el_xor]
  rfl

/-- The constants are the powers of `x`. -/
theorem el_rcon : ∀ k < 10, el (aes_rcon (k + 1)) = x ^ k := by
  intro k hk
  induction k with
  | zero => exact el_one
  | succ k ih =>
    have hnext : ∀ k < 9, aes_rcon (k + 1 + 1) = aes_xtime (aes_rcon (k + 1)) := by decide
    rw [hnext k (by omega), el_xtime, ih (by omega), pow_succ']

theorem els_temp {nk i : ℕ} (hnk : 0 < nk) (hi : nk ≤ i) (hlt : i < 11 * nk) (prev : Word) :
    els (temp nk i prev) =
      if i % nk = 0 then (fun j => sub (els prev (j + 1))) + ![x ^ (i / nk - 1), 0, 0, 0]
      else if 6 < nk ∧ i % nk = 4 then fun j => sub (els prev j)
      else els prev := by
  unfold temp
  split
  · have hpos : 1 ≤ i / nk := (Nat.one_le_div_iff hnk).mpr hi
    have hle : i / nk < 11 := (Nat.div_lt_iff_lt_mul hnk).mpr hlt
    have hrcon := el_rcon (i / nk - 1) (by omega)
    rw [Nat.sub_add_cancel hpos] at hrcon
    funext j
    fin_cases j <;> simp [els, hrcon]
  · split
    · funext j
      simp [els]
    · rfl

/-- **The expanded key** is that of the standard, as far as it is written. -/
theorem expand_spec (key : List UInt8) (nk : ℕ) (hnk : 0 < nk) {n : ℕ} (hn : n ≤ 10 * nk) :
    ((List.range' nk n).foldl (expand_word nk) (key_words key nk)).length = nk + n ∧
      ∀ i < nk + n, els (word ((List.range' nk n).foldl (expand_word nk) (key_words key nk)) i)
        = keyExpansion nk (keyOf key) i := by
  induction n with
  | zero =>
    have hlen : (key_words key nk).length = nk := by simp [key_words]
    refine ⟨hlen, fun i hi => ?_⟩
    rw [keyExpansion, dif_pos (.inl hi)]
    funext j
    simp [word, key_words, els, keyOf, show i < nk from hi]
  | succ n ih =>
    obtain ⟨hlen, hword⟩ := ih (by omega)
    rw [List.range'_1_concat, List.foldl_append, List.foldl_cons, List.foldl_nil]
    generalize (List.range' nk n).foldl (expand_word nk) (key_words key nk) = w at hlen hword ⊢
    refine ⟨by simp [expand_word, hlen, Nat.add_assoc], fun i hi => ?_⟩
    unfold expand_word word
    rcases Nat.lt_or_ge i (nk + n) with hlt | hge
    · rw [List.getD_append _ _ _ _ (by omega)]
      exact hword i hlt
    · obtain rfl : i = nk + n := by omega
      rw [List.getD_append_right _ _ _ _ (by omega), hlen, Nat.sub_self, List.getD_cons_zero,
        els_zipWith, keyExpansion, dif_neg (by omega), els_temp hnk (by omega) (by omega)]
      have hprev := hword (nk + n - 1) (by omega)
      have hback := hword (nk + n - nk) (by omega)
      unfold word at hprev hback
      rw [hprev, hback]

section SetKey

variable {key : List UInt8} (h : key.length = 16 ∨ key.length = 32) (ctx : Ctx)

include h

/-- **The round keys.** -/
theorem field_round_key {n : ℕ} (hn : n ≤ key.length / 4 + 6) :
    field ((aes_set_key ctx key key.length).round_key n)
      = roundKey (keyExpansion (key.length / 4) (keyOf key)) n := by
  ext r c
  show el (cell ((aes_set_key ctx key key.length).round_key n) c r) = _
  unfold aes_set_key
  dsimp only
  rw [if_pos hn, cell_ofFn]
  have hidx : (4 * c.val + r.val) / 4 = c.val := by omega
  have hmod : (4 * c.val + r.val) % 4 = r.val := by omega
  have hexp := (expand_spec key (key.length / 4) (by omega)
    (n := 4 * (key.length / 4 + 6 + 1) - key.length / 4) (by omega)).2 (n * 4 + c) (by omega)
  have hword := congrFun hexp r
  simp only [hidx, hmod]
  refine hword.trans ?_
  rw [Nat.mul_comm n 4]
  rfl

/-- **A block is enciphered** by the cipher of the standard. -/
theorem encrypt_spec (b : Block) :
    field (aes128_encrypt_block (aes_set_key ctx key key.length) b)
      = cipher (key.length / 4 + 6) (keyExpansion (key.length / 4) (keyOf key)) (field b) := by
  have hkey := fun n hn => field_round_key h ctx (n := n) hn
  unfold aes128_encrypt_block cipher
  rw [show (aes_set_key ctx key key.length).rounds = key.length / 4 + 6 from rfl]
  have hrounds : ∀ (l : List ℕ) (b : Block), (∀ n ∈ l, n ≤ key.length / 4 + 6) →
      field (l.foldl (fun b n => encrypt_round b
        ((aes_set_key ctx key key.length).round_key n)) b)
        = l.foldl (fun s n => mix * shiftRows (s.map sub)
            + roundKey (keyExpansion (key.length / 4) (keyOf key)) n) (field b) := by
    intro l b hl
    induction l generalizing b with
    | nil => rfl
    | cons n l ih =>
      rw [List.foldl_cons, List.foldl_cons, ih _ fun m hm => hl m (List.mem_cons_of_mem n hm),
        encrypt_round, field_add_round_key, field_mix_columns, field_shift_rows, field_sub_bytes,
        hkey n (hl n List.mem_cons_self)]
  rw [field_add_round_key, field_shift_rows, field_sub_bytes, hrounds _ _ fun n hn => ?_,
    field_add_round_key, hkey 0 (Nat.zero_le _), hkey _ (Nat.le_refl _)]
  have := List.mem_range'_1.mp hn
  omega

end SetKey

/-! ## Chaining -/

section Chaining

variable {body : Block → Block → Block × Block} {len off : UInt32}

/-- The next block, if there is one. -/
theorem toNat_next (hlen : 16 ∣ len.toNat) (hoff : 16 ∣ off.toNat) (h : off < len) :
    (off + 16).toNat = off.toNat + 16 := by
  have hlt : off.toNat < len.toNat := UInt32.lt_iff_toNat_lt.mp h
  have := len.toNat_lt
  rw [UInt32.toNat_add, show (16 : UInt32).toNat = 16 from rfl]
  omega

/-- The loop ends. -/
theorem cbc_ends (hlen : 16 ∣ len.toNat) (turns : ℕ) (hoff : 16 ∣ off.toNat)
    (hle : off.toNat ≤ len.toNat) (h : len.toNat < off.toNat + 16 * turns) (prev : Block) (data : ℕ → UInt8) :
    ∃ out, cbc body len turns off prev data = some out := by
  induction turns generalizing off prev data with
  | zero => omega
  | succ turns ih =>
    unfold cbc
    by_cases hlt : off < len
    · rw [if_pos hlt]
      have hnext := toNat_next hlen hoff hlt
      have := UInt32.lt_iff_toNat_lt.mp hlt
      exact ih (by omega) (by omega) (by omega) _ _
    · exact ⟨data, if_neg hlt⟩

end Chaining

theorem block_at_put_block (data : ℕ → UInt8) (off : ℕ) (b : Block) :
    block_at (put_block data off b) off = b := by
  refine Vector.ext fun i hi => ?_
  unfold block_at put_block
  rw [Vector.getElem_ofFn, if_pos (by omega)]
  simp [Nat.mod_eq_of_lt hi]

/-- **What the two loops do from a block on**: nothing before it is touched, and deciphering what was
made of the rest gives the rest back, whatever is before. -/
theorem cbc_inverse (ctx : Ctx) {len : UInt32} (hlen : 16 ∣ len.toNat) {turns : ℕ} {off : UInt32}
    (hoff : 16 ∣ off.toNat) {prev : Block} {data out : ℕ → UInt8}
    (h : cbc (fun prev x =>
      let x := aes128_encrypt_block ctx (Vector.zipWith (· ^^^ ·) x prev)
      (x, x)) len turns off prev data = some out) :
    (∀ i < off.toNat, out i = data i) ∧ ∀ d : ℕ → UInt8, (∀ i, off.toNat ≤ i → d i = out i) →
      cbc (fun prev cur_ct =>
        (Vector.zipWith (· ^^^ ·) (aes128_decrypt_block ctx cur_ct) prev, cur_ct)) len turns off
        prev d = some fun i => if i < off.toNat then d i else data i := by
  induction turns generalizing off prev data with
  | zero => exact nomatch h
  | succ turns ih =>
    unfold cbc at h
    by_cases hlt : off < len
    · rw [if_pos hlt] at h
      have hnext := toNat_next hlen hoff hlt
      obtain ⟨hbefore, hback⟩ := ih (by omega) h
      rw [hnext] at hbefore hback
      refine ⟨fun i hi => ?_, fun d hd => ?_⟩
      · rw [hbefore i (by omega), put_block, if_neg (by omega)]
      · -- the block that is read is the one that was enciphered
        have hread : block_at d off.toNat = aes128_encrypt_block ctx
            (Vector.zipWith (· ^^^ ·) (block_at data off.toNat) prev) := by
          rw [← block_at_put_block data off.toNat (aes128_encrypt_block ctx _)]
          refine congrArg Vector.ofFn (funext fun i => ?_)
          rw [hd _ (by omega), hbefore _ (by omega)]
        unfold cbc
        rw [if_pos hlt]
        rw [hread, decrypt_encrypt, xor_xor, hback _ fun i hi => ?_]
        · congr 1
          funext i
          unfold put_block
          split_ifs with h1 h2 h3 h4 <;> first | omega | rfl | skip
          simp [block_at]
          congr 1
          omega
        · rw [put_block, if_neg (by omega), hd i (by omega)]
    · rw [if_neg hlt] at h
      obtain rfl := Option.some.inj h
      refine ⟨fun i _ => rfl, fun d hd => ?_⟩
      unfold cbc
      rw [if_neg hlt]
      congr 1
      funext i
      split
      · rfl
      · exact hd i (by omega)

/-! ## AES -/

/-- **AES is that of the standard** with keys of 16 and of 32 bytes, `aes128_decrypt_block` undoes
`aes128_encrypt_block`, and `aes128_cbc_decrypt` undoes `aes128_cbc_encrypt` on whole blocks. -/
theorem aes_right {key : List UInt8} (h : key.length = 16 ∨ key.length = 32) (ctx : Ctx) :
    let c := aes_set_key ctx key key.length
    (∀ b, field (aes128_encrypt_block c b)
      = cipher (key.length / 4 + 6) (keyExpansion (key.length / 4) (keyOf key)) (field b)) ∧
    (∀ b, aes128_decrypt_block c (aes128_encrypt_block c b) = b) ∧
    ∀ (iv : Block) (data : ℕ → UInt8) (len : UInt32) (turns : ℕ), 16 ∣ len.toNat →
      len.toNat / 16 < turns → ∃ out, aes128_cbc_encrypt turns c iv data len = some out ∧
        aes128_cbc_decrypt turns c iv out len = some data := by
  refine ⟨encrypt_spec h ctx, decrypt_encrypt _, fun iv data len turns hlen hturns => ?_⟩
  have hzero : (0 : UInt32).toNat = 0 := rfl
  obtain ⟨out, hout⟩ := cbc_ends hlen turns (show 16 ∣ (0 : UInt32).toNat by omega) (by omega)
    (by omega) iv data
  exact ⟨out, hout, (cbc_inverse _ hlen (by omega) hout).2 out fun _ _ => rfl⟩

/-- The key `00 01 … 0f`, and a block of zeros. -/
theorem aes_right_counted :
    let c := aes_set_key ⟨fun _ => Vector.replicate 16 0, 0⟩ ((List.range 16).map UInt8.ofNat) 16
    aes128_decrypt_block c (aes128_encrypt_block c (Vector.replicate 16 0))
      = Vector.replicate 16 0 :=
  (@aes_right ((List.range 16).map UInt8.ofNat) (.inl rfl) _).2.1 _

end Aes
