import MiniWin.Net.Bignum

/-!
# Elliptic curves

`kernel/ecc.h`: P-256 and P-384. A number is a row of 32-bit limbs, the lowest first, and an array
that a function fills is what the function returns. Products are Montgomery's, and points are in
Jacobian coordinates.
-/

namespace Ecc

open Limbs (countdown)

/-- So many limbs of a `u32[ECC_MAX_LIMBS]` as are in use. -/
abbrev Words := List UInt32

/-! ## Rows of limbs -/

def ecc_is_zero (a : Words) : Bool := a.foldl (· ||| ·) 0 == 0

def ecc_cmp (a b : Words) (n : Nat) : Ordering := Bignum.cmpFrom a b n

def ecc_zero (n : Nat) : Words := List.replicate n 0

/-- `ecc_zero`, and then the lowest limb. -/
def small (n : Nat) (v : UInt32) : Words := (ecc_zero n).set 0 v

/-- The sums of the limbs, and what is carried out of the last. -/
def addFrom : Words → Words → UInt64 → Words × UInt32
  | a :: as, b :: bs, c =>
    let s := a.toUInt64 + b.toUInt64 + c
    let r := addFrom as bs (s >>> 32)
    (s.toUInt32 :: r.1, r.2)
  | _, _, c => ([], c.toUInt32)

def ecc_add_raw (a b : Words) : Words × UInt32 := addFrom a b 0

/-- The differences of the limbs, and what the last borrows. -/
def subFrom : Words → Words → UInt64 → Words × UInt32
  | a :: as, b :: bs, br =>
    let d := a.toUInt64 - b.toUInt64 - br
    let r := subFrom as bs ((d >>> 32) &&& 1)
    (d.toUInt32 :: r.1, r.2)
  | _, _, br => ([], br.toUInt32)

def ecc_sub_raw (a b : Words) : Words × UInt32 := subFrom a b 0

/-- The byte `be[i]` of `len` goes into its limb. -/
def orByte (be : List UInt8) (len : Nat) (r : Words) (i : Nat) : Words :=
  let bitpos := len - 1 - i
  r.modify (bitpos / 4) (· ||| (be.getD i 0).toUInt32 <<< (8 * (bitpos % 4)).toUInt32)

def ecc_from_be (n : Nat) (be : List UInt8) (len : Nat) : Words :=
  (List.range len).foldl (orByte be len) (ecc_zero n)

def ecc_to_be (len : Nat) (a : Words) : List UInt8 :=
  (List.range len).map fun i =>
    let bitpos := len - 1 - i
    (a.getD (bitpos / 4) 0 >>> (8 * (bitpos % 4)).toUInt32).toUInt8

/-! ## Arithmetic below a modulus -/

/-- `ecc_field_t`. -/
structure Field where
  m : Words
  m0 : UInt32
  rr : Words
  n : Nat

/-- A row times a limb on top of another row, and what goes over. -/
def mulAdd (b : UInt32) : Words → Words → UInt64 → Words × UInt64
  | t :: ts, a :: as, c =>
    let s := t.toUInt64 + a.toUInt64 * b.toUInt64 + c
    let r := mulAdd b ts as (s >>> 32)
    (s.toUInt32 :: r.1, r.2)
  | _, _, c => ([], c)

/-- One pass of the outer loop, with the limb `b[i]`. What is kept is `t[0]` to `t[n - 1]`, and
`t[n]`. -/
def mmRound (f : Field) (a : Words) (t : Words × UInt32) (b : UInt32) : Words × UInt32 :=
  let (t0, c) := mulAdd b t.1 a 0
  let s := t.2.toUInt64 + c
  let tn := s.toUInt32
  let tn1 := (s >>> 32).toUInt32
  let mq := t0.headD 0 * f.m0
  let c := ((t0.headD 0).toUInt64 + mq.toUInt64 * (f.m.headD 0).toUInt64) >>> 32
  let (t1, c) := mulAdd mq t0.tail f.m.tail c
  let s := tn.toUInt64 + c
  (t1 ++ [s.toUInt32], tn1 + (s >>> 32).toUInt32)

def ecc_mm (f : Field) (a b : Words) : Words :=
  let t := b.foldl (mmRound f a) (ecc_zero f.n, 0)
  let (tmp, borrow) := ecc_sub_raw t.1 f.m
  if t.2 ≠ 0 ∨ borrow = 0 then tmp else t.1

def ecc_ma (f : Field) (a b : Words) : Words :=
  let (t, carry) := ecc_add_raw a b
  let (u, borrow) := ecc_sub_raw t f.m
  if carry ≠ 0 ∨ borrow = 0 then u else t

def ecc_ms (f : Field) (a b : Words) : Words :=
  let (t, borrow) := ecc_sub_raw a b
  if borrow ≠ 0 then (ecc_add_raw t f.m).1 else t

def ecc_to_mont (f : Field) (a : Words) : Words := ecc_mm f a f.rr

def ecc_from_mont (f : Field) (a : Words) : Words := ecc_mm f a (small f.n 1)

/-- `(e[i / 32] >> (i % 32)) & 1`. -/
def bit (e : Words) (i : Nat) : UInt32 := (e.getD (i / 32) 0 >>> (i % 32).toUInt32) &&& 1

/-- One bit of the exponent. -/
def minvRound (f : Field) (a e : Words) (i : Nat) (acc : Words) : Words :=
  let acc := ecc_mm f acc acc
  if bit e i ≠ 0 then ecc_mm f acc a else acc

def ecc_minv (f : Field) (a one_m : Words) : Words :=
  let e := (ecc_sub_raw f.m (small f.n 2)).1
  countdown (minvRound f a e) (f.n * 32) one_m

def ecc_neg_inv32 (m0 : UInt32) : UInt32 :=
  let x := (List.range 5).foldl (fun x _ => x * (2 - m0 * x)) m0
  0 - x

/-- One doubling. -/
def rrRound (m x : Words) : Words :=
  let (x, carry) := ecc_add_raw x x
  let (t, borrow) := ecc_sub_raw x m
  if carry ≠ 0 ∨ borrow = 0 then t else x

/-- `rr`, and `r_mod_m` that is taken halfway. -/
def ecc_compute_rr (m : Words) (n : Nat) : Words × Words :=
  (List.range (64 * n)).foldl
    (fun s i =>
      let x := rrRound m s.1
      (x, if i = 32 * n - 1 then x else s.2))
    (small n 1, ecc_zero n)

/-! ## Curves -/

/-- `ecc_curve_t`. -/
structure Curve where
  n : Nat
  bytes : Nat
  group_id : Nat
  p : Words
  order : Words
  b : Words
  gx : Words
  gy : Words
  ready : Bool := false
  p_m0 : UInt32 := 0
  n_m0 : UInt32 := 0
  p_rr : Words := []
  n_rr : Words := []
  p_one : Words := []

def ecc_p256 : Curve where
  n := 8
  bytes := 32
  group_id := 23
  p := [0xffffffff, 0xffffffff, 0xffffffff, 0x00000000, 0x00000000, 0x00000000, 0x00000001,
    0xffffffff]
  order := [0xfc632551, 0xf3b9cac2, 0xa7179e84, 0xbce6faad, 0xffffffff, 0xffffffff, 0x00000000,
    0xffffffff]
  b := [0x27d2604b, 0x3bce3c3e, 0xcc53b0f6, 0x651d06b0, 0x769886bc, 0xb3ebbd55, 0xaa3a93e7,
    0x5ac635d8]
  gx := [0xd898c296, 0xf4a13945, 0x2deb33a0, 0x77037d81, 0x63a440f2, 0xf8bce6e5, 0xe12c4247,
    0x6b17d1f2]
  gy := [0x37bf51f5, 0xcbb64068, 0x6b315ece, 0x2bce3357, 0x7c0f9e16, 0x8ee7eb4a, 0xfe1a7f9b,
    0x4fe342e2]

def ecc_p384 : Curve where
  n := 12
  bytes := 48
  group_id := 24
  p := [0xffffffff, 0x00000000, 0x00000000, 0xffffffff, 0xfffffffe, 0xffffffff, 0xffffffff,
    0xffffffff, 0xffffffff, 0xffffffff, 0xffffffff, 0xffffffff]
  order := [0xccc52973, 0xecec196a, 0x48b0a77a, 0x581a0db2, 0xf4372ddf, 0xc7634d81, 0xffffffff,
    0xffffffff, 0xffffffff, 0xffffffff, 0xffffffff, 0xffffffff]
  b := [0xd3ec2aef, 0x2a85c8ed, 0x8a2ed19d, 0xc656398d, 0x5013875a, 0x0314088f, 0xfe814112,
    0x181d9c6e, 0xe3f82d19, 0x988e056b, 0xe23ee7e4, 0xb3312fa7]
  gx := [0x72760ab7, 0x3a545e38, 0xbf55296c, 0x5502f25d, 0x82542a38, 0x59f741e0, 0x8ba79b98,
    0x6e1d3b62, 0xf320ad74, 0x8eb1c71e, 0xbe8b0537, 0xaa87ca22]
  gy := [0x90ea0e5f, 0x7a431d7c, 0x1d7e819d, 0x0a60b1ce, 0xb5f0b8c0, 0xe9da3113, 0x289a147c,
    0xf8f41dbd, 0x9292dc29, 0x5d9e98bf, 0x96262c6f, 0x3617de4a]

/-- What is derived once. -/
def ecc_curve_prepare (c : Curve) : Curve :=
  if c.ready then c
  else
    let p := ecc_compute_rr c.p c.n
    let order := ecc_compute_rr c.order c.n
    { c with
      p_m0 := ecc_neg_inv32 (c.p.headD 0)
      n_m0 := ecc_neg_inv32 (c.order.headD 0)
      p_rr := p.1
      p_one := p.2
      n_rr := order.1
      ready := true }

abbrev ecc_fp (c : Curve) : Field := ⟨c.p, c.p_m0, c.p_rr, c.n⟩

abbrev ecc_fn (c : Curve) : Field := ⟨c.order, c.n_m0, c.n_rr, c.n⟩

/-! ## Points -/

/-- `ecc_point_t`. -/
structure Point where
  x : Words
  y : Words
  z : Words

def ecc_pt_is_inf (p : Point) : Bool := ecc_is_zero p.z

def ecc_pt_set_inf (c : Curve) : Point := ⟨ecc_zero c.n, c.p_one, ecc_zero c.n⟩

def ecc_pt_dbl (c : Curve) (a : Point) : Point :=
  let f := ecc_fp c
  if ecc_pt_is_inf a || ecc_is_zero a.y then ecc_pt_set_inf c
  else
    let delta := ecc_mm f a.z a.z
    let gamma := ecc_mm f a.y a.y
    let beta := ecc_mm f a.x gamma
    let t1 := ecc_ms f a.x delta
    let t2 := ecc_ma f a.x delta
    let alpha := ecc_mm f t1 t2
    let t1 := ecc_ma f alpha alpha
    let alpha := ecc_ma f t1 alpha
    let t1 := ecc_mm f alpha alpha
    let t2 := ecc_ma f beta beta
    let t2 := ecc_ma f t2 t2
    let x3 := ecc_ma f t2 t2
    let x3 := ecc_ms f t1 x3
    let t1 := ecc_ma f a.y a.z
    let t1 := ecc_mm f t1 t1
    let t1 := ecc_ms f t1 gamma
    let z3 := ecc_ms f t1 delta
    let t1 := ecc_ms f t2 x3
    let t1 := ecc_mm f alpha t1
    let t2 := ecc_mm f gamma gamma
    let t2 := ecc_ma f t2 t2
    let t2 := ecc_ma f t2 t2
    let t2 := ecc_ma f t2 t2
    let y3 := ecc_ms f t1 t2
    ⟨x3, y3, z3⟩

def ecc_pt_add (c : Curve) (a b : Point) : Point :=
  let f := ecc_fp c
  if ecc_pt_is_inf a then b
  else if ecc_pt_is_inf b then a
  else
    let z1z1 := ecc_mm f a.z a.z
    let z2z2 := ecc_mm f b.z b.z
    let u1 := ecc_mm f a.x z2z2
    let u2 := ecc_mm f b.x z1z1
    let t := ecc_mm f b.z z2z2
    let s1 := ecc_mm f a.y t
    let t := ecc_mm f a.z z1z1
    let s2 := ecc_mm f b.y t
    let h := ecc_ms f u2 u1
    let r := ecc_ms f s2 s1
    if ecc_is_zero h then
      if ecc_is_zero r then ecc_pt_dbl c a else ecc_pt_set_inf c
    else
      let r := ecc_ma f r r
      let t := ecc_ma f h h
      let i2 := ecc_mm f t t
      let j := ecc_mm f h i2
      let v := ecc_mm f u1 i2
      let x3 := ecc_mm f r r
      let x3 := ecc_ms f x3 j
      let t := ecc_ma f v v
      let x3 := ecc_ms f x3 t
      let t := ecc_ms f v x3
      let y3 := ecc_mm f r t
      let t := ecc_mm f s1 j
      let t := ecc_ma f t t
      let y3 := ecc_ms f y3 t
      let t := ecc_ma f a.z b.z
      let t := ecc_mm f t t
      let t := ecc_ms f t z1z1
      let t := ecc_ms f t z2z2
      let z3 := ecc_mm f t h
      ⟨x3, y3, z3⟩

/-- `(dst & ~mask) | (src & mask)`, limb by limb. -/
def cmov (mask : UInt32) (dst src : Words) : Words :=
  List.zipWith (fun d s => (d &&& ~~~mask) ||| (s &&& mask)) dst src

def ecc_pt_cmov (dst src : Point) (mask : UInt32) : Point :=
  ⟨cmov mask dst.x src.x, cmov mask dst.y src.y, cmov mask dst.z src.z⟩

/-- One bit of the scalar. -/
def mulRound (c : Curve) (k : Words) (p : Point) (i : Nat) (r : Point) : Point :=
  let r := ecc_pt_dbl c r
  let sum := ecc_pt_add c r p
  ecc_pt_cmov r sum (0 - bit k i)

def ecc_scalar_mul (c : Curve) (k : Words) (p : Point) : Point :=
  countdown (mulRound c k p) (c.n * 32) (ecc_pt_set_inf c)

/-- The coordinates, and nothing at infinity. -/
def ecc_to_affine (c : Curve) (p : Point) : Option (Words × Words) :=
  let f := ecc_fp c
  if ecc_pt_is_inf p then none
  else
    let zi := ecc_minv f p.z c.p_one
    let zi2 := ecc_mm f zi zi
    let zi3 := ecc_mm f zi2 zi
    some (ecc_from_mont f (ecc_mm f p.x zi2), ecc_from_mont f (ecc_mm f p.y zi3))

def ecc_pt_load_checked (c : Curve) (x y : Words) : Option Point :=
  let f := ecc_fp c
  if ecc_cmp x c.p c.n ≠ .lt ∨ ecc_cmp y c.p c.n ≠ .lt then none
  else
    let xm := ecc_to_mont f x
    let ym := ecc_to_mont f y
    let bm := ecc_to_mont f c.b
    let lhs := ecc_mm f ym ym
    let rhs := ecc_mm f xm xm
    let rhs := ecc_mm f rhs xm
    let t := ecc_ma f xm xm
    let t := ecc_ma f t xm
    let rhs := ecc_ms f rhs t
    let rhs := ecc_ma f rhs bm
    if ecc_cmp lhs rhs c.n ≠ .eq then none else some ⟨xm, ym, c.p_one⟩

def ecc_parse_point (c : Curve) (buf : List UInt8) : Option Point :=
  if buf.length ≠ 1 + 2 * c.bytes ∨ buf.headD 0 ≠ 0x04 then none
  else
    let x := ecc_from_be c.n (buf.drop 1) c.bytes
    let y := ecc_from_be c.n (buf.drop (1 + c.bytes)) c.bytes
    ecc_pt_load_checked c x y

def ecc_base_point (c : Curve) : Point :=
  let f := ecc_fp c
  ⟨ecc_to_mont f c.gx, ecc_to_mont f c.gy, c.p_one⟩

/-! ## Key agreement -/

/-- `k[n - 1] |= 0x80000000u`. -/
def topBit (n : Nat) (k : Words) : Words := k.modify (n - 1) (· ||| 0x80000000)

/-- The private and the public key. -/
def ecdh_keygen (c : Curve) (rand_bytes : List UInt8) : Option (List UInt8 × List UInt8) :=
  let c := ecc_curve_prepare c
  let k := topBit c.n (ecc_from_be c.n rand_bytes c.bytes)
  let k := if ecc_cmp k c.order c.n ≠ .lt then (ecc_sub_raw k c.order).1 else k
  if ecc_is_zero k then none
  else
    match ecc_to_affine c (ecc_scalar_mul c k (ecc_base_point c)) with
    | none => none
    | some (x, y) =>
      some (ecc_to_be c.bytes k, 0x04 :: (ecc_to_be c.bytes x ++ ecc_to_be c.bytes y))

/-- What is returned, and what `secret_out` holds then. -/
def ecdh_shared (c : Curve) (priv peer_pub secret_out : List UInt8) : Nat × List UInt8 :=
  let c := ecc_curve_prepare c
  match ecc_parse_point c peer_pub with
  | none => (0, secret_out)
  | some q =>
    let k := ecc_from_be c.n priv c.bytes
    match ecc_to_affine c (ecc_scalar_mul c k q) with
    | none => (0, secret_out)
    | some (x, _) => (1, ecc_to_be c.bytes x ++ secret_out.drop c.bytes)

end Ecc

/-!
## Signatures

`ecdsa_verify_der` of `kernel/ecc.h`. A position in the signature is what is left of it from there.
-/

namespace Ecc

open Limbs (countdown)

/-- The bytes that the length takes, 0 for an error, and the length. -/
def ecc_der_len : List UInt8 → Nat × Nat
  | [] => (0, 0)
  | b :: p =>
    if b < 0x80 then (1, b.toNat)
    else
      let nb := (b &&& 0x7F).toNat
      if nb = 0 ∨ nb > 2 ∨ p.length < nb then (0, 0)
      else
        let l : UInt32 := (p.take nb).foldl (fun v b => (v <<< 8) ||| b.toUInt32) 0
        (1 + nb, l.toNat)

/-- `while (l > 1 && v[0] == 0) { v++; l--; }` -/
def strip : Nat → List UInt8 → Nat × List UInt8
  | l + 2, x :: v => if x = 0 then strip (l + 1) v else (l + 2, x :: v)
  | l, v => (l, v)

/-- The number, and what is behind it. -/
def ecc_der_uint (c : Curve) : List UInt8 → Option (Words × List UInt8)
  | [] => none
  | tag :: rest =>
    if tag ≠ 0x02 then none
    else
      let (hl, l) := ecc_der_len rest
      if hl = 0 then none
      else if l = 0 ∨ rest.length < hl + l then none
      else
        let v := rest.drop hl
        if v.headD 0 &&& 0x80 ≠ 0 then none
        else
          let (l, v) := strip l v
          if l > c.bytes then none else some (ecc_from_be c.n v l, v.drop l)

/-- The two numbers of a signature. -/
def parseSig (c : Curve) (sig : List UInt8) : Option (Words × Words) :=
  if sig.length < 8 ∨ sig.headD 0 ≠ 0x30 then none
  else
    let (hl, seq_len) := ecc_der_len (sig.drop 1)
    if hl = 0 ∨ 1 + hl + seq_len ≠ sig.length then none
    else
      match ecc_der_uint c (sig.drop (1 + hl)) with
      | none => none
      | some (r, rest) =>
        match ecc_der_uint c rest with
        | none => none
        | some (s, rest) => if rest ≠ [] then none else some (r, s)

/-- Neither zero nor as large as the order. -/
def inRange (c : Curve) (r : Words) : Bool := !ecc_is_zero r && ecc_cmp r c.order c.n == .lt

/-- One bit of each of the two scalars. -/
def shamirRound (c : Curve) (g q gq : Point) (u1 u2 : Words) (i : Nat) (acc : Point) : Point :=
  let acc := ecc_pt_dbl c acc
  let b1 := bit u1 i
  let b2 := bit u2 i
  if b1 ≠ 0 ∧ b2 ≠ 0 then ecc_pt_add c acc gq
  else if b1 ≠ 0 then ecc_pt_add c acc g
  else if b2 ≠ 0 then ecc_pt_add c acc q
  else acc

/-- What is left once. -/
def subOnce (c : Curve) (e : Words) : Words :=
  if ecc_cmp e c.order c.n ≠ .lt then (ecc_sub_raw e c.order).1 else e

/-- What comes after the signature has been read. -/
def checkSig (c : Curve) (pub hash : List UInt8) (r s : Words) : Nat :=
  let fn := ecc_fn c
  if !inRange c r || !inRange c s then 0
  else
    match ecc_parse_point c pub with
    | none => 0
    | some q =>
      let g := ecc_base_point c
      let use := if hash.length > c.bytes then c.bytes else hash.length
      let e := subOnce c (ecc_from_be c.n hash use)
      let one_n := ecc_to_mont fn (small c.n 1)
      let sm := ecc_to_mont fn s
      let wm := ecc_minv fn sm one_n
      let u1 := ecc_mm fn e wm
      let u2 := ecc_mm fn r wm
      let gq := ecc_pt_add c g q
      let acc := countdown (shamirRound c g q gq u1 u2) (c.n * 32) (ecc_pt_set_inf c)
      match ecc_to_affine c acc with
      | none => 0
      | some (x, _) => if ecc_cmp (subOnce c x) r c.n = .eq then 1 else 0

def ecdsa_verify_der (c : Curve) (pub hash sig : List UInt8) : Nat :=
  let c := ecc_curve_prepare c
  match parseSig c sig with
  | none => 0
  | some (r, s) => checkSig c pub hash r s

end Ecc
