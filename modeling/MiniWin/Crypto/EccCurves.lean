import MiniWin.Crypto.EccPoint
import Mathlib.Tactic.NormNum.Prime

/-!
# The two curves

What the constants of P-256 and P-384 are: two primes with what is derived from them, a curve without
a singular point, and a point on it whose multiple by the order is at infinity. The primes are shown
by tables of witnesses, the multiple is worked out in Jacobian coordinates.
-/

namespace Ecc

open Jacobian (Triple Has)
open Limbs

/-- What a curve is before it is prepared. `G` is its base point. -/
structure Curve.Sound (c : Curve) : Prop where
  fresh : c.ready = false
  pos : 0 < c.n
  bytes : c.bytes = 4 * c.n
  p_width : c.p.length = c.n
  order_width : c.order.length = c.n
  b_width : c.b.length = c.n
  gx_width : c.gx.length = c.n
  gy_width : c.gy.length = c.n
  p_prime : (value c.p).Prime
  two_lt : 2 < value c.p
  order_prime : (value c.order).Prime
  p_m0 : ecc_neg_inv32 (c.p.headD 0) * c.p.headD 0 + 1 = 0
  n_m0 : ecc_neg_inv32 (c.order.headD 0) * c.order.headD 0 + 1 = 0
  b_lt : value c.b < value c.p
  gx_lt : value c.gx < value c.p
  gy_lt : value c.gy < value c.p
  p_lt : value c.p < 2 * value c.order
  top : 2 ^ (32 * c.n) ≤ 2 * value c.order
  disc : 27 * c.coeff ^ 2 ≠ 108
  base : ∀ [Fact (value c.p).Prime], ∃ h,
    value c.order • (.some (value c.gx) (value c.gy) h : (Jacobian.curve c.coeff).Point) = 0

/-- The order of a point, from the multiple in coordinates. -/
theorem base_of {p k n b gx gy : Nat} [Fact p.Prime] (h2 : (2 : ZMod p) ≠ 0)
    (hdisc : 27 * (b : ZMod p) ^ 2 ≠ 108)
    (heq : (gy : ZMod p) ^ 2 = (gx : ZMod p) ^ 3 - 3 * gx + b) (hn : n < 2 ^ k)
    (hz : ((⟨gx, gy, 1⟩ : Triple (ZMod p)).mul n k).z = 0) :
    ∃ h, n • (.some gx gy h : (Jacobian.curve (b : ZMod p)).Point) = 0 := by
  have hxy := (Jacobian.nonsingular_iff h2 hdisc).mpr heq
  have hbase : Has (⟨gx, gy, 1⟩ : Triple (ZMod p))
      (.some (gx : ZMod p) gy hxy : (Jacobian.curve (b : ZMod p)).Point) :=
    ⟨one_ne_zero, by ring, by ring⟩
  exact ⟨hxy, (hbase.mul h2 hn).z_eq_zero_iff.mp hz⟩

/-! ## P-256 -/

/-- The small primes of the table. -/
def small256 : List Nat :=
  [2, 3, 5, 7, 11, 17, 23, 29, 41, 43, 53, 71, 107, 127, 131, 173, 197, 257, 311, 373, 641, 1297,
   1531, 2411, 3023, 3407, 3677, 3769, 16879, 17449, 18169, 38189, 65537, 78283, 126241, 155317,
   490463, 704251, 3969899, 6700417, 9350987]

/-- The primes down from those of P-256. -/
def rows256 : List Lucas.Row := [
  ⟨204061199, 11, [2, 11, 23, 107, 3769]⟩,
  ⟨34282281433, 17, [2, 2, 2, 3, 7, 204061199]⟩,
  ⟨66417393611, 6, [2, 5, 53, 173, 197, 3677]⟩,
  ⟨11290956913871, 13, [2, 5, 17, 66417393611]⟩,
  ⟨46076956964474543, 5, [2, 23, 18169, 78283, 704251]⟩,
  ⟨774023187263532362759620327192479577272145303, 3,
    [2, 3, 3, 2411, 34282281433, 11290956913871, 46076956964474543]⟩,
  ⟨835945042244614951780389953367877943453916927241, 11,
    [2, 2, 2, 3, 3, 3, 5, 774023187263532362759620327192479577272145303]⟩,
  ⟨115792089210356248762697446949407573530086143415290314195533631308867097853951, 6,
    [2, 3, 5, 5, 17, 257, 641, 1531, 65537, 490463, 6700417,
     835945042244614951780389953367877943453916927241]⟩,
  ⟨187019741, 2, [2, 2, 5, 9350987]⟩,
  ⟨311245691, 2, [2, 5, 7, 17, 29, 29, 311]⟩,
  ⟨622491383, 5, [2, 311245691]⟩,
  ⟨1002328039319, 19, [2, 126241, 3969899]⟩,
  ⟨191039911, 3, [2, 3, 5, 41, 155317]⟩,
  ⟨208150935158385979, 2, [2, 3, 11, 43, 127, 3023, 191039911]⟩,
  ⟨2624747550333869278416773953, 7, [2, 2, 2, 2, 2, 2, 3, 3, 1297, 16879, 208150935158385979]⟩,
  ⟨115792089210356248762697446949407573529996955224135760342422259061068512044369, 7,
    [2, 2, 2, 2, 3, 71, 131, 373, 3407, 17449, 38189, 187019741, 622491383, 1002328039319,
     2624747550333869278416773953]⟩]

theorem prime_small256 : ∀ q ∈ small256, q.Prime := by
  unfold small256
  simp only [List.forall_mem_cons]
  norm_num

instance : Fact (Lucas.Checks small256 rows256) := ⟨by decide +kernel⟩

theorem prime_rows256 : ∀ r ∈ rows256, r.p.Prime := by
  have hrows : Lucas.Checks small256 rows256 := Fact.out
  exact hrows.prime prime_small256

def prime256 : Nat :=
  115792089210356248762697446949407573530086143415290314195533631308867097853951

theorem prime_prime256 : prime256.Prime := prime_rows256 rows256[7] (List.getElem_mem _)

instance : Fact prime256.Prime := ⟨prime_prime256⟩

def order256 : Nat :=
  115792089210356248762697446949407573529996955224135760342422259061068512044369

theorem prime_order256 : order256.Prime := prime_rows256 rows256[15] (List.getElem_mem _)

instance : Fact order256.Prime := ⟨prime_order256⟩

def b256 : Nat :=
  41058363725152142129326129780047268409114441015993725554835256314039467401291

def gx256 : Nat :=
  48439561293906451759052585252797914202762949526041747995844080717082404635286

def gy256 : Nat :=
  36134250956749795798585127919587881956611106672985015071877198253568414405109

theorem multiple256 :
    ((⟨gx256, gy256, 1⟩ : Triple (ZMod prime256)).mul order256 256).z = 0 := by
  decide +kernel

theorem equation256 :
    (2 : ZMod prime256) ≠ 0 ∧ 27 * (b256 : ZMod prime256) ^ 2 ≠ 108
      ∧ (gy256 : ZMod prime256) ^ 2 = (gx256 : ZMod prime256) ^ 3 - 3 * gx256 + b256 := by
  decide +kernel

theorem base256 {p n b gx gy : Nat} [Fact p.Prime] (hp : p = prime256) (hn : n = order256)
    (hb : b = b256) (hgx : gx = gx256) (hgy : gy = gy256) :
    ∃ h, n • (.some gx gy h : (Jacobian.curve (b : ZMod p)).Point) = 0 := by
  subst hp hn hb hgx hgy
  exact base_of equation256.1 equation256.2.1 equation256.2.2 (by decide +kernel)
    multiple256

theorem sound_p256 : ecc_p256.Sound where
  fresh := rfl
  pos := by decide
  bytes := rfl
  p_width := rfl
  order_width := rfl
  b_width := rfl
  gx_width := rfl
  gy_width := rfl
  p_prime := by
    rw [show value ecc_p256.p = prime256 by decide +kernel]
    exact prime_prime256
  two_lt := by decide +kernel
  order_prime := by
    rw [show value ecc_p256.order = order256 by decide +kernel]
    exact prime_order256
  p_m0 := by decide +kernel
  n_m0 := by decide +kernel
  b_lt := by decide +kernel
  gx_lt := by decide +kernel
  gy_lt := by decide +kernel
  p_lt := by decide +kernel
  top := by decide +kernel
  disc := by decide +kernel
  base := base256 (by decide +kernel) (by decide +kernel) (by decide +kernel) (by decide +kernel)
    (by decide +kernel)

/-! ## P-384 -/

/-- The small primes of the table. -/
def small384 : List Nat :=
  [2, 3, 5, 7, 11, 13, 17, 19, 41, 47, 59, 61, 67, 73, 79, 89, 97, 107, 149, 151, 157, 181, 211,
   233, 251, 347, 421, 491, 599, 659, 661, 881, 1373, 1553, 2213, 3517, 3739, 6317, 8389, 16979,
   21407, 34429, 38557, 64901, 248431, 312289, 330563, 336757, 363557, 455737, 568151, 1276987,
   6051631, 8463023, 9863677]

/-- The primes down from those of P-384. -/
def rows384 : List Lucas.Row := [
  ⟨2862218959, 3, [2, 3, 157, 1373, 2213]⟩,
  ⟨807145746439, 3, [2, 3, 47, 2862218959]⟩,
  ⟨513928823, 5, [2, 11, 59, 599, 661]⟩,
  ⟨53448597593, 3, [2, 2, 2, 13, 513928823]⟩,
  ⟨1357291859799823621, 2, [2, 2, 3, 5, 67, 6317, 53448597593]⟩,
  ⟨105957871, 3, [2, 3, 5, 19, 211, 881]⟩,
  ⟨246608641, 19, [2, 2, 2, 2, 2, 2, 2, 2, 3, 3, 5, 21407]⟩,
  ⟨529709925838459440593, 3, [2, 2, 2, 2, 7, 181, 105957871, 246608641]⟩,
  ⟨532247449, 7, [2, 2, 2, 3, 61, 363557]⟩,
  ⟨44925942675193, 5, [2, 2, 2, 3, 3517, 532247449]⟩,
  ⟨35581458644053887931343, 5, [2, 17, 41, 568151, 44925942675193]⟩,
  ⟨23964610537191310276190549303, 5, [2, 336757, 35581458644053887931343]⟩,
  ⟨862725979338887169942859774909, 2, [2, 2, 3, 3, 23964610537191310276190549303]⟩,
  ⟨20705423504133292078628634597817, 5, [2, 2, 2, 3, 862725979338887169942859774909]⟩,
  ⟨413244619895455989650825325680172591660047, 5,
    [2, 17, 97, 6051631, 20705423504133292078628634597817]⟩,
  ⟨12397338596863679689524759770405177749801411, 2,
    [2, 3, 5, 413244619895455989650825325680172591660047]⟩,
  ⟨19173790298027098165721053155794528970226934547887232785722672956982046098136719667167519737147526097, 3,
    [2, 2, 2, 2, 11, 11, 11, 8389, 38557, 312289, 1357291859799823621, 529709925838459440593,
     12397338596863679689524759770405177749801411]⟩,
  ⟨39402006196394479212279040100143613805079739270465446667948293404245721771496870329047266088258938001861606973112319, 19,
    [2, 19, 67, 807145746439,
     19173790298027098165721053155794528970226934547887232785722672956982046098136719667167519737147526097]⟩,
  ⟨154950581, 2, [2, 2, 5, 17, 455737]⟩,
  ⟨290064143, 5, [2, 79, 491, 3739]⟩,
  ⟨120699720968197491947347, 3, [2, 3, 13, 34429, 154950581, 290064143]⟩,
  ⟨1124679999981664229965379347, 2, [2, 3, 1553, 120699720968197491947347]⟩,
  ⟨1436833069313, 3, [2, 2, 2, 2, 2, 2, 2, 2, 16979, 330563]⟩,
  ⟨37344768852931, 3, [2, 3, 5, 7, 11, 11, 149, 9863677]⟩,
  ⟨55942463741690639, 7, [2, 7, 107, 37344768852931]⟩,
  ⟨272109983, 5, [2, 19, 73, 233, 421]⟩,
  ⟨228572385721, 23, [2, 2, 2, 3, 5, 7, 272109983]⟩,
  ⟨23314383343543, 3, [2, 3, 17, 228572385721]⟩,
  ⟨426632512014427833817, 11, [2, 2, 2, 3, 13, 89, 659, 23314383343543]⟩,
  ⟨1495199339761412565498084319, 6, [2, 3, 3, 3, 64901, 426632512014427833817]⟩,
  ⟨17942392077136950785977011829, 6, [2, 2, 3, 1495199339761412565498084319]⟩,
  ⟨1059392654943455286185473617842338478315215895509773412096307, 2,
    [2, 251, 248431, 8463023, 55942463741690639, 17942392077136950785977011829]⟩,
  ⟨3055465788140352002733946906144561090641249606160407884365391979704929268480326390471, 12,
    [2, 3, 5, 151, 347, 1276987, 1436833069313,
     1059392654943455286185473617842338478315215895509773412096307]⟩,
  ⟨39402006196394479212279040100143613805079739270465446667946905279627659399113263569398956308152294913554433653942643, 2,
    [2, 3, 3, 7, 7, 13, 1124679999981664229965379347,
     3055465788140352002733946906144561090641249606160407884365391979704929268480326390471]⟩]

theorem prime_small384 : ∀ q ∈ small384, q.Prime := by
  unfold small384
  simp only [List.forall_mem_cons]
  norm_num

instance : Fact (Lucas.Checks small384 rows384) := ⟨by decide +kernel⟩

theorem prime_rows384 : ∀ r ∈ rows384, r.p.Prime := by
  have hrows : Lucas.Checks small384 rows384 := Fact.out
  exact hrows.prime prime_small384

def prime384 : Nat :=
  39402006196394479212279040100143613805079739270465446667948293404245721771496870329047266088258938001861606973112319

theorem prime_prime384 : prime384.Prime := prime_rows384 rows384[17] (List.getElem_mem _)

instance : Fact prime384.Prime := ⟨prime_prime384⟩

def order384 : Nat :=
  39402006196394479212279040100143613805079739270465446667946905279627659399113263569398956308152294913554433653942643

theorem prime_order384 : order384.Prime := prime_rows384 rows384[33] (List.getElem_mem _)

instance : Fact order384.Prime := ⟨prime_order384⟩

def b384 : Nat :=
  27580193559959705877849011840389048093056905856361568521428707301988689241309860865136260764883745107765439761230575

def gx384 : Nat :=
  26247035095799689268623156744566981891852923491109213387815615900925518854738050089022388053975719786650872476732087

def gy384 : Nat :=
  8325710961489029985546751289520108179287853048861315594709205902480503199884419224438643760392947333078086511627871

theorem multiple384 :
    ((⟨gx384, gy384, 1⟩ : Triple (ZMod prime384)).mul order384 384).z = 0 := by
  decide +kernel

theorem equation384 :
    (2 : ZMod prime384) ≠ 0 ∧ 27 * (b384 : ZMod prime384) ^ 2 ≠ 108
      ∧ (gy384 : ZMod prime384) ^ 2 = (gx384 : ZMod prime384) ^ 3 - 3 * gx384 + b384 := by
  decide +kernel

theorem base384 {p n b gx gy : Nat} [Fact p.Prime] (hp : p = prime384) (hn : n = order384)
    (hb : b = b384) (hgx : gx = gx384) (hgy : gy = gy384) :
    ∃ h, n • (.some gx gy h : (Jacobian.curve (b : ZMod p)).Point) = 0 := by
  subst hp hn hb hgx hgy
  exact base_of equation384.1 equation384.2.1 equation384.2.2 (by decide +kernel)
    multiple384

theorem sound_p384 : ecc_p384.Sound where
  fresh := rfl
  pos := by decide
  bytes := rfl
  p_width := rfl
  order_width := rfl
  b_width := rfl
  gx_width := rfl
  gy_width := rfl
  p_prime := by
    rw [show value ecc_p384.p = prime384 by decide +kernel]
    exact prime_prime384
  two_lt := by decide +kernel
  order_prime := by
    rw [show value ecc_p384.order = order384 by decide +kernel]
    exact prime_order384
  p_m0 := by decide +kernel
  n_m0 := by decide +kernel
  b_lt := by decide +kernel
  gx_lt := by decide +kernel
  gy_lt := by decide +kernel
  p_lt := by decide +kernel
  top := by decide +kernel
  disc := by decide +kernel
  base := base384 (by decide +kernel) (by decide +kernel) (by decide +kernel) (by decide +kernel)
    (by decide +kernel)

/-! ## The curves, prepared -/

/-- The curves that there are, before and after they have been prepared. -/
def Curves (c : Curve) : Prop :=
  c ∈ [ecc_p256, ecc_p384, ecc_curve_prepare ecc_p256, ecc_curve_prepare ecc_p384]

theorem Curve.Sound.prepare_prepare {c : Curve} (h : c.Sound) :
    ecc_curve_prepare (ecc_curve_prepare c) = ecc_curve_prepare c := by
  have hready : (ecc_curve_prepare c).ready = true := by
    unfold ecc_curve_prepare
    rw [h.fresh]
    rfl
  rw [ecc_curve_prepare.eq_def (ecc_curve_prepare c), hready]
  rfl

/-- What a curve is that the functions work on. -/
structure Curve.Works (c : Curve) : Prop extends Curve.Ready c, Curve.Given c where
  fn : (ecc_fn c).Good
  bytes : c.bytes = 4 * c.n
  gx_width : c.gx.length = c.n
  gy_width : c.gy.length = c.n
  gx_lt : value c.gx < value c.p
  gy_lt : value c.gy < value c.p
  p_lt : value c.p < 2 * value c.order
  top : 2 ^ (32 * c.n) ≤ 2 * value c.order
  base : ∀ [Fact (value c.p).Prime], ∃ h,
    value c.order • (.some (value c.gx) (value c.gy) h : (Jacobian.curve c.coeff).Point) = 0

/-- The constants of a modulus. -/
theorem good_of {m : Words} {n : Nat} (hm : m.length = n) (hn : 0 < n) (hp : (value m).Prime)
    (h2 : 2 < value m) (hm0 : ecc_neg_inv32 (m.headD 0) * m.headD 0 + 1 = 0) :
    (⟨m, ecc_neg_inv32 (m.headD 0), (ecc_compute_rr m n).1, n⟩ : Field).Good
      ∧ Stands ⟨m, ecc_neg_inv32 (m.headD 0), (ecc_compute_rr m n).1, n⟩ (ecc_compute_rr m n).2 1 := by
  have hrr := compute_rr_eq hm hn hp.one_lt
  obtain ⟨hlen, hval⟩ := hrr.half (by omega)
  refine ⟨⟨hm, hrr.width, hn, hp, h2, hm0, hrr.value⟩, ⟨hlen, ?_, ?_⟩⟩
  · rw [hval]
    exact Nat.mod_lt _ hp.pos
  · dsimp only
    rw [hval, ZMod.natCast_mod, Nat.cast_pow, one_mul]
    rfl

/-- **A curve that has been prepared works.** -/
theorem Curve.Sound.works {c : Curve} (h : c.Sound) : (ecc_curve_prepare c).Works := by
  have h2 : 2 < value c.order := by
    have := h.top
    have hpow : 2 ^ 32 ≤ 2 ^ (32 * c.n) := Nat.pow_le_pow_right two_pos (by have := h.pos; omega)
    omega
  obtain ⟨hfp, hone⟩ := good_of h.p_width h.pos h.p_prime h.two_lt h.p_m0
  obtain ⟨hfn, -⟩ := good_of h.order_width h.pos h.order_prime h2 h.n_m0
  unfold ecc_curve_prepare
  rw [h.fresh]
  exact
    { fp := hfp
      one := hone
      b_width := h.b_width
      b_lt := h.b_lt
      disc := h.disc
      fn := hfn
      bytes := h.bytes
      gx_width := h.gx_width
      gy_width := h.gy_width
      gx_lt := h.gx_lt
      gy_lt := h.gy_lt
      p_lt := h.p_lt
      top := h.top
      base := @fun hp => @Curve.Sound.base c h hp }

/-- **The curves that there are work.** -/
theorem Curves.works {c : Curve} (h : Curves c) : (ecc_curve_prepare c).Works := by
  unfold Curves at h
  simp only [List.mem_cons, List.not_mem_nil, or_false] at h
  rcases h with rfl | rfl | rfl | rfl
  · exact sound_p256.works
  · exact sound_p384.works
  · rw [sound_p256.prepare_prepare]
    exact sound_p256.works
  · rw [sound_p384.prepare_prepare]
    exact sound_p384.works

end Ecc
