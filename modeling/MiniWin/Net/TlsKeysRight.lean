import MiniWin.Crypto.Sha2
import MiniWin.Net.TlsKeys

/-!
# The keys of both sides

`tls_prf` writes the first bytes of `P_hash` (`tls_prf_spec`), in whatever place of a block they end:
after `i` rounds the bytes of `i` blocks are there and `A(i + 1)` is in `a`, `prf_loop_spec`. Nothing
is read or written outside of the arrays. So `tls_derive_keys` has the keys of RFC 5246, and whoever
follows it has the same ones (`key_schedule`).
-/

namespace Tls.Schedule

open Net

/-! ## Arrays -/

theorem copy_eq {dst src : List UInt8} {p n : ℕ} (hn : n ≤ src.length) (hp : p + n ≤ dst.length) :
    copy dst p src n = some (dst.take p ++ src.take n ++ dst.drop (p + n)) := if_pos ⟨hn, hp⟩

/-- A copy to the start. -/
theorem copy_zero {dst src : List UInt8} {n : ℕ} (hn : n ≤ src.length) (hp : n ≤ dst.length) :
    copy dst 0 src n = some (src.take n ++ dst.drop n) := by
  rw [copy_eq hn (by omega), List.take_zero, List.nil_append, Nat.zero_add]

/-- A copy behind what is written. -/
theorem copy_behind {l r src : List UInt8} {p n : ℕ} (hl : l.length = p) (hn : n ≤ src.length)
    (hr : n ≤ r.length) : copy (l ++ r) p src n = some (l ++ src.take n ++ r.drop n) := by
  subst hl
  rw [copy_eq hn (by rw [List.length_append]; omega), List.take_left, List.drop_append,
    List.drop_of_length_le (Nat.le_add_right _ _), List.nil_append, Nat.add_sub_cancel_left]

theorem read_eq {src : List UInt8} {p n : ℕ} (h : p + n ≤ src.length) :
    read src p n = some ((src.drop p).take n) := if_pos h

theorem strlen_le : ∀ {s : List UInt8} {n : ℕ}, strlen s = some n → n ≤ s.length
  | c :: s, n, h => by
    unfold strlen at h
    split at h
    · obtain ⟨m, hm, rfl⟩ := Option.map_eq_some_iff.mp h
      exact Nat.succ_le_succ (strlen_le hm)
    · obtain rfl := Option.some.inj h
      exact Nat.zero_le _

/-! ## The codes -/

section Hmac

variable (S : Hashes) (junk : UInt8) (key msg : List UInt8)

/-- **`hmac_sha256` is that of RFC 2104.** -/
theorem hmac_sha256_spec : hmac_sha256 S junk key msg = some (Rfc.hmac S.sha256 64 key msg) := by
  unfold hmac_sha256 Rfc.hmac
  by_cases h : 64 < key.length
  · have hlen := S.length_sha256 key
    rw [if_pos h, if_pos h]
    simp only [Option.bind_eq_bind, Option.pure_def]
    rw [copy_zero (by omega) (by rw [List.length_replicate]; omega), Option.bind_some,
      List.take_of_length_le (by omega), copy_behind hlen (by rw [List.length_replicate])
        (by rw [List.length_drop, List.length_replicate]), Option.bind_some, hlen, List.drop_drop,
      List.drop_of_length_le (by rw [List.length_replicate]), List.append_nil,
      List.take_of_length_le (by rw [List.length_replicate])]
  · rw [if_neg h, if_neg h]
    simp only [Option.bind_eq_bind, Option.pure_def]
    rw [copy_zero (Nat.le_refl _) (by rw [List.length_replicate]; omega), Option.bind_some,
      List.take_length, copy_behind rfl (by rw [List.length_replicate])
        (by rw [List.length_drop, List.length_replicate]), Option.bind_some, List.drop_drop,
      List.drop_of_length_le (by rw [List.length_replicate]; omega), List.append_nil,
      List.take_of_length_le (by rw [List.length_replicate])]

/-- **`hmac_sha384` is that of RFC 2104.** -/
theorem hmac_sha384_spec : hmac_sha384 S junk key msg = some (Rfc.hmac S.sha384 128 key msg) := by
  unfold hmac_sha384 Rfc.hmac
  simp only [Option.bind_eq_bind, Option.pure_def]
  rw [copy_zero (by rw [List.length_replicate]) (by rw [List.length_replicate]), Option.bind_some,
    List.drop_of_length_le (by rw [List.length_replicate]), List.append_nil,
    List.take_of_length_le (by rw [List.length_replicate])]
  by_cases h : 128 < key.length
  · have hlen := S.length_sha384 key
    rw [if_pos h, if_pos h, copy_zero (by omega) (by rw [List.length_replicate]; omega),
      Option.bind_some, List.take_of_length_le (by omega), List.drop_replicate, hlen]
  · rw [if_neg h, if_neg h, copy_zero (Nat.le_refl _) (by rw [List.length_replicate]; omega),
      Option.bind_some, List.take_length, List.drop_replicate]

theorem Rfc.length_hmac {H : List UInt8 → List UInt8} {h : ℕ} (hH : ∀ m, (H m).length = h) (B : ℕ) :
    (Rfc.hmac H B key msg).length = h := hH _

end Hmac

/-! ## Blocks -/

section Blocks

variable {f : ℕ → List UInt8} {h : ℕ}

theorem length_flatMap_range (hf : ∀ i, (f i).length = h) (n : ℕ) :
    ((List.range n).flatMap f).length = n * h := by
  induction n with
  | zero => simp
  | succ n ih => rw [List.range_succ, List.flatMap_append, List.length_append, ih,
      List.flatMap_singleton, hf, Nat.succ_mul]

/-- More blocks than are needed do not change the first bytes. -/
theorem take_more_blocks (hf : ∀ i, (f i).length = h) {k m n : ℕ} (hk : k ≤ m) (hn : n ≤ k * h) :
    ((List.range m).flatMap f).take n = ((List.range k).flatMap f).take n := by
  have hsplit : (List.range m).flatMap f
      = (List.range k).flatMap f ++ ((List.range m).drop k).flatMap f := by
    rw [← List.flatMap_append]
    congr 1
    conv_lhs => rw [← List.take_append_drop k (List.range m)]
    rw [List.take_range, Nat.min_eq_left hk]
  rw [hsplit, List.take_append_of_le_length (by rw [length_flatMap_range hf]; omega)]

/-- **The first bytes of enough blocks**: `i` blocks, and of the next one what is missing. -/
theorem take_flatMap_range (hf : ∀ i, (f i).length = h) {i n : ℕ} (hi : i * h < n)
    (hn : n ≤ (i + 1) * h) :
    (List.range i).flatMap f ++ (f i).take (n - i * h) = ((List.range n).flatMap f).take n := by
  have hpos : 0 < h := by
    by_contra hc
    rw [Nat.eq_zero_of_not_pos hc, Nat.mul_zero] at hn
    omega
  have hle : i + 1 ≤ n := by
    have := Nat.le_mul_of_pos_right i hpos
    omega
  have hmine := length_flatMap_range hf i
  rw [take_more_blocks hf hle hn, List.range_succ, List.flatMap_append, List.take_append, hmine,
    List.flatMap_singleton, List.take_of_length_le (l := (List.range i).flatMap f) (by omega)]

end Blocks

/-! ## `tls_prf` -/

section Prf

variable {S : Hashes} {junk : UInt8} {suite : UInt16} {s : Rfc.Suite}

/-- The suites that are offered are those of the documents. -/
theorem suite_of_supported (S : Hashes) (h : suiteSupported suite = true) :
    Rfc.suite S suite = some (if suiteIsSha384 suite then ⟨S.sha384, 128, 32⟩
      else ⟨S.sha256, 64, 16⟩) := by
  have hcases : suite = 0xC02B ∨ suite = 0xC02C ∨ suite = 0xC02F ∨ suite = 0xC030 :=
    of_decide_eq_true h
  rcases hcases with rfl | rfl | rfl | rfl <;> rfl

/-- The length of a value, which `tls_prf` calls `h`. -/
def hashLen (suite : UInt16) : ℕ := if suiteIsSha384 suite then 48 else 32

/-- The suite whose hash `tls_hmac` takes. -/
def suiteOf (S : Hashes) (suite : UInt16) : Rfc.Suite :=
  if suiteIsSha384 suite then ⟨S.sha384, 128, 32⟩ else ⟨S.sha256, 64, 16⟩

theorem length_suiteOf (m : List UInt8) : ((suiteOf S suite).H m).length = hashLen suite := by
  unfold suiteOf hashLen
  split
  · exact S.length_sha384 m
  · exact S.length_sha256 m

theorem hashLen_le (suite : UInt16) : hashLen suite ≤ 48 ∧ 0 < hashLen suite := by
  unfold hashLen
  split <;> omega

/-- The code of the suite, by the name of its secret. -/
def mac (S : Hashes) (suite : UInt16) (secret : List UInt8) : List UInt8 → List UInt8 :=
  Rfc.hmac (suiteOf S suite).H (suiteOf S suite).B secret

theorem length_mac (secret m : List UInt8) : (mac S suite secret m).length = hashLen suite :=
  Rfc.length_hmac _ _ length_suiteOf _

/-- **`tls_hmac`** writes the code of a message at the start of an array. -/
theorem tls_hmac_spec {out key msg : List UInt8} {key_len msg_len : ℕ}
    (hkey : key_len ≤ key.length) (hmsg : msg_len ≤ msg.length) (hout : out.length = 48) :
    tls_hmac S junk suite out key key_len msg msg_len
      = some (mac S suite (key.take key_len) (msg.take msg_len) ++ out.drop (hashLen suite)) := by
  have hlen := @length_mac S suite (key.take key_len) (msg.take msg_len)
  unfold tls_hmac
  simp only [Option.bind_eq_bind]
  rw [read_eq (by omega), Option.bind_some, read_eq (by omega), Option.bind_some, List.drop_zero,
    List.drop_zero]
  unfold mac suiteOf hashLen at hlen ⊢
  cases h : suiteIsSha384 suite <;> rw [h] at hlen <;>
    simp only [Bool.false_eq_true, if_false, if_true, hmac_sha256_spec, hmac_sha384_spec,
      Option.bind_some] at hlen ⊢
  · rw [copy_zero (by omega) (by omega), List.take_of_length_le (by omega)]
  · rw [copy_zero (by omega) (by omega), List.take_of_length_le (by omega)]

variable {out_len : ℕ} {secret : List UInt8} {secret_len : ℕ} {label_seed ls : List UInt8}
  {out₀ : List UInt8}

/-- **The rounds of `tls_prf`**, from the `i`th on. -/
theorem prf_loop_spec (hsecret : secret_len ≤ secret.length) (hls : ls.length ≤ 256)
    (hlabel : ∃ rest, label_seed = ls ++ rest) (hout : out_len ≤ out₀.length)
    {rounds i produced : ℕ} {out a : List UInt8} (hproduced : produced = i * hashLen suite)
    (hi : i * hashLen suite < out_len) (hrounds : out_len < i + rounds)
    (hwritten : out = (List.range i).flatMap (fun i => mac S suite (secret.take secret_len)
      (Rfc.A (mac S suite (secret.take secret_len)) ls (i + 1) ++ ls))
        ++ out₀.drop (i * hashLen suite))
    (ha : a.length = 48) (hA : ∃ rest, a
      = Rfc.A (mac S suite (secret.take secret_len)) ls (i + 1) ++ rest) :
    prf_loop S junk suite (hashLen suite) out_len secret secret_len label_seed ls.length rounds out
        a produced
      = some (Rfc.p_hash (mac S suite (secret.take secret_len)) ls out_len
          ++ out₀.drop out_len) := by
  obtain ⟨hle48, hpos⟩ := hashLen_le suite
  subst hproduced
  generalize hm : mac S suite (secret.take secret_len) = m at hwritten hA ⊢
  have hlen : ∀ x, (m x).length = hashLen suite := fun x => hm ▸ length_mac _ x
  have hblock : ∀ i, (m (Rfc.A m ls (i + 1) ++ ls)).length = hashLen suite := fun i => hlen _
  induction rounds generalizing i out a with
  | zero =>
    have := Nat.le_mul_of_pos_right i hpos
    omega
  | succ rounds ih =>
    obtain ⟨rest, rfl⟩ := hA
    obtain ⟨rest', rfl⟩ := hlabel
    have hAlen : (Rfc.A m ls (i + 1)).length = hashLen suite := hlen _
    rw [List.length_append, hAlen] at ha
    unfold prf_loop
    rw [if_pos hi]
    simp only [Option.bind_eq_bind]
    -- the arrays of a round
    rw [copy_zero (by rw [List.length_append]; omega) (by rw [List.length_replicate]; omega),
      Option.bind_some, List.take_left' hAlen,
      copy_behind hAlen (by rw [List.length_append]; omega)
        (by rw [List.length_drop, List.length_replicate]; omega), Option.bind_some,
      List.take_left' rfl, tls_hmac_spec hsecret
        (by rw [List.length_append, List.length_append, hAlen]; omega) List.length_replicate,
      Option.bind_some,
      List.take_left' (by rw [List.length_append, hAlen]), hm]
    have htake : min (out_len - i * hashLen suite) (hashLen suite) ≤ (m (Rfc.A m ls (i + 1) ++ ls)
        ++ (List.replicate 48 junk).drop (hashLen suite)).length := by
      rw [List.length_append, hlen]
      omega
    rw [hwritten, copy_behind (length_flatMap_range hblock i) htake (by rw [List.length_drop]; omega),
      Option.bind_some, tls_hmac_spec hsecret (by rw [List.length_append]; omega)
        List.length_replicate, Option.bind_some, List.take_left' hAlen, hm,
      copy_zero (by rw [List.length_append, hlen]; omega) (by rw [List.length_append]; omega),
      Option.bind_some, List.take_left' (hlen _), List.drop_drop,
      List.take_append_of_le_length (by rw [hlen]; omega)]
    have hnext : (i + 1) * hashLen suite = i * hashLen suite + hashLen suite := Nat.succ_mul _ _
    rcases Nat.lt_or_ge ((i + 1) * hashLen suite) out_len with hmore | hlast
    · -- a whole block, and more to come
      rw [Nat.min_eq_right (by omega), List.take_of_length_le (Nat.le_of_eq (hblock i)), ← hnext]
      refine ih hmore (by omega) ?_ ?_ ⟨_, rfl⟩
      · rw [List.length_append, List.length_drop, List.length_append, hlen, hAlen]
        omega
      · rw [List.range_succ, List.flatMap_append, List.flatMap_singleton]
    · -- the last block
      rw [Nat.min_eq_left (by omega), take_flatMap_range hblock hi hlast,
        show i * hashLen suite + (out_len - i * hashLen suite) = out_len by omega]
      cases rounds with
      | zero =>
        have := Nat.le_mul_of_pos_right i hpos
        omega
      | succ rounds =>
        unfold prf_loop
        rw [if_neg (Nat.lt_irrefl _)]
        rfl

/-- **`tls_prf` writes the first bytes of the PRF**, and nothing behind them. -/
theorem tls_prf_spec {out label seed : List UInt8} {label_len seed_len rounds : ℕ}
    (hlabel : strlen label = some label_len) (hfit : label_len + seed_len ≤ 256)
    (hsecret : secret_len ≤ secret.length) (hseed : seed_len ≤ seed.length)
    (hout : out_len ≤ out.length) (hrounds : out_len < rounds) :
    tls_prf S junk rounds suite out out_len secret secret_len label seed seed_len
      = some (Rfc.prf (suiteOf S suite) (secret.take secret_len) (label.take label_len)
          (seed.take seed_len) out_len ++ out.drop out_len) := by
  have hlabel_len := strlen_le hlabel
  have hpre : (label.take label_len).length = label_len := List.length_take_of_le hlabel_len
  have hls : (label.take label_len ++ seed.take seed_len).length = label_len + seed_len := by
    rw [List.length_append, hpre, List.length_take_of_le hseed]
  obtain ⟨hle48, -⟩ := hashLen_le suite
  unfold tls_prf
  simp only [Option.bind_eq_bind]
  rw [hlabel, Option.bind_some, copy_zero hlabel_len (by rw [List.length_replicate]; omega),
    Option.bind_some, copy_behind hpre hseed
      (by rw [List.length_drop, List.length_replicate]; omega), Option.bind_some,
    tls_hmac_spec hsecret (by rw [List.length_append, hls]; omega) List.length_replicate,
    Option.bind_some, List.take_left' hls, ← hls]
  rcases Nat.eq_zero_or_pos out_len with rfl | hpos
  · obtain ⟨rounds, rfl⟩ := Nat.exists_eq_succ_of_ne_zero (Nat.ne_of_gt hrounds)
    unfold prf_loop
    rw [if_neg (Nat.lt_irrefl 0)]
    rfl
  · refine prf_loop_spec hsecret (by omega) ⟨_, rfl⟩ hout (i := 0) (Nat.zero_mul _).symm (by omega)
      (by omega) (by simp) ?_ ⟨_, rfl⟩
    rw [List.length_append, length_mac, List.length_drop, List.length_replicate]
    omega

theorem length_prf (secret label seed : List UInt8) (n : ℕ) :
    (Rfc.prf (suiteOf S suite) secret label seed n).length = n := by
  have hlen : ∀ i, (mac S suite secret (Rfc.A (mac S suite secret) (label ++ seed) (i + 1)
      ++ (label ++ seed))).length = hashLen suite := fun i => length_mac _ _
  have hpos := (hashLen_le suite).2
  refine List.length_take_of_le ?_
  refine (length_flatMap_range hlen n).symm ▸ Nat.le_mul_of_pos_right n hpos

end Prf

/-! ## The keys -/

section Keys

variable {S : Hashes} {junk : UInt8} {c : Conn}

/-- The arrays have the sizes they are declared with. -/
structure Conn.Sized (c : Conn) : Prop where
  client_random : c.client_random.length = 32
  server_random : c.server_random.length = 32
  master_secret : c.master_secret.length = 48
  client_write_iv : c.client_write_iv.length = 4
  server_write_iv : c.server_write_iv.length = 4

/-- **The connection has these keys**, and no other field is touched. -/
structure Conn.Keyed (s : Rfc.Suite) (k : Rfc.Keys) (c c' : Conn) : Prop where
  master_secret : c'.master_secret = k.master_secret
  client_write_aes : c'.client_write_aes
    = Aes.aes_set_key c.client_write_aes k.client_write_key s.enc_key_length
  server_write_aes : c'.server_write_aes
    = Aes.aes_set_key c.server_write_aes k.server_write_key s.enc_key_length
  client_write_iv : c'.client_write_iv = k.client_write_IV
  server_write_iv : c'.server_write_iv = k.server_write_IV
  suite : c'.cipher_suite = c.cipher_suite

/-- The two randoms, in either order. -/
theorem seed_eq (junk : UInt8) {a b : List UInt8} (ha : a.length = 32) (hb : b.length = 32) :
    ∃ seed, copy (List.replicate 64 junk) 0 a 32 = some seed ∧ copy seed 32 b 32 = some (a ++ b) := by
  refine ⟨_, copy_zero (Nat.le_of_eq ha.symm) (by rw [List.length_replicate]; omega), ?_⟩
  rw [List.take_of_length_le (Nat.le_of_eq ha), copy_behind ha (Nat.le_of_eq hb.symm)
    (by rw [List.length_drop, List.length_replicate]), List.take_of_length_le
    (Nat.le_of_eq hb), List.drop_drop, List.drop_of_length_le
    (by rw [List.length_replicate]), List.append_nil]

theorem enc_key_length_suiteOf (S : Hashes) (suite : UInt16) :
    (suiteOf S suite).enc_key_length = suiteKeyLen suite := by
  unfold suiteOf suiteKeyLen
  split <;> rfl

theorem suiteKeyLen_le (suite : UInt16) : suiteKeyLen suite ≤ 32 := by
  unfold suiteKeyLen
  split <;> omega

/-- A copy over the whole of an array. -/
theorem copy_all {dst src : List UInt8} {n : ℕ} (hs : src.length = n) (hd : dst.length = n) :
    copy dst 0 src n = some src := by
  rw [copy_zero (Nat.le_of_eq hs.symm) (Nat.le_of_eq hd.symm), List.take_of_length_le
    (Nat.le_of_eq hs), List.drop_of_length_le (Nat.le_of_eq hd), List.append_nil]

/-- **`tls_derive_keys`** has the keys of RFC 5246. -/
theorem derive_keys_spec (h : c.Sized) {premaster : List UInt8} {premaster_len rounds : ℕ}
    (hpre : premaster_len ≤ premaster.length) (hrounds : 72 < rounds) :
    ∃ c', tls_derive_keys S junk rounds premaster premaster_len c = some c' ∧
      Conn.Keyed (suiteOf S c.cipher_suite) (Rfc.keys (suiteOf S c.cipher_suite)
        (premaster.take premaster_len) c.client_random c.server_random) c c' := by
  obtain ⟨seed, hseed, hseed'⟩ := seed_eq junk h.client_random h.server_random
  obtain ⟨seed2, hseed2, hseed2'⟩ := seed_eq junk h.server_random h.client_random
  have hlen : (c.client_random ++ c.server_random).length = 64 := by
    rw [List.length_append, h.client_random, h.server_random]
  have hlen2 : (c.server_random ++ c.client_random).length = 64 := by
    rw [List.length_append, h.client_random, h.server_random]
  have hk := suiteKeyLen_le c.cipher_suite
  have he := enc_key_length_suiteOf S c.cipher_suite
  unfold tls_derive_keys
  simp only [Option.bind_eq_bind, Option.pure_def]
  rw [hseed, Option.bind_some, hseed', Option.bind_some,
    tls_prf_spec (by decide : strlen (cstr "master secret") = some 13) (by omega) hpre
      (Nat.le_of_eq hlen.symm) (Nat.le_of_eq h.master_secret.symm) (by omega), Option.bind_some,
    List.drop_of_length_le (Nat.le_of_eq h.master_secret), List.append_nil,
    List.take_of_length_le (Nat.le_of_eq hlen), hseed2, Option.bind_some, hseed2',
    Option.bind_some,
    tls_prf_spec (by decide : strlen (cstr "key expansion") = some 13) (by omega)
      (Nat.le_of_eq (length_prf _ _ _ _).symm) (Nat.le_of_eq hlen2.symm)
      (by rw [List.length_replicate]; omega) (by omega), Option.bind_some,
    List.take_of_length_le (Nat.le_of_eq (length_prf _ _ _ _)),
    List.take_of_length_le (Nat.le_of_eq hlen2),
    show (cstr "master secret").take 13 = bytes "master secret" by decide,
    show (cstr "key expansion").take 13 = bytes "key expansion" by decide]
  generalize hm : Rfc.prf (suiteOf S c.cipher_suite) (premaster.take premaster_len)
    (bytes "master secret") (c.client_random ++ c.server_random) 48 = m
  generalize hb : Rfc.prf (suiteOf S c.cipher_suite) m (bytes "key expansion")
    (c.server_random ++ c.client_random) (2 * suiteKeyLen c.cipher_suite + 8) = b
  have hblen : b.length = 2 * suiteKeyLen c.cipher_suite + 8 := hb ▸ length_prf _ _ _ _
  -- the slices of the key block end before what was in the array
  have hslice : ∀ {p n : ℕ}, p + n ≤ 2 * suiteKeyLen c.cipher_suite + 8 →
      ∀ r : List UInt8, read (b ++ r) p n = some ((b.drop p).take n) := fun {p n} hpn r => by
    rw [read_eq (by rw [List.length_append]; omega), List.drop_append_of_le_length (by omega),
      List.take_append_of_le_length (by rw [List.length_drop]; omega)]
  have hfour : ∀ {p : ℕ}, p + 4 ≤ 2 * suiteKeyLen c.cipher_suite + 8 →
      ((b.drop p).take 4).length = 4 := fun {p} hp =>
    List.length_take_of_le (by rw [List.length_drop]; omega)
  rw [hslice (by omega), Option.bind_some, hslice (by omega), Option.bind_some,
    hslice (by omega), Option.bind_some, hslice (by omega), Option.bind_some,
    copy_all (hfour (by omega)) h.client_write_iv, Option.bind_some,
    copy_all (hfour (by omega)) h.server_write_iv, Option.bind_some]
  have hkeys : Rfc.keys (suiteOf S c.cipher_suite) (premaster.take premaster_len) c.client_random
      c.server_random = ⟨m, b.take (suiteKeyLen c.cipher_suite),
        (b.drop (suiteKeyLen c.cipher_suite)).take (suiteKeyLen c.cipher_suite),
        (b.drop (2 * suiteKeyLen c.cipher_suite)).take 4,
        (b.drop (2 * suiteKeyLen c.cipher_suite + 4)).take 4⟩ := by
    unfold Rfc.keys
    dsimp only
    rw [he, hm, show 2 * 4 = 8 from rfl, hb]
  refine ⟨_, rfl, ?_⟩
  rw [hkeys, Nat.two_mul]
  exact ⟨rfl, by rw [List.drop_zero, he], by rw [he], rfl, rfl, rfl⟩

/-- **`tls_compute_finished`** has the bytes of RFC 5246. -/
theorem finished_spec {out label : List UInt8} {label_len rounds : ℕ} (hout : out.length = 12)
    (hlabel : strlen label = some label_len) (hle : label_len ≤ 208)
    (hmaster : c.master_secret.length = 48) (hrounds : 12 < rounds) :
    tls_compute_finished S junk rounds out label c
      = some (Rfc.verify_data (suiteOf S c.cipher_suite) c.master_secret (label.take label_len)
          c.transcript) := by
  have hhash : ∀ {d : List UInt8}, d.length = hashLen c.cipher_suite →
      (suiteOf S c.cipher_suite).H c.transcript = d →
      ((copy (List.replicate 48 junk) 0 d (hashLen c.cipher_suite)).map
        (·, hashLen c.cipher_suite)).bind (fun x =>
        (tls_prf S junk rounds c.cipher_suite (List.replicate 12 junk) 12 c.master_secret 48 label
          x.1 x.2).bind fun full => copy out 0 full 12)
        = some (Rfc.verify_data (suiteOf S c.cipher_suite) c.master_secret (label.take label_len)
          c.transcript) := fun {d} hd hH => by
    have hle48 := (hashLen_le c.cipher_suite).1
    rw [copy_zero (Nat.le_of_eq hd.symm) (by rw [List.length_replicate]; omega), Option.map_some,
      Option.bind_some, List.take_of_length_le (Nat.le_of_eq hd)]
    dsimp only
    rw [tls_prf_spec hlabel (by omega) (Nat.le_of_eq hmaster.symm)
      (by rw [List.length_append]; omega) (by rw [List.length_replicate]) hrounds,
      Option.bind_some, List.take_of_length_le (Nat.le_of_eq hmaster), List.take_left' hd,
      List.drop_of_length_le (by rw [List.length_replicate]), List.append_nil,
      copy_all (length_prf _ _ _ _) hout, Rfc.verify_data, hH]
  have h384 := S.length_sha384 c.transcript
  have h256 := S.length_sha256 c.transcript
  unfold tls_compute_finished
  unfold hashLen suiteOf at hhash
  unfold suiteOf
  simp only [Option.bind_eq_bind]
  cases h : suiteIsSha384 c.cipher_suite <;> rw [h] at hhash
  · exact hhash h256 rfl
  · exact hhash h384 rfl

end Keys

/-- **The key schedule**: the codes are those of RFC 2104, and for every suite that is offered
`tls_prf` is the PRF of RFC 5246 with the hash of the suite, the keys of the connection are those of
the RFC, and so are both Finished values. -/
theorem key_schedule (S : Hashes) (junk : UInt8) :
    (∀ key msg, hmac_sha256 S junk key msg = some (Rfc.hmac S.sha256 64 key msg) ∧
      hmac_sha384 S junk key msg = some (Rfc.hmac S.sha384 128 key msg)) ∧
    ∀ suite, suiteSupported suite = true → ∃ s, Rfc.suite S suite = some s ∧
      (∀ (out : List UInt8) (out_len : ℕ) (secret : List UInt8) (secret_len : ℕ)
        (label seed : List UInt8) (label_len seed_len rounds : ℕ), strlen label = some label_len →
        label_len + seed_len ≤ 256 → secret_len ≤ secret.length → seed_len ≤ seed.length →
        out_len ≤ out.length → out_len < rounds →
        tls_prf S junk rounds suite out out_len secret secret_len label seed seed_len
          = some (Rfc.prf s (secret.take secret_len) (label.take label_len) (seed.take seed_len)
              out_len ++ out.drop out_len)) ∧
      ∀ (c : Conn) (premaster : List UInt8) (premaster_len rounds : ℕ), c.Sized →
        c.cipher_suite = suite → premaster_len ≤ premaster.length → 72 < rounds →
        let k := Rfc.keys s (premaster.take premaster_len) c.client_random c.server_random
        ∃ c', tls_derive_keys S junk rounds premaster premaster_len c = some c' ∧
          Conn.Keyed s k c c' ∧
          ∀ out messages : List UInt8, out.length = 12 →
            tls_compute_finished S junk rounds out (cstr "client finished")
                { c' with transcript := messages }
              = some (Rfc.verify_data s k.master_secret (bytes "client finished") messages) ∧
            tls_compute_finished S junk rounds out (cstr "server finished")
                { c' with transcript := messages }
              = some (Rfc.verify_data s k.master_secret (bytes "server finished") messages) := by
  refine ⟨fun key msg => ⟨hmac_sha256_spec S junk key msg, hmac_sha384_spec S junk key msg⟩,
    fun suite hs => ⟨suiteOf S suite, suite_of_supported S hs, ?_, ?_⟩⟩
  · intro out out_len secret secret_len label seed label_len seed_len rounds hl hf hk hsd ho hr
    exact tls_prf_spec hl hf hk hsd ho hr
  · rintro c premaster premaster_len rounds hc rfl hpre hr
    obtain ⟨c', hc', hkeys⟩ := @derive_keys_spec S junk c hc _ _ _ hpre hr
    refine ⟨c', hc', hkeys, fun out messages hout => ?_⟩
    have hmaster : c'.master_secret.length = 48 := by
      rw [hkeys.master_secret]
      exact length_prf _ _ _ _
    have hclient := @finished_spec S junk { c' with transcript := messages } out _ 15 rounds hout
      (by decide : strlen (cstr "client finished") = some 15) (by omega) hmaster (by omega)
    have hserver := @finished_spec S junk { c' with transcript := messages } out _ 15 rounds hout
      (by decide : strlen (cstr "server finished") = some 15) (by omega) hmaster (by omega)
    refine ⟨hclient.trans ?_, hserver.trans ?_⟩
    · dsimp only
      rw [hkeys.suite, hkeys.master_secret]
      rfl
    · dsimp only
      rw [hkeys.suite, hkeys.master_secret]
      rfl

/-- The hashes of `sha256.h` and `sha512.h`. -/
def sha2 (block : Block) : Hashes where
  sha256 m := Sha2.sha256 m block
  sha384 m := Sha2.sha384 m block
  length_sha256 _ := rfl
  length_sha384 _ := rfl

/-- Twelve bytes with the hash of `sha256.h`. -/
theorem key_schedule_twelve : ∃ s, Rfc.suite (sha2 Block.zero) 0xC02F = some s ∧
    tls_prf (sha2 Block.zero) 0 13 0xC02F (List.replicate 12 0) 12 [1] 1 (cstr "key expansion") [] 0
      = some (Rfc.prf s [1] (bytes "key expansion") [] 12) := by
  obtain ⟨s, hs, hprf, -⟩ := (key_schedule (sha2 Block.zero) 0).2 0xC02F (by decide)
  refine ⟨s, hs, (hprf (List.replicate 12 0) 12 [1] 1 (cstr "key expansion") [] 13 0 13 (by decide)
    (by decide) (by decide) (by decide) (by decide) (by decide)).trans ?_⟩
  rw [show (cstr "key expansion").take 13 = bytes "key expansion" by decide,
    show (List.replicate 12 (0 : UInt8)).drop 12 = [] from rfl, List.append_nil]
  rfl

end Tls.Schedule
