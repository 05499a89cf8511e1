import MiniWin.Mm.HeapSpec

/-!
# The heap: every run

`krealloc` and `mm_check` over the specifications of the other calls, and from them what holds
in every run: the check finds nothing, payloads are apart and inside their chunks, and a call
leaves the bytes of every payload but its own as they were. The memory the region comes with must
not hold what looks like the header of a used block.
-/

namespace Mm

open BoundaryTag

section
variable {live : Nat → Option Nat} {s : Heap} {p q cap : Nat} {n : UInt32}

/-! ## `krealloc` -/

/-- What a `krealloc` that moves the payload `p` of length `cap` to `q` leaves. -/
structure Moved (live : Nat → Option Nat) (s : Heap) (p cap n q : Nat) (s' : Heap) : Prop where
  fresh : live q = none
  ne : q ≠ 0
  good : ∃ cap', n ≤ cap' ∧ Good (Function.update (Function.update live p none) q (some cap')) s'
  same : Same (Function.update live p none) s.ram s'.ram
  copied : ∀ k < cap, s'.ram (q + k) = s.ram (p + k)

/-- **A copy into a fresh payload**, after which the old one is given back. -/
theorem Added.move (hp : live p = some cap) {s' : Heap}
    (hadd : Added live s n.toNat q s') (hn : cap < n.toNat) :
    Moved live s p cap n.toNat q (kfree p (s'.onRam fun ram => ram.copied q p cap)).2 := by
  obtain ⟨cap', hcap, hgood⟩ := hadd.good
  have hqp : q ≠ p := by
    rintro rfl
    rw [hadd.fresh] at hp
    exact nomatch hp
  have hq' : Function.update live q (some cap') q = some cap' := Function.update_self _ _ _
  have hp' : Function.update live q (some cap') p = some cap := by
    rw [Function.update_of_ne (Ne.symm hqp)]
    exact hp
  have hapart := hgood.payloads_apart hp' hq'
  have hpayp := hgood.payload hp'
  have hpayq := hgood.payload hq'
  have hcopy : ∀ k < cap, s'.ram.copied q p cap (q + k) = s'.ram (p + k) :=
    s'.ram.copied_apply (by omega)
  -- the copy holds what the old payload holds, so nothing in it looks used
  obtain ⟨hfill, hsameFill⟩ := @Good.fill _ _ hgood _ _ hq' (s'.ram.copied q p cap)
    (fun j hj => s'.ram.copied_of_outside (by omega)) fun a hal hle hlt => by
      by_cases hin : a < q + cap
      · have hold := hgood.unmarked hp' (a := p + (a - q)) (by omega) (by omega) (by omega)
        intro hmagic
        refine hold ?_
        rw [← hmagic]
        refine Block.le32_congr fun i hi => ?_
        have hk := hcopy (a - q + 8 + i) (by omega)
        rw [show q + (a - q + 8 + i) = a + 8 + i by omega] at hk
        rw [hk]
        congr 1
        omega
      · have hold := hgood.unmarked hq' hal hle hlt
        intro hmagic
        refine hold ?_
        rw [← hmagic]
        exact Block.le32_congr fun i hi => (s'.ram.copied_of_outside (by omega)).symm
  obtain ⟨-, hrem⟩ := hfill.kfree hp'
  have hswap : Function.update (Function.update live q (some cap')) p none
      = Function.update (Function.update live p none) q (some cap') :=
    Function.update_comm hqp _ _ _
  have hremSame := hrem.same
  rw [hswap] at hremSame
  refine ⟨hadd.fresh, hadd.ne, ⟨cap', hcap, hswap ▸ hrem.good⟩, fun r c hr j hj hlt => ?_,
    fun k hk => ?_⟩
  · have hrq : r ≠ q := by
      rintro rfl
      rw [Function.update_of_ne hqp, hadd.fresh] at hr
      exact nomatch hr
    have hrp : r ≠ p := by
      rintro rfl
      rw [Function.update_self] at hr
      exact nomatch hr
    have hr' : live r = some c := by
      rw [Function.update_of_ne hrp] at hr
      exact hr
    have h₁ := hremSame r c (by rw [Function.update_of_ne hrq]; exact hr) j hj hlt
    have h₂ := hsameFill r c (by
      rw [Function.update_idem, Function.update_of_ne hrq]
      exact hr') j hj hlt
    exact h₁.trans (h₂.trans (hadd.same r c hr' j hj hlt))
  · have h₁ := hremSame q cap' (Function.update_self _ _ _) (q + k) (by omega) (by omega)
    exact h₁.trans ((hcopy k hk).trans (hadd.same p cap hp (p + k) (by omega) (by omega)))

/-- What a `krealloc` of a payload comes to. -/
inductive Resized (live : Nat → Option Nat) (s : Heap) (p cap n : Nat) : Nat → Heap → Prop
  /-- It fits already. -/
  | stays (hn : n ≤ cap) : Resized live s p cap n p s
  /-- No place, and the old block is left alone. -/
  | fails {s' : Heap} (good : Good live s') (same : Same live s.ram s'.ram) :
    Resized live s p cap n 0 s'
  | moves {q : Nat} {s' : Heap} (hn : cap < n) (h : Moved live s p cap n q s') :
    Resized live s p cap n q s'

/-- **`krealloc` of a live payload returns.** -/
theorem Good.krealloc (h : Good live s) (hp : live p = some cap) (hn : n ≠ 0) :
    ∃ q s', krealloc p n s = some (q, s') ∧ Resized live s p cap n.toNat q s' := by
  have hpay := h.payload hp
  unfold Mm.krealloc
  rw [if_neg (by omega), if_neg hn, h.usable p, hp, Option.getD_some]
  rw [if_neg (by omega)]
  split
  · next hfit => exact ⟨_, _, rfl, .stays hfit⟩
  next hfit =>
  obtain ⟨q, s', heq, ⟨rfl, hgood, hsame⟩ | hadd⟩ := h.kmalloc n
  · rw [heq]
    exact ⟨_, _, rfl, .fails hgood hsame⟩
  · rw [heq]
    dsimp only
    rw [if_neg hadd.ne]
    exact ⟨_, _, rfl, .moves (by omega) (hadd.move hp (by omega))⟩

/-- **A pointer that is not live is refused**, and counted. -/
theorem Good.krealloc_refused (h : Good live s) (hp : live p = none) (hne : p ≠ 0) :
    Mm.krealloc p n s = some (0, s.bad) := by
  unfold Mm.krealloc
  rw [if_neg hne]
  split
  · rw [h.kfree_refused hp hne]
  · rw [h.usable p, hp, Option.getD_none]
    rfl

/-! ## `mm_check` -/

/-- **The walk of the check ends**, and finds nothing. -/
theorem checkWalk_spec {ram : Block} {c : Chunk} (hc : Placed c) :
    ∀ (post pre : List Blk) (fuel : Nat) (free : Bool), Tiled ram c (pre ++ post) → post ≠ [] →
      post.length ≤ fuel → Merged post → (free = true → ∀ b ∈ post.head?, b.used = true) →
      checkWalk c ram fuel (c.base + total pre) (total pre) (lastSize 0 pre) free 0
        = some (0, c.bytes)
  | [], _, _, _, _, hne, _, _, _ => absurd rfl hne
  | b :: post, _, 0, _, _, _, hfuel, _, _ => absurd hfuel (Nat.not_succ_le_zero _)
  | b :: post, pre, fuel + 1, free, ht, _, hfuel, hm, hfree => by
    have hh := (laid_append.mp ht.laid).2.1
    have hsz := ht.sizes b (by simp)
    have hsum := ht.fills
    have htop := hc.top
    rw [total_append, total_cons] at hsum
    have hmagic : magic ram (c.base + total pre) = tag b.used := hh.tag
    have hsize : size ram (c.base + total pre) = b.size := hh.size
    have hprev : prevSize ram (c.base + total pre) = lastSize 0 pre := hh.prev
    have hseen : (total pre + b.size) % 2 ^ 32 = total pre + b.size :=
      Nat.mod_eq_of_lt (by omega)
    have hside : ¬ (decide (tag b.used = magicFree) = true ∧ free = true) := by
      rintro ⟨hb, hf⟩
      have hu := hfree hf b rfl
      rw [decide_eq_true_eq, tag_eq_free, hu] at hb
      exact nomatch hb
    unfold checkWalk
    rw [hmagic, hsize, hprev, hseen, ht.next_eq hc, if_neg (by cases b.used <;> decide),
      if_neg (by unfold hdrSize; omega)]
    dsimp only
    rw [if_neg hside, if_neg (not_not.mpr rfl)]
    by_cases hpost : post = []
    · rw [if_pos hpost]
      rw [hpost, total_nil] at hsum
      exact congrArg some (Prod.ext rfl (by show total pre + b.size = _; omega))
    rw [if_neg hpost]
    have ht' : Tiled ram c ((pre ++ [b]) ++ post) := by
      rw [List.append_assoc]
      exact ht
    have hmerge := List.isChain_cons.mp hm
    have hnext := checkWalk_spec hc post (pre ++ [b]) fuel (decide (tag b.used = magicFree)) ht'
      hpost (Nat.le_of_succ_le_succ hfuel) hmerge.2 fun hb x hx => by
        rw [decide_eq_true_eq, tag_eq_free] at hb
        exact (hmerge.1 x hx).resolve_left (by rw [hb]; decide)
    simp only [total_append, total_cons, total_nil, Nat.add_zero, lastSize_append, lastSize,
      ← Nat.add_assoc] at hnext
    exact hnext

theorem Ok.checkChunks {lay : Fin 16 → List Blk} {pg : Pages} {chunks : Fin 16 → Chunk}
    (h : Ok lay pg chunks) : ∀ is : List (Fin 16), checkChunks chunks pg.ram is = some 0
  | [] => rfl
  | i :: is => by
    have ih := h.checkChunks is
    unfold Mm.checkChunks
    split
    · exact ih
    next hi =>
    have ht := h.tiled i hi
    have hlen := length_le_total fun b hb => (ht.sizes b hb).1
    rw [ht.fills] at hlen
    have hwalk := checkWalk_spec (h.placed hi) (lay i) [] ((chunks i).bytes / hdrSize) false ht
      (h.blocks_ne hi) (by unfold hdrSize; omega) (h.merged i hi) (fun hf => nomatch hf)
    rw [total_nil, Nat.add_zero] at hwalk
    rw [show lastSize 0 [] = 0 from rfl] at hwalk
    rw [hwalk, ih]
    simp

theorem clearCount_eq (s : Pages) : clearCount s = s.clear.card := by
  unfold clearCount Pages.clear
  rw [List.countP_congr (q := fun p => decide (s.used p = false)) fun p _ => by simp,
    List.countP_eq_length_filter]
  rfl

/-- What `mm_check` counts when it finds nothing. -/
theorem clear_of_mmCheck (h : mmCheck s = some 0) : s.pg.clear.card = s.pg.free_pg := by
  unfold mmCheck at h
  obtain ⟨bad, -, hbad⟩ := Option.map_eq_some_iff.mp h
  rw [clearCount_eq] at hbad
  by_contra hne
  rw [if_pos hne] at hbad
  exact absurd hbad (Nat.succ_ne_zero _)

/-- **`mm_check` finds nothing.** -/
theorem Good.mmCheck (h : Good live s) : mmCheck s = some 0 := by
  obtain ⟨lay, hok, -⟩ := h
  unfold Mm.mmCheck
  rw [show Mm.checkChunks s.chunks s.ram _ = some 0 from hok.checkChunks _, Option.map_some,
    clearCount_eq, hok.pages.count, if_neg (not_not.mpr rfl)]

end

/-! ## Runs -/

/-- What the clients hold when an allocation has returned `q`. -/
def gained (live : Nat → Option Nat) (q : Nat) (s : Heap) : Nat → Option Nat :=
  if q = 0 then live else Function.update live q (some (usable q s))

/-- What the clients hold when `krealloc p n` has returned `q`. -/
def resized (live : Nat → Option Nat) (p : Nat) (n : UInt32) (q : Nat) (s : Heap) :
    Nat → Option Nat :=
  if p ≠ 0 ∧ (q ≠ 0 ∨ n = 0) then gained (Function.update live p none) q s else gained live q s

/-- The clients hold nothing that looks like a used block in the payload `p`. -/
def Unmarked (ram : Block) (p cap : Nat) : Prop :=
  ∀ a, a % 16 = 0 → p ≤ a → a < p + cap → ram.le32 (a + 8) ≠ magicUsed

/-- **The runs of the heap** on some region: the payloads the clients hold, with their lengths,
and the state. `starts` says which regions and which memory a run may begin with. -/
inductive HeapReaches (starts : UInt32 → UInt32 → Block → Prop) :
    (Nat → Option Nat) → Heap → Prop where
  | init {base bytes : UInt32} {ram : Block} {pg : Pages}
      (hmem : base.toNat + bytes.toNat < 2 ^ 32) (hs : starts base bytes ram)
      (h : initRegion base bytes ram = some pg) :
    HeapReaches starts (fun _ => none) (freshHeap pg)
  | kmalloc {live : Nat → Option Nat} {s s' : Heap} {q : Nat} (n : UInt32)
      (h : HeapReaches starts live s) (hr : kmalloc n s = some (q, s')) :
    HeapReaches starts (gained live q s') s'
  | kzalloc {live : Nat → Option Nat} {s s' : Heap} {q : Nat} (n : UInt32)
      (h : HeapReaches starts live s) (hr : kzalloc n s = some (q, s')) :
    HeapReaches starts (gained live q s') s'
  /-- Of any pointer. -/
  | kfree {live : Nat → Option Nat} {s : Heap} (p : Nat) (h : HeapReaches starts live s) :
    HeapReaches starts (Function.update live p none) (kfree p s).2
  /-- Of any pointer. -/
  | krealloc {live : Nat → Option Nat} {s s' : Heap} {q : Nat} (p : Nat) (n : UInt32)
      (h : HeapReaches starts live s) (hr : krealloc p n s = some (q, s')) :
    HeapReaches starts (resized live p n q s') s'
  /-- A client writes into a payload it holds. -/
  | write {live : Nat → Option Nat} {s : Heap} {p cap : Nat} (ram : Block)
      (h : HeapReaches starts live s) (hp : live p = some cap)
      (hout : ∀ j, j < p ∨ p + cap ≤ j → ram j = s.ram j) (hmagic : Unmarked ram p cap) :
    HeapReaches starts live (s.onRam fun _ => ram)

/-- A region whose bitmap there is room for, in memory that holds nothing that looks like a used
block. -/
def CleanStart (base bytes : UInt32) (ram : Block) : Prop :=
  BitmapFits (bytes.toNat / pageSize) ∧ Unmarked ram base.toNat bytes.toNat

/-- **The heap keeps its promises.** -/
structure HeapSafe (live : Nat → Option Nat) (s : Heap) : Prop where
  check : mmCheck s = some 0
  aligned : ∀ p cap, live p = some cap → p % 16 = 0 ∧ usable p s = cap
  inside : ∀ p cap, live p = some cap → ∃ i, (s.chunks i).base ≠ 0
    ∧ (s.chunks i).base + hdrSize ≤ p ∧ p + cap ≤ (s.chunks i).base + (s.chunks i).bytes
  apart : ∀ p q cap cap', live p = some cap → live q = some cap' → p ≠ q →
    p + cap ≤ q ∨ q + cap' ≤ p
  alloc : ∀ n, ∃ q s', kmalloc n s = some (q, s') ∧ Same live s.ram s'.ram
    ∧ (q ≠ 0 → live q = none ∧ n.toNat ≤ usable q s')
  zalloc : ∀ n, ∃ q s', kzalloc n s = some (q, s') ∧ Same live s.ram s'.ram
    ∧ (q ≠ 0 → live q = none ∧ n.toNat ≤ usable q s')
  free : ∀ p cap, live p = some cap → (kfree p s).1 = true
    ∧ Same (Function.update live p none) s.ram (kfree p s).2.ram
  /-- What is not live, stale pointers and pointers into a block included, is refused. -/
  free_refused : ∀ p, live p = none → p ≠ 0 → kfree p s = (false, s.bad)
  free_null : kfree 0 s = (true, s)
  realloc : ∀ p cap n, live p = some cap → n ≠ 0 → ∃ q s', krealloc p n s = some (q, s')
    ∧ Same (Function.update live p none) s.ram s'.ram
    ∧ ((q = 0 ∧ usable p s' = cap ∧ Same live s.ram s'.ram)
      ∨ (q ≠ 0 ∧ n.toNat ≤ usable q s'
        ∧ ∀ k < min cap n.toNat, s'.ram (q + k) = s.ram (p + k)))
  realloc_zero : ∀ p cap, live p = some cap → krealloc p 0 s = some (0, (kfree p s).2)
  realloc_refused : ∀ p n, live p = none → p ≠ 0 → krealloc p n s = some (0, s.bad)
  realloc_null : ∀ n, krealloc 0 n s = kmalloc n s

section
variable {live : Nat → Option Nat} {s s' : Heap} {p q cap n : Nat}

theorem gained_zero : gained live 0 s = live := if_pos rfl

/-- The code's own length of a payload is its length. -/
theorem gained_good (hq : q ≠ 0) {c : Nat} (h : Good (Function.update live q (some c)) s) :
    gained live q s = Function.update live q (some c) := by
  unfold gained
  rw [if_neg hq, h.usable q, Function.update_self, Option.getD_some]

theorem Added.gained (h : Added live s n q s') : Good (gained live q s') s' := by
  obtain ⟨c, -, hgood⟩ := h.good
  rw [gained_good h.ne hgood]
  exact hgood

theorem Good.update_none (h : Good live s) (hp : live p = none) :
    Good (Function.update live p none) s := by
  rw [← hp, Function.update_eq_self]
  exact h

/-- A fresh region holds no payloads. -/
theorem freshHeap_good {base bytes : UInt32} {ram : Block} {pg : Pages}
    (hmem : base.toNat + bytes.toNat < 2 ^ 32) (hs : CleanStart base bytes ram)
    (h : initRegion base bytes ram = some pg) : Good (fun _ => none) (freshHeap pg) := by
  obtain ⟨hbase, hnp, hal, hram⟩ := initRegion_spec h
  have hbytes : pg.npages * pageSize ≤ bytes.toNat := by
    rw [hnp]
    exact Nat.div_mul_le_self _ _
  have hempty : ∀ i : Fin 16, ((freshHeap pg).chunks i).base = 0 := fun _ => rfl
  refine ⟨fun _ => [], ⟨initRegion_sound h hs.1, by show pg.base % pageSize = 0; rw [hbase]; exact hal, ?_,
    fun i hi => absurd (hempty i) hi, fun i hi => absurd (hempty i) hi,
    fun i hi => absurd (hempty i) hi, fun i j _ hi => absurd (hempty i) hi,
    fun q a hle hlt _ ha hal' => ?_⟩, fun p cap => ?_⟩
  · show pg.base + pg.npages * pageSize < 2 ^ 32
    omega
  · have hle : pg.bitmap_pages ≤ q := hle
    have hlt : q < pg.npages := hlt
    obtain ⟨ha₁, ha₂⟩ := ha
    have ha₁ : pg.base + q * pageSize ≤ a := ha₁
    have ha₂ : a < pg.base + (q + 1) * pageSize := ha₂
    have hlow := Nat.mul_le_mul_right pageSize hle
    have hhigh : (q + 1) * pageSize ≤ pg.npages * pageSize := Nat.mul_le_mul_right _ hlt
    have hclean := hs.2 a hal' (by omega) (by omega)
    show pg.ram.le32 (a + 8) ≠ magicUsed
    rw [Block.le32_congr fun i hi => hram _ (by omega)]
    exact hclean
  · refine iff_of_false (fun hc => nomatch hc) ?_
    rintro ⟨i, a, b, hu, -⟩
    exact hu.1 rfl

/-- An allocation that returns, whether with a payload or without. -/
theorem gained_of_alloc (h : (q = 0 ∧ Good live s' ∧ Same live s.ram s'.ram) ∨ Added live s n q s') :
    Good (gained live q s') s' := by
  rcases h with ⟨rfl, hgood, -⟩ | hadd
  · rw [gained_zero]
    exact hgood
  · exact hadd.gained

theorem Good.kfree_any (h : Good live s) (p : Nat) :
    Good (Function.update live p none) (Mm.kfree p s).2 := by
  cases hp : live p with
  | some cap => exact (h.kfree hp).2.good
  | none =>
    by_cases hne : p = 0
    · subst hne
      exact h.update_none hp
    · rw [h.kfree_refused hp hne]
      exact h.bad.update_none hp

theorem Resized.good (h : Good live s) (hp : live p = some cap) {n : UInt32} (hn : n ≠ 0)
    (hr : Resized live s p cap n.toNat q s') : Good (resized live p n q s') s' := by
  have hpay := h.payload hp
  unfold resized
  cases hr with
  | stays =>
    rw [if_pos ⟨by omega, Or.inl (by omega)⟩]
    have hsame : Function.update (Function.update live p none) p (some cap) = live := by
      rw [Function.update_idem, ← hp, Function.update_eq_self]
    rw [gained_good (c := cap) (by omega) (by rw [hsame]; exact h), hsame]
    exact h
  | fails hgood =>
    rw [if_neg fun hc => hc.2.elim (fun hz => hz rfl) hn, gained_zero]
    exact hgood
  | moves _ hm =>
    obtain ⟨c, -, hgood⟩ := hm.good
    rw [if_pos ⟨by omega, Or.inl hm.ne⟩, gained_good hm.ne hgood]
    exact hgood

theorem Good.krealloc_any (h : Good live s) {n : UInt32} (hr : Mm.krealloc p n s = some (q, s')) :
    Good (resized live p n q s') s' := by
  by_cases hp0 : p = 0
  · obtain ⟨q', s₁, heq, hor⟩ := h.kmalloc n
    have hr : Mm.kmalloc n s = some (q, s') := by
      unfold Mm.krealloc at hr
      rw [if_pos hp0] at hr
      exact hr
    obtain ⟨rfl, rfl⟩ := Prod.ext_iff.mp (Option.some.inj (hr.symm.trans heq))
    unfold resized
    rw [if_neg fun hc => hc.1 hp0]
    exact gained_of_alloc hor
  cases hp : live p with
  | none =>
    obtain ⟨rfl, rfl⟩ := Prod.ext_iff.mp (Option.some.inj
      (hr.symm.trans (h.krealloc_refused hp hp0)))
    unfold resized
    split
    · rw [gained_zero]
      exact h.bad.update_none hp
    · rw [gained_zero]
      exact h.bad
  | some cap =>
    by_cases hn : n = 0
    · have hzero : Mm.krealloc p n s = some (0, (Mm.kfree p s).2) := by
        unfold Mm.krealloc
        rw [if_neg hp0, if_pos hn]
      obtain ⟨rfl, rfl⟩ := Prod.ext_iff.mp (Option.some.inj (hr.symm.trans hzero))
      unfold resized
      rw [if_pos ⟨hp0, Or.inr hn⟩, gained_zero]
      exact (h.kfree hp).2.good
    · obtain ⟨q', s₁, heq, hres⟩ := h.krealloc hp hn
      obtain ⟨rfl, rfl⟩ := Prod.ext_iff.mp (Option.some.inj (hr.symm.trans heq))
      exact hres.good h hp hn

/-- **What holds of every run.** -/
theorem HeapReaches.good (h : HeapReaches CleanStart live s) : Good live s := by
  induction h with
  | init hmem hs h => exact freshHeap_good hmem hs h
  | kmalloc n _ hr ih =>
    obtain ⟨p, s₁, heq, hor⟩ := ih.kmalloc n
    obtain ⟨rfl, rfl⟩ := Prod.ext_iff.mp (Option.some.inj (hr.symm.trans heq))
    exact gained_of_alloc hor
  | kzalloc n _ hr ih =>
    obtain ⟨p, s₁, heq, hor⟩ := ih.kzalloc n
    obtain ⟨rfl, rfl⟩ := Prod.ext_iff.mp (Option.some.inj (hr.symm.trans heq))
    exact gained_of_alloc hor
  | kfree p _ ih => exact ih.kfree_any p
  | krealloc p n _ hr ih => exact ih.krealloc_any hr
  | write ram _ hp hout hmagic ih => exact (ih.fill hp hout hmagic).1

/-- What an allocation changes, and what it returns. -/
theorem alloc_outcome
    (h : (q = 0 ∧ Good live s' ∧ Same live s.ram s'.ram) ∨ Added live s n q s') :
    Same live s.ram s'.ram ∧ (q ≠ 0 → live q = none ∧ n ≤ usable q s') := by
  rcases h with ⟨hq, -, hsame⟩ | hadd
  · exact ⟨hsame, fun hne => absurd hq hne⟩
  · obtain ⟨c, hc, hgood⟩ := hadd.good
    refine ⟨hadd.same, fun _ => ⟨hadd.fresh, ?_⟩⟩
    rw [hgood.usable q, Function.update_self, Option.getD_some]
    exact hc

theorem Same.update {ram ram' : Block} (h : Same live ram ram') :
    Same (Function.update live p none) ram ram' := by
  intro r c hr
  refine h r c ?_
  have hne : r ≠ p := by
    rintro rfl
    rw [Function.update_self] at hr
    exact nomatch hr
  rw [Function.update_of_ne hne] at hr
  exact hr

theorem Good.realloc_outcome (h : Good live s) (hp : live p = some cap) {n : UInt32}
    (hr : Resized live s p cap n.toNat q s') :
    Same (Function.update live p none) s.ram s'.ram
      ∧ ((q = 0 ∧ Mm.usable p s' = cap ∧ Same live s.ram s'.ram)
        ∨ (q ≠ 0 ∧ n.toNat ≤ Mm.usable q s'
          ∧ ∀ k < min cap n.toNat, s'.ram (q + k) = s.ram (p + k))) := by
  have hpay := h.payload hp
  cases hr with
  | stays hn =>
    refine ⟨Same.refl _, Or.inr ⟨by omega, ?_, fun _ _ => rfl⟩⟩
    rw [h.usable p, hp]
    exact hn
  | fails hgood hsame =>
    refine ⟨hsame.update, Or.inl ⟨rfl, ?_, hsame⟩⟩
    rw [hgood.usable p, hp]
    rfl
  | moves hn hm =>
    obtain ⟨c, hc, hgood⟩ := hm.good
    refine ⟨hm.same, Or.inr ⟨hm.ne, ?_, fun k hk => hm.copied k (by omega)⟩⟩
    rw [hgood.usable q, Function.update_self, Option.getD_some]
    exact hc

/-- **The heap is safe in every run** that begins in clean memory. -/
theorem heap_safe (h : HeapReaches CleanStart live s) : HeapSafe live s := by
  have hg := h.good
  refine ⟨hg.mmCheck, fun p cap hp => ⟨(hg.payload hp).1, ?_⟩, fun p cap hp => ?_,
    fun p q cap cap' hp hq hne => ?_, fun n => ?_, fun n => ?_, fun p cap hp => ?_,
    fun p hp hne => hg.kfree_refused hp hne, rfl, fun p cap n hp hn => ?_, fun p cap hp => ?_,
    fun p n hp hne => hg.krealloc_refused hp hne, fun n => rfl⟩
  · rw [hg.usable p, hp]
    rfl
  · obtain ⟨lay, hok, hlive⟩ := hg
    obtain ⟨i, a, b, hu, rfl, hb⟩ := (hlive p cap).mp hp
    have hr := (hok.tiled i hu.1).range hu.2.1
    exact ⟨i, hu.1, by unfold hdrSize; omega, by omega⟩
  · rcases hg.payloads_apart hp hq with heq | hlt | hlt
    · exact absurd heq hne
    · exact Or.inl (by omega)
    · exact Or.inr (by omega)
  · obtain ⟨q, s', heq, hor⟩ := hg.kmalloc n
    exact ⟨q, s', heq, alloc_outcome hor⟩
  · obtain ⟨q, s', heq, hor⟩ := hg.kzalloc n
    exact ⟨q, s', heq, alloc_outcome hor⟩
  · obtain ⟨htrue, hrem⟩ := hg.kfree hp
    exact ⟨htrue, hrem.same⟩
  · obtain ⟨q, s', heq, hres⟩ := hg.krealloc hp hn
    exact ⟨q, s', heq, hg.realloc_outcome hp hres⟩
  · have hpay := hg.payload hp
    unfold Mm.krealloc
    rw [if_neg (by omega), if_pos rfl]

end

/-- The heap of a region at `0x900000`. -/
def firstHeap (bytes : UInt32) (ram : Block) : Heap :=
  freshHeap ((initRegion 0x900000 bytes ram).getD ⟨0, 0, 0, 0, 0, 0, 0, Block.zero, []⟩)

/-- The heap when a call has been made on it. -/
def after (r : Option (Nat × Heap)) : Heap :=
  (r.map Prod.snd).getD (firstHeap 0x18000 Block.zero)

theorem after_eq {r : Option (Nat × Heap)} {q : Nat} (h : r.map Prod.fst = some q) :
    r = some (q, after r) := by
  cases r with
  | none => exact nomatch h
  | some x =>
    obtain rfl := Option.some.inj h
    rfl

theorem firstHeap_reaches {starts : UInt32 → UInt32 → Block → Prop} {bytes : UInt32} {ram : Block}
    (hs : starts 0x900000 bytes ram) (hmem : bytes.toNat < 2 ^ 31) (hpages : 8 ≤ bytes.toNat / 4096) :
    HeapReaches starts (fun _ => none) (firstHeap bytes ram) := by
  obtain ⟨pg, hpg⟩ : ∃ pg, initRegion 0x900000 bytes ram = some pg := by
    unfold initRegion pageSize
    rw [if_neg]
    · exact ⟨_, rfl⟩
    · rw [not_or, not_or]
      exact ⟨by decide, by omega, by decide⟩
  have hfirst : firstHeap bytes ram = freshHeap pg := by
    unfold firstHeap
    rw [hpg]
    rfl
  rw [hfirst]
  refine .init ?_ hs hpg
  show 9437184 + bytes.toNat < 2 ^ 32
  omega

theorem cleanStart_zero : CleanStart 0x900000 0x18000 Block.zero :=
  ⟨Or.inr (by decide), fun _ _ _ _ => by rw [Block.le32_zero]; decide⟩

/-- A payload of 100 bytes, one of 20 behind it, and the first is given back. -/
theorem heap_safe_two :
    (kmalloc 100 (firstHeap 0x18000 Block.zero)).map Prod.fst = some 0x901010
    ∧ (kmalloc 20 (after (kmalloc 100 (firstHeap 0x18000 Block.zero)))).map Prod.fst
        = some 0x901090
    ∧ HeapSafe (Function.update (Function.update (Function.update (fun _ => none)
          0x901010 (some 112)) 0x901090 (some 32)) 0x901010 none)
        (kfree 0x901010 (after (kmalloc 20
          (after (kmalloc 100 (firstHeap 0x18000 Block.zero)))))).2 := by
  have hfirst : (kmalloc 100 (firstHeap 0x18000 Block.zero)).map Prod.fst = some 0x901010 := by
    decide +kernel
  have hsecond : (kmalloc 20 (after (kmalloc 100 (firstHeap 0x18000 Block.zero)))).map Prod.fst
      = some 0x901090 := by decide +kernel
  have hinit : HeapReaches CleanStart (fun _ => none) (firstHeap 0x18000 Block.zero) :=
    firstHeap_reaches cleanStart_zero (by decide) (by decide)
  have hrun := ((hinit.kmalloc 100 (after_eq hfirst)).kmalloc 20 (after_eq hsecond)).kfree 0x901010
  refine ⟨hfirst, hsecond, ?_⟩
  unfold gained at hrun
  rw [if_neg (by decide), if_neg (by decide),
    show usable 0x901010 (after (kmalloc 100 (firstHeap 0x18000 Block.zero))) = 112 by
      decide +kernel,
    show usable 0x901090 (after (kmalloc 20 (after (kmalloc 100 (firstHeap 0x18000 Block.zero)))))
      = 32 by decide +kernel] at hrun
  exact heap_safe hrun

/-- Memory that holds the header of a used block of 32 bytes at `0x901040`. -/
def staleMemory : Block := (Block.zero.put32 0x901040 32).put32 0x901048 magicUsed

/-- **What the heap does not promise.** `NULL` is not live, and `kfree` of it returns 1.
`krealloc` of a live payload to 0 bytes returns `NULL` and the payload is not live any more. In
memory that holds a stale header, `kfree` accepts a pointer behind it. And where the bitmap has
no room for the bits of the last pages, the check finds a problem. -/
theorem heap_unsafe :
    (¬ ∀ live s, HeapReaches CleanStart live s → ∀ p, live p = none → (kfree p s).1 = false)
    ∧ (¬ ∀ live s, HeapReaches CleanStart live s → ∀ p cap n s', live p = some cap →
      krealloc p n s = some (0, s') → usable p s' = cap)
    ∧ (¬ ∀ live s, HeapReaches (fun _ bytes _ => BitmapFits (bytes.toNat / pageSize)) live s →
      ∀ p, live p = none → p ≠ 0 → (kfree p s).1 = false)
    ∧ ¬ ∀ live s, HeapReaches (fun base bytes ram => Unmarked ram base.toNat bytes.toNat) live s →
      mmCheck s = some 0 := by
  refine ⟨fun h => ?_, fun h => ?_, fun h => ?_, fun h => ?_⟩
  · have hinit : HeapReaches CleanStart (fun _ => none) (firstHeap 0x18000 Block.zero) :=
      firstHeap_reaches cleanStart_zero (by decide) (by decide)
    exact absurd (h _ _ hinit 0 rfl) (by decide)
  · have hfirst : (kmalloc 100 (firstHeap 0x18000 Block.zero)).map Prod.fst = some 0x901010 := by
      decide +kernel
    have hinit : HeapReaches CleanStart (fun _ => none) (firstHeap 0x18000 Block.zero) :=
      firstHeap_reaches cleanStart_zero (by decide) (by decide)
    have hrun := hinit.kmalloc 100 (after_eq hfirst)
    unfold gained at hrun
    rw [if_neg (by decide)] at hrun
    have hkept := h _ _ hrun 0x901010 _ 0 _ (Function.update_self _ _ _) rfl
    exact absurd hkept (by decide +kernel)
  · have hfirst : (kmalloc 16 (firstHeap 0x18000 staleMemory)).map Prod.fst = some 0x901010 := by
      decide +kernel
    have hinit : HeapReaches (fun _ bytes _ => BitmapFits (bytes.toNat / pageSize))
        (fun _ => none) (firstHeap 0x18000 staleMemory) :=
      firstHeap_reaches (Or.inr (by decide)) (by decide) (by decide)
    have hrun := hinit.kmalloc 16 (after_eq hfirst)
    unfold gained at hrun
    rw [if_neg (by decide)] at hrun
    have hrefused := h _ _ hrun 0x901050 (Function.update_of_ne (by decide) _ _) (by decide)
    exact absurd hrefused (by decide +kernel)
  · have hfirst : (kmalloc 32 (firstHeap 0x8005000 Block.zero)).map Prod.fst = some 0x901010 := by
      decide +kernel
    have hinit : HeapReaches (fun base bytes ram => Unmarked ram base.toNat bytes.toNat)
        (fun _ => none) (firstHeap 0x8005000 Block.zero) :=
      firstHeap_reaches (fun _ _ _ _ => by rw [Block.le32_zero]; decide) (by decide) (by decide)
    have hcount := clear_of_mmCheck (h _ _ (hinit.kmalloc 32 (after_eq hfirst)))
    -- sixteen pages are handed out, and the size of the first block marks the last page
    have hsub : (after (kmalloc 32 (firstHeap 0x8005000 Block.zero))).pg.clear
        ⊆ Finset.Ico 17 32772 := by
      intro q hq
      obtain ⟨⟨hle, hlt⟩, hfree⟩ := Pages.mem_clear.mp hq
      have hlow : (after (kmalloc 32 (firstHeap 0x8005000 Block.zero))).pg.bitmap_pages = 1 := by
        decide +kernel
      have hhigh : (after (kmalloc 32 (firstHeap 0x8005000 Block.zero))).pg.npages = 32773 := by
        decide +kernel
      have hused : ∀ q < 17, 1 ≤ q →
          (after (kmalloc 32 (firstHeap 0x8005000 Block.zero))).pg.used q = true := by
        decide +kernel
      have hlast : (after (kmalloc 32 (firstHeap 0x8005000 Block.zero))).pg.used 32772 = true := by
        decide +kernel
      rw [hlow] at hle
      rw [hhigh] at hlt
      rw [Finset.mem_Ico]
      constructor
      · by_contra hq17
        exact absurd ((hused q (by omega) hle).symm.trans hfree) (by decide)
      · by_contra hq2
        obtain rfl : q = 32772 := by omega
        exact absurd (hlast.symm.trans hfree) (by decide)
    have hcard := Finset.card_le_card hsub
    rw [hcount, Nat.card_Ico] at hcard
    exact absurd hcard (by decide +kernel)

end Mm
