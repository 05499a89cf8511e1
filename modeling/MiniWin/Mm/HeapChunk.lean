import MiniWin.Lib.BoundaryTag
import MiniWin.Mm.Heap

/-!
# One chunk of the heap

What `mm_carve` and the merges of `kfree` do to the blocks of a chunk. Each replaces a part of
the list of blocks by another of the same length, writes in that part only, and tells the block
behind it the new size. A word of the used magic at a 16-aligned place is always the header of a
used block: this is what `kfree` trusts.
-/

namespace Mm

open BoundaryTag

/-- The magic of a used and of a free block. -/
def tag (used : Bool) : Nat := if used then magicUsed else magicFree

theorem tag_lt (used : Bool) : tag used < 4294967296 := by cases used <;> decide

@[simp] theorem tag_eq_used {used : Bool} : tag used = magicUsed ↔ used = true := by
  cases used <;> decide

@[simp] theorem tag_eq_free {used : Bool} : tag used = magicFree ↔ used = false := by
  cases used <;> decide

/-- **The blocks of a chunk**, whether neighbours are merged or not. -/
structure Tiled (ram : Block) (c : Chunk) (bs : List Blk) : Prop where
  laid : Laid tag ram c.base 0 bs
  sizes : ∀ b ∈ bs, 32 ≤ b.size ∧ b.size % 16 = 0
  fills : total bs = c.bytes
  /-- Only the header of a used block looks like one. -/
  tagged : ∀ a, c.base ≤ a → a < c.base + c.bytes → a % 16 = 0 → ram.le32 (a + 8) = magicUsed →
    ∃ b, At bs c.base a b ∧ b.used = true

/-- A chunk is aligned, and does not reach the end of the address space. -/
structure Placed (c : Chunk) : Prop where
  aligned : c.base % 16 = 0
  top : c.base + c.bytes < 2 ^ 32

section
variable {ram ram' : Block} {c : Chunk} {bs pre mid mid' post : List Blk} {a h : Nat} {b : Blk}

theorem Tiled.header (ht : Tiled ram c bs) (hb : At bs c.base a b) :
    ∃ prev, Header tag ram a prev b := ht.laid.header hb

theorem Tiled.range (ht : Tiled ram c bs) (hb : At bs c.base a b) :
    c.base ≤ a ∧ a + b.size ≤ c.base + c.bytes := by
  have := hb.range
  rw [ht.fills] at this
  exact this

/-- A part begins at a 16-aligned place. -/
theorem Tiled.start_aligned (ht : Tiled ram c (pre ++ mid)) (hc : Placed c) :
    (c.base + total pre) % 16 = 0 := by
  have hsum : ∀ l : List Blk, (∀ x ∈ l, x.size % 16 = 0) → total l % 16 = 0 := by
    intro l hl
    induction l with
    | nil => rfl
    | cons x l ih =>
      have hx := hl x List.mem_cons_self
      have := ih fun y hy => hl y (List.mem_cons_of_mem _ hy)
      rw [total_cons]
      omega
  have := hsum pre fun x hx => (ht.sizes x (List.mem_append_left _ hx)).2
  have := hc.aligned
  omega

/-- Blocks begin at 16-aligned places. -/
theorem Tiled.aligned (ht : Tiled ram c bs) (hc : Placed c) (hb : At bs c.base a b) :
    a % 16 = 0 := by
  obtain ⟨pre, post, rfl, rfl⟩ := hb
  exact ht.start_aligned hc

/-- A list of blocks is no longer than the stretch allows. -/
theorem length_le_total (hsizes : ∀ b ∈ bs, 32 ≤ b.size) : bs.length * 32 ≤ total bs := by
  induction bs with
  | nil => exact Nat.le_refl 0
  | cons b bs ih =>
    have hb := hsizes b List.mem_cons_self
    have := ih fun x hx => hsizes x (List.mem_cons_of_mem _ hx)
    rw [List.length_cons, total_cons]
    omega

/-- **The block behind a block.** -/
theorem Tiled.next_eq (ht : Tiled ram c (pre ++ b :: post)) (hc : Placed c) :
    next c ram (c.base + total pre) =
      if post = [] then none else some (c.base + total pre + b.size) := by
  have hh := (laid_append.mp ht.laid).2.1
  have htotal := ht.fills
  rw [total_append, total_cons] at htotal
  have htop := hc.top
  unfold next size
  rw [hh.size, Nat.mod_eq_of_lt (by omega)]
  cases post with
  | nil =>
    rw [total_nil] at htotal
    rw [if_pos rfl, if_pos (by omega)]
  | cons x post =>
    have hx := (ht.sizes x (by simp)).1
    rw [total_cons] at htotal
    rw [if_neg (List.cons_ne_nil _ _), if_neg (by omega)]

/-- **The block in front of a block.** -/
theorem Tiled.prev_eq (ht : Tiled ram c (pre ++ b :: post)) (hc : Placed c) :
    prev c ram (c.base + total pre) =
      if pre = [] then none else some (c.base + total pre - lastSize 0 pre) := by
  have hh := (laid_append.mp ht.laid).2.1
  unfold prev prevSize
  rw [hh.prev]
  have htotal := ht.fills
  rw [total_append, total_cons] at htotal
  have htop := hc.top
  rcases List.eq_nil_or_concat pre with rfl | ⟨init, x, rfl⟩
  · rw [if_pos rfl, if_pos (by rfl)]
  · have hx := (ht.sizes x (by simp)).1
    simp only [List.concat_eq_append, total_append, total_cons, total_nil, lastSize_append,
      lastSize] at htotal ⊢
    rw [if_neg (by omega), if_neg (by simp)]
    congr 1
    omega

/-! ## Replacing a part -/

/-- The part of `len` bytes from `h` on is written, and perhaps the word behind it where the next
block has the size of the one in front. -/
def Edits (ram ram' : Block) (h len : Nat) (post : List Blk) : Prop :=
  ∀ j, j < h ∨ h + len ≤ j ∧ (post = [] ∨ j < h + len + 4 ∨ h + len + 8 ≤ j) → ram' j = ram j

/-- **A part of the blocks is replaced.** -/
structure Replaced (ram : Block) (c : Chunk) (pre mid post : List Blk) (ram' : Block)
    (mid' : List Blk) : Prop where
  tiled : Tiled ram' c (pre ++ (mid' ++ post))
  /-- The blocks in front and behind keep what they hold. -/
  kept : ∀ a b, At pre c.base a b ∨ At post (c.base + total pre + total mid) a b →
    ∀ j, a + 16 ≤ j → j < a + b.size → ram' j = ram j
  outside : ∀ j, j < c.base ∨ c.base + c.bytes ≤ j → ram' j = ram j
  same_total : total mid' = total mid

theorem Tiled.replace (ht : Tiled ram c (pre ++ (mid ++ post)))
    (hlaid : Laid tag ram' (c.base + total pre) (lastSize 0 pre) mid')
    (hsizes : ∀ b ∈ mid', 32 ≤ b.size ∧ b.size % 16 = 0) (htotal : total mid' = total mid)
    (hedits : Edits ram ram' (c.base + total pre) (total mid) post)
    (hprev : post ≠ [] → ram'.le32 (c.base + total pre + total mid + 4) = lastSize 0 (pre ++ mid'))
    (htag : ∀ a, c.base + total pre ≤ a → a < c.base + total pre + total mid → a % 16 = 0 →
      ram'.le32 (a + 8) = magicUsed → ∃ b, At mid' (c.base + total pre) a b ∧ b.used = true)
    (hc : Placed c) : Replaced ram c pre mid post ram' mid' := by
  have hstart := ht.start_aligned hc
  obtain ⟨hpre, hrest⟩ := laid_append.mp ht.laid
  obtain ⟨-, hpost⟩ := laid_append.mp hrest
  have hsum := ht.fills
  rw [total_append, total_append] at hsum
  have hsz := ht.sizes
  have hpre16 : ∀ b ∈ pre, 16 ≤ b.size := fun b hb =>
    Nat.le_trans (by decide) (hsz b (List.mem_append_left _ hb)).1
  have hpostsz : ∀ b ∈ post, 32 ≤ b.size := fun b hb =>
    (hsz b (List.mem_append_right _ (List.mem_append_right _ hb))).1
  have hpost0 : post ≠ [] → 32 ≤ total post := by
    intro hne
    have := length_le_total hpostsz
    have := List.length_pos_iff.mpr hne
    omega
  have hpre' : Laid tag ram' c.base 0 pre := hpre.congr hpre16 fun j _ hj => hedits j (Or.inl hj)
  have hpost' : Laid tag ram' (c.base + total pre + total mid') (lastSize 0 (pre ++ mid')) post := by
    rw [htotal]
    cases hp : post with
    | nil => trivial
    | cons x post₂ =>
      rw [hp] at hpost hprev
      have hne : x :: post₂ ≠ [] := List.cons_ne_nil _ _
      have hx := hpostsz x (hp ▸ List.mem_cons_self)
      refine ⟨⟨?_, hprev hne, ?_⟩, ?_⟩
      · rw [← hpost.1.size]
        exact Block.le32_congr fun i hi => hedits _ (Or.inr ⟨by omega, Or.inr (by omega)⟩)
      · rw [← hpost.1.tag]
        exact Block.le32_congr fun i hi => hedits _ (Or.inr ⟨by omega, Or.inr (by omega)⟩)
      · refine hpost.2.congr (fun y hy => ?_) fun j hj _ =>
          hedits j (Or.inr ⟨by omega, Or.inr (by omega)⟩)
        exact Nat.le_trans (by decide) (hpostsz y (hp ▸ List.mem_cons_of_mem _ hy))
  refine ⟨⟨?_, ?_, ?_, ?_⟩, ?_, ?_, htotal⟩
  · rw [laid_append, laid_append]
    rw [lastSize_append] at hpost'
    exact ⟨hpre', hlaid, hpost'⟩
  · intro b hb
    rcases List.mem_append.mp hb with hb | hb
    · exact hsz b (List.mem_append_left _ hb)
    · rcases List.mem_append.mp hb with hb | hb
      · exact hsizes b hb
      · exact hsz b (List.mem_append_right _ (List.mem_append_right _ hb))
  · rw [total_append, total_append, htotal, hsum]
  · intro a hle hlt hal hmagic
    have hmid : ∃ b, (At pre c.base a b ∨ At mid' (c.base + total pre) a b
        ∨ At post (c.base + total pre + total mid) a b) ∧ b.used = true := by
      by_cases hin : c.base + total pre ≤ a ∧ a < c.base + total pre + total mid
      · obtain ⟨b, hb, hu⟩ := htag a hin.1 hin.2 hal hmagic
        exact ⟨b, Or.inr (Or.inl hb), hu⟩
      -- outside the part that was replaced, the word is as it was
      have hH : (c.base + total pre) % 16 = 0 := hstart
      have hold : ram.le32 (a + 8) = magicUsed := by
        rw [← hmagic]
        refine (Block.le32_congr fun i hi => hedits _ ?_).symm
        by_cases hlow : a < c.base + total pre
        · exact Or.inl (by omega)
        · exact Or.inr ⟨by omega, Or.inr (by omega)⟩
      obtain ⟨b, hb, hu⟩ := ht.tagged a hle hlt hal hold
      rw [at_append, at_append] at hb
      rcases hb with hb | hb | hb
      · exact ⟨b, Or.inl hb, hu⟩
      · have := hb.range
        have := (hsz b (List.mem_append_right _ (List.mem_append_left _ hb.mem))).1
        exact absurd ⟨by omega, by omega⟩ hin
      · exact ⟨b, Or.inr (Or.inr hb), hu⟩
    obtain ⟨b, hb, hu⟩ := hmid
    exact ⟨b, by rw [at_append, at_append, htotal]; exact hb, hu⟩
  · rintro a b (hb | hb) j hj hlt
    · have := hb.range
      exact hedits j (Or.inl (by omega))
    · have := hb.range
      exact hedits j (Or.inr ⟨by omega, Or.inr (by omega)⟩)
  · intro j hj
    rcases hj with hj | hj
    · exact hedits j (Or.inl (by omega))
    · refine hedits j (Or.inr ⟨by omega, ?_⟩)
      by_cases hne : post = []
      · exact Or.inl hne
      · have := hpost0 hne
        exact Or.inr (by omega)

/-! ## The operations -/

/-- The header of a used block in the part that is replaced. -/
theorem Tiled.tagged_mid (ht : Tiled ram c (pre ++ (mid ++ post))) (hle : c.base + total pre ≤ a)
    (hlt : a < c.base + total pre + total mid) (hal : a % 16 = 0)
    (hmagic : ram.le32 (a + 8) = magicUsed) :
    ∃ b, At mid (c.base + total pre) a b ∧ b.used = true := by
  have hsum := ht.fills
  rw [total_append, total_append] at hsum
  obtain ⟨b, hb, hu⟩ := ht.tagged a (by omega) (by omega) hal hmagic
  have h32 := (ht.sizes b hb.mem).1
  rw [at_append, at_append] at hb
  rcases hb with hb | hb | hb
  · have := hb.range
    omega
  · exact ⟨b, hb, hu⟩
  · have := hb.range
    omega

/-- `mm_next` when the size of the header is known. -/
theorem next_of_size {v : Nat} (hv : size ram h = v) (hle : h + v ≤ c.base + c.bytes) (hc : Placed c) :
    next c ram h = if h + v = c.base + c.bytes then none else some (h + v) := by
  have htop := hc.top
  unfold next
  rw [hv, Nat.mod_eq_of_lt (by omega)]
  exact if_congr (by omega) rfl rfl

/-- What `tellNext` writes. -/
theorem tellNext_eq {v : Nat} (hv : size ram h = v) (hle : h + v ≤ c.base + c.bytes) (hc : Placed c) :
    tellNext c h ram =
      if h + v = c.base + c.bytes then ram else ram.put32 (h + v + 4) v := by
  unfold tellNext
  rw [next_of_size hv hle hc]
  by_cases hend : h + v = c.base + c.bytes
  · rw [if_pos hend, if_pos hend]
  · rw [if_neg hend, if_neg hend, hv]
    rfl

theorem Tiled.part (ht : Tiled ram c (pre ++ (mid ++ post))) :
    Laid tag ram (c.base + total pre) (lastSize 0 pre) mid
      ∧ Laid tag ram (c.base + total pre + total mid) (lastSize 0 (pre ++ mid)) post
      ∧ total pre + (total mid + total post) = c.bytes
      ∧ (post = [] ∨ 32 ≤ total post) := by
  obtain ⟨-, hrest⟩ := laid_append.mp ht.laid
  obtain ⟨hmid, hpost⟩ := laid_append.mp hrest
  refine ⟨hmid, by rw [lastSize_append]; exact hpost, ?_, ?_⟩
  · rw [← ht.fills, total_append, total_append]
  · cases post with
    | nil => exact Or.inl rfl
    | cons x post =>
      have hx := (ht.sizes x (by simp)).1
      rw [total_cons]
      exact Or.inr (by omega)

/-- **A block is marked.** -/
theorem Tiled.mark {sz : Nat} {u v : Bool} (ht : Tiled ram c (pre ++ ([⟨sz, u⟩] ++ post)))
    (hc : Placed c) :
    Replaced ram c pre [⟨sz, u⟩] post (setMagic (c.base + total pre) (tag v) ram) [⟨sz, v⟩] := by
  have hH := ht.start_aligned hc
  have hsz : 32 ≤ sz ∧ sz % 16 = 0 := ht.sizes ⟨sz, u⟩ (by simp)
  obtain ⟨⟨hh, -⟩, hpost, hsum, -⟩ := ht.part
  have htagged := fun a => ht.tagged_mid (a := a)
  generalize hHeq : c.base + total pre = H at *
  simp only [total_cons, total_nil] at hpost hsum htagged ⊢
  unfold setMagic
  have hlaid : Laid tag (ram.put32 (H + 8) (tag v)) H (lastSize 0 pre) [⟨sz, v⟩] := by
    refine ⟨⟨?_, ?_, ?_⟩, trivial⟩
    · rw [Block.le32_put32_of_disjoint _ _ (by omega)]
      exact hh.size
    · rw [Block.le32_put32_of_disjoint _ _ (by omega)]
      exact hh.prev
    · rw [Block.le32_put32_of_lt _ _ (tag_lt v)]
  refine ht.replace (by rw [hHeq]; exact hlaid) ?_ rfl ?_ (fun hne => ?_) ?_ hc
  · intro b hb
    obtain rfl := List.mem_singleton.mp hb
    exact hsz
  · intro j hj
    rw [hHeq] at hj
    simp only [total_cons, total_nil] at hj
    exact Block.put32_apply_of_not_mem _ _ (by omega)
  · rw [hHeq]
    simp only [total_cons, total_nil]
    rw [Block.le32_put32_of_disjoint _ _ (by omega)]
    cases post with
    | nil => exact absurd rfl hne
    | cons x post =>
      rw [lastSize_append]
      rw [lastSize_append] at hpost
      exact hpost.1.prev
  · intro a hle hlt hal hmagic
    rw [hHeq] at hle hlt ⊢
    simp only [total_cons, total_nil] at hlt
    by_cases ha : a = H
    · subst ha
      rw [Block.le32_put32_of_lt _ _ (tag_lt v)] at hmagic
      exact ⟨⟨sz, v⟩, by simp, tag_eq_used.mp hmagic⟩
    · rw [Block.le32_put32_of_disjoint _ _ (by omega)] at hmagic
      obtain ⟨b, hb, -⟩ := htagged a hle hlt hal hmagic
      rcases at_cons.mp hb with ⟨-, rfl⟩ | hb
      · exact absurd rfl ha
      · exact absurd hb not_at_nil

/-- The word of the next block that names the size of the one in front, or nothing. -/
def toldNext (ram : Block) (e v : Nat) : List Blk → Block
  | [] => ram
  | _ :: _ => ram.put32 (e + 4) v

theorem tellNext_of_post {v : Nat} {e : Nat} (hv : size ram h = v) (he : h + v = e)
    (hsum : e + total post = c.base + c.bytes) (hpost : post = [] ∨ 32 ≤ total post) (hc : Placed c) :
    tellNext c h ram = toldNext ram e v post := by
  subst he
  rw [tellNext_eq hv (by omega) hc]
  cases post with
  | nil =>
    rw [total_nil] at hsum
    rw [if_pos (by omega)]
    rfl
  | cons x post =>
    rw [if_neg (by
      rcases hpost with hp | hp
      · exact nomatch hp
      · omega)]
    rfl

/-- What is told is written behind the part. -/
theorem toldNext_apply {e v j : Nat} (hj : j < e ∨ post = [] ∨ j < e + 4 ∨ e + 8 ≤ j) :
    toldNext ram e v post j = ram j := by
  cases post with
  | nil => rfl
  | cons x post =>
    refine Block.put32_apply_of_not_mem _ _ ?_
    rcases hj with hj | hj | hj | hj
    · omega
    · exact nomatch hj
    · omega
    · omega

theorem le32_toldNext_of_lt {e v o : Nat} (ho : o + 4 ≤ e) :
    (toldNext ram e v post).le32 o = ram.le32 o :=
  Block.le32_congr fun i hi => toldNext_apply (Or.inl (by omega))

theorem le32_toldNext {e v : Nat} (hne : post ≠ []) (hv : v < 4294967296) :
    (toldNext ram e v post).le32 (e + 4) = v := by
  cases post with
  | nil => exact absurd rfl hne
  | cons x post => exact Block.le32_put32_of_lt _ _ hv

/-- **A free block is cut in two.** -/
theorem Tiled.split {sz need : Nat} (ht : Tiled ram c (pre ++ ([⟨sz, false⟩] ++ post)))
    (hc : Placed c) (hneed : 32 ≤ need) (hal : need % 16 = 0) (hle : need + 32 ≤ sz) :
    Replaced ram c pre [⟨sz, false⟩] post (Mm.split c (c.base + total pre) need ram)
      [⟨need, false⟩, ⟨sz - need, false⟩] := by
  have hH := ht.start_aligned hc
  have hsz : 32 ≤ sz ∧ sz % 16 = 0 := ht.sizes ⟨sz, false⟩ (by simp)
  obtain ⟨⟨hh, -⟩, -, hsum, hpost⟩ := ht.part
  have htagged := fun a => ht.tagged_mid (a := a)
  have htop := hc.top
  have hfree : magicFree < 4294967296 := by decide
  have hne : magicFree ≠ magicUsed := by decide
  have hmagic : ram.le32 (c.base + total pre + 8) = magicFree := hh.tag
  have hsize : size ram (c.base + total pre) = sz := hh.size
  have hhprev := hh.prev
  generalize hHeq : c.base + total pre = H at *
  simp only [total_cons, total_nil, Nat.add_zero] at hsum htagged
  -- the new header, and then what the next block is told
  have hsplit : Mm.split c H need ram = setSize H need (tellNext c (H + need)
      (setPad (H + need) 0 (setMagic (H + need) magicFree (setPrevSize (H + need) need
        (setSize (H + need) (sz - need) ram))))) := by
    unfold Mm.split
    rw [hsize]
    rfl
  have hrest : size (setPad (H + need) 0 (setMagic (H + need) magicFree (setPrevSize (H + need) need
      (setSize (H + need) (sz - need) ram)))) (H + need) = sz - need := by
    unfold size setPad setMagic setPrevSize setSize
    simp (disch := omega) only [Block.le32_put32_of_disjoint, Block.le32_put32_of_lt]
  rw [hsplit, tellNext_of_post (e := H + sz) hrest (by omega) (by omega) hpost hc]
  unfold setPad setMagic setPrevSize setSize
  generalize hram : (toldNext _ (H + sz) (sz - need) post).put32 H need = ram'
  have hread : ∀ o, o = H ∨ o = H + need ∨ (H + 4 ≤ o ∧ (o + 4 ≤ H + need ∨ H + need + 16 ≤ o)
      ∧ o + 4 ≤ H + sz) → ram'.le32 o = if o = H then need else if o = H + need then sz - need
        else ram.le32 o := by
    intro o ho
    subst hram
    by_cases h₀ : o = H
    · subst h₀
      rw [if_pos rfl, Block.le32_put32_of_lt _ _ (by omega)]
    rw [if_neg h₀, Block.le32_put32_of_disjoint _ _ (by omega), le32_toldNext_of_lt (by omega)]
    by_cases h₁ : o = H + need
    · subst h₁
      simp (disch := omega) only [Block.le32_put32_of_disjoint, Block.le32_put32_of_lt, if_true]
    · simp (disch := omega) only [Block.le32_put32_of_disjoint, if_neg h₁]
  have hnewPrev : ram'.le32 (H + need + 4) = need := by
    subst hram
    rw [Block.le32_put32_of_disjoint _ _ (by omega), le32_toldNext_of_lt (by omega)]
    simp (disch := omega) only [Block.le32_put32_of_disjoint, Block.le32_put32_of_lt]
  have hnewMagic : ram'.le32 (H + need + 8) = magicFree := by
    subst hram
    rw [Block.le32_put32_of_disjoint _ _ (by omega), le32_toldNext_of_lt (by omega)]
    simp (disch := omega) only [Block.le32_put32_of_disjoint, Block.le32_put32_of_lt]
  have hlaid : Laid tag ram' H (lastSize 0 pre) [⟨need, false⟩, ⟨sz - need, false⟩] := by
    refine ⟨⟨?_, ?_, ?_⟩, ⟨?_, hnewPrev, hnewMagic⟩, trivial⟩
    · rw [hread H (by omega), if_pos rfl]
    · rw [hread (H + 4) (by omega), if_neg (by omega), if_neg (by omega), hhprev]
    · rw [hread (H + 8) (by omega), if_neg (by omega), if_neg (by omega), hmagic]
      rfl
    · rw [hread (H + need) (by omega), if_neg (by omega), if_pos rfl]
  refine ht.replace (by rw [hHeq]; exact hlaid) ?_ ?_ ?_ (fun hne => ?_) ?_ hc
  · intro b hb
    rcases List.mem_cons.mp hb with rfl | hb
    · exact ⟨hneed, hal⟩
    · obtain rfl := List.mem_singleton.mp hb
      show 32 ≤ sz - need ∧ (sz - need) % 16 = 0
      omega
  · simp only [total_cons, total_nil]
    omega
  · intro j hj
    rw [hHeq] at hj
    simp only [total_cons, total_nil, Nat.add_zero] at hj
    have hout : j < H + sz ∨ post = [] ∨ j < H + sz + 4 ∨ H + sz + 8 ≤ j := by
      rcases hj with hj | hj
      · exact Or.inl (by omega)
      · exact Or.inr hj.2
    subst hram
    rw [Block.put32_apply_of_not_mem _ _ (by omega), toldNext_apply hout,
      Block.put32_apply_of_not_mem _ _ (by omega), Block.put32_apply_of_not_mem _ _ (by omega),
      Block.put32_apply_of_not_mem _ _ (by omega), Block.put32_apply_of_not_mem _ _ (by omega)]
  · rw [hHeq]
    simp only [total_cons, total_nil, Nat.add_zero, lastSize_append, lastSize]
    subst hram
    rw [Block.le32_put32_of_disjoint _ _ (by omega), le32_toldNext hne (by omega)]
  · intro a hle' hlt hal' hused
    rw [hHeq] at hle' hlt
    simp only [total_cons, total_nil, Nat.add_zero] at hlt
    rcases Nat.lt_trichotomy a (H + need) with ha | rfl | ha
    · by_cases h₀ : a = H
      · subst h₀
        rw [hread (a + 8) (by omega), if_neg (by omega), if_neg (by omega), hmagic] at hused
        exact absurd hused hne
      · rw [hread (a + 8) (by omega), if_neg (by omega), if_neg (by omega)] at hused
        obtain ⟨b, hb, -⟩ := htagged a hle' hlt hal' hused
        exact absurd (by simpa using hb : b = ⟨sz, false⟩ ∧ a = H).2 h₀
    · exact absurd (hnewMagic.symm.trans hused) hne
    · rw [hread (a + 8) (by omega), if_neg (by omega), if_neg (by omega)] at hused
      obtain ⟨b, hb, -⟩ := htagged a hle' hlt hal' hused
      have := (by simpa using hb : b = ⟨sz, false⟩ ∧ a = H).2
      omega

/-- **A free block becomes a part of the block in front of it.** -/
theorem Tiled.swallow {x y : Nat} {u : Bool}
    (ht : Tiled ram c (pre ++ ([⟨x, u⟩, ⟨y, false⟩] ++ post))) (hc : Placed c) :
    Replaced ram c pre [⟨x, u⟩, ⟨y, false⟩] post
      (Mm.swallow c (c.base + total pre) (c.base + total pre + x) ram) [⟨x + y, u⟩] := by
  have hH := ht.start_aligned hc
  have hx : 32 ≤ x ∧ x % 16 = 0 := ht.sizes ⟨x, u⟩ (by simp)
  have hy : 32 ≤ y ∧ y % 16 = 0 := ht.sizes ⟨y, false⟩ (by simp)
  obtain ⟨⟨hh, hh₂, -⟩, -, hsum, hpost⟩ := ht.part
  have htagged := fun a => ht.tagged_mid (a := a)
  have htop := hc.top
  have htagU := tag_lt u
  have hne : (0 : Nat) ≠ magicUsed := by decide
  have hsize : size ram (c.base + total pre) = x := hh.size
  have hsize₂ : size ram (c.base + total pre + x) = y := hh₂.size
  have hhprev := hh.prev
  have hhtag := hh.tag
  generalize hHeq : c.base + total pre = H at *
  simp only [total_cons, total_nil, Nat.add_zero] at hsum htagged
  unfold Mm.swallow
  rw [hsize, hsize₂, Nat.mod_eq_of_lt (by omega)]
  have hnew : size (setMagic (H + x) 0 (setSize H (x + y) ram)) H = x + y := by
    unfold size setMagic setSize
    rw [Block.le32_put32_of_disjoint _ _ (by omega), Block.le32_put32_of_lt _ _ (by omega)]
  rw [tellNext_of_post (e := H + (x + y)) hnew rfl (by omega) hpost hc]
  unfold setMagic setSize
  generalize hram : toldNext _ (H + (x + y)) (x + y) post = ram'
  have hread : ∀ o, H + 4 ≤ o → o + 4 ≤ H + x + 8 ∨ H + x + 12 ≤ o → o + 4 ≤ H + (x + y) →
      ram'.le32 o = ram.le32 o := by
    intro o h₁ h₂ h₃
    subst hram
    rw [le32_toldNext_of_lt h₃, Block.le32_put32_of_disjoint _ _ (by omega),
      Block.le32_put32_of_disjoint _ _ (by omega)]
  have hlaid : Laid tag ram' H (lastSize 0 pre) [⟨x + y, u⟩] := by
    refine ⟨⟨?_, ?_, ?_⟩, trivial⟩
    · subst hram
      rw [le32_toldNext_of_lt (by omega)]
      exact hnew
    · rw [hread (H + 4) (by omega) (by omega) (by omega), hhprev]
    · rw [hread (H + 8) (by omega) (by omega) (by omega), hhtag]
  refine ht.replace (by rw [hHeq]; exact hlaid) ?_ ?_ ?_ (fun hne => ?_) ?_ hc
  · intro b hb
    obtain rfl := List.mem_singleton.mp hb
    show 32 ≤ x + y ∧ (x + y) % 16 = 0
    omega
  · simp only [total_cons, total_nil, Nat.add_zero]
  · intro j hj
    rw [hHeq] at hj
    simp only [total_cons, total_nil, Nat.add_zero] at hj
    have hout : j < H + (x + y) ∨ post = [] ∨ j < H + (x + y) + 4 ∨ H + (x + y) + 8 ≤ j := by
      rcases hj with hj | hj
      · exact Or.inl (by omega)
      · exact Or.inr hj.2
    subst hram
    rw [toldNext_apply hout, Block.put32_apply_of_not_mem _ _ (by omega),
      Block.put32_apply_of_not_mem _ _ (by omega)]
  · rw [hHeq]
    simp only [total_cons, total_nil, Nat.add_zero, lastSize_append, lastSize]
    subst hram
    exact le32_toldNext hne (by omega)
  · intro a hle hlt hal hused
    rw [hHeq] at hle hlt ⊢
    simp only [total_cons, total_nil, Nat.add_zero] at hlt
    by_cases hx' : a = H + x
    · -- the header that is swallowed is wiped
      subst hx' hram
      rw [le32_toldNext_of_lt (by omega), Block.le32_put32_of_lt _ _ (by decide)] at hused
      exact absurd hused hne
    · rw [hread (a + 8) (by omega) (by omega) (by omega)] at hused
      obtain ⟨b, hb, hu⟩ := htagged a hle hlt hal hused
      rcases at_cons.mp hb with ⟨rfl, rfl⟩ | hb
      · exact ⟨⟨x + y, u⟩, by simp, hu⟩
      · rcases at_cons.mp hb with ⟨rfl, ha⟩ | hb
        · exact absurd ha hx'
        · exact absurd hb not_at_nil

/-! ## What a call does to a chunk -/

/-- **The blocks of a chunk are changed**, and those that stay used keep what they hold. -/
structure Changed (ram : Block) (c : Chunk) (bs : List Blk) (ram' : Block) (bs' : List Blk) : Prop where
  tiled : Tiled ram' c bs'
  kept : ∀ a b, b.used = true → At bs c.base a b → At bs' c.base a b →
    ∀ j, a + 16 ≤ j → j < a + b.size → ram' j = ram j
  outside : ∀ j, j < c.base ∨ c.base + c.bytes ≤ j → ram' j = ram j

theorem Changed.trans {ram'' : Block} {bs' bs'' : List Blk} (h : Changed ram c bs ram' bs')
    (h' : Changed ram' c bs' ram'' bs'')
    (hmid : ∀ a b, b.used = true → At bs c.base a b → At bs'' c.base a b → At bs' c.base a b) :
    Changed ram c bs ram'' bs'' where
  tiled := h'.tiled
  kept a b hu hb hb'' j hj hlt :=
    (h'.kept a b hu (hmid a b hu hb hb'') hb'' j hj hlt).trans
      (h.kept a b hu hb (hmid a b hu hb hb'') j hj hlt)
  outside j hj := (h'.outside j hj).trans (h.outside j hj)

theorem Changed.refl (ht : Tiled ram c bs) : Changed ram c bs ram bs where
  tiled := ht
  kept _ _ _ _ _ _ _ _ := rfl
  outside _ _ := rfl

theorem Replaced.changed (h : Replaced ram c pre mid post ram' mid')
    (hno : (∀ b ∈ mid, b.used = false) ∨ ∀ b ∈ mid', b.used = false) :
    Changed ram c (pre ++ (mid ++ post)) ram' (pre ++ (mid' ++ post)) where
  tiled := h.tiled
  kept a b hu hb hb' := by
    rw [at_append, at_append] at hb hb'
    rcases hb with hb | hb | hb
    · exact h.kept a b (Or.inl hb)
    · have hin := hb.range
      have hsize : 32 ≤ b.size := by
        refine (h.tiled.sizes b ?_).1
        rcases hb' with hb' | hb' | hb'
        · exact List.mem_append_left _ hb'.mem
        · exact List.mem_append_right _ (List.mem_append_left _ hb'.mem)
        · exact List.mem_append_right _ (List.mem_append_right _ hb'.mem)
      rcases hb' with hb' | hb' | hb'
      · exact h.kept a b (Or.inl hb')
      · rcases hno with hno | hno
        · exact absurd (hu.symm.trans (hno b hb.mem)) (by decide)
        · exact absurd (hu.symm.trans (hno b hb'.mem)) (by decide)
      · have := hb'.range
        rw [h.same_total] at this
        omega
    · exact h.kept a b (Or.inr hb)
  outside := h.outside

/-- **A free block that is large enough is taken.** -/
theorem Tiled.carve {sz need : Nat} (ht : Tiled ram c (pre ++ ⟨sz, false⟩ :: post)) (hc : Placed c)
    (hm : Merged (pre ++ ⟨sz, false⟩ :: post)) (hneed : 32 ≤ need) (hal : need % 16 = 0)
    (hle : need ≤ sz) :
    ∃ bs' len, Changed ram c (pre ++ ⟨sz, false⟩ :: post) (carve c (c.base + total pre) need ram) bs'
      ∧ Merged bs' ∧ need ≤ len
      ∧ ∀ a b, b.used = true → (At bs' c.base a b ↔
        At (pre ++ ⟨sz, false⟩ :: post) c.base a b ∨ (a = c.base + total pre ∧ b = ⟨len, true⟩)) := by
  have hsize : size ram (c.base + total pre) = sz := (laid_append.mp ht.laid).2.1.size
  obtain ⟨hmpre, hmpost, hlast, hhead⟩ := merged_append_cons.mp hm
  unfold Mm.carve
  rw [hsize]
  by_cases hcut : need + 32 ≤ sz
  · rw [if_pos (show sz ≥ need + hdrSize + 16 from hcut)]
    have htl : Tiled ram c (pre ++ ([⟨sz, false⟩] ++ post)) := ht
    have hsplit := htl.split hc hneed hal hcut
    have htl' : Tiled (Mm.split c (c.base + total pre) need ram) c
      (pre ++ ([⟨need, false⟩] ++ ⟨sz - need, false⟩ :: post)) := hsplit.tiled
    have hmark := htl'.mark (v := true) hc
    have h₁ := hsplit.changed (Or.inl (by simp))
    have h₂ := hmark.changed (Or.inl (by simp))
    refine ⟨pre ++ ⟨need, true⟩ :: ⟨sz - need, false⟩ :: post, need, h₁.trans h₂ ?_, ?_,
      Nat.le_refl _, fun a b hu => ?_⟩
    · intro a b hu hb _
      rw [at_append, List.singleton_append, at_cons_free hu rfl] at hb
      rw [at_append, List.cons_append, List.singleton_append, at_cons_free hu rfl,
        at_cons_free hu rfl, Nat.add_assoc, Nat.add_sub_cancel' hle]
      exact hb
    · refine merged_append_cons.mpr ⟨hmpre, ?_, fun _ _ => Or.inr rfl, fun _ _ => Or.inl rfl⟩
      exact List.isChain_cons.mpr ⟨hhead, hmpost⟩
    · rw [at_append, at_cons, at_cons_free hu rfl, at_append, at_cons_free hu rfl, Nat.add_assoc,
        Nat.add_sub_cancel' hle]
      tauto
  · rw [if_neg (show ¬ sz ≥ need + hdrSize + 16 from hcut)]
    have htl : Tiled ram c (pre ++ ([⟨sz, false⟩] ++ post)) := ht
    have hmark := htl.mark (v := true) hc
    refine ⟨pre ++ ⟨sz, true⟩ :: post, sz, hmark.changed (Or.inl (by simp)), ?_, hle,
      fun a b hu => ?_⟩
    · exact merged_append_cons.mpr ⟨hmpre, hmpost, fun _ _ => Or.inr rfl, fun _ _ => Or.inl rfl⟩
    · rw [at_append, at_cons, at_append, at_cons_free hu rfl]
      tauto

/-- The part of `kfree` behind its checks: the block at `h` is marked free and merged. -/
def release (c : Chunk) (h : Nat) (ram : Block) : Nat × Block :=
  mergePrev c h (mergeNext c h (setMagic h magicFree ram))

/-- **A free block is merged with the free one behind it.** -/
theorem Tiled.mergeNext {sz : Nat} (ht : Tiled ram c (pre ++ ⟨sz, false⟩ :: post)) (hc : Placed c)
    (hm : Merged post) :
    ∃ sz' post', Changed ram c (pre ++ ⟨sz, false⟩ :: post) (mergeNext c (c.base + total pre) ram)
        (pre ++ ⟨sz', false⟩ :: post')
      ∧ Merged post' ∧ (∀ y ∈ post'.head?, y.used = true)
      ∧ ∀ a b, b.used = true → (At (pre ++ ⟨sz', false⟩ :: post') c.base a b ↔
        At (pre ++ ⟨sz, false⟩ :: post) c.base a b) := by
  unfold Mm.mergeNext
  rw [ht.next_eq hc]
  cases post with
  | nil =>
    exact ⟨sz, [], Changed.refl ht, hm, fun _ hy => (nomatch hy), fun _ _ _ => Iff.rfl⟩
  | cons y post =>
    rw [if_neg (List.cons_ne_nil _ _)]
    have hy := (laid_append.mp ht.laid).2.2.1.tag
    dsimp only
    unfold magic
    rw [hy]
    obtain ⟨ysz, yused⟩ := y
    cases yused with
    | true =>
      rw [if_neg (show ¬ tag true = magicFree by decide)]
      refine ⟨sz, _, Changed.refl ht, hm, fun x hx => ?_, fun _ _ _ => Iff.rfl⟩
      obtain rfl := Option.some.inj hx
      rfl
    | false =>
      rw [if_pos (show tag false = magicFree by decide)]
      have htl : Tiled ram c (pre ++ ([⟨sz, false⟩, ⟨ysz, false⟩] ++ post)) := ht
      have hs := htl.swallow hc
      obtain ⟨hhead, hpost⟩ := List.isChain_cons.mp hm
      refine ⟨sz + ysz, post, hs.changed (Or.inr (by simp)), hpost, fun x hx => ?_, fun a b hu => ?_⟩
      · exact (hhead x hx).resolve_left Bool.false_ne_true
      · rw [at_append, at_append, at_cons_free hu rfl, at_cons_free hu rfl, at_cons_free hu rfl]
        show _ ∨ At post (c.base + total pre + (sz + ysz)) a b ↔ _
        rw [← Nat.add_assoc]

/-- **A free block is merged with the free one in front of it.** -/
theorem Tiled.mergePrev {sz : Nat} (ht : Tiled ram c (pre ++ ⟨sz, false⟩ :: post)) (hc : Placed c)
    (hm : Merged pre) (hmpost : Merged post) (hhead : ∀ y ∈ post.head?, y.used = true) :
    ∃ pre' sz', Changed ram c (pre ++ ⟨sz, false⟩ :: post) (mergePrev c (c.base + total pre) ram).2
        (pre' ++ ⟨sz', false⟩ :: post)
      ∧ (mergePrev c (c.base + total pre) ram).1 = c.base + total pre'
      ∧ Merged (pre' ++ ⟨sz', false⟩ :: post)
      ∧ ∀ a b, b.used = true → (At (pre' ++ ⟨sz', false⟩ :: post) c.base a b ↔
        At (pre ++ ⟨sz, false⟩ :: post) c.base a b) := by
  unfold Mm.mergePrev
  rw [ht.prev_eq hc]
  rcases List.eq_nil_or_concat pre with rfl | ⟨init, y, rfl⟩
  · rw [if_pos rfl]
    refine ⟨[], sz, Changed.refl ht, rfl, ?_, fun _ _ _ => Iff.rfl⟩
    exact merged_append_cons.mpr ⟨hm, hmpost, fun _ hx => (nomatch hx), fun y hy => Or.inr (hhead y hy)⟩
  · rw [List.concat_eq_append] at ht hm ⊢
    rw [if_neg (by simp), lastSize_append]
    have hbefore : c.base + total (init ++ [y]) - lastSize (lastSize 0 init) [y]
        = c.base + total init := by
      simp only [total_append, total_cons, total_nil, lastSize]
      omega
    rw [hbefore]
    have hstart : c.base + total (init ++ [y]) = c.base + total init + y.size := by
      simp only [total_append, total_cons, total_nil]
      omega
    rw [hstart]
    rw [List.append_assoc] at ht ⊢
    have hy := (laid_append.mp ht.laid).2.1.tag
    dsimp only
    unfold magic
    rw [hy]
    obtain ⟨ysz, yused⟩ := y
    cases yused with
    | true =>
      rw [if_neg (show ¬ tag true = magicFree by decide)]
      refine ⟨init ++ [⟨ysz, true⟩], sz, ?_, hstart.symm, ?_, ?_⟩
      · rw [List.append_assoc]
        exact Changed.refl ht
      · refine merged_append_cons.mpr ⟨hm, hmpost, fun x hx => ?_, fun y hy => Or.inr (hhead y hy)⟩
        rw [List.getLast?_append_of_ne_nil _ (List.cons_ne_nil _ _)] at hx
        obtain rfl := Option.some.inj hx
        exact Or.inl rfl
      · intro a b _
        rw [List.append_assoc]
    | false =>
      rw [if_pos (show tag false = magicFree by decide)]
      have htl : Tiled ram c (init ++ ([⟨ysz, false⟩, ⟨sz, false⟩] ++ post)) := ht
      have hs := htl.swallow hc
      refine ⟨init, ysz + sz, hs.changed (Or.inr (by simp)), rfl, ?_, fun a b hu => ?_⟩
      · obtain ⟨hinit, -, hlast, -⟩ := merged_append_cons.mp hm
        exact merged_append_cons.mpr ⟨hinit, hmpost, hlast, fun y hy => Or.inr (hhead y hy)⟩
      · rw [at_append, at_append, List.singleton_append, at_cons_free hu rfl, at_cons_free hu rfl,
          at_cons_free hu rfl]
        show _ ∨ At post (c.base + total init + (ysz + sz)) a b ↔ _
        rw [← Nat.add_assoc]

/-- **A used block is given back.** -/
theorem Tiled.release {sz : Nat} (ht : Tiled ram c (pre ++ ⟨sz, true⟩ :: post)) (hc : Placed c)
    (hm : Merged (pre ++ ⟨sz, true⟩ :: post)) :
    ∃ bs' b', Changed ram c (pre ++ ⟨sz, true⟩ :: post) (release c (c.base + total pre) ram).2 bs'
      ∧ Merged bs' ∧ At bs' c.base (release c (c.base + total pre) ram).1 b' ∧ b'.used = false
      ∧ ∀ a b, b.used = true → (At bs' c.base a b ↔
        At (pre ++ ⟨sz, true⟩ :: post) c.base a b ∧ a ≠ c.base + total pre) := by
  obtain ⟨hmpre, hmpost, -, -⟩ := merged_append_cons.mp hm
  have hsz : 32 ≤ sz := (ht.sizes ⟨sz, true⟩ (by simp)).1
  have htl : Tiled ram c (pre ++ ([⟨sz, true⟩] ++ post)) := ht
  have hmark := htl.mark (v := false) hc
  have h₁ := hmark.changed (Or.inr (by simp))
  have hat₁ : ∀ a b, b.used = true → (At (pre ++ ([⟨sz, false⟩] ++ post)) c.base a b ↔
      At (pre ++ ⟨sz, true⟩ :: post) c.base a b ∧ a ≠ c.base + total pre) := by
    intro a b hu
    rw [at_append, List.singleton_append, at_cons_free hu rfl, at_append, at_cons]
    constructor
    · rintro (hb | hb)
      · have := hb.range
        have := (ht.sizes b (List.mem_append_left _ hb.mem)).1
        exact ⟨Or.inl hb, by omega⟩
      · have hbehind : c.base + total pre + sz ≤ a := hb.range.1
        exact ⟨Or.inr (Or.inr hb), by omega⟩
    · rintro ⟨hb | ⟨-, ha⟩ | hb, hne⟩
      · exact Or.inl hb
      · exact absurd ha hne
      · exact Or.inr hb
  obtain ⟨sz₂, post₂, h₂, hmpost₂, hhead₂, hat₂⟩ := Tiled.mergeNext hmark.tiled hc hmpost
  obtain ⟨pre₃, sz₃, h₃, hstart, hm₃, hat₃⟩ := Tiled.mergePrev h₂.tiled hc hmpre hmpost₂ hhead₂
  refine ⟨_, ⟨sz₃, false⟩, (h₁.trans h₂ ?_).trans h₃ ?_, hm₃, ?_, rfl, fun a b hu => ?_⟩
  · exact fun a b hu _ hb => (hat₂ a b hu).mp hb
  · exact fun a b hu _ hb => (hat₃ a b hu).mp hb
  · exact ⟨pre₃, post₂, rfl, hstart⟩
  · rw [hat₃ a b hu, hat₂ a b hu]
    exact hat₁ a b hu

end

end Mm
