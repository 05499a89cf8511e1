import MiniWin.Mwfs.Check
import MiniWin.Mwfs.Reach

/-!
# The parts of a check

What `mwfs_each_block` visits, and what the walk of `mwfs_check` does with an object
of a graph the volume holds: it finds nothing to object to, except a second name.
-/

namespace Mwfs

open Place

/-! ## The sectors of an inode, in order -/

/-- The pointers of a list that are not holes. -/
def filled (ls : List Nat) : List Nat := ls.filter (· ≠ 0)

/-- The sectors of an inode in the order `mwfs_each_block` visits them. -/
def View.sectors (V : View) (t : Ino) : List Nat :=
  filled ((List.range ndirect).map t.direct)
    ++ (if t.ind = 0 then [] else t.ind :: filled (tableEntries (V.sec t.ind)))
    ++ (if t.dind = 0 then [] else t.dind :: (filled (tableEntries (V.sec t.dind))).flatMap fun q =>
        q :: filled (tableEntries (V.sec q)))

theorem mem_filled {ls : List Nat} {l : Nat} : l ∈ filled ls ↔ l ∈ ls ∧ l ≠ 0 := by
  simp [filled]

theorem View.mem_sectors {V : View} {t : Ino} {l : Nat} : l ∈ V.sectors t ↔ V.Has t l := by
  rw [V.has_iff, sectors, List.mem_append, List.mem_append, mem_filled]
  have hind : l ∈ (if t.ind = 0 then [] else t.ind :: filled (tableEntries (V.sec t.ind)))
      ↔ l ≠ 0 ∧ t.ind ≠ 0 ∧ (l = t.ind ∨ ∃ k, k < ptrs ∧ V.tbl t.ind k = l) := by
    by_cases h0 : t.ind = 0
    · simp [h0]
    · rw [if_neg h0, List.mem_cons, mem_filled, mem_tableEntries]
      constructor
      · rintro (rfl | ⟨hl, hl0⟩)
        · exact ⟨h0, h0, Or.inl rfl⟩
        · exact ⟨hl0, h0, Or.inr hl⟩
      · rintro ⟨hl0, -, hl⟩
        exact hl.imp id fun hl => ⟨hl, hl0⟩
  have hdind : l ∈ (if t.dind = 0 then [] else t.dind ::
        (filled (tableEntries (V.sec t.dind))).flatMap fun q => q :: filled (tableEntries (V.sec q)))
      ↔ l ≠ 0 ∧ t.dind ≠ 0 ∧ (l = t.dind ∨ ∃ j, j < ptrs ∧ V.tbl t.dind j ≠ 0 ∧
        (l = V.tbl t.dind j ∨ ∃ k, k < ptrs ∧ V.tbl (V.tbl t.dind j) k = l)) := by
    by_cases h0 : t.dind = 0
    · simp [h0]
    · rw [if_neg h0, List.mem_cons, List.mem_flatMap]
      simp only [mem_filled, mem_tableEntries, List.mem_cons]
      constructor
      · rintro (rfl | ⟨q, ⟨⟨j, hj, rfl⟩, hq0⟩, rfl | ⟨hl, hl0⟩⟩)
        · exact ⟨h0, h0, Or.inl rfl⟩
        · exact ⟨hq0, h0, Or.inr ⟨j, hj, hq0, Or.inl rfl⟩⟩
        · exact ⟨hl0, h0, Or.inr ⟨j, hj, hq0, Or.inr hl⟩⟩
      · rintro ⟨hl0, -, rfl | ⟨j, hj, hj0, hl⟩⟩
        · exact Or.inl rfl
        · exact Or.inr ⟨_, ⟨⟨j, hj, rfl⟩, hj0⟩, hl.imp id fun hl => ⟨hl, hl0⟩⟩
  rw [hind, hdind]
  constructor
  · rintro ((⟨hl, hl0⟩ | ⟨hl0, hl⟩) | ⟨hl0, hl⟩)
    · exact ⟨hl0, Or.inl hl⟩
    · exact ⟨hl0, Or.inr (Or.inl hl)⟩
    · exact ⟨hl0, Or.inr (Or.inr hl)⟩
  · rintro ⟨hl0, hl | hl | hl⟩
    · exact Or.inl (Or.inl ⟨hl, hl0⟩)
    · exact Or.inl (Or.inr ⟨hl0, hl⟩)
    · exact Or.inr ⟨hl0, hl⟩

section Each

variable {σ : Type} {vol : σ → St} {fn : Nat → σ → Bool × σ} {V : View} {P : σ → Prop}
  {X : Nat → Prop} {x : σ} {f : Nat → Bool}

/-- `fn` applied to one sector after the other. -/
def visit (fn : Nat → σ → Bool × σ) (ls : List Nat) (x : σ) : σ := ls.foldl (fun x l => (fn l x).2) x

/-- `fn` goes on at every sector of `X`, as long as `P` holds, and those of them that
`f` says can be read hold what they hold in `V`. -/
structure GoesBy (f : Nat → Bool) (vol : σ → St) (fn : Nat → σ → Bool × σ) (V : View)
    (P : σ → Prop) (X : Nat → Prop) : Prop where
  on : ∀ l x, X l → P x → (fn l x).1 = true
  keep : ∀ l x, X l → P x → P (fn l x).2
  rd : ∀ l x, X l → P x → rd (vol x) l = if f l then some (V.sec l) else none

/-- `fn` goes on at every sector of `X`, as long as `P` holds, and the sectors hold
what they hold in `V`. -/
structure Goes (vol : σ → St) (fn : Nat → σ → Bool × σ) (V : View) (P : σ → Prop)
    (X : Nat → Prop) : Prop where
  on : ∀ l x, X l → P x → (fn l x).1 = true
  keep : ∀ l x, X l → P x → P (fn l x).2
  rd : ∀ l x, X l → P x → rd (vol x) l = some (V.sec l)

theorem Goes.by (h : Goes vol fn V P X) : GoesBy (fun _ => true) vol fn V P X :=
  ⟨h.on, h.keep, h.rd⟩

theorem GoesBy.fn_eq (h : GoesBy f vol fn V P X) {l : Nat} (hl : X l) (hx : P x) :
    fn l x = (true, visit fn [l] x) := Prod.ext (h.on l x hl hx) rfl

theorem GoesBy.visit (h : GoesBy f vol fn V P X) {ls : List Nat} (hls : ∀ l ∈ ls, X l) (hx : P x) :
    P (visit fn ls x) := by
  induction ls generalizing x with
  | nil => exact hx
  | cons l ls ih =>
    exact ih (fun m hm => hls m (List.mem_cons_of_mem l hm)) (h.keep l x (hls l List.mem_cons_self) hx)

theorem Goes.visit (h : Goes vol fn V P X) {ls : List Nat} (hls : ∀ l ∈ ls, X l) (hx : P x) :
    P (visit fn ls x) := h.by.visit hls hx

theorem visit_append (a b : List Nat) (x : σ) : visit fn (a ++ b) x = visit fn b (visit fn a x) :=
  List.foldl_append

theorem eachIn_eq (h : GoesBy f vol fn V P X) {ls : List Nat} (hls : ∀ l ∈ filled ls, X l)
    (hx : P x) : eachIn fn ls x = (true, visit fn (filled ls) x) := by
  induction ls generalizing x with
  | nil => rfl
  | cons l ls ih =>
    unfold eachIn
    by_cases h0 : l = 0
    · have hf : filled (l :: ls) = filled ls := List.filter_cons_of_neg (by simpa using h0)
      rw [if_pos h0, hf]
      exact ih (fun m hm => hls m (by rwa [hf])) hx
    · have hf : filled (l :: ls) = l :: filled ls := List.filter_cons_of_pos (by simpa using h0)
      rw [hf] at hls ⊢
      rw [if_neg h0, h.fn_eq (hls l List.mem_cons_self) hx]
      exact ih (fun m hm => hls m (List.mem_cons_of_mem l hm))
        (h.keep l x (hls l List.mem_cons_self) hx)

/-- The pointers of a table that are not holes, if it can be read. -/
def View.pointers (V : View) (f : Nat → Bool) (q : Nat) : List Nat :=
  if f q then filled (tableEntries (V.sec q)) else []

/-- **One table**, with what it points at. -/
theorem table_eq (h : GoesBy f vol fn V P X) {q : Nat} (hq : X q) (hx : P x)
    (hls : ∀ l ∈ V.pointers f q, X l) :
    P (visit fn (q :: V.pointers f q) x) ∧
      ((f q = false ∧ rd (vol (visit fn [q] x)) q = none ∧ V.pointers f q = []) ∨
        ∃ b, rd (vol (visit fn [q] x)) q = some b ∧
          eachIn fn (tableEntries b) (visit fn [q] x)
            = (true, visit fn (q :: V.pointers f q) x)) := by
  have hx₁ : P (visit fn [q] x) := h.keep q x hq hx
  have hrd := h.rd q _ hq hx₁
  refine ⟨h.visit (fun l hl => ?_) hx, ?_⟩
  · rcases List.mem_cons.mp hl with rfl | hl
    · exact hq
    · exact hls l hl
  unfold View.pointers at hls ⊢
  cases hf : f q with
  | false =>
    rw [hf] at hrd
    exact Or.inl ⟨rfl, hrd, rfl⟩
  | true =>
    rw [hf] at hrd hls
    exact Or.inr ⟨_, hrd, eachIn_eq h hls hx₁⟩

theorem eachTables_eq (h : GoesBy f vol fn V P X) {qs : List Nat}
    (hqs : ∀ l ∈ (filled qs).flatMap fun q => q :: V.pointers f q, X l) (hx : P x) :
    eachTables vol fn qs x
      = (true, visit fn ((filled qs).flatMap fun q => q :: V.pointers f q) x) := by
  induction qs generalizing x with
  | nil => rfl
  | cons q qs ih =>
    unfold eachTables
    by_cases h0 : q = 0
    · have hf : filled (q :: qs) = filled qs := List.filter_cons_of_neg (by simpa using h0)
      rw [if_pos h0, hf]
      exact ih (fun m hm => hqs m (by rwa [hf])) hx
    · have hf : filled (q :: qs) = q :: filled qs := List.filter_cons_of_pos (by simpa using h0)
      rw [hf, List.flatMap_cons] at hqs ⊢
      have hq : X q := hqs q (by simp)
      obtain ⟨hx', htab⟩ := table_eq h hq hx fun l hl =>
        hqs l (List.mem_append_left _ (List.mem_cons_of_mem q hl))
      have hrest := ih (fun m hm => hqs m (List.mem_append_right _ hm)) hx'
      rw [visit_append, ← hrest, if_neg h0, h.fn_eq hq hx]
      dsimp only
      rcases htab with ⟨-, hrd, hnil⟩ | ⟨b, hrd, hin⟩
      · rw [hrd, hnil]
      · rw [hrd]
        dsimp only
        rw [hin]

/-- The sectors that `mwfs_each_block` comes to when only these sectors can be read. -/
def View.seen (V : View) (f : Nat → Bool) (t : Ino) : List Nat :=
  filled ((List.range ndirect).map t.direct)
    ++ (if t.ind = 0 then [] else t.ind :: V.pointers f t.ind)
    ++ (if t.dind = 0 ∨ (t.ind ≠ 0 ∧ f t.ind = false) then []
        else t.dind :: (V.pointers f t.dind).flatMap fun q => q :: V.pointers f q)

theorem View.seen_all (V : View) (t : Ino) : V.seen (fun _ => true) t = V.sectors t := by
  unfold View.seen View.sectors View.pointers
  simp

theorem View.mem_pointers {V : View} {f : Nat → Bool} {q l : Nat} :
    l ∈ V.pointers f q ↔ f q = true ∧ l ∈ V.pointers (fun _ => true) q := by
  unfold View.pointers
  cases f q <;> simp

theorem View.has_of_seen {V : View} {f : Nat → Bool} {t : Ino} {l : Nat} (h : l ∈ V.seen f t) :
    V.Has t l := by
  rw [← View.mem_sectors, ← View.seen_all]
  unfold View.seen at h ⊢
  rw [List.mem_append, List.mem_append] at h ⊢
  rcases h with (h | h) | h
  · exact Or.inl (Or.inl h)
  · refine Or.inl (Or.inr ?_)
    split at h
    · exact absurd h List.not_mem_nil
    next h0 =>
    rw [if_neg h0]
    exact (List.mem_cons.mp h).elim (fun h => h ▸ List.mem_cons_self) fun h =>
      List.mem_cons_of_mem _ (View.mem_pointers.mp h).2
  · refine Or.inr ?_
    split at h
    · exact absurd h List.not_mem_nil
    next h0 =>
    rw [if_neg (by rw [not_or] at h0 ⊢; exact ⟨h0.1, fun hc => nomatch hc.2⟩)]
    rcases List.mem_cons.mp h with rfl | h
    · exact List.mem_cons_self
    obtain ⟨q, hq, hl⟩ := List.mem_flatMap.mp h
    refine List.mem_cons_of_mem _ (List.mem_flatMap.mpr ⟨q, (View.mem_pointers.mp hq).2, ?_⟩)
    exact (List.mem_cons.mp hl).elim (fun h => h ▸ List.mem_cons_self) fun h =>
      List.mem_cons_of_mem _ (View.mem_pointers.mp h).2

/-- **What `mwfs_each_block` visits** when only some sectors can be read. -/
theorem eachBlock_seen {t : Ino} (h : GoesBy f vol fn V P (V.Has t)) (hx : P x) :
    eachBlock vol fn t x = (true, visit fn (V.seen f t) x) := by
  have hall : ∀ l ∈ V.seen f t, V.Has t l := fun l hl => View.has_of_seen hl
  unfold View.seen at hall ⊢
  rw [List.append_assoc] at hall ⊢
  have hA : ∀ l ∈ filled ((List.range ndirect).map t.direct), V.Has t l := fun l hl =>
    hall l (List.mem_append_left _ hl)
  rw [visit_append, visit_append]
  unfold eachBlock
  rw [eachIn_eq h hA hx]
  have hx₁ := h.visit hA hx
  generalize visit fn (filled ((List.range ndirect).map t.direct)) x = x₁ at hx₁ ⊢
  dsimp only
  have hdind : ¬ (t.ind ≠ 0 ∧ f t.ind = false) → ∀ y, P y → eachDind vol fn t y = (true, visit fn
      (if t.dind = 0 ∨ (t.ind ≠ 0 ∧ f t.ind = false) then []
        else t.dind :: (V.pointers f t.dind).flatMap fun q => q :: V.pointers f q) y) := by
    intro hgo y hy
    unfold eachDind
    by_cases h0 : t.dind = 0
    · rw [if_pos h0, if_pos (Or.inl h0)]
      rfl
    · have hC := fun l hl => hall l (List.mem_append_right _ (List.mem_append_right _ hl))
      rw [if_neg (not_or.mpr ⟨h0, hgo⟩)] at hC ⊢
      have hq : V.Has t t.dind := hC _ List.mem_cons_self
      have hy₁ : P (visit fn [t.dind] y) := h.keep _ _ hq hy
      have hrd := h.rd _ _ hq hy₁
      have htop := fun l hl => hC l (List.mem_cons_of_mem _ hl)
      rw [if_neg h0, h.fn_eq hq hy]
      dsimp only
      rw [hrd]
      unfold View.pointers at htop ⊢
      cases hf : f t.dind with
      | false => rfl
      | true =>
        rw [hf] at htop
        exact eachTables_eq h htop hy₁
  by_cases h0 : t.ind = 0
  · rw [if_pos h0, if_pos h0, hdind (fun hc => hc.1 h0) _ hx₁]
    rfl
  · have hB := fun l hl => hall l (List.mem_append_right _ (List.mem_append_left _ hl))
    rw [if_neg h0] at hB
    have hq : V.Has t t.ind := hB _ List.mem_cons_self
    obtain ⟨hx₂, htab⟩ := table_eq h hq hx₁ fun l hl => hB l (List.mem_cons_of_mem _ hl)
    rw [if_neg h0, if_neg h0, h.fn_eq hq hx₁]
    dsimp only
    rcases htab with ⟨hf, hrd, hnil⟩ | ⟨b, hrd, hin⟩
    · rw [hrd, hnil, if_pos (Or.inr ⟨h0, hf⟩)]
      rfl
    · have hf : f t.ind = true := by
        have := h.rd _ _ hq (h.keep _ _ hq hx₁)
        cases hf : f t.ind with
        | true => rfl
        | false =>
          rw [hf] at this
          exact absurd (hrd.symm.trans this) (by simp)
      rw [hrd]
      dsimp only
      rw [hin]
      exact hdind (fun hc => by rw [hf] at hc; exact absurd hc.2 (by simp)) _ hx₂

/-- **What `mwfs_each_block` visits**: the sectors of the inode, one after the other. -/
theorem eachBlock_eq {t : Ino} (h : Goes vol fn V P (V.Has t)) (hx : P x) :
    eachBlock vol fn t x = (true, visit fn (V.sectors t) x) := by
  rw [eachBlock_seen h.by hx, View.seen_all]

end Each

end Mwfs
