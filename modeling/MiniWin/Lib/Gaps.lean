import Mathlib.Data.List.Basic

/-!
# Gaps

The free places between ranges that are taken, as a list of gaps with room for so many. A range is
cut out of one gap after the other: what is left of a gap takes its place, and when something is
left on both sides of the range, what is behind it goes to the end of the list. As long as the gaps
are apart, a range has two sides in one of them at most, so one more gap is all the room it takes.
-/

/-- A run of `len` places from `start` on. -/
structure Gap where
  start : Nat
  len : Nat
  deriving DecidableEq

namespace Gap

def Has (g : Gap) (x : Nat) : Prop := g.start ≤ x ∧ x < g.start + g.len

/-- The places from `s` to `e` are cut out of the gap number `k`. -/
def cutAt (cap s e : Nat) (gs : List Gap) (k : Nat) : List Gap :=
  match gs[k]? with
  | none => gs
  | some g =>
    if s < g.start + g.len ∧ g.start < e then
      let left := s - g.start
      let right := g.start + g.len - e
      if left ≠ 0 ∧ right ≠ 0 ∧ gs.length < cap then
        gs.set k ⟨g.start, left⟩ ++ [⟨e, right⟩]
      else if left ≠ 0 then gs.set k ⟨g.start, left⟩
      else if right ≠ 0 then gs.set k ⟨e, right⟩
      else gs.set k ⟨g.start, 0⟩
    else gs

/-- They are cut out of every gap. -/
def cut (cap s e : Nat) (gs : List Gap) : List Gap := (List.range cap).foldl (cutAt cap s e) gs

/-- **The gaps of a set of places**: they hold places of it only, every run of its places is inside
one of them, and they are apart. -/
structure Of (F : Nat → Prop) (gs : List Gap) : Prop where
  free : ∀ g ∈ gs, ∀ x, g.Has x → F x
  all : ∀ a b, a < b → (∀ x, a ≤ x → x < b → F x) → ∃ g ∈ gs, g.start ≤ a ∧ b ≤ g.start + g.len
  apart : ∀ (i j : Nat) (g h : Gap), gs[i]? = some g → gs[j]? = some h → i ≠ j →
    ∀ x, g.Has x → ¬ h.Has x

/-- A cut under way: the gaps in front of number `k` are done, and so is what was put at the end
behind the `n` there were. -/
structure Cutting (F : Nat → Prop) (s e n k : Nat) (gs : List Gap) : Prop where
  free : ∀ (j : Nat) (g : Gap), gs[j]? = some g → ∀ x, g.Has x →
    F x ∧ (j < k ∨ n ≤ j → ¬ (s ≤ x ∧ x < e))
  all : ∀ a b, a < b → (∀ x, a ≤ x → x < b → F x ∧ ¬ (s ≤ x ∧ x < e)) →
    ∃ g ∈ gs, g.start ≤ a ∧ b ≤ g.start + g.len
  apart : ∀ (i j : Nat) (g h : Gap), gs[i]? = some g → gs[j]? = some h → i ≠ j →
    ∀ x, g.Has x → ¬ h.Has x
  split : gs.length = n ∨ gs.length = n + 1 ∧ ∀ g ∈ gs, ¬ g.Has s

variable {F : Nat → Prop} {cap s e n k : Nat} {gs : List Gap} {g h : Gap}

/-- A gap is replaced by what is left of it, and by `tail` at the end. -/
theorem Cutting.replace (hc : Cutting F s e n k gs) (hg : gs[k]? = some g) {tail : List Gap}
    (hone : tail = [] ∨ ∃ t, tail = [t] ∧ gs.length = n ∧ g.Has s ∧ ∀ x, t.Has x → ¬ h.Has x)
    (hsub : ∀ g' ∈ h :: tail, ∀ x, g'.Has x → g.Has x ∧ ¬ (s ≤ x ∧ x < e))
    (hall : ∀ a b, a < b → g.start ≤ a → b ≤ g.start + g.len →
      (∀ x, a ≤ x → x < b → ¬ (s ≤ x ∧ x < e)) →
      ∃ g' ∈ h :: tail, g'.start ≤ a ∧ b ≤ g'.start + g'.len) (hse : s < e) :
    Cutting F s e n (k + 1) (gs.set k h ++ tail) := by
  obtain ⟨hk, -⟩ := List.getElem?_eq_some_iff.mp hg
  have hself : (gs.set k h ++ tail)[k]? = some h := by
    rw [List.getElem?_append_left (by rw [List.length_set]; exact hk), List.getElem?_set_self hk]
  have hother : ∀ {j g'}, j ≠ k → gs[j]? = some g' → (gs.set k h ++ tail)[j]? = some g' := by
    intro j g' hjk hj
    rw [List.getElem?_append_left (by
      rw [List.length_set]
      exact (List.getElem?_eq_some_iff.mp hj).1), List.getElem?_set_ne (Ne.symm hjk)]
    exact hj
  -- each gap is one that was there, or a piece of the old one
  have hget : ∀ j g', (gs.set k h ++ tail)[j]? = some g' → j ≠ k ∧ j < gs.length ∧ gs[j]? = some g'
      ∨ (j = k ∧ g' = h ∨ j = gs.length ∧ tail = [g']) := by
    intro j g' hj
    rcases Nat.lt_or_ge j gs.length with hlt | hge
    · rw [List.getElem?_append_left (by rw [List.length_set]; exact hlt), List.getElem?_set] at hj
      by_cases hjk : k = j
      · rw [if_pos hjk, if_pos hk] at hj
        exact .inr (.inl ⟨hjk.symm, (Option.some.inj hj).symm⟩)
      · rw [if_neg hjk] at hj
        exact .inl ⟨fun h => hjk h.symm, hlt, hj⟩
    · rw [List.getElem?_append_right (by rw [List.length_set]; exact hge), List.length_set] at hj
      rcases hone with rfl | ⟨t, rfl, -⟩
      · exact nomatch hj
      · obtain ⟨hlt, heq⟩ := List.getElem?_eq_some_iff.mp hj
        have hlt : j - gs.length < 1 := hlt
        obtain rfl : j = gs.length := by omega
        refine .inr (.inr ⟨rfl, congrArg (fun t => [t]) ?_⟩)
        simpa using heq
  have hpiece : ∀ {j g'}, (j = k ∧ g' = h ∨ j = gs.length ∧ tail = [g']) → g' ∈ h :: tail := by
    rintro j g' (⟨-, rfl⟩ | ⟨-, rfl⟩)
    · exact List.mem_cons_self
    · exact List.mem_cons_of_mem _ List.mem_cons_self
  refine ⟨fun j g' hj x hx => ?_, fun a b hab hfree => ?_, fun i j g₁ g₂ hi hj hij x hx hx' => ?_, ?_⟩
  · rcases hget j g' hj with ⟨hjk, -, hj⟩ | hp
    · obtain ⟨hF, hout⟩ := hc.free j g' hj x hx
      exact ⟨hF, fun hjk' => hout (by omega)⟩
    · obtain ⟨hin, hout⟩ := hsub g' (hpiece hp) x hx
      exact ⟨(hc.free k g hg x hin).1, fun _ => hout⟩
  · obtain ⟨g', hg', hle, hge⟩ := hc.all a b hab hfree
    obtain ⟨j, hj⟩ := List.getElem?_of_mem hg'
    by_cases hjk : j = k
    · subst hjk
      obtain rfl := Option.some.inj (hg.symm.trans hj)
      obtain ⟨t, ht, hin⟩ := hall a b hab hle hge fun x h₁ h₂ => (hfree x h₁ h₂).2
      rcases List.mem_cons.mp ht with rfl | ht
      · exact ⟨t, List.mem_of_getElem? hself, hin⟩
      · exact ⟨t, List.mem_append_right _ ht, hin⟩
    · exact ⟨g', List.mem_of_getElem? (hother hjk hj), hle, hge⟩
  · rcases hget i g₁ hi with ⟨hik, -, hi'⟩ | hp
    · rcases hget j g₂ hj with ⟨hjk, -, hj'⟩ | hq
      · exact hc.apart _ _ _ _ hi' hj' hij x hx hx'
      · exact hc.apart _ _ _ _ hi' hg hik x hx (hsub _ (hpiece hq) x hx').1
    · rcases hget j g₂ hj with ⟨hjk, -, hj'⟩ | hq
      · exact hc.apart _ _ _ _ hg hj' (Ne.symm hjk) x (hsub _ (hpiece hp) x hx).1 hx'
      · -- both are pieces of the old gap
        rcases hp with ⟨rfl, rfl⟩ | ⟨rfl, rfl⟩
        · rcases hq with ⟨rfl, -⟩ | ⟨rfl, rfl⟩
          · exact hij rfl
          · obtain ⟨t, ht, -, -, hno⟩ := hone.resolve_left (List.cons_ne_nil _ _)
            obtain rfl := List.head_eq_of_cons_eq ht
            exact hno x hx' hx
        · rcases hq with ⟨rfl, rfl⟩ | ⟨rfl, -⟩
          · obtain ⟨t, ht, -, -, hno⟩ := hone.resolve_left (List.cons_ne_nil _ _)
            obtain rfl := List.head_eq_of_cons_eq ht
            exact hno x hx hx'
          · exact hij rfl
  · have hs : ∀ g' ∈ h :: tail, ¬ g'.Has s := fun g' hg' hs =>
      (hsub g' hg' s hs).2 ⟨Nat.le_refl s, hse⟩
    rw [List.length_append, List.length_set]
    rcases hone with rfl | ⟨t, rfl, hlen, hin, -⟩
    · refine hc.split.imp id fun ⟨hlen, hno⟩ => ⟨hlen, fun g' hg' hs' => ?_⟩
      obtain ⟨j, hj⟩ := List.getElem?_of_mem hg'
      rcases hget j g' hj with ⟨-, -, hj⟩ | hp
      · exact hno g' (List.mem_of_getElem? hj) hs'
      · exact hs g' (hpiece hp) hs'
    · refine .inr ⟨by rw [hlen]; rfl, fun g' hg' hs' => ?_⟩
      obtain ⟨j, hj⟩ := List.getElem?_of_mem hg'
      rcases hget j g' hj with ⟨hjk, -, hj⟩ | hp
      · exact hc.apart _ _ _ _ hj hg hjk s hs' hin
      · exact hs g' (hpiece hp) hs'

/-- **One gap is cut.** -/
theorem Cutting.step (hc : Cutting F s e n k gs) (hse : s < e) (hcap : n < cap) :
    Cutting F s e n (k + 1) (cutAt cap s e gs k) := by
  cases hg : gs[k]? with
  | none =>
    have hk := List.getElem?_eq_none_iff.mp hg
    have heq : cutAt cap s e gs k = gs := by
      unfold cutAt
      rw [hg]
    rw [heq]
    refine ⟨fun j g hj x hx => ?_, hc.all, hc.apart, hc.split⟩
    obtain ⟨hF, hout⟩ := hc.free j g hj x hx
    obtain ⟨hj, -⟩ := List.getElem?_eq_some_iff.mp hj
    exact ⟨hF, fun _ => hout (by omega)⟩
  | some g =>
    have hone : ∀ h : Gap, (∀ x, h.Has x → g.Has x ∧ ¬ (s ≤ x ∧ x < e)) →
        (∀ a b, a < b → g.start ≤ a → b ≤ g.start + g.len →
          (∀ x, a ≤ x → x < b → ¬ (s ≤ x ∧ x < e)) → h.start ≤ a ∧ b ≤ h.start + h.len) →
        Cutting F s e n (k + 1) (gs.set k h) := by
      intro h hsub hall
      have := hc.replace hg (h := h) (.inl rfl) (fun g' hg' => by
        rw [List.mem_singleton] at hg'
        exact hg' ▸ hsub) (fun a b hab hle hge hfree =>
          ⟨h, List.mem_singleton_self h, hall a b hab hle hge hfree⟩) hse
      rwa [List.append_nil] at this
    unfold cutAt
    rw [hg]
    dsimp only
    unfold Has at hone
    split
    · next hcond =>
      obtain ⟨hsb, hae⟩ := hcond
      split
      · next hboth =>
        -- the range has two sides in this gap
        obtain ⟨hl, hr, -⟩ := hboth
        have hin : g.Has s := ⟨by omega, hsb⟩
        refine hc.replace hg (.inr ⟨_, rfl, hc.split.resolve_right fun hno =>
          hno.2 g (List.mem_of_getElem? hg) hin, hin, ?_⟩) ?_ ?_ hse
        · unfold Has
          dsimp only
          omega
        · simp only [List.forall_mem_cons, Has]
          refine ⟨by omega, by omega, nofun⟩
        · intro a b hab hle hge hfree
          have hs := hfree s
          have ha := hfree a (Nat.le_refl a) hab
          rw [List.exists_mem_cons_iff, List.exists_mem_cons_iff]
          dsimp only
          omega
      · next hboth =>
        have hlen : s - g.start ≠ 0 → gs.length < cap := fun hl => by
          have := hc.split.resolve_right fun hno =>
            hno.2 g (List.mem_of_getElem? hg) ⟨by omega, hsb⟩
          omega
        split
        · next hl =>
          have hlen := hlen hl
          refine hone _ (by dsimp only; omega) fun a b hab hle hge hfree => ?_
          have ha := hfree a (Nat.le_refl a) hab
          have hs := hfree s
          dsimp only
          omega
        split
        · next hl hr =>
          refine hone _ (by dsimp only; omega) fun a b hab hle hge hfree => ?_
          have ha := hfree a (Nat.le_refl a) hab
          dsimp only
          omega
        · refine hone _ (by dsimp only; omega) fun a b hab hle hge hfree => ?_
          have ha := hfree a (Nat.le_refl a) hab
          omega
    · next hcond =>
      have hout : ∀ x, g.Has x → ¬ (s ≤ x ∧ x < e) := fun x hx => by
        unfold Has at hx
        omega
      refine ⟨fun j g' hj x hx => ?_, hc.all, hc.apart, hc.split⟩
      obtain ⟨hF, hout'⟩ := hc.free j g' hj x hx
      refine ⟨hF, fun hjk => ?_⟩
      rcases Nat.lt_or_ge j k with hlt | hge
      · exact hout' (.inl hlt)
      rcases Nat.lt_or_ge j n with hjn | hjn
      · obtain rfl : j = k := by omega
        exact hout x (Option.some.inj (hg.symm.trans hj) ▸ hx)
      · exact hout' (.inr hjn)

/-- **A range is cut out of the gaps**, when there is room for one gap more. -/
theorem Of.cut (h : Of F gs) (hse : s < e) (hcap : gs.length < cap) :
    Of (fun x => F x ∧ ¬ (s ≤ x ∧ x < e)) (cut cap s e gs)
      ∧ (Gap.cut cap s e gs).length ≤ gs.length + 1 := by
  have hrun : ∀ k, Cutting F s e gs.length k ((List.range k).foldl (cutAt cap s e) gs) := by
    intro k
    induction k with
    | zero =>
      refine ⟨fun j g hj x hx => ⟨h.free g (List.mem_of_getElem? hj) x hx, fun hj' => ?_⟩,
        fun a b hab hfree => h.all a b hab fun x h₁ h₂ => (hfree x h₁ h₂).1, h.apart, .inl rfl⟩
      have hlt : j < gs.length := (List.getElem?_eq_some_iff.mp hj).1
      omega
    | succ k ih =>
      rw [List.range_succ, List.foldl_append]
      exact ih.step hse hcap
  have hc := hrun cap
  refine ⟨⟨fun g hg x hx => ?_, hc.all, hc.apart⟩, ?_⟩
  · obtain ⟨j, hj⟩ := List.getElem?_of_mem hg
    obtain ⟨hF, hout⟩ := hc.free j g hj x hx
    obtain ⟨hjlt, -⟩ := List.getElem?_eq_some_iff.mp hj
    exact ⟨hF, hout (by rcases hc.split with hlen | ⟨hlen, -⟩ <;> omega)⟩
  · rcases hc.split with hlen | ⟨hlen, -⟩
    · exact Nat.le_succ_of_le (Nat.le_of_eq hlen)
    · exact Nat.le_of_eq hlen

/-- A gap is inside one that was there, and begins where that began or behind the range. -/
theorem mem_cutAt (hg : g ∈ cutAt cap s e gs k) : ∃ h ∈ gs, (g.start = h.start ∨ g.start = e ∧ h.Has e)
    ∧ h.start ≤ g.start ∧ g.start + g.len ≤ h.start + h.len := by
  unfold cutAt at hg
  cases hk : gs[k]? with
  | none =>
    rw [hk] at hg
    exact ⟨g, hg, .inl rfl, Nat.le_refl _, Nat.le_refl _⟩
  | some h =>
    have hmem := List.mem_of_getElem? hk
    have hset : ∀ {h' : Gap}, g ∈ gs.set k h' → (h'.start = h.start ∨ h'.start = e ∧ h.Has e) →
        h.start ≤ h'.start ∧ h'.start + h'.len ≤ h.start + h.len →
        ∃ h ∈ gs, (g.start = h.start ∨ g.start = e ∧ h.Has e)
          ∧ h.start ≤ g.start ∧ g.start + g.len ≤ h.start + h.len := by
      intro h' hg hs hle
      rcases List.mem_or_eq_of_mem_set hg with hg | rfl
      · exact ⟨g, hg, .inl rfl, Nat.le_refl _, Nat.le_refl _⟩
      · exact ⟨h, hmem, hs, hle⟩
    rw [hk] at hg
    dsimp only at hg
    split at hg
    · split at hg
      · rcases List.mem_append.mp hg with hg | hg
        · exact hset hg (.inl rfl) (by dsimp only; omega)
        · refine ⟨h, hmem, .inr ⟨by rw [List.mem_singleton.mp hg], by unfold Has; omega⟩, ?_⟩
          rw [List.mem_singleton.mp hg]
          dsimp only
          omega
      split at hg
      · exact hset hg (.inl rfl) (by dsimp only; omega)
      split at hg
      · exact hset hg (.inr ⟨rfl, by unfold Has; omega⟩) (by dsimp only; omega)
      · exact hset hg (.inl rfl) (by dsimp only; omega)
    · exact ⟨g, hg, .inl rfl, Nat.le_refl _, Nat.le_refl _⟩

theorem mem_cut (hg : g ∈ cut cap s e gs) : ∃ h ∈ gs, (g.start = h.start ∨ g.start = e ∧ h.Has e)
    ∧ h.start ≤ g.start ∧ g.start + g.len ≤ h.start + h.len := by
  have hrun : ∀ n {g}, g ∈ (List.range n).foldl (cutAt cap s e) gs →
      ∃ h ∈ gs, (g.start = h.start ∨ g.start = e ∧ h.Has e)
        ∧ h.start ≤ g.start ∧ g.start + g.len ≤ h.start + h.len := by
    intro n
    induction n with
    | zero => exact fun hg => ⟨_, hg, .inl rfl, Nat.le_refl _, Nat.le_refl _⟩
    | succ n ih =>
      intro g hg
      rw [List.range_succ, List.foldl_append] at hg
      obtain ⟨h, hh, hs, hge, hle⟩ := mem_cutAt hg
      obtain ⟨h', hh', hs', hge', hle'⟩ := ih hh
      exact ⟨h', hh', by unfold Has at *; omega, by omega, by omega⟩
  exact hrun cap hg

theorem Of.congr {F' : Nat → Prop} (h : Of F gs) (hF : ∀ x, F x ↔ F' x) : Of F' gs where
  free g hg x hx := (hF x).mp (h.free g hg x hx)
  all a b hab hfree := h.all a b hab fun x h₁ h₂ => (hF x).mpr (hfree x h₁ h₂)
  apart := h.apart

/-- One gap for one run of places. -/
theorem Of.single (a l : Nat) : Of (fun x => a ≤ x ∧ x < a + l) [⟨a, l⟩] where
  free g hg x hx := by
    rw [List.mem_singleton.mp hg] at hx
    exact hx
  all b c hbc hfree := by
    have hb := hfree b (Nat.le_refl b) hbc
    have hc := hfree (c - 1) (by omega) (by omega)
    exact ⟨_, List.mem_singleton_self _, hb.1, by dsimp only; omega⟩
  apart i j g h hi hj hij := by
    have hi' : i < 1 := (List.getElem?_eq_some_iff.mp hi).1
    have hj' : j < 1 := (List.getElem?_eq_some_iff.mp hj).1
    omega

end Gap
