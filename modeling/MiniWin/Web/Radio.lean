import MiniWin.Lib.SlotTable
import MiniWin.Web.Controls
import MiniWin.Web.DomTree

/-!
# Radio buttons

Ticking a radio button unticks the others of its group, which takes a slot for each of them. The
slots are a table in which the nodes are entered in the order of the document, and the button itself
last; what becomes of a button that finds no slot is left to the markup.
-/

namespace Dom

open Function SlotTable

/-! ## What is meant -/

/-- Two radio buttons that have a name in common, and the form around them. -/
def SameGroup (d : Doc) (n m : Nat) : Prop :=
  isRadio d n ∧ isRadio d m ∧ findForm d m = findForm d n
    ∧ ∃ name ≠ [], attr d n .name = some name ∧ attr d m .name = some name

/-- **The button is ticked and no other one of its group is**, and nothing else has changed. -/
structure Exclusive (d : Doc) (n : Nat) (s s' : Ctls) : Prop where
  ticked : isChecked d s' n = true
  group : ∀ m, 0 < m → m < d.node_count → m ≠ n → SameGroup d n m → isChecked d s' m = false
  checked : ∀ m, 0 < m → m < d.node_count → m ≠ n → ¬SameGroup d n m →
    isChecked d s' m = isChecked d s m
  text : ∀ m, 0 < m → textOf d s' m = textOf d s m
  option : ∀ m, 0 < m → selectOption d s' m = selectOption d s m

/-- What is done to the controls. -/
inductive Call where
  | focus (n : Nat)
  | key (ch : Int)
  | check (n v : Nat)
  | next (n : Nat)
  | radio (n : Nat)

def Call.apply (d : Doc) (s : Ctls) : Call → Ctls
  | focus n => ctlFocus d n s
  | key ch => (ctlKey d ch s).2
  | check n v => setChecked n v s
  | next n => selectNext d n s
  | radio n => radioSelect d n s

/-- The others of the group, in the order of the document. -/
def others (d : Doc) (n : Nat) : List Nat :=
  (List.range' 1 (d.node_count - 1)).filter fun m =>
    m ≠ n ∧ isRadio d m ∧ findForm d m = findForm d n ∧ attr d m .name = attr d n .name
      ∧ (attr d n .name).getD [] ≠ []

/-- How many slots are free. -/
def Ctls.free (s : Ctls) : Nat := ((List.finRange ctlMax).filter fun i => (s.slots i).node = 0).length

/-- **There is room for the group**, or the markup does not tick who finds none: not the others that
come too late for a slot, and the button itself if it does. -/
def Room (d : Doc) (n : Nat) (s : Ctls) : Prop :=
  let fresh := (others d n).filter fun m => (s.find m).isNone
  (∀ m ∈ fresh.drop s.free, hasAttr d m .checked = false)
    ∧ ((s.find n).isSome ∨ fresh.length < s.free ∨ hasAttr d n .checked = true)

/-! ## The form around a node -/

/-! ## The slots -/

variable {d : Doc} {s : Ctls} {n m l v : Nat} {i : Fin ctlMax} {x : Ctl}

/-- The node that a slot is for. -/
def Ctls.keys (s : Ctls) (i : Fin ctlMax) : Option Nat :=
  if (s.slots i).node = 0 then none else some (s.slots i).node

theorem keys_eq_some (hn : n ≠ 0) : s.keys i = some n ↔ (s.slots i).node = n := by
  unfold Ctls.keys
  split
  · next h0 => exact iff_of_false (nomatch ·) fun h => hn (h ▸ h0)
  · exact Option.some_inj

theorem keys_eq_none : s.keys i = none ↔ (s.slots i).node = 0 := by
  unfold Ctls.keys
  split
  · next h0 => exact iff_of_true rfl h0
  · next h0 => exact iff_of_false (nomatch ·) h0

theorem find_some (h : s.find n = some i) : (s.slots i).node = n := by
  simpa using List.find?_some h

theorem find_eq_none : s.find n = none ↔ ∀ i, (s.slots i).node ≠ n := by
  unfold Ctls.find
  simp

theorem find_eq_some (hs : Single s.keys) (hn : n ≠ 0) :
    s.find n = some i ↔ (s.slots i).node = n := by
  refine ⟨find_some, fun h => ?_⟩
  cases hf : s.find n with
  | none => exact absurd h (find_eq_none.mp hf i)
  | some j =>
    have hj := find_some hf
    exact congrArg some (hs ((keys_eq_some hn).mpr hj) ((keys_eq_some hn).mpr h))

theorem bears_iff (hn : n ≠ 0) : Bears s.keys n ↔ (s.find n).isSome := by
  rw [← Option.not_isNone, Bool.not_eq_true', ← Bool.not_eq_true, Option.isNone_iff_eq_none,
    find_eq_none, not_forall]
  exact exists_congr fun i => (keys_eq_some hn).trans not_not.symm

theorem free_eq (s : Ctls) : SlotTable.free s.keys = s.free := by
  unfold SlotTable.free Ctls.free
  rw [← List.toFinset_card_of_nodup ((List.nodup_finRange _).filter _)]
  congr 1
  ext i
  simp [keys_eq_none]

/-! ## What a slot says -/

/-- What has been typed. -/
def typed (c : Option Ctl) : Option (List UInt8) := c.bind fun c => if c.edited then some c.text else none

/-- What has been chosen. -/
def chosen (c : Option Ctl) : Option Nat := c.bind fun c => if c.sel ≠ 0 then some c.sel else none

theorem textOf_eq : textOf d s n = (typed (s.slot n)).getD (markupText d n) := by
  unfold textOf typed
  cases s.slot n with
  | none => rfl
  | some c =>
    dsimp only [Option.bind_some]
    split <;> rfl

theorem selectOption_eq : selectOption d s n = (chosen (s.slot n)).getD (markupOption d n) := by
  unfold selectOption chosen
  cases s.slot n with
  | none => rfl
  | some c =>
    dsimp only [Option.bind_some]
    split <;> rfl

theorem isChecked_congr {s' : Ctls} (h : s'.slot n = s.slot n) :
    isChecked d s' n = isChecked d s n := by
  unfold isChecked
  rw [h]

/-- A slot is written: it is then what its node finds, and nothing else changes. -/
theorem slot_set (hs : Single s.keys) (hs' : Single (s.set i x).keys) (hl : l ≠ 0) :
    (s.set i x).slot l
      = if x.node = l then some x else if (s.slots i).node = l then none else s.slot l := by
  have hself : ((s.set i x).slots i).node = x.node := congrArg Ctl.node (s.set_self i x)
  unfold Ctls.slot
  by_cases hx : x.node = l
  · rw [if_pos hx, (find_eq_some hs' hl).mpr (hself.trans hx)]
    exact congrArg some (s.set_self i x)
  rw [if_neg hx]
  have hgone (hno : ∀ j ≠ i, (s.slots j).node ≠ l) : (s.set i x).find l = none := by
    refine find_eq_none.mpr fun j hj => ?_
    by_cases hji : j = i
    · subst hji
      exact hx (hself.symm.trans hj)
    · rw [Ctls.set_other x hji] at hj
      exact hno j hji hj
  by_cases hi : (s.slots i).node = l
  · rw [if_pos hi, hgone fun j hji hj => ?_]
    · rfl
    · exact hji (hs ((keys_eq_some hl).mpr hj) ((keys_eq_some hl).mpr hi))
  rw [if_neg hi]
  cases hf : s.find l with
  | none =>
    rw [hgone fun j _ => find_eq_none.mp hf j]
    rfl
  | some j =>
    have hj := find_some hf
    have hji : j ≠ i := fun h => hi (h ▸ hj)
    rw [(find_eq_some hs' hl).mpr ((congrArg Ctl.node (Ctls.set_other x hji)).trans hj),
      Option.map_some, Option.map_some, Ctls.set_other x hji]

theorem keys_set (s : Ctls) (i : Fin ctlMax) (hx : x.node ≠ 0) :
    (s.set i x).keys = update s.keys i (some x.node) := by
  funext j
  unfold Ctls.keys
  by_cases hj : j = i
  · subst hj
    rw [update_self, Ctls.set_self, if_neg hx]
  · rw [update_of_ne hj, Ctls.set_other x hj]

/-- A slot for the same node. -/
theorem keys_set_same (hx : x.node = (s.slots i).node) : (s.set i x).keys = s.keys := by
  funext j
  unfold Ctls.keys
  by_cases hj : j = i
  · subst hj
    rw [Ctls.set_self, hx]
  · rw [Ctls.set_other x hj]

/-- **Making a slot enters the node** into the table. -/
theorem enter_make (s : Ctls) (hn : n ≠ 0) :
    Enter s.keys n (s.make n).1 (s.make n).2.keys := by
  unfold Ctls.make
  cases hf : s.find n with
  | some i => exact .held ((keys_eq_some hn).mpr (find_some hf))
  | none =>
    have hno : ¬Bears s.keys n := by
      rw [bears_iff hn, hf]
      exact Bool.false_ne_true
    cases h0 : s.find 0 with
    | some i =>
      dsimp only
      rw [keys_set s i (show ({ node := n } : Ctl).node ≠ 0 from hn)]
      exact .took hno (keys_eq_none.mpr (find_some h0))
    | none => exact .full hno fun i hi => find_eq_none.mp h0 i (keys_eq_none.mp hi)

/-- What the slot of a node is when it has been made. -/
theorem slot_make (hs : Single s.keys) (hn : n ≠ 0) (hl : l ≠ 0) :
    (s.make n).2.slot l
      = if l = n ∧ s.slot n = none ∧ (s.make n).1.isSome then some { node := n } else s.slot l := by
  have henter := enter_make s hn
  unfold Ctls.make at henter ⊢
  cases hf : s.find n with
  | some i =>
    rw [if_neg fun h => ?_]
    rw [Ctls.slot, hf] at h
    exact Option.some_ne_none _ h.2.1
  | none =>
    have hnone : s.slot n = none := by
      rw [Ctls.slot, hf]
      rfl
    rw [hf] at henter
    cases h0 : s.find 0 with
    | none =>
      dsimp only
      rw [if_neg fun h => Bool.false_ne_true h.2.2]
    | some i =>
      rw [h0] at henter
      dsimp only at henter ⊢
      have hi := find_some h0
      rw [slot_set hs (henter.single hs) hl]
      dsimp only
      by_cases hln : l = n
      · rw [if_pos hln.symm, if_pos ⟨hln, hnone, rfl⟩]
      · rw [if_neg (Ne.symm hln), if_neg (show ¬(s.slots i).node = l from fun h => hl (h.symm.trans hi)),
          if_neg fun h => hln h.1]

theorem make_none {t : Ctls} (h : s.make n = (none, t)) : t = s := by
  unfold Ctls.make at h
  split at h
  · exact absurd (Prod.mk.inj h).1 (Option.some_ne_none _)
  · split at h
    · exact absurd (Prod.mk.inj h).1 (Option.some_ne_none _)
    · exact (Prod.mk.inj h).2.symm

/-- **Ticking or unticking.** The node is entered; if it has a slot then, the slot says how it is, and
nothing else has changed. -/
theorem setChecked_spec (hs : Single s.keys) (hn : n ≠ 0) (v : Nat) :
    (∃ o, Enter s.keys n o (setChecked n v s).keys)
      ∧ (Bears (setChecked n v s).keys n →
        isChecked d (setChecked n v s) n = decide (UInt8.ofNat v ≠ 0))
      ∧ (¬Bears (setChecked n v s).keys n → setChecked n v s = s)
      ∧ (∀ l, l ≠ 0 → l ≠ n → (setChecked n v s).slot l = s.slot l)
      ∧ ∀ l, l ≠ 0 → typed ((setChecked n v s).slot l) = typed (s.slot l)
        ∧ chosen ((setChecked n v s).slot l) = chosen (s.slot l) := by
  have henter := enter_make s hn
  have hslot (l : Nat) (hl : l ≠ 0) := slot_make (l := l) hs hn hl
  unfold setChecked
  obtain ⟨o, t, hmake⟩ : ∃ o t, s.make n = (o, t) := ⟨_, _, rfl⟩
  rw [hmake] at henter hslot ⊢
  cases o with
  | none =>
    obtain rfl := make_none hmake
    refine ⟨⟨_, henter⟩, fun h => ?_, fun _ => rfl, fun l _ _ => rfl, fun l _ => ⟨rfl, rfl⟩⟩
    cases henter with
    | full hno _ => exact absurd h hno
  | some i =>
    dsimp only at henter hslot ⊢
    have hnode : (t.slots i).node = n := (keys_eq_some hn).mp henter.bears
    have hkeys := keys_set_same (s := t) (i := i)
      (x := { t.slots i with checked := UInt8.ofNat v, marked := true }) rfl
    have htn : t.slot n = some (t.slots i) := by
      rw [Ctls.slot, (find_eq_some (henter.single hs) hn).mpr hnode]
      rfl
    have hset (l : Nat) (hl : l ≠ 0) : (t.set i { t.slots i with
        checked := UInt8.ofNat v, marked := true }).slot l = if l = n
          then some { t.slots i with checked := UInt8.ofNat v, marked := true } else s.slot l := by
      rw [slot_set (henter.single hs) (hkeys ▸ henter.single hs) hl]
      dsimp only
      rw [hnode]
      by_cases hln : l = n
      · rw [if_pos hln.symm, if_pos hln]
      · rw [if_neg (Ne.symm hln), if_neg (Ne.symm hln), if_neg hln, hslot l hl,
          if_neg fun h => hln h.1]
    rw [hkeys]
    refine ⟨⟨_, henter⟩, fun _ => ?_, fun h => absurd ⟨i, henter.bears⟩ h, fun l hl hln => ?_,
      fun l hl => ?_⟩
    · unfold isChecked
      rw [hset n hn, if_pos rfl]
      rfl
    · rw [hset l hl, if_neg hln]
    · rw [hset l hl]
      by_cases hln : l = n
      · subst hln
        rw [if_pos rfl]
        have hsame := hslot l hl
        rw [htn] at hsame
        by_cases hnew : s.slot l = none
        · rw [if_pos ⟨rfl, hnew, rfl⟩] at hsame
          rw [hnew, Option.some.inj hsame]
          exact ⟨rfl, rfl⟩
        · rw [if_neg fun h => hnew h.2.1] at hsame
          rw [← hsame]
          exact ⟨rfl, rfl⟩
      · rw [if_neg hln]
        exact ⟨rfl, rfl⟩

/-! ## A group -/

theorem bears_iff_slot (hn : n ≠ 0) : Bears s.keys n ↔ s.slot n ≠ none := by
  rw [bears_iff hn, Ctls.slot]
  cases s.find n with
  | none => exact iff_of_false Bool.false_ne_true fun h => h rfl
  | some i => exact iff_of_true rfl (Option.some_ne_none _)

/-- A control without a slot is as its markup says. -/
theorem isChecked_of_not (hn : n ≠ 0) (h : ¬Bears s.keys n) :
    isChecked d s n = hasAttr d n .checked := by
  unfold isChecked
  rw [not_not.mp (mt (bears_iff_slot hn).mpr h)]

/-- **A row of buttons is unticked**, as far as they have slots then. -/
theorem untick_spec (hs : Single s.keys) {ms : List Nat} (h0 : ∀ m ∈ ms, m ≠ 0) :
    Entered s.keys ms (ms.foldl (fun s m => setChecked m 0 s) s).keys
      ∧ (∀ m ∈ ms, Bears (ms.foldl (fun s m => setChecked m 0 s) s).keys m →
        isChecked d (ms.foldl (fun s m => setChecked m 0 s) s) m = false)
      ∧ (∀ l, l ≠ 0 → l ∉ ms → (ms.foldl (fun s m => setChecked m 0 s) s).slot l = s.slot l)
      ∧ ∀ l, l ≠ 0 → typed ((ms.foldl (fun s m => setChecked m 0 s) s).slot l) = typed (s.slot l)
        ∧ chosen ((ms.foldl (fun s m => setChecked m 0 s) s).slot l) = chosen (s.slot l) := by
  induction ms generalizing s with
  | nil => exact ⟨.nil _, fun m hm => absurd hm List.not_mem_nil, fun _ _ _ => rfl, fun _ _ => ⟨rfl, rfl⟩⟩
  | cons k ms ih =>
    have hk := h0 k List.mem_cons_self
    obtain ⟨⟨o, henter⟩, hcheck, -, hother, hkeep⟩ := setChecked_spec (d := d) hs hk 0
    obtain ⟨hrest, hchecks, hothers, hkeeps⟩ := ih (henter.single hs) fun m hm =>
      h0 m (List.mem_cons_of_mem k hm)
    rw [List.foldl_cons]
    refine ⟨.cons henter hrest, fun m hm hbears => ?_, fun l hl hlm => ?_, fun l hl => ?_⟩
    · by_cases hmem : m ∈ ms
      · exact hchecks m hmem hbears
      · obtain rfl := (List.mem_cons.mp hm).resolve_right hmem
        have hsame := hothers m hk hmem
        rw [bears_iff_slot hk, hsame, ← bears_iff_slot hk] at hbears
        rw [isChecked_congr hsame, hcheck hbears]
        rfl
    · rw [List.mem_cons, not_or] at hlm
      rw [hothers l hl hlm.2, hother l hl hlm.1]
    · rw [(hkeeps l hl).1, (hkeeps l hl).2]
      exact hkeep l hl

theorem mem_others (hn : isRadio d n = true) :
    m ∈ others d n ↔ 0 < m ∧ m < d.node_count ∧ m ≠ n ∧ SameGroup d n m := by
  unfold others SameGroup
  rw [List.mem_filter, List.mem_range'_1, decide_eq_true_eq]
  constructor
  · rintro ⟨⟨hlo, hhi⟩, hne, hm, hform, hname, hnil⟩
    obtain ⟨name, hsome⟩ : ∃ name, attr d n .name = some name := by
      cases h : attr d n .name with
      | none =>
        rw [h] at hnil
        exact absurd rfl hnil
      | some name => exact ⟨name, rfl⟩
    rw [hsome] at hname hnil
    exact ⟨hlo, by omega, hne, hn, hm, hform, name, hnil, hsome, hname⟩
  · rintro ⟨hlo, hhi, hne, -, hm, hform, name, hnil, hsome, hname⟩
    rw [hsome, hname]
    exact ⟨⟨hlo, by omega⟩, hne, hm, hform, rfl, hnil⟩

/-- What is unticked are the others of the group. -/
theorem radioSelect_eq (d : Doc) (n : Nat) (s : Ctls) : radioSelect d n s
    = setChecked n 1 ((others d n).foldl (fun s m => setChecked m 0 s) s) := by
  unfold radioSelect
  dsimp only
  congr 2
  unfold others
  cases hname : attr d n .name with
  | none =>
    refine (List.filter_eq_nil_iff.mpr fun m _ h => ?_).symm
    exact (decide_eq_true_eq.mp h).2.2.2.2 rfl
  | some name =>
    dsimp only
    split
    · next hnil =>
      refine (List.filter_eq_nil_iff.mpr fun m _ h => ?_).symm
      exact (decide_eq_true_eq.mp h).2.2.2.2 hnil
    · next hnil =>
      refine List.filter_congr fun m _ => ?_
      unfold sharesName
      rw [Bool.eq_iff_iff, decide_eq_true_eq]
      simp only [Bool.and_eq_true, decide_eq_true_eq, Option.getD_some]
      exact ⟨fun h => ⟨h.1.1.1, h.1.1.2, h.2, h.1.2, hnil⟩,
        fun h => ⟨⟨⟨h.1, h.2.1⟩, h.2.2.2.1⟩, h.2.2.1⟩⟩

theorem freshOf_others (hn : isRadio d n = true) :
    freshOf s.keys (others d n) = (others d n).filter fun m => (s.find m).isNone := by
  classical
  unfold freshOf
  refine List.filter_congr fun m hm => ?_
  have hm0 := ((mem_others hn).mp hm).1
  rw [Bool.eq_iff_iff, decide_eq_true_eq, bears_iff (Nat.ne_of_gt hm0), Bool.not_eq_true,
    Option.isSome_eq_false_iff]

/-- **When a radio button is alone.** -/
theorem exclusive_iff (hs : Single s.keys) (hn : isRadio d n = true) (h0 : 0 < n) :
    Exclusive d n s (radioSelect d n s) ↔ Room d n s := by
  have hn0 := Nat.ne_of_gt h0
  have hpos : ∀ m ∈ others d n, m ≠ 0 := fun m hm => Nat.ne_of_gt ((mem_others hn).mp hm).1
  have hnodup : (others d n).Nodup :=
    (List.nodup_range' 1 Nat.one_pos).filter _
  have hnot : n ∉ others d n := fun h => ((mem_others hn).mp h).2.2.1 rfl
  obtain ⟨t, ht⟩ : ∃ t, (others d n).foldl (fun s m => setChecked m 0 s) s = t := ⟨_, rfl⟩
  obtain ⟨hentered, huntick, hother, hkeep⟩ := untick_spec (d := d) hs hpos
  rw [radioSelect_eq, ht]
  rw [ht] at hentered huntick hother hkeep
  obtain ⟨⟨o, henter⟩, htick, -, hrest, hkeep'⟩ := setChecked_spec (d := d) (hentered.single hs) hn0 1
  obtain ⟨fresh, hfresh⟩ : ∃ fresh, freshOf s.keys (others d n) = fresh := ⟨_, rfl⟩
  have hroom : Room d n s ↔ (∀ m ∈ fresh.drop s.free, hasAttr d m .checked = false)
      ∧ (Bears s.keys n ∨ fresh.length < s.free ∨ hasAttr d n .checked = true) := by
    rw [bears_iff hn0, ← hfresh, freshOf_others hn]
    exact Iff.rfl
  -- the others: those that found no slot are as the markup says
  have hgroup : (∀ m ∈ others d n, isChecked d (setChecked n 1 t) m = false)
      ↔ ∀ m ∈ fresh.drop s.free, hasAttr d m .checked = false := by
    have hbears {m : Nat} (hm : m ∈ others d n) :
        Bears t.keys m ↔ Bears s.keys m ∨ m ∈ fresh.take s.free := by
      rw [hentered.bears_iff hnodup hm, hfresh, free_eq]
    have hcheck {m : Nat} (hm : m ∈ others d n) :
        isChecked d (setChecked n 1 t) m = isChecked d t m :=
      isChecked_congr (hrest m (hpos m hm) fun h => hnot (h ▸ hm))
    have hmem {m : Nat} : m ∈ fresh ↔ m ∈ others d n ∧ ¬Bears s.keys m := by
      classical
      rw [← hfresh, freshOf, List.mem_filter, decide_eq_true_eq]
    have hdisj : List.Disjoint (fresh.take s.free) (fresh.drop s.free) := by
      refine List.disjoint_take_drop ?_ (Nat.le_refl _)
      rw [← hfresh]
      exact hnodup.filter _
    constructor
    · intro h m hm
      obtain ⟨hmo, hno⟩ := hmem.mp (List.mem_of_mem_drop hm)
      have hmt : ¬Bears t.keys m := fun hb =>
        ((hbears hmo).mp hb).elim hno fun htake => hdisj htake hm
      rw [← isChecked_of_not (hpos m hmo) hmt, ← hcheck hmo]
      exact h m hmo
    · intro h m hm
      rw [hcheck hm]
      by_cases hmt : Bears t.keys m
      · exact huntick m hm hmt
      · rw [isChecked_of_not (hpos m hm) hmt]
        rw [hbears hm, not_or] at hmt
        have hsplit := hmem.mpr ⟨hm, hmt.1⟩
        rw [← List.take_append_drop s.free fresh, List.mem_append] at hsplit
        exact h m (hsplit.resolve_left hmt.2)
  -- the button itself
  have hself : isChecked d (setChecked n 1 t) n = true
      ↔ Bears s.keys n ∨ fresh.length < s.free ∨ hasAttr d n .checked = true := by
    have hone : Bears (setChecked n 1 t).keys n ↔ Bears t.keys n ∨ SlotTable.free t.keys ≠ 0 := by
      rw [(Entered.cons henter (.nil _)).bears_iff (List.nodup_singleton n) List.mem_cons_self]
      by_cases hb : Bears t.keys n
      · exact iff_of_true (.inl hb) (.inl hb)
      · rw [freshOf_cons_of_not hb]
        refine or_congr_right ?_
        cases SlotTable.free t.keys with
        | zero => exact iff_of_false (nomatch ·) fun h => h rfl
        | succ k => exact iff_of_true List.mem_cons_self (Nat.succ_ne_zero k)
    have hbefore : Bears t.keys n ↔ Bears s.keys n := by
      rw [bears_iff_slot hn0, bears_iff_slot hn0, hother n hn0 hnot]
    have hleft : SlotTable.free t.keys ≠ 0 ↔ fresh.length < s.free := by
      rw [hentered.free_eq hnodup, hfresh, free_eq]
      omega
    rw [← or_assoc, ← hbefore, ← hleft, ← hone]
    by_cases hb : Bears (setChecked n 1 t).keys n
    · exact iff_of_true (htick hb) (.inl hb)
    · rw [isChecked_of_not hn0 hb, or_iff_right hb]
  rw [hroom, ← hgroup, ← hself]
  constructor
  · rintro ⟨hticked, halone, -, -, -⟩
    refine ⟨fun m hm => ?_, hticked⟩
    obtain ⟨hlo, hhi, hne, hsame⟩ := (mem_others hn).mp hm
    exact halone m hlo hhi hne hsame
  · rintro ⟨halone, hticked⟩
    refine ⟨hticked, fun m hlo hhi hne hsame => ?_, fun m hlo hhi hne hsame => ?_, fun m hm => ?_,
      fun m hm => ?_⟩
    · exact halone m ((mem_others hn).mpr ⟨hlo, hhi, hne, hsame⟩)
    · have hmo : m ∉ others d n := fun h => hsame ((mem_others hn).mp h).2.2.2
      exact isChecked_congr ((hrest m (Nat.ne_of_gt hlo) hne).trans (hother m (Nat.ne_of_gt hlo) hmo))
    · rw [textOf_eq, textOf_eq, (hkeep' m (Nat.ne_of_gt hm)).1, (hkeep m (Nat.ne_of_gt hm)).1]
    · rw [selectOption_eq, selectOption_eq, (hkeep' m (Nat.ne_of_gt hm)).2,
        (hkeep m (Nat.ne_of_gt hm)).2]

/-! ## Any run -/

theorem make_zero (s : Ctls) : (s.make 0).2 = s := by
  unfold Ctls.make
  cases s.find 0 <;> rfl

theorem single_make (hs : Single s.keys) (n : Nat) : Single (s.make n).2.keys := by
  by_cases hn : n = 0
  · rw [hn, make_zero]
    exact hs
  · exact (enter_make s hn).single hs

theorem single_set (hs : Single s.keys) (hx : x.node = (s.slots i).node) :
    Single (s.set i x).keys := by
  rw [keys_set_same hx]
  exact hs

theorem single_setChecked (hs : Single s.keys) (n v : Nat) : Single (setChecked n v s).keys := by
  have hmake := single_make hs n
  unfold setChecked
  split
  · next i t heq =>
    rw [heq] at hmake
    exact single_set hmake rfl
  · next t heq =>
    rw [heq] at hmake
    exact hmake

theorem single_putBytes (hs : Single s.keys) (b : List UInt8) : Single (putBytes b s).2.keys := by
  unfold putBytes
  split
  · exact hs
  · dsimp only
    split
    · exact hs
    · exact single_set hs rfl

/-- **Whatever is done**, no two slots are for one node. -/
theorem single_apply (hs : Single s.keys) (c : Call) : Single (c.apply d s).keys := by
  cases c with
  | focus n =>
    have hmake := single_make (s := { s with focus := n }) hs n
    show Single (ctlFocus d n s).keys
    unfold ctlFocus
    split
    · next i t heq =>
      rw [heq] at hmake
      split
      · exact hmake
      · exact single_set hmake rfl
    · next t heq =>
      rw [heq] at hmake
      exact hmake
  | key ch =>
    show Single (ctlKey d ch s).2.keys
    unfold ctlKey
    split
    · exact hs
    · dsimp only
      split_ifs
      · exact single_putBytes hs _
      · exact hs
      · exact hs
      · exact single_set hs rfl
      · exact single_putBytes hs _
      · exact hs
  | check n v => exact single_setChecked hs n v
  | next n =>
    have hmake := single_make hs n
    show Single (selectNext d n s).keys
    unfold selectNext
    dsimp only
    split
    · next i t heq =>
      rw [heq] at hmake
      exact single_set hmake rfl
    · next t heq =>
      rw [heq] at hmake
      exact hmake
  | radio n =>
    show Single (radioSelect d n s).keys
    rw [radioSelect_eq]
    refine single_setChecked ?_ n 1
    generalize others d n = ms
    induction ms generalizing s with
    | nil => exact hs
    | cons m ms ih => exact ih (single_setChecked hs m 0)

theorem single_reset (s : Ctls) : Single s.reset.keys := fun _ _ _ hi => nomatch hi

theorem single_run (hs : Single s.keys) (calls : List Call) :
    Single (calls.foldl (Call.apply d) s).keys := by
  induction calls generalizing s with
  | nil => exact hs
  | cons c calls ih => exact ih (single_apply hs c)

/-- **Ticking a radio button.** After any run it leaves the button alone in its group exactly if there
is room for the group. -/
theorem radioSelect_exclusive_iff (d : Doc) (s : Ctls) (calls : List Call) (n : Nat)
    (hn : isRadio d n = true) (h0 : 0 < n) :
    Exclusive d n (calls.foldl (Call.apply d) s.reset)
        (radioSelect d n (calls.foldl (Call.apply d) s.reset))
      ↔ Room d n (calls.foldl (Call.apply d) s.reset) :=
  exclusive_iff (single_run (single_reset s) calls) hn h0

/-- So many radio buttons of one name. -/
def radioPage (k : Nat) : List UInt8 :=
  (List.replicate k (Net.bytes "<input type=radio name=r>")).flatten

def noCtls : Ctls := ⟨fun _ => {}, 0⟩

/-- Two radio buttons, of which the second is ticked and then the first. -/
theorem radioSelect_exclusive_iff_two : ∃ d, parse 51 (fun _ => {}) (radioPage 2) = some d
    ∧ (Exclusive d 4 ([Call.radio 5].foldl (Call.apply d) noCtls.reset)
        (radioSelect d 4 ([Call.radio 5].foldl (Call.apply d) noCtls.reset))
      ↔ Room d 4 ([Call.radio 5].foldl (Call.apply d) noCtls.reset)) := by
  have hpage : (parse 51 (fun _ => {}) (radioPage 2)).map (isRadio · 4) = some true := by
    decide +kernel
  obtain ⟨d, hd, hradio⟩ := Option.map_eq_some_iff.mp hpage
  exact ⟨d, hd, radioSelect_exclusive_iff d noCtls [.radio 5] 4 hradio (by decide)⟩

/-- **The group has more buttons than there are slots.** Of seventeen buttons the first is not ticked
when it is selected. -/
theorem radioSelect_not_ticked : ∃ d, parse 426 (fun _ => {}) (radioPage 17) = some d
    ∧ isRadio d 4 = true ∧ 4 < d.node_count
    ∧ ¬Exclusive d 4 noCtls.reset (radioSelect d 4 noCtls.reset) := by
  have hpage : (parse 426 (fun _ => {}) (radioPage 17)).map
      (fun d => (isRadio d 4, d.node_count, isChecked d (radioSelect d 4 noCtls.reset) 4))
      = some (true, 21, false) := by
    decide +kernel
  obtain ⟨d, hd, heq⟩ := Option.map_eq_some_iff.mp hpage
  obtain ⟨hradio, heq⟩ := Prod.mk.inj heq
  obtain ⟨hcount, hcheck⟩ := Prod.mk.inj heq
  refine ⟨d, hd, hradio, hcount ▸ by decide, fun h => ?_⟩
  exact Bool.false_ne_true (hcheck.symm.trans h.ticked)

end Dom
