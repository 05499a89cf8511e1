import MiniWin.Lib.UrlEncoded
import MiniWin.Web.Controls
import MiniWin.Web.DomTree
import Mathlib.Data.List.Perm.Subperm

/-!
# What a form sends

The successful controls of a form, in the order of the document, with their values. What the encoder
writes is the text of these pairs as far as it has room, and says so; only the texts of the options
are cut before.
-/

namespace Dom

open Net UrlEncoded

/-! ## What is meant -/

/-- The text of a node, however long it is. -/
def fullText (d : Doc) : Nat → Nat → List UInt8
  | 0, _ => []
  | fuel + 1, n =>
    ((pieces d n).foldl (fun st x =>
      match x with
      | .inl b => putChar st b
      | .inr c => (st.1 ++ fullText d fuel c, st.2)) ([], true)).1.rdropWhile (· = 0x20)

def fullOption (d : Doc) (opt : Nat) : List UInt8 := fullText d d.node_count opt

/-- The elements below a node in the order of the document, but not those in a `<select>` or a
`<textarea>`. -/
def within (d : Doc) : Nat → Nat → List Nat
  | 0, _ => []
  | fuel + 1, n =>
    (d.kids n).flatMap fun c =>
      if (d.nodes c).kind ≠ .elem then []
      else c :: if d.tagOf c ≠ .select ∧ d.tagOf c ≠ .textarea then within d fuel c else []

/-- The names and values of the successful controls. -/
def pairs (text : Nat → List UInt8) (d : Doc) (s : Ctls) (form submitter : Nat) :
    List (List UInt8 × List UInt8) :=
  (within d d.node_count form).filterMap (pairOf text d s submitter)

/-- A space that does not break is a space. -/
def blank (c : UInt8) : UInt8 := if c = 0x01 then 0x20 else c

def meaning (p : List UInt8 × List UInt8) : List UInt8 × List UInt8 := (p.1.map blank, p.2.map blank)

/-- **The form is sent as it is**, or it is said that it is not. -/
structure Faithful (d : Doc) (s : Ctls) (form submitter cap : Nat) (q : Query) : Prop where
  fits : q.out.length + 1 ≤ cap
  exact : q.overflow = false →
    decode q.out = (pairs (fullOption d) d s form submitter).map meaning

/-- The option of a `<select>` that is sent with its text. -/
def shownText (d : Doc) (s : Ctls) (c : Nat) : Option Nat :=
  if d.tagOf c = .select ∧ (attr d c .name).getD [] ≠ [] ∧ ¬hasAttr d c .disabled
      ∧ selectOption d s c ≠ 0 ∧ attr d (selectOption d s c) .value = none
  then some (selectOption d s c) else none

/-- The texts of the options that are sent have room in their buffer. -/
def Short (d : Doc) (s : Ctls) (form : Nat) : Prop :=
  ∀ c ∈ within d d.node_count form, ∀ opt ∈ shownText d s c, (fullOption d opt).length ≤ 92

variable {d : Doc} {s : Ctls} {q q' q'' : Query} {cap n form submitter : Nat} {l m : List UInt8}

/-! ## The rounds are enough in a tree -/

theorem siblings_eq {fuel c : Nat} {l : List Nat} (h : Links.Chain d.links.next c l)
    (hf : l.length ≤ fuel) : siblings d fuel c = l := by
  induction h generalizing fuel with
  | nil => cases fuel <;> rfl
  | @cons c l hc _ ih =>
    obtain ⟨fuel, rfl⟩ : ∃ fuel', fuel = fuel' + 1 := ⟨fuel - 1, by rw [List.length_cons] at hf; omega⟩
    rw [siblings, if_neg hc]
    exact congrArg (c :: ·) (ih (Nat.le_of_succ_le_succ hf))

/-- **The children of a node** are the nodes whose parent it is. -/
theorem mem_kids (ht : d.links.Tree d.node_count) (hn : n < d.node_count) {c : Nat} :
    c ∈ d.kids n ↔ 0 < c ∧ c < d.node_count ∧ (d.nodes c).parent = n := by
  obtain ⟨l, hchain, hnodup, -, hmem⟩ := ht.kids n hn
  have hlen : l.length ≤ d.node_count := by
    have hsub : l ⊆ List.range d.node_count := fun c hc => List.mem_range.mpr ((hmem c).mp hc).2.1
    simpa using (List.subperm_of_subset hnodup hsub).length_le
  have hkids : d.kids n = l := siblings_eq hchain hlen
  rw [hkids]
  exact hmem c

theorem lt_kids (ht : d.links.Tree d.node_count) (hn : n < d.node_count) {c : Nat}
    (hc : c ∈ d.kids n) : n < c ∧ c < d.node_count := by
  obtain ⟨h0, hlt, hpar⟩ := (mem_kids ht hn).mp hc
  exact ⟨hpar ▸ ht.parent_lt c h0 hlt, hlt⟩

/-! ## Writing -/

/-- **Bytes are written**, or it is said that they are not. -/
structure Writes (cap : Nat) (l : List UInt8) (q q' : Query) : Prop where
  room : q.overflow = false → q.out.length + l.length < cap → q' = ⟨q.out ++ l, false⟩
  full : q.overflow = false → q.out.length < cap → cap ≤ q.out.length + l.length →
    q'.overflow = true
  stop : q.overflow = true → q'.overflow = true
  lt : q.out.length < cap → q'.out.length < cap

theorem Writes.refl (q : Query) : Writes cap [] q q where
  room hq _ := by
    rw [List.append_nil, ← hq]
  full _ hlt hfull := absurd hfull (Nat.not_le.mpr hlt)
  stop hq := hq
  lt hlt := hlt

theorem Writes.trans (h : Writes cap l q q') (h' : Writes cap m q' q'') :
    Writes cap (l ++ m) q q'' := by
  refine ⟨fun hq hroom => ?_, fun hq hlt hfull => ?_, fun hq => h'.stop (h.stop hq),
    fun hlt => h'.lt (h.lt hlt)⟩
  · rw [List.length_append] at hroom
    obtain rfl := h.room hq (by omega)
    rw [h'.room rfl (by rw [List.length_append]; omega), List.append_assoc]
  · rw [List.length_append] at hfull
    by_cases hl : q.out.length + l.length < cap
    · obtain rfl := h.room hq hl
      exact h'.full rfl (by rw [List.length_append]; omega) (by rw [List.length_append]; omega)
    · exact h'.stop (h.full hq hlt (Nat.not_lt.mp hl))

/-- Nothing is written any more, whatever was to be. -/
theorem Writes.of_overflow (hq : q.overflow = true) (l : List UInt8) : Writes cap l q q where
  room h := absurd (h.symm.trans hq) Bool.false_ne_true
  full h := absurd (h.symm.trans hq) Bool.false_ne_true
  stop _ := hq
  lt h := h

theorem put_writes (l : List UInt8) (hq : q.overflow = false) : Writes cap l q (q.put cap l) := by
  unfold Query.put
  split
  · next hroom =>
    refine ⟨fun _ _ => by rw [hq], fun _ _ hfull => absurd hroom (Nat.not_lt.mpr hfull),
      fun h => absurd (hq.symm.trans h) Bool.false_ne_true, fun _ => ?_⟩
    dsimp only
    rw [List.length_append]
    exact hroom
  · next hroom => exact ⟨fun _ h => absurd h hroom, fun _ _ _ => rfl, fun _ => rfl, id⟩

/-- What comes next, if there was room so far. -/
theorem Writes.next {f : Query → Query} (h : Writes cap l q q')
    (hf : q'.overflow = false → Writes cap m q' (f q')) :
    Writes cap (l ++ m) q (if q'.overflow then q' else f q') := by
  split
  · next ho => exact h.trans (.of_overflow ho m)
  · next ho => exact h.trans (hf (Bool.not_eq_true _ ▸ ho))

theorem sensible_isPlain : Sensible isPlain := by
  refine ⟨?_, ?_, ?_, ?_⟩ <;> decide

/-- The digits of a byte. -/
theorem hexDigits_eq (c : UInt8) : hexDigits.getD (c >>> 4).toNat 0 = hexDigit (c.toNat / 16)
    ∧ hexDigits.getD (c &&& 15).toNat 0 = hexDigit (c.toNat % 16) := by
  obtain ⟨v⟩ := c
  have hall : ∀ v : BitVec 8,
      hexDigits.getD (UInt8.ofBitVec v >>> 4).toNat 0 = hexDigit ((UInt8.ofBitVec v).toNat / 16)
      ∧ hexDigits.getD (UInt8.ofBitVec v &&& 15).toNat 0 = hexDigit ((UInt8.ofBitVec v).toNat % 16) := by
    decide +kernel
  exact hall v

/-- **One byte.** -/
theorem encodeByte_writes (q : Query) (c : UInt8) :
    Writes cap (escapeByte isPlain (blank c)) q (encodeByte cap q c) := by
  unfold encodeByte
  dsimp only
  rw [show (if c = 0x01 then 0x20 else c) = blank c from rfl]
  split
  · next ho => exact .of_overflow ho _
  · next ho =>
    have hq : q.overflow = false := Bool.not_eq_true _ ▸ ho
    unfold escapeByte
    split
    · exact put_writes _ hq
    · split
      · exact put_writes _ hq
      · rw [(hexDigits_eq _).1, (hexDigits_eq _).2]
        exact put_writes _ hq

/-- **A name or a value.** -/
theorem urlenc_writes (t : List UInt8) (q : Query) :
    Writes cap (escape isPlain (t.map blank)) q (urlenc cap t q) := by
  induction t generalizing q with
  | nil => exact .refl q
  | cons c t ih => exact (encodeByte_writes q c).trans (ih (encodeByte cap q c))

/-- **A pair**, with a separator in front of it unless it is the first. -/
theorem queryAdd_writes (p : List UInt8 × List UInt8) (q : Query) :
    Writes cap ((if q.out ≠ [] then [0x26] else []) ++ encodePair isPlain (meaning p)) q
      (queryAdd cap p.1 p.2 q) := by
  unfold queryAdd
  dsimp only
  by_cases ho : q.overflow = true
  · rw [if_pos ho]
    exact .of_overflow ho _
  rw [if_neg ho]
  have hq : q.overflow = false := Bool.not_eq_true _ ▸ ho
  have hsep : Writes cap (if q.out ≠ [] then [0x26] else []) q
      (if q.out ≠ [] then q.put cap ['&'.toUInt8] else q) := by
    split
    · exact put_writes _ hq
    · exact .refl q
  obtain ⟨q₁, hq₁⟩ : ∃ q₁, (if q.out ≠ [] then q.put cap ['&'.toUInt8] else q) = q₁ := ⟨_, rfl⟩
  rw [hq₁] at hsep ⊢
  refine hsep.trans ?_
  by_cases ho₁ : q₁.overflow = true
  · rw [if_pos ho₁]
    exact .of_overflow ho₁ _
  rw [if_neg ho₁]
  exact (urlenc_writes p.1 q₁).next (f := fun q => if (q.put cap ['='.toUInt8]).overflow = true
    then q.put cap ['='.toUInt8] else urlenc cap p.2 (q.put cap ['='.toUInt8])) fun ho =>
      (put_writes ['='.toUInt8] ho).next (f := urlenc cap p.2) fun _ => urlenc_writes p.2 _

/-- What the pairs behind the first are written as. -/
def tailOf (ps : List (List UInt8 × List UInt8)) : List UInt8 :=
  ps.flatMap fun p => 0x26 :: encodePair isPlain p

theorem encode_cons (p : List UInt8 × List UInt8) (ps : List (List UInt8 × List UInt8)) :
    encode isPlain (p :: ps) = encodePair isPlain p ++ tailOf ps := by
  unfold encode
  induction ps generalizing p with
  | nil => simp [tailOf]
  | cons p' ps ih =>
    rw [List.map_cons, List.map_cons, List.intercalate_cons_cons, ← List.map_cons, ih]
    simp [tailOf]

/-- **The pairs behind the first.** -/
theorem tail_writes (ps : List (List UInt8 × List UInt8)) (q : Query)
    (hne : q.overflow = false → q.out ≠ []) (hlt : q.out.length < cap) :
    Writes cap (tailOf (ps.map meaning)) q (ps.foldl (fun q p => queryAdd cap p.1 p.2 q) q) := by
  induction ps generalizing q with
  | nil => exact .refl q
  | cons p ps ih =>
    have hadd : Writes cap _ q (queryAdd cap p.1 p.2 q) := queryAdd_writes p q
    by_cases ho : q.overflow = true
    · have hstay : queryAdd cap p.1 p.2 q = q := by
        unfold queryAdd
        rw [if_pos ho]
      rw [List.foldl_cons, hstay]
      exact (Writes.of_overflow ho (0x26 :: encodePair isPlain (meaning p))).trans (ih q hne hlt)
    · have hq : q.overflow = false := Bool.not_eq_true _ ▸ ho
      rw [if_pos (hne hq)] at hadd
      refine hadd.trans (ih _ (fun hq' hnil => ?_) (hadd.lt hlt))
      by_cases hroom : q.out.length + (0x26 :: encodePair isPlain (meaning p)).length < cap
      · have heq := hadd.room hq hroom
        rw [heq] at hnil
        exact absurd (List.append_eq_nil_iff.mp hnil).2 (List.cons_ne_nil _ _)
      · exact absurd (hq'.symm.trans (hadd.full hq hlt (Nat.not_lt.mp hroom))) Bool.false_ne_true

/-- **All pairs.** -/
theorem pairs_writes (ps : List (List UInt8 × List UInt8)) (hcap : 0 < cap) :
    Writes cap (encode isPlain (ps.map meaning)) {}
      (ps.foldl (fun q p => queryAdd cap p.1 p.2 q) {}) := by
  cases ps with
  | nil => exact .refl _
  | cons p ps =>
    have hadd : Writes cap _ _ (queryAdd cap p.1 p.2 {}) := queryAdd_writes p {}
    rw [if_neg (not_not.mpr rfl), List.nil_append] at hadd
    rw [List.map_cons, encode_cons]
    refine hadd.trans (tail_writes ps _ (fun hq' hnil => ?_) (hadd.lt hcap))
    by_cases hroom : ([] : List UInt8).length + (encodePair isPlain (meaning p)).length < cap
    · have heq := hadd.room rfl hroom
      rw [heq] at hnil
      exact absurd hnil (encodePair_ne_nil _)
    · exact absurd (hq'.symm.trans (hadd.full rfl hcap (Nat.not_lt.mp hroom))) Bool.false_ne_true

/-! ## The walk -/

/-- **The walk goes through the controls** in the order of the document. -/
theorem queryWalk_eq (fuel n : Nat) (q : Query) :
    queryWalk d s submitter cap fuel n q
      = ((within d fuel n).filterMap (pairOf (optionText d) d s submitter)).foldl
        (fun q p => queryAdd cap p.1 p.2 q) q := by
  induction fuel generalizing n q with
  | zero => rfl
  | succ fuel ih =>
    unfold queryWalk within
    generalize d.kids n = cs
    induction cs generalizing q with
    | nil => rfl
    | cons c cs ihc =>
      rw [List.foldl_cons, ihc, List.flatMap_cons, List.filterMap_append, List.foldl_append]
      congr 1
      by_cases hk : (d.nodes c).kind ≠ .elem
      · rw [if_pos hk, if_pos hk]
        rfl
      rw [if_neg hk, if_neg hk, List.filterMap_cons]
      dsimp only
      cases pairOf (optionText d) d s submitter c with
      | none =>
        dsimp only
        split
        · exact ih c q
        · rfl
      | some p =>
        dsimp only
        rw [List.foldl_cons]
        split
        · exact ih c _
        · rfl

/-! ## The text of an option -/

/-- Without the spaces at the end. -/
abbrev trim (l : List UInt8) : List UInt8 := l.rdropWhile (· = 0x20)

theorem trim_append (l m : List UInt8) :
    trim (l ++ m) = if trim m = [] then trim l else l ++ trim m := by
  unfold trim List.rdropWhile
  rw [List.reverse_append, List.dropWhile_append]
  simp only [List.isEmpty_iff, List.reverse_eq_nil_iff]
  split
  · rfl
  · rw [List.reverse_append, List.reverse_reverse]

/-- What is trimmed stays, whatever comes behind it. -/
theorem le_trim_append {t : List UInt8} (ht : trim t = t) (hne : t ≠ []) (l m : List UInt8) :
    l.length + t.length ≤ (trim (l ++ t ++ m)).length := by
  have hlt : trim (l ++ t) = l ++ t := by
    rw [trim_append, ht, if_neg hne]
  rw [trim_append, hlt, ← List.length_append]
  split
  · exact Nat.le_refl _
  · show (l ++ t).length ≤ (l ++ t ++ trim m).length
    exact (List.sublist_append_left _ _).length_le

/-- Only spaces have come behind it, if it has not become longer. -/
theorem trim_append_of_le {l m : List UInt8} (h : (trim (l ++ m)).length ≤ l.length) :
    trim (l ++ m) = trim l := by
  rw [trim_append] at h ⊢
  split at h
  · next hm => rw [if_pos hm]
  · next hm =>
    rw [List.length_append] at h
    exact absurd (List.length_eq_zero_iff.mp (by omega)) hm

/-- One step of the text, however long it is. -/
def fullStep (d : Doc) (fuel : Nat) (st : List UInt8 × Bool) (x : UInt8 ⊕ Nat) : List UInt8 × Bool :=
  match x with
  | .inl b => putChar st b
  | .inr c => (st.1 ++ fullText d fuel c, st.2)

/-- One step in the buffer. -/
def cutStep (d : Doc) (fuel cap : Nat) (st : List UInt8 × Bool) (x : UInt8 ⊕ Nat) :
    List UInt8 × Bool :=
  if st.1.length + 4 < cap then
    match x with
    | .inl b => putChar st b
    | .inr c => (st.1 ++ nodeText d fuel c (cap - st.1.length), st.2)
  else st

theorem putChar_prefix (st : List UInt8 × Bool) (b : UInt8) :
    ∃ m, (putChar st b).1 = st.1 ++ m ∧ m.length ≤ 1 := by
  unfold putChar
  split
  · dsimp only
    split
    · exact ⟨[], (List.append_nil _).symm, Nat.zero_le 1⟩
    · exact ⟨_, rfl, Nat.le_refl 1⟩
  · exact ⟨_, rfl, Nat.le_refl 1⟩

/-- A text only gets longer. -/
theorem fullStep_prefix (fuel : Nat) (xs : List (UInt8 ⊕ Nat)) (st : List UInt8 × Bool) :
    ∃ m, (xs.foldl (fullStep d fuel) st).1 = st.1 ++ m := by
  induction xs generalizing st with
  | nil => exact ⟨[], (List.append_nil _).symm⟩
  | cons x xs ih =>
    obtain ⟨m, hm⟩ := ih (fullStep d fuel st x)
    obtain ⟨m', hm'⟩ : ∃ m', (fullStep d fuel st x).1 = st.1 ++ m' := by
      cases x with
      | inl b =>
        obtain ⟨m', hm', -⟩ := putChar_prefix st b
        exact ⟨m', hm'⟩
      | inr c => exact ⟨_, rfl⟩
    exact ⟨m' ++ m, by rw [List.foldl_cons, hm, hm', List.append_assoc]⟩

theorem cutStep_full {fuel : Nat} {st : List UInt8 × Bool} (h : ¬st.1.length + 4 < cap)
    (xs : List (UInt8 ⊕ Nat)) : xs.foldl (cutStep d fuel cap) st = st := by
  induction xs with
  | nil => rfl
  | cons x xs ih =>
    have hstep : cutStep d fuel cap st x = st := if_neg h
    rw [List.foldl_cons, hstep, ih]

/-- What is trimmed ends with another byte. -/
theorem trim_fullText (fuel n : Nat) : trim (fullText d fuel n) = fullText d fuel n := by
  cases fuel with
  | zero => rfl
  | succ fuel => exact List.rdropWhile_idempotent ..

/-- **A text that fits is whole**, and what is in the buffer fits. -/
theorem nodeText_spec (fuel n cap : Nat) :
    ((fullText d fuel n).length + 4 ≤ cap → nodeText d fuel n cap = fullText d fuel n)
      ∧ (4 ≤ cap → (nodeText d fuel n cap).length + 4 ≤ cap) := by
  induction fuel generalizing n cap with
  | zero => exact ⟨fun _ => rfl, fun h => by rw [nodeText]; exact h⟩
  | succ fuel ih =>
    have hcut : nodeText d (fuel + 1) n cap
        = trim ((pieces d n).foldl (cutStep d fuel cap) ([], true)).1 := rfl
    have hfull : fullText d (fuel + 1) n
        = trim ((pieces d n).foldl (fullStep d fuel) ([], true)).1 := rfl
    rw [hcut, hfull]
    constructor
    · have hloop (xs : List (UInt8 ⊕ Nat)) (st : List UInt8 × Bool)
          (hfit : (trim (xs.foldl (fullStep d fuel) st).1).length + 4 ≤ cap) :
          trim (xs.foldl (cutStep d fuel cap) st).1 = trim (xs.foldl (fullStep d fuel) st).1 := by
        induction xs generalizing st with
        | nil => rfl
        | cons x xs ihx =>
          by_cases hroom : st.1.length + 4 < cap
          · have hsame : cutStep d fuel cap st x = fullStep d fuel st x := by
              unfold cutStep fullStep
              rw [if_pos hroom]
              cases x with
              | inl b => rfl
              | inr c =>
                dsimp only
                rw [(ih c (cap - st.1.length)).1]
                -- the text of the element is not cut, since it is not trimmed
                obtain ⟨m, hm⟩ := fullStep_prefix (d := d) fuel xs (fullStep d fuel st (.inr c))
                rw [List.foldl_cons, hm] at hfit
                by_cases hnil : fullText d fuel c = []
                · rw [hnil]
                  show 0 + 4 ≤ cap - st.1.length
                  omega
                · have hle := le_trim_append (trim_fullText fuel c) hnil st.1 m
                  have hlen : (trim (st.1 ++ fullText d fuel c ++ m)).length + 4 ≤ cap := hfit
                  omega
            rw [List.foldl_cons, List.foldl_cons, hsame]
            rw [List.foldl_cons] at hfit
            exact ihx _ hfit
          · obtain ⟨m, hm⟩ := fullStep_prefix (d := d) fuel (x :: xs) st
            rw [hm] at hfit ⊢
            rw [cutStep_full hroom, trim_append_of_le (by omega)]
      exact hloop _ _
    · intro hcap
      have hloop (xs : List (UInt8 ⊕ Nat)) (st : List UInt8 × Bool) (hst : st.1.length + 4 ≤ cap) :
          (xs.foldl (cutStep d fuel cap) st).1.length + 4 ≤ cap := by
        induction xs generalizing st with
        | nil => exact hst
        | cons x xs ihx =>
          refine ihx _ ?_
          unfold cutStep
          split
          · next hroom =>
            cases x with
            | inl b =>
              obtain ⟨m, hm, hlen⟩ := putChar_prefix st b
              dsimp only
              rw [hm, List.length_append]
              omega
            | inr c =>
              have hc := (ih c (cap - st.1.length)).2 (by omega)
              dsimp only
              rw [List.length_append]
              omega
          · exact hst
      have hlen := hloop (pieces d n) ([], true) (by simpa using hcap)
      exact (Nat.add_le_add_right (List.rdropWhile_prefix _ _).length_le 4).trans hlen

/-- **The buffer holds 92 bytes.** -/
theorem optionText_eq_iff (d : Doc) (opt : Nat) :
    optionText d opt = fullOption d opt ↔ (fullOption d opt).length ≤ 92 := by
  obtain ⟨hwhole, hcut⟩ := nodeText_spec (d := d) d.node_count opt 96
  constructor
  · intro h
    have hle := hcut (by decide)
    unfold optionText at h
    rw [h] at hle
    omega
  · exact fun h => hwhole (by unfold fullOption at h; omega)

/-! ## What is sent -/

/-- The value is the text of an option, or has nothing to do with texts of options. -/
theorem valueOf_cases (d : Doc) (s : Ctls) (submitter c : Nat) :
    (d.tagOf c = .select ∧ selectOption d s c ≠ 0 ∧ attr d (selectOption d s c) .value = none
        ∧ ∀ text, valueOf text d s submitter c = some (text (selectOption d s c)))
      ∨ ¬(d.tagOf c = .select ∧ selectOption d s c ≠ 0
          ∧ attr d (selectOption d s c) .value = none)
        ∧ ∀ text text', valueOf text d s submitter c = valueOf text' d s submitter c := by
  by_cases htag : d.tagOf c = .select
  · have hval (text : Nat → List UInt8) : valueOf text d s submitter c
        = if selectOption d s c ≠ 0 then
            some ((attr d (selectOption d s c) .value).getD (text (selectOption d s c)))
          else none := by
      unfold valueOf
      rw [htag]
    by_cases hopt : selectOption d s c ≠ 0
    · simp only [if_pos hopt] at hval
      cases hv : attr d (selectOption d s c) .value with
      | none =>
        refine .inl ⟨htag, hopt, rfl, fun text => ?_⟩
        rw [hval, hv]
        rfl
      | some v =>
        refine .inr ⟨fun h => Option.some_ne_none v h.2.2, fun text text' => ?_⟩
        rw [hval, hval, hv]
        rfl
    · refine .inr ⟨fun h => hopt h.2.1, fun text text' => ?_⟩
      rw [hval, hval, if_neg hopt, if_neg hopt]
  · refine .inr ⟨fun h => htag h.1, fun text text' => ?_⟩
    unfold valueOf
    split
    · rfl
    · rfl
    · next h => exact absurd h htag
    · rfl
    · rfl

/-- The pair is that of the option's text, or has nothing to do with texts of options. -/
theorem pairOf_cases (d : Doc) (s : Ctls) (submitter c : Nat) :
    (∃ name opt, shownText d s c = some opt
        ∧ ∀ text, pairOf text d s submitter c = some (name, text opt))
      ∨ shownText d s c = none
        ∧ ∀ text text', pairOf text d s submitter c = pairOf text' d s submitter c := by
  unfold pairOf shownText
  cases hname : attr d c .name with
  | none => exact .inr ⟨if_neg fun h => h.2.1 rfl, fun _ _ => rfl⟩
  | some name =>
    rw [Option.getD_some]
    dsimp only
    by_cases hon : name ≠ [] ∧ ¬hasAttr d c .disabled
    · simp only [if_pos hon]
      rcases valueOf_cases d s submitter c with ⟨htag, hopt, hv, hval⟩ | ⟨hnot, hval⟩
      · refine .inl ⟨name, _, if_pos ⟨htag, hon.1, hon.2, hopt, hv⟩, fun text => ?_⟩
        rw [hval text]
        rfl
      · refine .inr ⟨if_neg fun h => hnot ⟨h.1, h.2.2.2.1, h.2.2.2.2⟩, fun text text' => ?_⟩
        rw [hval text text']
    · simp only [if_neg hon]
      exact .inr ⟨if_neg fun h => hon ⟨h.2.1, h.2.2.1⟩, fun _ _ => trivial⟩

/-- A pair is the same in both, unless it has the text of an option that is too long. -/
theorem pairOf_iff (d : Doc) (s : Ctls) (submitter c : Nat) :
    (pairOf (optionText d) d s submitter c).map meaning
        = (pairOf (fullOption d) d s submitter c).map meaning
      ↔ ∀ opt ∈ shownText d s c, (fullOption d opt).length ≤ 92 := by
  rcases pairOf_cases d s submitter c with ⟨name, opt, hshown, hpair⟩ | ⟨hshown, hpair⟩
  · rw [hpair, hpair, hshown]
    simp only [Option.map_some, Option.some_inj, Option.mem_def, forall_eq']
    rw [← optionText_eq_iff]
    refine ⟨fun h => ?_, fun h => by rw [h]⟩
    -- a text that is cut is shorter
    have hlen : (optionText d opt).length = (fullOption d opt).length := by
      have := congrArg (List.length ∘ Prod.snd) h
      simpa [meaning] using this
    have hcut := (nodeText_spec (d := d) d.node_count opt 96).2 (by decide)
    rw [optionText_eq_iff]
    unfold optionText at hlen
    omega
  · rw [hpair (optionText d) (fullOption d), hshown]
    exact iff_of_true rfl fun _ h => nomatch h

/-- The same controls are sent. -/
theorem pairOf_isSome (text text' : Nat → List UInt8) (d : Doc) (s : Ctls) (submitter c : Nat) :
    (pairOf text d s submitter c).isSome = (pairOf text' d s submitter c).isSome := by
  rcases pairOf_cases d s submitter c with ⟨name, opt, -, hpair⟩ | ⟨-, hpair⟩
  · rw [hpair, hpair]
    rfl
  · rw [hpair text text']

theorem filterMap_map_eq_iff {α β γ : Type*} {f f' : α → Option β} {g : β → γ} {l : List α}
    (h : ∀ a ∈ l, (f a).isSome = (f' a).isSome) :
    (l.filterMap f).map g = (l.filterMap f').map g ↔ ∀ a ∈ l, (f a).map g = (f' a).map g := by
  induction l with
  | nil => exact iff_of_true rfl fun _ ha => absurd ha List.not_mem_nil
  | cons a l ih =>
    have ih := ih fun b hb => h b (List.mem_cons_of_mem a hb)
    have ha := h a List.mem_cons_self
    rw [List.forall_mem_cons, List.filterMap_cons, List.filterMap_cons, ← ih]
    cases hf : f a with
    | none =>
      rw [hf] at ha
      have hnone : f' a = none := Option.isNone_iff_eq_none.mp (Option.isSome_eq_false_iff.mp ha.symm)
      rw [hnone]
      exact (and_iff_right rfl).symm
    | some b =>
      rw [hf] at ha
      obtain ⟨b', hb'⟩ := Option.isSome_iff_exists.mp ha.symm
      rw [hb']
      simp

theorem pairs_iff (d : Doc) (s : Ctls) (form submitter : Nat) :
    (pairs (optionText d) d s form submitter).map meaning
      = (pairs (fullOption d) d s form submitter).map meaning ↔ Short d s form := by
  unfold pairs Short
  rw [filterMap_map_eq_iff fun c _ => pairOf_isSome _ _ d s submitter c]
  exact forall₂_congr fun c _ => pairOf_iff d s submitter c

/-- **Submitting a form.** The form is sent as it is, or it is said that it is not, exactly if the texts
of the options that are sent have room in their buffer, or the whole has no room anyhow. -/
theorem formQuery_faithful_iff (d : Doc) (s : Ctls) (form submitter cap : Nat) (hcap : 1 ≤ cap) :
    Faithful d s form submitter cap (formQuery d s form submitter cap)
      ↔ Short d s form
        ∨ cap ≤ (encode isPlain ((pairs (optionText d) d s form submitter).map meaning)).length := by
  have hwrites := pairs_writes (pairs (optionText d) d s form submitter) hcap
  rw [← pairs_iff d s form submitter]
  unfold formQuery
  rw [queryWalk_eq]
  unfold pairs at hwrites ⊢
  by_cases hroom : cap ≤ (encode isPlain (((within d d.node_count form).filterMap
      (pairOf (optionText d) d s submitter)).map meaning)).length
  · have hfull := hwrites.full rfl hcap (by simpa using hroom)
    refine iff_of_true ⟨hwrites.lt hcap, fun h => ?_⟩ (.inr hroom)
    exact absurd (h.symm.trans hfull) Bool.false_ne_true
  · have hexact := hwrites.room rfl (by simpa using hroom)
    rw [or_iff_left hroom, hexact]
    constructor
    · intro h
      have hdec := h.exact rfl
      rw [List.nil_append, decode_encode sensible_isPlain] at hdec
      exact hdec
    · intro h
      refine ⟨Nat.succ_le_of_lt (by simpa using hroom), fun _ => ?_⟩
      rw [List.nil_append, decode_encode sensible_isPlain]
      exact h

/-- A `<select>` with one option, and so much text in it. -/
def selectPage (k : Nat) : List UInt8 :=
  bytes "<form><select name=s><option>" ++ List.replicate k 0x78

/-- An option with a text that fits. -/
theorem formQuery_faithful_iff_short : ∃ d, parse 40 (fun _ => {}) (selectPage 2) = some d
    ∧ (Faithful d ⟨fun _ => {}, 0⟩ 4 0 480 (formQuery d ⟨fun _ => {}, 0⟩ 4 0 480)
      ↔ Short d ⟨fun _ => {}, 0⟩ 4 ∨ 480 ≤ (encode isPlain
        ((pairs (optionText d) d ⟨fun _ => {}, 0⟩ 4 0).map meaning)).length) := by
  have hpage : (parse 40 (fun _ => {}) (selectPage 2)).isSome = true := by decide +kernel
  obtain ⟨d, hd⟩ := Option.isSome_iff_exists.mp hpage
  exact ⟨d, hd, formQuery_faithful_iff d _ 4 0 480 (by decide)⟩

/-- **A long option is cut.** Of 93 letters 92 are sent, and nothing says so. -/
theorem formQuery_cut : ∃ d, parse 200 (fun _ => {}) (selectPage 93) = some d
    ∧ ¬Faithful d ⟨fun _ => {}, 0⟩ 4 0 480 (formQuery d ⟨fun _ => {}, 0⟩ 4 0 480) := by
  have hpage : (parse 200 (fun _ => {}) (selectPage 93)).map (fun d =>
      ((formQuery d ⟨fun _ => {}, 0⟩ 4 0 480).overflow,
        decide (decode (formQuery d ⟨fun _ => {}, 0⟩ 4 0 480).out
          = (pairs (fullOption d) d ⟨fun _ => {}, 0⟩ 4 0).map meaning))) = some (false, false) := by
    decide +kernel
  obtain ⟨d, hd, heq⟩ := Option.map_eq_some_iff.mp hpage
  obtain ⟨hover, hpairs⟩ := Prod.mk.inj heq
  exact ⟨d, hd, fun h => of_decide_eq_false hpairs (h.exact hover)⟩

end Dom
