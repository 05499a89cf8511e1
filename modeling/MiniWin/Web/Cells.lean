import MiniWin.Web.FormRight
import MiniWin.Web.Radio
import MiniWin.Web.RawRun

/-!
# HTML: whole cells

The engine draws with a font for single bytes and one for characters of three bytes. Whoever goes
through a text takes a byte from `0xE0` on for the first of three, so that a text that is cut within
a character is read behind its end. What the parser puts into the pool itself are whole cells; what
cuts them is an attribute that is too long, a raw text that is none, and the end of the pool.
-/

namespace Dom

open Function Net

variable {arena : Nat → Node} {d d' : Doc} {am pm n i j k t fuel : Nat} {l l' h : List UInt8}
  {c : UInt8}

/-! ## Cells -/

/-- A byte within a character. -/
def isCont (c : UInt8) : Bool := c &&& 0xC0 = 0x80

/-- **Whole cells.** -/
inductive Cells : List UInt8 → Prop
  | nil : Cells []
  | byte {c : UInt8} {l : List UInt8} (hc : c < 0xE0) (hl : Cells l) : Cells (c :: l)
  | wide {c a b : UInt8} {l : List UInt8} (hc : 0xE0 ≤ c) (hc' : c ≤ 0xEF) (ha : isCont a = true)
      (hb : isCont b = true) (hl : Cells l) : Cells (c :: a :: b :: l)

/-- `txt_cells` of a text of whose front so many bytes belong to the cell before it: the number of
cells, and how far the last of them goes behind the end. -/
def txt_cells : Nat → List UInt8 → Nat × Nat
  | used, [] => (0, used)
  | used + 1, _ :: rest => txt_cells used rest
  | 0, c :: rest =>
    let r := txt_cells (if c ≥ 0xE0 then 2 else 0) rest
    (r.1 + 1, r.2)

theorem Cells.append (hl : Cells l) (hl' : Cells l') : Cells (l ++ l') := by
  induction hl with
  | nil => exact hl'
  | byte hc _ ih => exact .byte hc ih
  | wide hc hc' ha hb _ ih => exact .wide hc hc' ha hb ih

theorem cells_of_lt (hl : ∀ c ∈ l, c < 0xE0) : Cells l := by
  induction l with
  | nil => exact .nil
  | cons c l ih =>
    exact .byte (hl c List.mem_cons_self) (ih fun c hc => hl c (List.mem_cons_of_mem _ hc))

/-- **No scan goes behind the end of whole cells.** -/
theorem Cells.txt_cells (hl : Cells l) : (txt_cells 0 l).2 = 0 := by
  induction hl with
  | nil => rfl
  | byte hc _ ih =>
    unfold Dom.txt_cells
    rw [if_neg (UInt8.not_le.mpr hc)]
    exact ih
  | wide hc _ _ _ _ ih =>
    unfold Dom.txt_cells
    rw [if_pos hc]
    exact ih

/-! ## Characters -/

theorem ofNat_lt {x : Nat} (hx : x < 0x80) : UInt8.ofNat x < 0xE0 := by
  rw [UInt8.lt_iff_toNat_lt, UInt8.toNat_ofNat']
  show x % 256 < 0xE0
  omega

theorem hangul_cells {cp : Nat} (hcp : isHangul cp = true) :
    Cells [UInt8.ofNat (0xE0 ||| cp >>> 12), UInt8.ofNat (0x80 ||| (cp >>> 6 &&& 0x3F)),
      UInt8.ofNat (0x80 ||| (cp &&& 0x3F))] := by
  have hlead : ∀ x < 16, 0xE0 ≤ UInt8.ofNat (0xE0 ||| x) ∧ UInt8.ofNat (0xE0 ||| x) ≤ 0xEF := by
    decide
  have hcont : ∀ x < 64, isCont (UInt8.ofNat (0x80 ||| x)) = true := by decide
  have hand : ∀ x : Nat, x &&& 0x3F < 64 := fun x => Nat.lt_succ_of_le Nat.and_le_right
  have hle : cp < 2 ^ 16 := by
    unfold isHangul at hcp
    simp at hcp
    omega
  have hshift : cp >>> 12 < 16 := by
    rw [Nat.shiftRight_eq_div_pow]
    omega
  obtain ⟨h₁, h₂⟩ := hlead _ hshift
  exact .wide h₁ h₂ (hcont _ (hand _)) (hcont _ (hand _)) .nil

/-- **A character is stored as whole cells.** -/
theorem mapCp_cells (cp : Nat) : Cells (mapCp cp) := by
  have hlatin : ∀ c ∈ latin1, c < 0xE0 := by decide +kernel
  have hlike : ∀ x ∈ lookalikes, ∀ c ∈ bytes x.2, c < 0xE0 := by decide +kernel
  unfold mapCp
  split
  · next hcp => exact .byte (ofNat_lt hcp) .nil
  split
  · exact .byte (by decide) .nil
  split
  · next hcp => exact hangul_cells hcp
  split
  · exact .byte (by decide) .nil
  split
  · refine .byte ?_ .nil
    rw [List.getD_eq_getElem?_getD]
    cases hget : latin1[cp - 0xC0]? with
    | none => decide
    | some c => exact hlatin c (List.mem_of_getElem? hget)
  · refine cells_of_lt fun c hc => ?_
    cases hfind : lookalikes.find? fun x => cp ∈ x.1 with
    | none =>
      rw [hfind] at hc
      have hq : ∀ c ∈ bytes "?", c < 0xE0 := by decide +kernel
      exact hq c hc
    | some x =>
      rw [hfind] at hc
      exact hlike x (List.mem_of_find?_eq_some hfind) c hc

theorem emitBytes_cells (pre : Bool) (cp : Nat) : Cells (emitBytes pre cp) := by
  unfold emitBytes
  split
  · exact cells_of_lt (by decide +kernel)
  split
  · next hcp =>
    refine .byte ?_ .nil
    split
    · decide
    · exact ofNat_lt (by omega)
  split
  · exact .nil
  · exact mapCp_cells cp

theorem charBytes_cells (decode pre : Bool) (used : Nat) (text : List UInt8) :
    Cells (charBytes decode pre used text) := by
  induction used, text using charBytes.induct decode with
  | case1 used =>
    unfold charBytes
    exact .nil
  | case2 used c rest ih =>
    unfold charBytes
    exact ih
  | case3 c rest ih =>
    unfold charBytes
    exact (emitBytes_cells pre _).append ih

/-! ## Values -/

/-- The bytes of one character of a value. -/
def valueChar (cp : Nat) : List UInt8 :=
  let cp := if cp = 0x0D ∨ cp = 0x0A ∨ cp = 0x09 ∨ cp = 0x0C then 0x20 else cp
  if cp < 0x80 then if cp ≥ 0x20 ∧ cp ≠ 0x7F then [UInt8.ofNat cp] else [] else mapCp cp

/-- The bytes of a value, of whose front so many belong to a character in front of it. -/
def valueBytes : Nat → List UInt8 → List UInt8
  | _, [] => []
  | used + 1, _ :: rest => valueBytes used rest
  | 0, c :: rest => valueChar (nextValueChar c rest).1 ++ valueBytes (nextValueChar c rest).2 rest

theorem valueChar_cells (cp : Nat) : Cells (valueChar cp) := by
  unfold valueChar
  generalize (if cp = 0x0D ∨ cp = 0x0A ∨ cp = 0x09 ∨ cp = 0x0C then 0x20 else cp) = cp
  dsimp only
  split
  · next hcp =>
    split
    · exact .byte (ofNat_lt hcp) .nil
    · exact .nil
  · exact mapCp_cells _

theorem valueBytes_cells (used : Nat) (value : List UInt8) : Cells (valueBytes used value) := by
  induction used, value using valueBytes.induct with
  | case1 used =>
    unfold valueBytes
    exact .nil
  | case2 used c rest ih =>
    unfold valueBytes
    exact ih
  | case3 c rest ih =>
    unfold valueBytes
    exact (valueChar_cells _).append ih

/-- What there is room for in the pool. -/
def Doc.room (d : Doc) : Nat := poolSize - 8 - d.pool.length

/-- The pool with as much of these bytes behind it as there is room for. -/
def Doc.fill (l : List UInt8) (d : Doc) : Doc :=
  { d with pool := d.pool ++ l.take d.room, truncated := d.truncated || decide (d.room < l.length) }

theorem Doc.fill_nil (d : Doc) : d.fill [] = d := by
  have hlen : decide (d.room < ([] : List UInt8).length) = false :=
    decide_eq_false (Nat.not_lt_zero d.room)
  unfold fill
  rw [List.take_nil, List.append_nil, hlen, Bool.or_false]

/-- Bytes are put one after the other. -/
theorem putc_fill (c : UInt8) (l : List UInt8) (d : Doc) : (putc c d).fill l = d.fill (c :: l) := by
  unfold putc
  split
  · next hroom =>
    obtain ⟨r, hr⟩ : ∃ r, d.room = r + 1 := ⟨d.room - 1, by unfold Doc.room; omega⟩
    have hr' : ({ d with pool := d.pool ++ [c] } : Doc).room = r := by
      unfold Doc.room at hr ⊢
      dsimp only
      rw [List.length_append, List.length_singleton]
      omega
    unfold Doc.fill
    rw [hr, hr', List.take_succ_cons, List.length_cons, List.append_assoc]
    simp only [Nat.add_lt_add_iff_right, List.singleton_append]
  · next hroom =>
    have hr : d.room = 0 := by
      unfold Doc.room
      omega
    have hr' : ({ d with truncated := true } : Doc).room = 0 := hr
    unfold Doc.fill
    rw [hr, hr', List.take_zero, List.take_zero, List.length_cons]
    simp only [Bool.true_or, Nat.zero_lt_succ, decide_true, Bool.or_true]

theorem foldl_putc (l : List UInt8) (d : Doc) : l.foldl (fun d c => putc c d) d = d.fill l := by
  induction l generalizing d with
  | nil => exact d.fill_nil.symm
  | cons c l ih => rw [List.foldl_cons, ih, putc_fill]

theorem fill_fill (l l' : List UInt8) (d : Doc) : (d.fill l).fill l' = d.fill (l ++ l') := by
  rw [← foldl_putc, ← foldl_putc, ← foldl_putc, List.foldl_append]

/-- Without room there is none for more. -/
theorem fill_full (ht : d.truncated = false) (ht' : (d.fill l).truncated = true) :
    (d.fill l).fill l' = d.fill l := by
  have hlen : d.room < l.length := by
    have hor : (d.truncated || decide (d.room < l.length)) = true := ht'
    rw [ht, Bool.false_or] at hor
    exact of_decide_eq_true hor
  have hroom : (d.fill l).room = 0 := by
    have hpool : (d.fill l).pool.length = d.pool.length + d.room := by
      show (d.pool ++ l.take d.room).length = _
      rw [List.length_append, List.length_take, Nat.min_eq_left hlen.le]
    unfold Doc.room at hpool ⊢
    omega
  have heq : ∀ D : Doc, D.truncated = true → D.room = 0 → D.fill l' = D := fun D ht hr => by
    unfold Doc.fill
    rw [hr, ht, List.take_zero, List.append_nil, Bool.true_or, ← ht]
  exact heq _ ht' hroom

theorem putValue_eq (cp : Nat) (d : Doc) : putValue cp d = d.fill (valueChar cp) := by
  unfold putValue valueChar
  generalize (if cp = 0x0D ∨ cp = 0x0A ∨ cp = 0x09 ∨ cp = 0x0C then 0x20 else cp) = cp
  rw [← foldl_putc]
  dsimp only
  split
  · split <;> rfl
  · rfl

/-- **A value is put as its bytes**, as far as there is room. -/
theorem putValues_eq (used : Nat) (value : List UInt8) (d : Doc) :
    putValues used value d = if d.truncated then d else d.fill (valueBytes used value) := by
  induction used, value using valueBytes.induct generalizing d with
  | case1 used =>
    unfold putValues valueBytes
    rw [Doc.fill_nil, ite_self]
  | case2 used c rest ih =>
    unfold putValues valueBytes
    exact ih d
  | case3 c rest ih =>
    unfold putValues valueBytes
    cases ht : d.truncated with
    | true => rfl
    | false =>
      rw [if_neg Bool.false_ne_true, if_neg Bool.false_ne_true, ih, putValue_eq, ← fill_fill]
      split
      · next ht' => rw [fill_full ht ht']
      · rfl

/-! ## Texts -/

/-- These bytes have gone to the end of the pool and to the node `t`. -/
structure Put (t : Nat) (w : List UInt8) (d d' : Doc) : Prop where
  nodes : d'.nodes = update d.nodes t { d.nodes t with b := (d.nodes t).b + w.length }
  count : d'.node_count = d.node_count
  attrs : d'.attrs = d.attrs
  pool : d'.pool = d.pool ++ w

theorem put_nil (h : d'.nodes = d.nodes ∧ d'.node_count = d.node_count ∧ d'.attrs = d.attrs ∧
    d'.pool = d.pool) (t : Nat) : Put t [] d d' where
  nodes := by
    show _ = update d.nodes t (d.nodes t)
    rw [update_eq_self, h.1]
  count := h.2.1
  attrs := h.2.2.1
  pool := by rw [List.append_nil, h.2.2.2]

theorem Put.cons {w : List UInt8} (h : Put t w (d.putAt t c) d') : Put t (c :: w) d d' where
  nodes := by
    rw [h.nodes]
    show update (update d.nodes t _) t { update d.nodes t _ t with
      b := (update d.nodes t _ t).b + w.length } = _
    rw [update_self, update_idem]
    dsimp only
    rw [Nat.add_assoc, Nat.add_comm 1, List.length_cons]
  count := h.count
  attrs := h.attrs
  pool := by
    rw [h.pool]
    show (d.pool ++ [c]) ++ w = _
    rw [List.append_assoc, List.singleton_append]

/-- **The bytes of a text go to the text node at hand**, as far as there is room. -/
theorem putText_hand (l : List UInt8) (d : Doc) (ht : d.txt_node ≠ 0) :
    Put d.txt_node (l.take d.room) d (putText l d) := by
  induction l generalizing d with
  | nil =>
    rw [List.take_nil]
    exact put_nil ⟨rfl, rfl, rfl, rfl⟩ _
  | cons c l ih =>
    have hbyte : textByte c d = if d.pool.length + 8 ≥ poolSize then { d with truncated := true }
        else d.putAt d.txt_node c := by
      unfold textByte textNode
      rw [if_pos ht]
      dsimp only
      rw [if_neg ht]
      rfl
    rw [putText_cons, hbyte]
    split
    · next hfull =>
      have hr : d.room = 0 := by
        unfold Doc.room
        omega
      have hput := ih { d with truncated := true } ht
      rw [show ({ d with truncated := true } : Doc).room = 0 from hr, List.take_zero] at hput
      rw [hr, List.take_zero]
      exact ⟨hput.nodes, hput.count, hput.attrs, hput.pool⟩
    · next hroom =>
      obtain ⟨r, hr⟩ : ∃ r, d.room = r + 1 := ⟨d.room - 1, by unfold Doc.room; omega⟩
      have hr' : (d.putAt d.txt_node c).room = r := by
        unfold Doc.room at hr ⊢
        show _ - (d.pool ++ [c]).length = _
        rw [List.length_append, List.length_singleton]
        omega
      have hput := ih (d.putAt d.txt_node c) ht
      rw [hr'] at hput
      rw [hr, List.take_succ_cons]
      exact hput.cons

/-- **All bytes of a text go to one node**, as far as there is room: one that ends where the pool
does, or a new one. -/
theorem putText_cases (h : Valid arena d) (l : List UInt8) :
    (∃ t, t < d.node_count ∧ (d.nodes t).a + (d.nodes t).b = d.pool.length ∧
      Put t (l.take d.room) d (putText l d)) ∨
    (d.node_count < nodeMax ∧
      Put d.node_count (l.take d.room) (addNode d.cur d.newText d) (putText l d)) ∨
    Put 0 [] d (putText l d) := by
  cases l with
  | nil => exact .inr (.inr (put_nil ⟨rfl, rfl, rfl, rfl⟩ _))
  | cons c l =>
    by_cases hroom : NoRoom d
    · rw [putText_cons, textByte_full hroom,
        putText_full (show NoRoom { d with truncated := true } from hroom) rfl]
      refine .inr (.inr (put_nil ?_ 0))
      exact ⟨rfl, rfl, rfl, rfl⟩
    have hpool := (not_or.mp hroom).1
    obtain ⟨r, hr⟩ : ∃ r, d.room = r + 1 := ⟨d.room - 1, by unfold Doc.room; omega⟩
    have hrest : ∀ (e : Doc) t, e.pool = d.pool → (e.putAt t c).room = r := fun e t he => by
      unfold Doc.room at hr ⊢
      show _ - (e.pool ++ [c]).length = _
      rw [he, List.length_append, List.length_singleton]
      omega
    rw [putText_cons, hr, List.take_succ_cons]
    obtain ⟨t, ht, hlt, -, hend, -, heq⟩ | ⟨-, hcount, heq⟩ := textByte_cases h hroom c
    · refine .inl ⟨t, hlt, hend, ?_⟩
      rw [heq]
      have hput := putText_hand l (d.putAt t c) ht
      rw [hrest d t rfl] at hput
      exact hput.cons
    · have hadd : (addNode d.cur d.newText d).pool = d.pool := by rw [addNode_rest hcount]
      have hne : d.node_count ≠ 0 := by
        have := h.whole.roots.count
        omega
      refine .inr (.inl ⟨hcount, ?_⟩)
      rw [heq]
      have hput := putText_hand l ((addNode d.cur d.newText d).putAt d.node_count c) hne
      rw [hrest _ _ hadd] at hput
      exact hput.cons

/-- A slice is whole, or goes up to the end of the pool. -/
def WholeAt (d : Doc) (off len : Nat) : Prop :=
  Cells (d.bytesAt off len) ∨ poolSize ≤ off + len + 8

/-- **Every text and every value is whole**, but at the end of the pool. -/
structure Celled (_am _pm : Nat) (d : Doc) : Prop where
  text : ∀ n < d.node_count, (d.nodes n).kind = .text → WholeAt d (d.nodes n).a (d.nodes n).b
  value : ∀ x ∈ d.attrs, WholeAt d x.voff x.vlen

theorem WholeAt.more {off len : Nat} {w : List UInt8} (h : WholeAt d off len)
    (hle : off + len ≤ d.pool.length) (hpool : d'.pool = d.pool ++ w) : WholeAt d' off len := by
  have heq : d'.bytesAt off len = d.bytesAt off len := by
    unfold Doc.bytesAt
    rw [hpool, drop_take_append w hle]
  unfold WholeAt at h ⊢
  rwa [heq]

theorem WholeAt.less {off len : Nat} (h : WholeAt d off len) (hle : off + len ≤ pm)
    (hpool : d'.pool = d.pool.take pm) : WholeAt d' off len := by
  have heq : d'.bytesAt off len = d.bytesAt off len := by
    unfold Doc.bytesAt
    rw [hpool, List.drop_take, List.take_take, Nat.min_eq_left (by omega)]
  unfold WholeAt at h ⊢
  rwa [heq]

/-- A text that ends where the pool does goes on with whole cells. -/
theorem WholeAt.longer {off len : Nat} (h : WholeAt d off len) (hend : off + len = d.pool.length)
    (hl : Cells l) (hpool : d'.pool = d.pool ++ l.take d.room) :
    WholeAt d' off (len + (l.take d.room).length) := by
  by_cases hroom : l.length ≤ d.room
  · rw [List.take_of_length_le hroom] at hpool ⊢
    obtain h | h := h
    · refine .inl ?_
      have heq : d'.bytesAt off (len + l.length) = d.bytesAt off len ++ l := by
        unfold Doc.bytesAt
        rw [hpool, List.drop_append_of_le_length (by omega), List.take_of_length_le (by
          rw [List.length_append, List.length_drop]
          omega), List.take_of_length_le (l := d.pool.drop off) (by
          rw [List.length_drop]
          omega)]
      rw [heq]
      exact h.append hl
    · exact .inr (by omega)
  · refine .inr ?_
    rw [List.length_take, Nat.min_eq_left (by omega)]
    unfold Doc.room
    omega

/-- The values that a law of whole cells is about: with what is cut off of a long one the rest is
whole. -/
def WholeValue (name value : List UInt8) : Prop :=
  attrId (lowerName name) ≠ .none → Cells ((valueBytes 0 value).take 65535)

/-- What is not touched stays as it is, when bytes are put. -/
theorem Celled.grow {w : List UInt8} (h : Ok arena am pm d) (hp : Celled am pm d)
    (hnodes : d'.nodes = d.nodes) (hcount : d'.node_count = d.node_count)
    (hpool : d'.pool = d.pool ++ w) (hattrs : ∀ x ∈ d'.attrs, x ∈ d.attrs ∨ WholeAt d' x.voff x.vlen) :
    Celled am pm d' where
  text n hn hk := by
    rw [hcount] at hn
    rw [hnodes] at hk ⊢
    exact (hp.text n hn hk).more ((h.text n hn hk).trans h.pool_mark) hpool
  value x hx := (hattrs x hx).elim (fun hx => (hp.value x hx).more (h.value x hx) hpool) id

/-- The value that is kept, if so many bytes of it are put. -/
theorem wholeAt_value {v : List UInt8} (hv : Cells v) (hcut : Cells (v.take 65535))
    (hpool : d'.pool = d.pool ++ v.take d.room) :
    WholeAt d' d.pool.length (min (d'.pool.length - d.pool.length) 65535) := by
  have hlen : d'.pool.length - d.pool.length = min d.room v.length := by
    rw [hpool, List.length_append, List.length_take]
    omega
  have hbytes : ∀ m ≤ min d.room v.length, d'.bytesAt d.pool.length m = v.take m := fun m hm => by
    unfold Doc.bytesAt
    rw [hpool, List.drop_left, List.take_take, Nat.min_eq_left (by omega)]
  rw [hlen]
  by_cases hlong : 65535 ≤ min d.room v.length
  · rw [Nat.min_eq_right hlong]
    exact .inl (by rwa [hbytes _ hlong])
  · rw [Nat.min_eq_left (by omega)]
    by_cases hroom : v.length ≤ d.room
    · rw [Nat.min_eq_right hroom]
      refine .inl ?_
      rw [hbytes _ (by omega), List.take_length]
      exact hv
    · refine .inr ?_
      unfold Doc.room at *
      omega

theorem Celled.keepAttr {name value : List UInt8} (h : Ok arena am pm d) (hp : Celled am pm d)
    (hvalue : WholeValue name value) : Celled am pm (keepAttr name value d) := by
  unfold Dom.keepAttr
  dsimp only
  split
  · next haid =>
    rw [putValues_eq]
    split
    · refine hp.grow h rfl rfl (List.append_nil _).symm fun x hx => ?_
      refine (List.mem_append.mp hx).imp_right fun hx => ?_
      obtain rfl := List.mem_singleton.mp hx
      refine .inl ?_
      dsimp only
      rw [Nat.sub_self, Nat.zero_min]
      unfold Doc.bytesAt
      rw [List.take_zero]
      exact .nil
    · refine hp.grow h rfl rfl (show (d.fill _).pool = _ from rfl) fun x hx => ?_
      refine (List.mem_append.mp hx).imp_right fun hx => ?_
      obtain rfl := List.mem_singleton.mp hx
      have hpool : (d.fill (valueBytes 0 value)).pool = d.pool ++ (valueBytes 0 value).take d.room :=
        rfl
      exact wholeAt_value (valueBytes_cells 0 value) (hvalue haid.1) hpool
  · exact hp

theorem Celled.putText (hv : Valid arena d) (hp : Full Celled d) (hl : Cells l) :
    Full Celled (putText l d) := by
  have h := hv.whole
  obtain ⟨t, ht, hend, hput⟩ | ⟨hcount, hput⟩ | hput := putText_cases hv l
  · refine ⟨fun n hn hk => ?_, fun x hx => ?_⟩
    · rw [hput.count] at hn
      rw [hput.nodes] at hk ⊢
      by_cases hnt : n = t
      · subst hnt
        rw [update_self] at hk ⊢
        exact (hp.text n hn hk).longer hend hl hput.pool
      · rw [update_of_ne hnt] at hk ⊢
        exact (hp.text n hn hk).more (h.text n hn hk) hput.pool
    · rw [hput.attrs] at hx
      exact (hp.value x hx).more (h.value x hx) hput.pool
  · have hrest := addNode_rest (p := d.cur) (x := d.newText) hcount
    have hpool : (Dom.putText l d).pool = d.pool ++ l.take d.room := by
      rw [hput.pool, hrest]
    refine ⟨fun n hn hk => ?_, fun x hx => ?_⟩
    · rw [hput.count, hrest] at hn
      rw [hput.nodes] at hk ⊢
      by_cases hnt : n = d.node_count
      · rw [hnt, update_self]
        have hnew := addNode_new (x := d.newText) h hcount (Ok.cur_lt h)
        dsimp only
        rw [hnew.1, hnew.2.1]
        have hnil : WholeAt d d.pool.length 0 := .inl (by
          unfold Doc.bytesAt
          rw [List.take_zero]
          exact .nil)
        exact hnil.longer rfl hl hpool
      · have hn' : n < d.node_count := by
          have : n < d.node_count + 1 := hn
          omega
        have hold := addNode_old (x := d.newText) h hcount (Ok.cur_lt h) hn'
        rw [update_of_ne hnt] at hk ⊢
        rw [hold.2.2.1] at hk
        rw [hold.1, hold.2.1]
        exact (hp.text n hn' hk).more (h.text n hn' hk) hpool
    · rw [hput.attrs, hrest] at hx
      exact (hp.value x hx).more (h.value x hx) hpool
  · have hnodes : (Dom.putText l d).nodes = d.nodes := by
      rw [hput.nodes]
      exact update_eq_self ..
    have hgrow := Celled.grow h hp hnodes hput.count hput.pool fun x hx => .inl (hput.attrs ▸ hx)
    exact ⟨hgrow.text, hgrow.value⟩

/-- **The parser puts whole cells.** -/
theorem celled_law : Law arena Cells WholeValue Celled where
  whole _ hp := ⟨hp.text, hp.value⟩
  flags _ _ _ hp := ⟨hp.text, hp.value⟩
  unhand hp := ⟨hp.text, hp.value⟩
  close _ hp _ := ⟨hp.text, hp.value⟩
  body _ hp := ⟨hp.text, hp.value⟩
  insert {am pm d tag push} a b h hp _ := by
    have hins := insertElem_inserted h tag a b push
    have hpool : (insertElem tag a b push d).2.pool = d.pool := by rw [hins.rest]
    have hattrs : (insertElem tag a b push d).2.attrs = d.attrs := by rw [hins.rest]
    refine ⟨fun n hn hk => ?_, fun x hx => ?_⟩
    · by_cases hold : n < d.node_count
      · rw [(hins.range n hold).1, (hins.range n hold).2]
        rw [(hins.same.2 n hold).1] at hk
        unfold WholeAt Doc.bytesAt
        rw [hpool]
        exact hp.text n hold hk
      · rw [(hins.new n (Nat.le_of_not_lt hold) hn).2.2.1] at hk
        exact nomatch hk
    · unfold WholeAt Doc.bytesAt
      rw [hpool]
      exact hp.value x (hattrs ▸ hx)
  root {am pm root d} h hp hr := by
    refine ⟨fun n hn hk => ?_, hp.value⟩
    have hne : n ≠ root := by
      rintro rfl
      have helem : (d.nodes n).kind = .elem := by
        obtain rfl | rfl := hr
        · exact h.roots.html.2.1
        · exact h.roots.body.2.1
      have hk' : (update d.nodes n { d.nodes n with a := am, b := d.attrs.length - am } n).kind =
        .text := hk
      rw [update_self] at hk'
      exact nomatch helem.symm.trans hk'
    have heq : (d.setNode root { d.nodes root with a := am, b := d.attrs.length - am }).nodes n =
        d.nodes n := update_of_ne hne ..
    rw [heq] at hk ⊢
    exact hp.text n hn hk
  drop h hp :=
    ⟨fun n hn hk => (hp.text n hn hk).less (h.text n hn hk) rfl, fun x hx =>
      (hp.value x (List.mem_of_mem_take hx)).less (h.attr x hx) rfl⟩
  attr := Celled.keepAttr
  text := Celled.putText
  chars := charBytes_cells

/-! ## A page -/

/-- **A clean token**: the values and the raw text of a start tag are whole cells. -/
def Clean (fuel : Nat) (h : List UInt8) (i : Nat) (d : Doc) : Prop :=
  StartsAt h i → Fit Cells WholeValue fuel h i d

theorem Reads.celled {raws : List (Nat × List UInt8)} (hr : Reads Clean arena h i d raws) :
    Valid arena d ∧ Full Celled d := by
  induction hr with
  | start =>
    refine ⟨valid_of_whole ⟨reset_whole arena, by rw [reset_eq]⟩, ?_⟩
    rw [reset_eq]
    refine ⟨fun n hn hk => ?_, nofun⟩
    have hlt : n < 4 := hn
    interval_cases n <;> exact nomatch hk
  | token _ _ _ hq hstep ih =>
    exact ⟨token_valid ih.1 hstep, celled_law.token ih.1 ih.2 hq hstep⟩

theorem WholeAt.cells {off len : Nat} (h : WholeAt d off len) (hle : off + len ≤ d.pool.length)
    (hroom : d.pool.length + 8 < poolSize) : Cells (d.bytesAt off len) :=
  h.resolve_right (by omega)

theorem attr_cells (h : Whole arena d) (hp : Full Celled d) (hroom : d.pool.length + 8 < poolSize)
    {aid : AttrId} {v : List UInt8} (hv : attr d n aid = some v) : Cells v := by
  obtain ⟨x, hx, rfl⟩ := Option.map_eq_some_iff.mp hv
  unfold attrFind at hx
  split at hx
  · exact nomatch hx
  · have hmem := List.mem_of_mem_drop (List.mem_of_mem_take (List.mem_of_find?_eq_some hx))
    exact (hp.value x hmem).cells (h.value x hmem) hroom

theorem markupText_cells (h : Whole arena d) (hp : Full Celled d)
    (hroom : d.pool.length + 8 < poolSize) (hn : n < d.node_count) : Cells (markupText d n) := by
  unfold markupText
  split
  · split
    · next c hc =>
      have hlt := (lt_kids h.tree hn (List.mem_of_find?_eq_some hc)).2
      have hkind := of_decide_eq_true
        (List.find?_some (p := fun c => decide ((d.nodes c).kind = .text)) hc)
      exact (hp.text c hlt hkind).cells (h.text c hlt hkind) hroom
    · exact .nil
  · cases hv : attr d n .value with
    | none => exact .nil
    | some v => exact attr_cells h hp hroom hv

/-! ## Form controls -/

/-- What is done to the controls, typing of a whole syllable included. -/
inductive Edit where
  | call (c : Call)
  | put (b : List UInt8)

def Edit.apply (d : Doc) (s : Ctls) : Edit → Ctls
  | call c => c.apply d s
  | put b => (putBytes b s).2

/-- **A clean edit**: whole cells are typed, and a control that gets its text from the markup gets
whole cells. -/
def Edit.Clean (d : Doc) (s : Ctls) : Edit → Prop
  | call (.focus n) => ∀ i s', ({ s with focus := n } : Ctls).make n = (some i, s') →
      (s'.slots i).edited = false → Cells ((markupText d n).take (ctlText - 4))
  | call _ => True
  | put b => Cells b

/-- Edits that are all clean. -/
def CleanEdits (d : Doc) : Ctls → List Edit → Prop
  | _, [] => True
  | s, e :: edits => e.Clean d s ∧ CleanEdits d (e.apply d s) edits

/-- The texts that have been edited are whole. -/
def Typed (s : Ctls) : Prop :=
  ∀ i, (s.slots i).node ≠ 0 → (s.slots i).edited = true → Cells (s.slots i).text

variable {s s' : Ctls}

theorem Typed.set (hs : Typed s) {i : Fin ctlMax} {x : Ctl}
    (hx : x.node ≠ 0 → x.edited = true → Cells x.text) : Typed (s.set i x) := by
  intro j
  by_cases hj : j = i
  · rw [hj, Ctls.set_self]
    exact hx
  · rw [Ctls.set_other x hj]
    exact hs j

theorem Typed.make (hs : Typed s) (n : Nat) : Typed (s.make n).2 := by
  unfold Ctls.make
  split
  · exact hs
  · split
    · exact hs.set nofun
    · exact hs

theorem make_find {i : Fin ctlMax} (h : s.make n = (some i, s')) : s'.find n = some i := by
  unfold Ctls.make at h
  split at h
  · next j hf =>
    obtain ⟨hi, rfl⟩ := Prod.mk.inj h
    rw [hf, hi]
  · next hnone =>
    split at h
    · next j hf =>
      obtain ⟨hi, rfl⟩ := Prod.mk.inj h
      obtain rfl := Option.some.inj hi
      cases hfind : (s.set j { node := n }).find n with
      | none =>
        have hno := find_eq_none.mp hfind j
        rw [Ctls.set_self] at hno
        exact absurd rfl hno
      | some k =>
        have hk := find_some hfind
        by_cases hkj : k = j
        · rw [hkj]
        · rw [Ctls.set_other _ hkj] at hk
          exact absurd hk (find_eq_none.mp hnone k)
    · exact nomatch (Prod.mk.inj h).1

theorem Typed.putBytes (hs : Typed s) {b : List UInt8} (hb : Cells b) : Typed (putBytes b s).2 := by
  unfold Dom.putBytes
  split
  · exact hs
  · next i hi =>
    dsimp only
    split
    · exact hs
    · exact hs.set fun hn he => (hs i hn he).append hb

theorem Cells.take_of_not_cont (hl : Cells l) (hk : isCont (l.getD k 0) = false)
    (hlt : k < l.length) : Cells (l.take k) := by
  induction hl generalizing k with
  | nil => exact absurd hlt (Nat.not_lt_zero k)
  | @byte c l hc _ ih =>
    cases k with
    | zero => exact .nil
    | succ k => exact .byte hc (ih hk (Nat.lt_of_succ_lt_succ hlt))
  | @wide c a b l hc hc' ha hb _ ih =>
    match k, hk, hlt with
    | 0, _, _ => exact .nil
    | 1, hk, _ => exact nomatch ha.symm.trans hk
    | 2, hk, _ => exact nomatch hb.symm.trans hk
    | k + 3, hk, hlt =>
      exact .wide hc hc' ha hb (ih hk (by simpa using hlt))

theorem backOver_spec (t : List UInt8) : ∀ k, backOver t k = 0 ∨
    (isCont (t.getD (backOver t k) 0) = false ∧ backOver t k ≤ k)
  | 0 => .inl rfl
  | k + 1 => by
    unfold backOver
    split
    · exact (backOver_spec t k).imp_right fun h => ⟨h.1, Nat.le_succ_of_le h.2⟩
    · next hc => exact .inr ⟨decide_eq_false hc, Nat.le_refl _⟩

/-- **The last cell is taken away as a whole.** -/
theorem Cells.backOver (hl : Cells l) : Cells (l.take (backOver l (l.length - 1))) := by
  obtain h | ⟨hc, hle⟩ := backOver_spec l (l.length - 1)
  · rw [h]
    exact .nil
  · cases l with
    | nil => exact .nil
    | cons c l =>
      rw [List.length_cons, Nat.add_sub_cancel] at hle
      exact hl.take_of_not_cont hc (Nat.lt_succ_of_le hle)

theorem Typed.setChecked (hs : Typed s) (n v : Nat) : Typed (setChecked n v s) := by
  have hmake := hs.make n
  unfold Dom.setChecked
  split
  · next i s' heq =>
    rw [heq] at hmake
    exact hmake.set (hmake i)
  · next s' heq =>
    rw [heq] at hmake
    exact hmake

/-- **An edit leaves whole cells.** -/
theorem Typed.apply (hs : Typed s) (e : Edit) (he : e.Clean d s) : Typed (e.apply d s) := by
  cases e with
  | put b => exact hs.putBytes he
  | call c =>
    cases c with
    | focus n =>
      have hfocus : Typed { s with focus := n } := hs
      have hmake := hfocus.make n
      show Typed (ctlFocus d n s)
      unfold ctlFocus
      split
      · next i s' heq =>
        rw [heq] at hmake
        split
        · exact hmake
        · next hedited =>
          have hedited' : (s'.slots i).edited = false := Bool.eq_false_iff.mpr hedited
          refine hmake.set fun _ _ => ?_
          have hslot : s'.slot n = some (s'.slots i) := by
            unfold Ctls.slot
            rw [make_find heq]
            rfl
          have htext : textOf d s' n = markupText d n := by
            unfold textOf
            rw [hslot]
            dsimp only
            rw [hedited', if_neg Bool.false_ne_true]
          show Cells ((textOf d s' n).take (ctlText - 4))
          rw [htext]
          exact he i s' heq hedited'
      · next s' heq =>
        rw [heq] at hmake
        exact hmake
    | key ch =>
      show Typed (ctlKey d ch s).2
      unfold ctlKey
      split
      · exact hs
      · next i hi =>
        dsimp only
        split
        · split
          · exact hs.putBytes (.byte (by decide) .nil)
          · exact hs
        split
        · split
          · exact hs
          · exact hs.set fun hn he => (hs i hn he).backOver
        split
        · next hch =>
          have hbyte : (ch % 2 ^ 8).toNat < 0x80 := by omega
          exact hs.putBytes (.byte (ofNat_lt hbyte) .nil)
        · exact hs
    | check n v => exact hs.setChecked n v
    | next n =>
      have hmake := hs.make n
      show Typed (selectNext d n s)
      unfold selectNext
      dsimp only
      split
      · next i s' heq =>
        rw [heq] at hmake
        exact hmake.set (hmake i)
      · next s' heq =>
        rw [heq] at hmake
        exact hmake
    | radio n =>
      show Typed (radioSelect d n s)
      rw [radioSelect_eq]
      refine Typed.setChecked ?_ n 1
      generalize others d n = ms
      induction ms generalizing s with
      | nil => exact hs
      | cons m ms ih => exact ih (hs.setChecked m 0) trivial

theorem Typed.run (hs : Typed s) {edits : List Edit} (he : CleanEdits d s edits) :
    Typed (edits.foldl (Edit.apply d) s) := by
  induction edits generalizing s with
  | nil => exact hs
  | cons e edits ih => exact ih (hs.apply e he.1) he.2

theorem typed_reset (s : Ctls) : Typed s.reset := fun _ hn => absurd rfl hn

/-- **Every slice of a document with its controls** that someone goes through is as `Q` says: the
texts, the values and what is in the controls. -/
structure Slices (Q : List UInt8 → Prop) (d : Doc) (s : Ctls) : Prop where
  text : ∀ n < d.node_count, (d.nodes n).kind = .text → Q (d.bytesAt (d.nodes n).a (d.nodes n).b)
  value : ∀ n < d.node_count, ∀ aid v, attr d n aid = some v → Q v
  control : ∀ n, n ≠ 0 → n < d.node_count → Q (textOf d s n)

theorem textOf_cells (h : Whole arena d) (hp : Full Celled d) (hroom : d.pool.length + 8 < poolSize)
    (hs : Typed s) (h0 : n ≠ 0) (hn : n < d.node_count) : Cells (textOf d s n) := by
  unfold textOf
  split
  · next c hc =>
    obtain ⟨i, hi, rfl⟩ := Option.map_eq_some_iff.mp hc
    split
    · next he => exact hs i (by rw [find_some hi]; exact h0) he
    · exact markupText_cells h hp hroom hn
  · exact markupText_cells h hp hroom hn

/-- **Texts stay whole.** If all tokens of a page are clean and it does not fill the pool, then the
slices of the tree that `dom_parse` gives are whole cells, and they stay so over any run of clean
edits: no scan of one goes behind its end. -/
theorem slices_stay_whole {raws : List (Nat × List UInt8)} (hr : Reads Clean arena h i d raws)
    (hend : h.length ≤ i ∨ d.truncated = true) {D : Doc} (hD : parse fuel arena h = some D)
    (hroom : D.pool.length + 8 < poolSize) (s : Ctls) {edits : List Edit}
    (he : CleanEdits D s.reset edits) :
    Slices (fun l => Cells l ∧ (txt_cells 0 l).2 = 0) D
      (edits.foldl (Edit.apply D) s.reset) := by
  obtain ⟨hv, hp⟩ := hr.celled
  obtain rfl := hr.parse hend hD
  have h := (Ok.flags hv.whole d.truncated d.skip_lf 0 d.foreign).whole
  have hp' : Full Celled { d with txt_node := 0 } := ⟨hp.text, hp.value⟩
  have hs := (typed_reset s).run he
  have hscan : ∀ {l}, Cells l → Cells l ∧ (txt_cells 0 l).2 = 0 := fun hl => ⟨hl, hl.txt_cells⟩
  refine ⟨fun n hn hk => hscan ?_, fun n _ aid v hv => hscan ?_, fun n h0 hn => hscan ?_⟩
  · exact (hp'.text n hn hk).cells (h.text n hn hk) hroom
  · exact attr_cells h hp' hroom hv
  · exact textOf_cells h hp' hroom hs h0 hn

/-- A syllable is typed into a field that holds one letter. -/
theorem slices_stay_whole_field : ∃ d D, token 30 (bytes "<input value=a>") 0
      (reset fun _ => {}) = some (15, d) ∧ parse 30 (fun _ => {}) (bytes "<input value=a>") = some D
    ∧ Slices (fun l => Cells l ∧ (txt_cells 0 l).2 = 0) D
        ([Edit.call (.focus 4), .put [0xEA, 0xB0, 0x80]].foldl (Edit.apply D) noCtls.reset) := by
  obtain ⟨⟨j, d⟩, hd⟩ : ∃ r, token 30 (bytes "<input value=a>") 0 (reset fun _ => {}) = some r :=
    Option.isSome_iff_exists.mp (by decide +kernel)
  obtain ⟨D, hD⟩ : ∃ D, parse 30 (fun _ => {}) (bytes "<input value=a>") = some D :=
    Option.isSome_iff_exists.mp (by decide +kernel)
  have hj : (token 30 (bytes "<input value=a>") 0 (reset fun _ => {})).map Prod.fst = some 15 := by
    decide +kernel
  rw [hd] at hj
  obtain rfl : j = 15 := Option.some.inj hj
  have hclean : Clean 30 (bytes "<input value=a>") 0 (reset fun _ => {}) := by
    intro _
    have hattrs : attrsIn 30 ((bytes "<input value=a>").drop
        (nameEnd (bytes "<input value=a>") 1)) = [(bytes "value", [0x61])] := by decide +kernel
    have htag : (startTagId (bytes "<input value=a>") 1).rawness = .normal := by decide +kernel
    refine ⟨fun x hx _ => ?_, fun _ _ _ hraw => nomatch htag.symm.trans hraw⟩
    rw [hattrs] at hx
    obtain rfl := List.mem_singleton.mp hx
    have hbytes : (valueBytes 0 [0x61]).take 65535 = [0x61] := by decide +kernel
    rw [hbytes]
    exact .byte (by decide) .nil
  have hpool : (parse 30 (fun _ => {}) (bytes "<input value=a>")).map Doc.pool = some [0x61] := by
    decide +kernel
  have htext : (parse 30 (fun _ => {}) (bytes "<input value=a>")).map (markupText · 4) =
      some [0x61] := by
    decide +kernel
  rw [hD] at hpool htext
  have hpool' : D.pool = [0x61] := Option.some.inj hpool
  have htext' : markupText D 4 = [0x61] := Option.some.inj htext
  have hr := Reads.token .start (by decide) (by decide) hclean hd
  refine ⟨d, D, hd, hD, slices_stay_whole hr (.inl (by decide)) hD (by rw [hpool']; decide) noCtls
    ⟨fun i s' _ _ => ?_, ?_, trivial⟩⟩
  · rw [htext']
    exact .byte (by decide) .nil
  · exact .wide (by decide) (by decide) (by decide) (by decide) .nil

/-- A page of raw text in another encoding. -/
def latinPage : List UInt8 := bytes "<xmp>" ++ 0xE9 :: bytes "</xmp>"

/-- Its letter is read two bytes behind its end. -/
theorem slices_not_whole : ¬ ∀ arena h fuel D, parse fuel arena h = some D →
    ∀ (s : Ctls) (edits : List Edit), (∀ b, Edit.put b ∈ edits → Cells b) →
      Slices (fun l => Cells l ∧ (txt_cells 0 l).2 = 0) D
        (edits.foldl (Edit.apply D) s.reset) := by
  intro hall
  obtain ⟨D, hD⟩ : ∃ D, parse 30 (fun _ => {}) latinPage = some D :=
    Option.isSome_iff_exists.mp (by decide +kernel)
  have hnode : (parse 30 (fun _ => {}) latinPage).map (fun D => (D.node_count,
      decide ((D.nodes 5).kind = .text), D.bytesAt (D.nodes 5).a (D.nodes 5).b)) =
        some (6, true, [0xE9]) := by
    decide +kernel
  rw [hD] at hnode
  obtain ⟨hcount, hrest⟩ := Prod.mk.inj (Option.some.inj hnode)
  obtain ⟨hkind, hbytes⟩ := Prod.mk.inj hrest
  have hslice := (hall _ _ _ _ hD noCtls [] nofun).text 5 (by rw [hcount]; decide)
    (of_decide_eq_true hkind)
  rw [hbytes] at hslice
  exact absurd hslice.2 (by decide)

end Dom
