import MiniWin.Web.HtmlTree

/-!
# HTML: where text goes

What a text comes to in bytes is a matter of the text alone. These bytes go to the end of the pool,
and all of them to one text node below the current element: the one at hand, the last child of the
element if its text ends there, or a new one. Once there is no room nothing more is put.
-/

namespace Dom

open Function Links

variable {arena : Nat → Node} {d d' : Doc} {am pm n i j k fuel : Nat} {l : List UInt8} {c : UInt8}

/-! ## Bytes -/

/-- The bytes of one character. -/
def emitBytes (pre : Bool) (cp : Nat) : List UInt8 :=
  if cp = 0x09 ∧ pre then List.replicate 4 0x20
  else if cp = 0x0C ∨ cp = 0x09 ∨ cp = 0x0A then [if cp = 0x0C then 0x20 else UInt8.ofNat cp]
  else if cp < 0x20 ∨ cp = 0x7F then []
  else mapCp cp

/-- The bytes of a text, of whose front so many belong to a character in front of it. -/
def charBytes (decode pre : Bool) : Nat → List UInt8 → List UInt8
  | _, [] => []
  | used + 1, _ :: rest => charBytes decode pre used rest
  | 0, c :: rest =>
    emitBytes pre (nextChar decode c rest).1 ++ charBytes decode pre (nextChar decode c rest).2 rest

/-- The bytes of a raw text. -/
def rawBytes : List UInt8 → List UInt8
  | [] => []
  | c :: text =>
    if c = 0x0D ∧ text.head? = some 0x0A then rawBytes text
    else (if c = 0x0D then 0x0A else c) :: rawBytes text

/-- Bytes put one after the other. -/
def putText (l : List UInt8) (d : Doc) : Doc := l.foldl (fun d c => textByte c d) d

theorem putText_cons (c : UInt8) (l : List UInt8) (d : Doc) :
    putText (c :: l) d = putText l (textByte c d) := rfl

theorem putText_append (l l' : List UInt8) (d : Doc) :
    putText (l ++ l') d = putText l' (putText l d) := List.foldl_append ..

theorem emit_eq (pre : Bool) (cp : Nat) (d : Doc) :
    emit pre cp d = putText (emitBytes pre cp) d := by
  unfold emit emitBytes
  split_ifs <;> rfl

/-! ## One byte -/

/-- There is no room, in the pool or for the node. -/
def NoRoom (d : Doc) : Prop :=
  poolSize ≤ d.pool.length + 8 ∨
    (nodeMax ≤ d.node_count ∧ d.txt_node = 0 ∧
      ¬ ((d.nodes d.cur).last ≠ 0 ∧ (d.nodes (d.nodes d.cur).last).kind = .text ∧
        (d.nodes (d.nodes d.cur).last).a + (d.nodes (d.nodes d.cur).last).b = d.pool.length))

/-- One byte more of the text of node `t`. -/
def Doc.putAt (t : Nat) (c : UInt8) (d : Doc) : Doc :=
  { d.setNode t { d.nodes t with b := (d.nodes t).b + 1 } with pool := d.pool ++ [c], txt_node := t }

/-- The text node that the next byte makes. -/
def Doc.newText (d : Doc) : Node := { kind := .text, a := d.pool.length }

theorem textByte_full (h : NoRoom d) (c : UInt8) : textByte c d = { d with truncated := true } := by
  unfold textByte
  split
  · rfl
  next hpool =>
  obtain h | ⟨hcount, htxt, hlast⟩ := h
  · exact absurd h hpool
  unfold textNode
  rw [if_neg (not_not_intro htxt)]
  dsimp only
  rw [if_neg hlast, newNode_full hcount]
  rfl

/-- **Where one byte goes**, if there is room: to a text node that ends where the pool does, either
the one at hand or the last one below the current element, or to a new one. -/
theorem textByte_cases (h : Valid arena d) (hroom : ¬ NoRoom d) (c : UInt8) :
    (∃ t, t ≠ 0 ∧ t < d.node_count ∧ (d.nodes t).kind = .text ∧
      (d.nodes t).a + (d.nodes t).b = d.pool.length ∧
      (t = d.txt_node ∨ (d.txt_node = 0 ∧ (d.nodes t).parent = d.cur)) ∧
      textByte c d = d.putAt t c) ∨
    (d.txt_node = 0 ∧ d.node_count < nodeMax ∧
      textByte c d = (addNode d.cur d.newText d).putAt d.node_count c) := by
  obtain ⟨hpool, hnode⟩ := not_or.mp hroom
  have hpool' : ¬ d.pool.length + 8 ≥ poolSize := hpool
  by_cases htxt : d.txt_node = 0
  · by_cases hlast : (d.nodes d.cur).last ≠ 0 ∧ (d.nodes (d.nodes d.cur).last).kind = .text ∧
        (d.nodes (d.nodes d.cur).last).a + (d.nodes (d.nodes d.cur).last).b = d.pool.length
    · refine .inl ⟨(d.nodes d.cur).last, hlast.1, h.whole.tree.last_lt (Ok.cur_lt h.whole),
        hlast.2.1, hlast.2.2, .inr ⟨htxt, ?_⟩, ?_⟩
      · exact h.whole.tree.last_parent (Ok.cur_lt h.whole) hlast.1
      · unfold textByte textNode
        rw [if_neg hpool', if_neg (not_not_intro htxt)]
        dsimp only
        rw [if_pos hlast]
        dsimp only
        rw [if_neg hlast.1]
        rfl
    · have hcount : d.node_count < nodeMax :=
        Nat.lt_of_not_le fun hle => hnode ⟨hle, htxt, hlast⟩
      have hpos : d.node_count ≠ 0 := by
        have := h.whole.roots.count
        omega
      refine .inr ⟨htxt, hcount, ?_⟩
      unfold textByte textNode
      rw [if_neg hpool', if_neg (not_not_intro htxt)]
      dsimp only
      rw [if_neg hlast, newNode_room hcount]
      dsimp only
      rw [if_neg hpos]
      dsimp only
      rw [if_neg hpos]
      have hadd : append d.cur d.node_count { d.setNode d.node_count d.newText with
          node_count := d.node_count + 1 } = addNode d.cur d.newText d := by
        unfold addNode
        rw [newNode_room hcount]
      have hpool₁ : (addNode d.cur d.newText d).pool = d.pool := by rw [addNode_rest hcount]
      show _ = Doc.putAt _ _ _
      unfold Doc.newText at hadd hpool₁ ⊢
      rw [hadd]
      rfl
  · obtain ⟨hlt, hkind, hend⟩ := h.text htxt
    refine .inl ⟨d.txt_node, htxt, hlt, hkind, hend, .inl rfl, ?_⟩
    unfold textByte textNode
    rw [if_neg hpool', if_pos htxt]
    dsimp only
    rw [if_neg htxt]
    rfl

/-! ## All bytes -/

/-- Without room there never is again. -/
theorem putText_full (h : NoRoom d) (ht : d.truncated = true) (l : List UInt8) :
    putText l d = d := by
  induction l with
  | nil => rfl
  | cons c l ih =>
    have hc : textByte c d = d := (textByte_full h c).trans (by rw [← ht])
    rw [putText_cons, hc, ih]

/-- Only a lack of room cuts a text off. -/
theorem textByte_truncated (h : Valid arena d) (ht : d.truncated = false)
    (ht' : (textByte c d).truncated = true) : NoRoom (textByte c d) := by
  by_cases hroom : NoRoom d
  · rw [textByte_full hroom]
    exact hroom
  obtain ⟨t, -, -, -, -, -, heq⟩ | ⟨-, hcount, heq⟩ := textByte_cases h hroom c
  · rw [heq] at ht'
    exact absurd (ht.symm.trans ht') Bool.false_ne_true
  · rw [heq] at ht'
    have htr : ((addNode d.cur d.newText d).putAt d.node_count c).truncated = d.truncated := by
      show (addNode d.cur d.newText d).truncated = _
      rw [addNode_rest hcount]
    exact absurd (ht.symm.trans (htr.symm.trans ht')) Bool.false_ne_true

theorem putText_truncated (h : Valid arena d) (ht : d.truncated = false)
    (ht' : (putText l d).truncated = true) : NoRoom (putText l d) := by
  induction l generalizing d with
  | nil => exact absurd (ht.symm.trans ht') Bool.false_ne_true
  | cons c l ih =>
    rw [putText_cons] at ht' ⊢
    cases hc : (textByte c d).truncated with
    | false => exact ih (textByte_valid h c) hc ht'
    | true =>
      have hfull := textByte_truncated h ht hc
      rw [putText_full hfull hc]
      exact hfull

/-- **A raw text** is put as it is, but for the ends of its lines. -/
theorem rawText_eq (text : List UInt8) (h : Valid arena d) :
    rawText text d = if d.truncated then d else putText (rawBytes text) d := by
  induction text generalizing d with
  | nil => exact (ite_self d).symm
  | cons c text ih =>
    unfold rawText rawBytes
    cases ht : d.truncated with
    | true => rfl
    | false =>
      rw [if_neg Bool.false_ne_true, if_neg Bool.false_ne_true]
      split
      · rw [ih h, ht]
        rfl
      · rw [ih (textByte_valid h _), putText_cons]
        generalize (if c = 0x0D then (0x0A : UInt8) else c) = c'
        split
        · next hc => rw [putText_full (textByte_truncated h ht hc) hc]
        · rfl

/-- **Characters** are put as their bytes. -/
theorem addChars_eq (decode pre : Bool) (used : Nat) (text : List UInt8) (h : Valid arena d) :
    addChars decode pre used text d
      = if d.truncated then d else putText (charBytes decode pre used text) d := by
  induction used, text using charBytes.induct decode generalizing d with
  | case1 used =>
    unfold addChars charBytes
    exact (ite_self d).symm
  | case2 used c rest ih =>
    unfold addChars charBytes
    exact ih h
  | case3 c rest ih =>
    unfold addChars charBytes
    cases ht : d.truncated with
    | true => rfl
    | false =>
      rw [if_neg Bool.false_ne_true, if_neg Bool.false_ne_true, ih (emit_valid h pre _), emit_eq,
        putText_append]
      split
      · next hc => rw [putText_full (putText_truncated h ht hc) hc]
      · rfl

end Dom
