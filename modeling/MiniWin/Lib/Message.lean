import Mathlib.Algebra.GroupWithZero.Nat
import Mathlib.Data.List.TakeWhile

/-!
# Requests as text

A request is a line with a method, a target and the version, a line for each field, an empty line,
and a body. `Message.text` writes it and `Message.read` is how the other side reads it: a line ends
at a carriage return with a line feed behind it and no other control byte is in it, and the parts
of the first line are told apart by their spaces.

`Message.read_eq_some_iff`: what is read is what was written, for a message whose parts keep to
their bytes, and there is no other. So two such messages with the same text are the same.
-/

/-- A byte with a shape: no control byte and no space. -/
def isVisible (c : UInt8) : Bool := 32 < c ∧ c ≠ 127

/-- A byte that may stand in a line. -/
def isPrintable (c : UInt8) : Bool := 32 ≤ c ∧ c ≠ 127

theorem isPrintable_of_isVisible {c : UInt8} (h : isVisible c = true) : isPrintable c = true := by
  simp only [isVisible, isPrintable, decide_eq_true_eq] at h ⊢
  exact ⟨UInt8.le_of_lt h.1, h.2⟩

/-- **A request**: the parts of its first line, its fields in order, and its body. -/
structure Message where
  method : List UInt8
  target : List UInt8
  fields : List (List UInt8 × List UInt8)
  body : List UInt8
  deriving DecidableEq

namespace Message

variable {l t rest : List UInt8} {m m' : Message}

/-- The end of a line. -/
def crlf : List UInt8 := [13, 10]

/-- What is behind the target: a space and the version 1.1. -/
def version : List UInt8 := [32, 72, 84, 84, 80, 47, 49, 46, 49]

/-- The first line. -/
def startLine (m : Message) : List UInt8 := m.method ++ 32 :: m.target ++ version

/-- The line of a field. -/
def fieldLine (f : List UInt8 × List UInt8) : List UInt8 := f.1 ++ [58, 32] ++ f.2

/-- The lines of fields, the empty line and what is behind it. -/
def fieldsText (fs : List (List UInt8 × List UInt8)) (body : List UInt8) : List UInt8 :=
  fs.foldr (fun f t => fieldLine f ++ crlf ++ t) (crlf ++ body)

/-- The message as text. -/
def text (m : Message) : List UInt8 := m.startLine ++ crlf ++ fieldsText m.fields m.body

/-- The values of the fields of a name. -/
def values (m : Message) (name : List UInt8) : List (List UInt8) :=
  (m.fields.filter (·.1 = name)).map (·.2)

/-- A field whose name is a name and whose value stays in its line. -/
structure FieldOk (f : List UInt8 × List UInt8) : Prop where
  named : f.1 ≠ []
  name : ∀ c ∈ f.1, isVisible c = true ∧ c ≠ 58
  value : ∀ c ∈ f.2, isPrintable c = true

instance (f : List UInt8 × List UInt8) : Decidable (FieldOk f) :=
  decidable_of_iff (f.1.isEmpty = false ∧ (f.1.all fun c => isVisible c && c != 58) = true
      ∧ f.2.all isPrintable = true) <| by
    simp only [List.isEmpty_eq_false_iff, List.all_eq_true, Bool.and_eq_true, bne_iff_ne]
    exact ⟨fun h => ⟨h.1, h.2.1, h.2.2⟩, fun h => ⟨h.named, h.name, h.value⟩⟩

/-- A message whose parts keep to the bytes that are theirs. -/
structure WellFormed (m : Message) : Prop where
  method_ne : m.method ≠ []
  method : ∀ c ∈ m.method, isVisible c = true
  target_ne : m.target ≠ []
  target : ∀ c ∈ m.target, isVisible c = true
  fields : ∀ f ∈ m.fields, FieldOk f

/-! ## Reading -/

/-- The first line of a text and what is behind it. A control byte in the line spoils it. -/
def line : List UInt8 → Option (List UInt8 × List UInt8)
  | [] => none
  | c :: t =>
    if c = 13 ∧ t.head? = some 10 then some ([], t.tail)
    else if isPrintable c then (line t).map fun (l, rest) => (c :: l, rest)
    else none

/-- The bytes in front of the first `sep`, and what is behind it. -/
def word (sep : UInt8) : List UInt8 → Option (List UInt8 × List UInt8)
  | [] => none
  | c :: t =>
    if c = sep then some ([], t)
    else if isVisible c then (word sep t).map fun (w, rest) => (c :: w, rest)
    else none

/-- A field from its line. -/
def readField (l : List UInt8) : Option (List UInt8 × List UInt8) :=
  (word 58 l).bind fun (name, value) =>
    if name ≠ [] ∧ value.head? = some 32 then some (name, value.tail) else none

/-- The fields, to the empty line, and what is behind it. -/
def readFields : Nat → List UInt8 → Option (List (List UInt8 × List UInt8) × List UInt8)
  | 0, _ => none
  | lines + 1, t =>
    (line t).bind fun (l, rest) =>
      if l = [] then some ([], rest)
      else (readField l).bind fun f =>
        (readFields lines rest).map fun (fs, body) => (f :: fs, body)

/-- The method and the target from the first line. -/
def readStart (l : List UInt8) : Option (List UInt8 × List UInt8) :=
  (word 32 l).bind fun (method, behind) =>
    (word 32 behind).bind fun (target, v) =>
      if method ≠ [] ∧ target ≠ [] ∧ v = version.tail then some (method, target) else none

/-- **The message that a text is.** -/
def read (t : List UInt8) : Option Message :=
  (line t).bind fun (l, rest) =>
    (readStart l).bind fun (method, target) =>
      (readFields rest.length rest).map fun (fields, body) => ⟨method, target, fields, body⟩

/-! ## What is read -/

/-- A text by its first byte. -/
theorem eq_cons_of_head {c : UInt8} (h : l.head? = some c) : l = c :: l.tail := by
  cases l with
  | nil => cases h
  | cons d l => rw [Option.some.inj h]; rfl

/-- **A line is its bytes in front of the first end of a line.** -/
theorem line_eq_some_iff :
    line t = some (l, rest) ↔ (∀ c ∈ l, isPrintable c = true) ∧ t = l ++ crlf ++ rest := by
  induction t generalizing l with
  | nil => simp [line, crlf]
  | cons c t ih =>
    unfold line
    by_cases hend : c = 13 ∧ t.head? = some 10
    · rw [if_pos hend]
      obtain ⟨rfl, hhead⟩ := hend
      obtain ⟨t, rfl⟩ : ∃ u, t = 10 :: u := ⟨t.tail, eq_cons_of_head hhead⟩
      constructor
      · rintro ⟨⟩
        exact ⟨fun c hc => (nomatch hc), rfl⟩
      · rintro ⟨hl, ht⟩
        cases l with
        | nil => simpa [crlf] using ht
        | cons d l =>
          have hd : d = 13 := (List.cons.inj ht).1.symm
          exact absurd (hl d List.mem_cons_self) (by rw [hd]; decide)
    · rw [if_neg hend]
      by_cases hc : isPrintable c = true
      · rw [if_pos hc]
        constructor
        · intro h
          obtain ⟨⟨l', rest'⟩, hline, heq⟩ := Option.map_eq_some_iff.mp h
          obtain ⟨rfl, rfl⟩ := Prod.mk.inj heq
          obtain ⟨hl, rfl⟩ := ih.mp hline
          exact ⟨List.forall_mem_cons.mpr ⟨hc, hl⟩, rfl⟩
        · rintro ⟨hl, ht⟩
          cases l with
          | nil =>
            obtain ⟨rfl, rfl⟩ := List.cons.inj (ht.trans (by rfl : _ = 13 :: 10 :: rest))
            exact absurd ⟨rfl, rfl⟩ hend
          | cons d l =>
            obtain ⟨rfl, rfl⟩ := List.cons.inj ht
            rw [ih.mpr ⟨(List.forall_mem_cons.mp hl).2, rfl⟩]
            rfl
      · rw [if_neg hc]
        constructor
        · exact fun h => (nomatch h)
        · rintro ⟨hl, ht⟩
          cases l with
          | nil =>
            obtain ⟨rfl, rfl⟩ := List.cons.inj (ht.trans (by rfl : _ = 13 :: 10 :: rest))
            exact absurd ⟨rfl, rfl⟩ hend
          | cons d l =>
            obtain ⟨rfl, -⟩ := List.cons.inj ht
            exact absurd (hl c List.mem_cons_self) hc

/-- **A word is what is in front of the first separator.** -/
theorem word_eq_some_iff {sep : UInt8} {w : List UInt8} :
    word sep l = some (w, rest)
      ↔ (∀ c ∈ w, isVisible c = true ∧ c ≠ sep) ∧ l = w ++ sep :: rest := by
  induction l generalizing w with
  | nil => simp [word]
  | cons c l ih =>
    unfold word
    by_cases hsep : c = sep
    · rw [if_pos hsep]
      constructor
      · rintro ⟨⟩
        exact ⟨fun c hc => (nomatch hc), by rw [hsep]; rfl⟩
      · rintro ⟨hw, hl⟩
        cases w with
        | nil => rw [(List.cons.inj hl).2]
        | cons d w =>
          obtain ⟨rfl, -⟩ := List.cons.inj hl
          exact absurd hsep (hw c List.mem_cons_self).2
    · rw [if_neg hsep]
      by_cases hc : isVisible c = true
      · rw [if_pos hc]
        constructor
        · intro h
          obtain ⟨⟨w', rest'⟩, hword, heq⟩ := Option.map_eq_some_iff.mp h
          obtain ⟨rfl, rfl⟩ := Prod.mk.inj heq
          obtain ⟨hw, rfl⟩ := ih.mp hword
          exact ⟨List.forall_mem_cons.mpr ⟨⟨hc, hsep⟩, hw⟩, rfl⟩
        · rintro ⟨hw, hl⟩
          cases w with
          | nil => exact absurd (List.cons.inj hl).1 hsep
          | cons d w =>
            obtain ⟨rfl, rfl⟩ := List.cons.inj hl
            rw [ih.mpr ⟨(List.forall_mem_cons.mp hw).2, rfl⟩]
            rfl
      · rw [if_neg hc]
        constructor
        · exact fun h => (nomatch h)
        · rintro ⟨hw, hl⟩
          cases w with
          | nil => exact absurd (List.cons.inj hl).1 hsep
          | cons d w =>
            obtain ⟨rfl, -⟩ := List.cons.inj hl
            exact absurd (hw c List.mem_cons_self).1 hc

/-- **A field is read from its line**, and from no other. -/
theorem readField_eq_some_iff {f : List UInt8 × List UInt8} (hl : ∀ c ∈ l, isPrintable c = true) :
    readField l = some f ↔ FieldOk f ∧ l = fieldLine f := by
  constructor
  · intro h
    obtain ⟨⟨name, value⟩, hword, hvalue⟩ := Option.bind_eq_some_iff.mp h
    obtain ⟨hname, rfl⟩ := word_eq_some_iff.mp hword
    obtain ⟨⟨hne, hblank⟩, heq⟩ := Option.ite_none_right_eq_some.mp hvalue
    obtain rfl := Option.some.inj heq
    refine ⟨⟨hne, hname, fun c hc => hl c ?_⟩, ?_⟩
    · exact List.mem_append_right _ (List.mem_cons_of_mem _ (List.mem_of_mem_tail hc))
    · rw [eq_cons_of_head hblank]
      exact (List.append_assoc name [58, 32] value.tail).symm
  · rintro ⟨hf, rfl⟩
    have hword : word 58 (fieldLine f) = some (f.1, 32 :: f.2) :=
      word_eq_some_iff.mpr ⟨hf.name, List.append_assoc _ _ _⟩
    unfold readField
    rw [hword]
    exact if_pos ⟨hf.named, rfl⟩

/-- The line of a field has no control byte. -/
theorem FieldOk.printable {f : List UInt8 × List UInt8} (h : FieldOk f) :
    ∀ c ∈ fieldLine f, isPrintable c = true := by
  intro c hc
  rcases List.mem_append.mp hc with hc | hc
  · rcases List.mem_append.mp hc with hc | hc
    · exact isPrintable_of_isVisible (h.name c hc).1
    · exact List.all_eq_true.mp (by decide : [58, 32].all isPrintable = true) c hc
  · exact h.value c hc

/-- The line of a field is not the empty one. -/
theorem fieldLine_ne (f : List UInt8 × List UInt8) : fieldLine f ≠ [] := by
  unfold fieldLine
  simp

/-- **The fields are read to the empty line**, if there are rounds for them. -/
theorem readFields_eq_some_iff {fs : List (List UInt8 × List UInt8)} {body : List UInt8}
    {lines : ℕ} : readFields lines t = some (fs, body)
      ↔ fs.length < lines ∧ (∀ f ∈ fs, FieldOk f) ∧ t = fieldsText fs body := by
  induction lines generalizing fs t with
  | zero => simp [readFields]
  | succ lines ih =>
    constructor
    · intro h
      obtain ⟨⟨l, rest⟩, hline, hbehind⟩ := Option.bind_eq_some_iff.mp h
      obtain ⟨hl, rfl⟩ := line_eq_some_iff.mp hline
      dsimp only at hbehind
      by_cases hnil : l = []
      · rw [if_pos hnil] at hbehind
        obtain ⟨rfl, rfl⟩ := Prod.mk.inj (Option.some.inj hbehind)
        exact ⟨Nat.succ_pos _, fun _ hf => (List.not_mem_nil hf).elim, by rw [hnil]; rfl⟩
      · rw [if_neg hnil] at hbehind
        obtain ⟨f, hfield, hmore⟩ := Option.bind_eq_some_iff.mp hbehind
        obtain ⟨⟨fs', body'⟩, hrest, heq⟩ := Option.map_eq_some_iff.mp hmore
        obtain ⟨rfl, rfl⟩ := Prod.mk.inj heq
        obtain ⟨hf, rfl⟩ := (readField_eq_some_iff hl).mp hfield
        obtain ⟨hlen, hfs, rfl⟩ := ih.mp hrest
        exact ⟨Nat.succ_lt_succ hlen, List.forall_mem_cons.mpr ⟨hf, hfs⟩, rfl⟩
    · rintro ⟨hlen, hfs, rfl⟩
      unfold readFields
      cases fs with
      | nil =>
        rw [show line (fieldsText [] body) = some ([], body) from
          line_eq_some_iff.mpr ⟨fun _ hc => (List.not_mem_nil hc).elim, rfl⟩]
        rfl
      | cons f fs =>
        obtain ⟨hf, hfs⟩ := List.forall_mem_cons.mp hfs
        rw [show fieldsText (f :: fs) body = fieldLine f ++ crlf ++ fieldsText fs body from rfl,
          line_eq_some_iff.mpr ⟨hf.printable, rfl⟩]
        show (if fieldLine f = [] then _ else _) = _
        rw [if_neg (fieldLine_ne f), (readField_eq_some_iff hf.printable).mpr ⟨hf, rfl⟩]
        show (readFields lines (fieldsText fs body)).map _ = _
        rw [ih.mpr ⟨Nat.lt_of_succ_lt_succ hlen, hfs, rfl⟩]
        rfl

/-- **The method and the target are read from the first line**, and from no other. -/
theorem readStart_eq_some_iff {method target : List UInt8} :
    readStart l = some (method, target)
      ↔ (method ≠ [] ∧ ∀ c ∈ method, isVisible c = true)
        ∧ (target ≠ [] ∧ ∀ c ∈ target, isVisible c = true)
        ∧ l = method ++ 32 :: target ++ version := by
  have hblank : ∀ {c : UInt8}, isVisible c = true → c ≠ 32 := by
    rintro c hc rfl
    exact absurd hc (by decide)
  constructor
  · intro h
    obtain ⟨⟨w, behind⟩, hword, hbehind⟩ := Option.bind_eq_some_iff.mp h
    obtain ⟨hw, rfl⟩ := word_eq_some_iff.mp hword
    obtain ⟨⟨u, v⟩, hword', hv⟩ := Option.bind_eq_some_iff.mp hbehind
    obtain ⟨hu, rfl⟩ := word_eq_some_iff.mp hword'
    obtain ⟨⟨hne, hne', hversion⟩, heq⟩ := Option.ite_none_right_eq_some.mp hv
    obtain ⟨rfl, rfl⟩ := Prod.mk.inj (Option.some.inj heq)
    refine ⟨⟨hne, fun c hc => (hw c hc).1⟩, ⟨hne', fun c hc => (hu c hc).1⟩, ?_⟩
    rw [show v = version.tail from hversion]
    exact (List.append_assoc w (32 :: u) version).symm
  · rintro ⟨⟨hne, hmethod⟩, ⟨hne', htarget⟩, rfl⟩
    have hword : word 32 (method ++ 32 :: target ++ version) = some (method, target ++ version) :=
      word_eq_some_iff.mpr ⟨fun c hc => ⟨hmethod c hc, hblank (hmethod c hc)⟩,
        List.append_assoc _ _ _⟩
    have hword' : word 32 (target ++ version) = some (target, version.tail) :=
      word_eq_some_iff.mpr ⟨fun c hc => ⟨htarget c hc, hblank (htarget c hc)⟩, rfl⟩
    unfold readStart
    rw [hword]
    show (word 32 (target ++ version)).bind _ = _
    rw [hword']
    exact if_pos ⟨hne, hne', rfl⟩

/-- There are fewer fields than bytes in their text. -/
theorem length_lt_fieldsText (fs : List (List UInt8 × List UInt8)) (body : List UInt8) :
    fs.length < (fieldsText fs body).length := by
  induction fs with
  | nil =>
    show 0 < (crlf ++ body).length
    simp [crlf]
  | cons f fs ih =>
    show fs.length + 1 < (fieldLine f ++ crlf ++ fieldsText fs body).length
    rw [List.length_append, List.length_append, show crlf.length = 2 from rfl]
    omega

/-- The bytes that fields take, with four for what is around each of them. -/
theorem length_fieldsText (fs : List (List UInt8 × List UInt8)) (body : List UInt8) :
    (fieldsText fs body).length
      = (fs.map fun f => f.1.length + f.2.length + 4).sum + 2 + body.length := by
  induction fs with
  | nil => exact List.length_append
  | cons f fs ih =>
    show (fieldLine f ++ crlf ++ fieldsText fs body).length = _
    rw [List.length_append, List.length_append, ih, fieldLine, List.length_append,
      List.length_append, List.map_cons, List.sum_cons, show crlf.length = 2 from rfl]
    show f.1.length + 2 + f.2.length + 2 + _ = _
    omega

/-- The bytes that a message takes. -/
theorem length_text (m : Message) : m.text.length = m.method.length + m.target.length
    + (m.fields.map fun f => f.1.length + f.2.length + 4).sum + m.body.length + 14 := by
  unfold text startLine
  rw [List.length_append, length_fieldsText, List.length_append, List.length_append,
    List.length_append, List.length_cons, show crlf.length = 2 from rfl,
    show version.length = 9 from rfl]
  omega

/-- **What is read is what was written**, and there is nothing else that is read so. -/
theorem read_eq_some_iff : read t = some m ↔ m.WellFormed ∧ t = m.text := by
  constructor
  · intro h
    obtain ⟨⟨l, rest⟩, hline, hbehind⟩ := Option.bind_eq_some_iff.mp h
    obtain ⟨-, rfl⟩ := line_eq_some_iff.mp hline
    obtain ⟨⟨method, target⟩, hstart, hmore⟩ := Option.bind_eq_some_iff.mp hbehind
    obtain ⟨⟨hne, hmethod⟩, ⟨hne', htarget⟩, rfl⟩ := readStart_eq_some_iff.mp hstart
    obtain ⟨⟨fields, body⟩, hfields, rfl⟩ := Option.map_eq_some_iff.mp hmore
    obtain ⟨-, hfs, rfl⟩ := readFields_eq_some_iff.mp hfields
    exact ⟨⟨hne, hmethod, hne', htarget, hfs⟩, rfl⟩
  · rintro ⟨hm, rfl⟩
    have hprintable : ∀ c ∈ m.startLine, isPrintable c = true := by
      intro c hc
      rcases List.mem_append.mp hc with hc | hc
      · rcases List.mem_append.mp hc with hc | hc
        · exact isPrintable_of_isVisible (hm.method c hc)
        · rcases List.mem_cons.mp hc with rfl | hc
          · decide
          · exact isPrintable_of_isVisible (hm.target c hc)
      · exact List.all_eq_true.mp (by decide : version.all isPrintable = true) c hc
    have hline : line m.text = some (m.startLine, fieldsText m.fields m.body) :=
      line_eq_some_iff.mpr ⟨hprintable, rfl⟩
    have hstart : readStart m.startLine = some (m.method, m.target) :=
      readStart_eq_some_iff.mpr ⟨⟨hm.method_ne, hm.method⟩, ⟨hm.target_ne, hm.target⟩, rfl⟩
    unfold read
    rw [hline]
    show (readStart m.startLine).bind _ = _
    rw [hstart]
    show (readFields _ _).map _ = _
    rw [readFields_eq_some_iff.mpr ⟨length_lt_fieldsText m.fields m.body, hm.fields, rfl⟩]
    rfl

/-- **A text says one message.** -/
theorem text_injective (hm : m.WellFormed) (hm' : m'.WellFormed) (h : m.text = m'.text) :
    m = m' :=
  Option.some.inj ((read_eq_some_iff.mpr ⟨hm, rfl⟩).symm.trans (read_eq_some_iff.mpr ⟨hm', h⟩))

end Message
