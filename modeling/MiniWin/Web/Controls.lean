import MiniWin.Web.Html
import Mathlib.Data.List.FinRange
import Mathlib.Data.List.DropRight

/-!
# Form controls

The state of the controls of a page in `kernel/render.h`: sixteen slots, each for the first node that
needs one. A control without a slot is as its markup says. What the engine reads of the document is
in front: the attributes, the children and the forms around a node.
-/

namespace Dom

open Net Function

/-! ## Reading the document -/

/-- The bytes of the pool at `off`. -/
def Doc.bytesAt (d : Doc) (off len : Nat) : List UInt8 := (d.pool.drop off).take len

/-- `dom_attr_find`. -/
def attrFind (d : Doc) (n : Nat) (aid : AttrId) : Option Attr :=
  if (d.nodes n).kind ≠ .elem then none
  else ((d.attrs.drop (d.nodes n).a).take (d.nodes n).b).find? (·.id = aid)

/-- `dom_attr`. -/
def attr (d : Doc) (n : Nat) (aid : AttrId) : Option (List UInt8) :=
  (attrFind d n aid).map fun a => d.bytesAt a.voff a.vlen

/-- `dom_has_attr`. -/
def hasAttr (d : Doc) (n : Nat) (aid : AttrId) : Bool := (attrFind d n aid).isSome

/-- `css_kw`: the text is the word, in whatever letters. -/
def kw (s : List UInt8) (lit : String) : Bool := s.map lower = bytes lit

/-- The type of an element is one of these. -/
def typeIn (d : Doc) (n : Nat) (lits : List String) : Bool :=
  match attr d n .type with
  | none => false
  | some t => lits.any (kw t ·)

/-- The node and its siblings behind it. There are no more than the nodes of the document. -/
def siblings (d : Doc) : Nat → Nat → List Nat
  | 0, _ => []
  | fuel + 1, c => if c = 0 then [] else c :: siblings d fuel (d.nodes c).next

/-- The children of a node. -/
def Doc.kids (d : Doc) (n : Nat) : List Nat := siblings d d.node_count (d.nodes n).first

/-- The loop of `rd_find_form`. -/
def findFormFrom (d : Doc) : Nat → Nat → Nat
  | 0, _ => 0
  | fuel + 1, p =>
    if p = 0 then 0 else if d.tagOf p = .form then p else findFormFrom d fuel (d.nodes p).parent

/-- `rd_find_form`. -/
def findForm (d : Doc) (n : Nat) : Nat := findFormFrom d d.node_count (d.nodes n).parent

/-- The options of a `<select>`, also those in a group. -/
def options (d : Doc) (sel : Nat) : List Nat :=
  (d.kids sel).flatMap fun c =>
    if d.tagOf c = .option then [c]
    else if d.tagOf c = .optgroup then (d.kids c).filter (d.tagOf · = .option)
    else []

/-! ## The state of the controls -/

def ctlMax : Nat := 16
def ctlText : Nat := 160

/-- `rd_ctl_t`. The first `len` bytes of the text are a list, and the two flags two fields. -/
structure Ctl where
  node : Nat := 0
  text : List UInt8 := []
  sel : Nat := 0
  checked : UInt8 := 0
  edited : Bool := false
  marked : Bool := false

/-- The slots, and the control that has the keyboard. -/
structure Ctls where
  slots : Fin ctlMax → Ctl
  focus : Nat

/-- `rd_state_reset`, with what the slots held. -/
def Ctls.reset (s : Ctls) : Ctls :=
  { slots := fun i => { s.slots i with node := 0 }, focus := 0 }

/-- `rd_ctl_find` for a slot that there is. -/
def Ctls.find (s : Ctls) (n : Nat) : Option (Fin ctlMax) :=
  (List.finRange ctlMax).find? fun i => (s.slots i).node = n

def Ctls.set (s : Ctls) (i : Fin ctlMax) (x : Ctl) : Ctls := { s with slots := update s.slots i x }

@[simp] theorem Ctls.set_self (s : Ctls) (i : Fin ctlMax) (x : Ctl) : (s.set i x).slots i = x :=
  update_self ..

theorem Ctls.set_other {s : Ctls} {i j : Fin ctlMax} (x : Ctl) (h : j ≠ i) :
    (s.set i x).slots j = s.slots j :=
  update_of_ne h ..

/-- `rd_ctl_find` that makes a slot, if one is free. -/
def Ctls.make (s : Ctls) (n : Nat) : Option (Fin ctlMax) × Ctls :=
  match s.find n with
  | some i => (some i, s)
  | none =>
    match s.find 0 with
    | some i => (some i, s.set i { node := n })
    | none => (none, s)

/-- The slot of a node. -/
def Ctls.slot (s : Ctls) (n : Nat) : Option Ctl := (s.find n).map s.slots

/-- What the markup says that a control has in it. -/
def markupText (d : Doc) (n : Nat) : List UInt8 :=
  if d.tagOf n = .textarea then
    match (d.kids n).find? fun c => (d.nodes c).kind = .text with
    | some c => d.bytesAt (d.nodes c).a (d.nodes c).b
    | none => []
  else (attr d n .value).getD []

/-- `rd_ctl_text`. -/
def textOf (d : Doc) (s : Ctls) (n : Nat) : List UInt8 :=
  match s.slot n with
  | some c => if c.edited then c.text else markupText d n
  | none => markupText d n

/-- `rd_ctl_is_checked`. -/
def isChecked (d : Doc) (s : Ctls) (n : Nat) : Bool :=
  match s.slot n with
  | some c => if c.marked then c.checked ≠ 0 else hasAttr d n .checked
  | none => hasAttr d n .checked

/-- `rd_ctl_set_checked`. -/
def setChecked (n v : Nat) (s : Ctls) : Ctls :=
  match s.make n with
  | (some i, s) => s.set i { s.slots i with checked := UInt8.ofNat v, marked := true }
  | (none, s) => s

/-- The option that the markup selects. -/
def markupOption (d : Doc) (sel : Nat) : Nat :=
  ((options d sel).find? (hasAttr d · .selected)).getD ((options d sel).headD 0)

/-- `rd_select_option`. -/
def selectOption (d : Doc) (s : Ctls) (sel : Nat) : Nat :=
  match s.slot sel with
  | some c => if c.sel ≠ 0 then c.sel else markupOption d sel
  | none => markupOption d sel

/-- `rd_select_next`: the option behind the one that is showing, or the first. -/
def selectNext (d : Doc) (sel : Nat) (s : Ctls) : Ctls :=
  let cur := selectOption d s sel
  let nxt := (((options d sel).dropWhile (· ≠ cur)).drop 1).headD 0
  match s.make sel with
  | (some i, s) =>
    s.set i { s.slots i with sel := if nxt ≠ 0 then nxt else (options d sel).headD 0 }
  | (none, s) => s

/-- `rd_ctl_focus`. -/
def ctlFocus (d : Doc) (n : Nat) (s : Ctls) : Ctls :=
  match { s with focus := n : Ctls }.make n with
  | (some i, s) =>
    if (s.slots i).edited then s
    else s.set i { s.slots i with text := (textOf d s n).take (ctlText - 4), edited := true }
  | (none, s) => s

/-- The slot of the control that has the keyboard. -/
def Ctls.focused (s : Ctls) : Option (Fin ctlMax) := if s.focus ≠ 0 then s.find s.focus else none

/-- `rd_ctl_put_bytes`. -/
def putBytes (b : List UInt8) (s : Ctls) : Nat × Ctls :=
  match s.focused with
  | none => (0, s)
  | some i =>
    let c := s.slots i
    if c.text.length + b.length ≥ ctlText - 1 then (0, s)
    else (1, s.set i { c with text := c.text ++ b })

/-- Back over the bytes of a character, from this one on. -/
def backOver (t : List UInt8) : Nat → Nat
  | 0 => 0
  | k + 1 => if t.getD (k + 1) 0 &&& 0xC0 = 0x80 then backOver t k else k + 1

/-- `rd_ctl_key`. -/
def ctlKey (d : Doc) (ch : Int) (s : Ctls) : Nat × Ctls :=
  match s.focused with
  | none => (0, s)
  | some i =>
    let c := s.slots i
    if ch = 10 ∨ ch = 13 then
      if d.tagOf c.node = .textarea then putBytes [0x0A] s else (2, s)
    else if ch = 8 ∨ ch = 127 then
      if c.text = [] then (0, s)
      else (1, s.set i { c with text := c.text.take (backOver c.text (c.text.length - 1)) })
    else if 32 ≤ ch ∧ ch < 127 then putBytes [UInt8.ofInt ch] s
    else (0, s)

/-! ## Radio buttons -/

/-- An `<input>` of this type. -/
def isRadio (d : Doc) (n : Nat) : Bool := d.tagOf n = .input && typeIn d n ["radio"]

/-- What `rd_radio_select` unticks: another radio button with the name, in the same form. -/
def sharesName (d : Doc) (n : Nat) (name : List UInt8) (m : Nat) : Bool :=
  m ≠ n && isRadio d m && attr d m .name = some name && findForm d m = findForm d n

/-- `rd_radio_select`. -/
def radioSelect (d : Doc) (n : Nat) (s : Ctls) : Ctls :=
  let others :=
    match attr d n .name with
    | none => []
    | some name =>
      if name = [] then []
      else (List.range' 1 (d.node_count - 1)).filter (sharesName d n name)
  setChecked n 1 (others.foldl (fun s m => setChecked m 0 s) s)

end Dom

/-!
## Submitting a form

`rd_form_query` of `kernel/render.h`: the names and values of a form's controls as a text of at most
`cap` bytes. The text of an option goes through a buffer of its own.
-/

namespace Dom

open Net

/-! ## The text of a node -/

/-- What the text of a node is made of: the bytes of its texts and the elements in it, but no
scripts and styles. -/
def pieces (d : Doc) (n : Nat) : List (UInt8 ⊕ Nat) :=
  (d.kids n).flatMap fun c =>
    match (d.nodes c).kind with
    | .text => (d.bytesAt (d.nodes c).a (d.nodes c).b).map .inl
    | .elem => if d.tagOf c ≠ .script ∧ d.tagOf c ≠ .style then [.inr c] else []
    | _ => []

/-- One byte of a text: white space is one space, and none behind another. -/
def putChar (st : List UInt8 × Bool) (b : UInt8) : List UInt8 × Bool :=
  if isWs b then (if st.2 then st.1 else st.1 ++ [0x20], true) else (st.1 ++ [b], false)

/-- `rd_node_text`, in a buffer of `cap` bytes. -/
def nodeText (d : Doc) : Nat → Nat → Nat → List UInt8
  | 0, _, _ => []
  | fuel + 1, n, cap =>
    let st := (pieces d n).foldl (fun st x =>
      if st.1.length + 4 < cap then
        match x with
        | .inl b => putChar st b
        | .inr c => (st.1 ++ nodeText d fuel c (cap - st.1.length), st.2)
      else st) ([], true)
    st.1.rdropWhile (· = 0x20)

/-- The text of an option, in the buffer `tb` of `rd_query_walk`. -/
def optionText (d : Doc) (opt : Nat) : List UInt8 := nodeText d d.node_count opt 96

/-! ## Encoding -/

/-- What is in the buffer, and `rd_query_overflow`. -/
structure Query where
  out : List UInt8 := []
  overflow : Bool := false
  deriving DecidableEq

/-- Bytes, if there is room for them. -/
def Query.put (cap : Nat) (l : List UInt8) (q : Query) : Query :=
  if q.out.length + l.length < cap then { q with out := q.out ++ l } else { q with overflow := true }

/-- What is not escaped. -/
def isPlain (c : UInt8) : Bool :=
  isAlnum c || c = '-'.toUInt8 || c = '_'.toUInt8 || c = '.'.toUInt8 || c = '~'.toUInt8

/-- `"0123456789ABCDEF"`. -/
def hexDigits : List UInt8 := bytes "0123456789ABCDEF"

/-- One byte of `rd_urlenc`. -/
def encodeByte (cap : Nat) (q : Query) (c : UInt8) : Query :=
  let c := if c = 0x01 then 0x20 else c
  if q.overflow then q
  else if isPlain c then q.put cap [c]
  else if c = 0x20 then q.put cap ['+'.toUInt8]
  else
    q.put cap ['%'.toUInt8, hexDigits.getD (c >>> 4).toNat 0, hexDigits.getD (c &&& 15).toNat 0]

/-- `rd_urlenc`. -/
def urlenc (cap : Nat) (s : List UInt8) (q : Query) : Query := s.foldl (encodeByte cap) q

/-- `rd_query_add`. -/
def queryAdd (cap : Nat) (name val : List UInt8) (q : Query) : Query :=
  if q.overflow then q
  else
    let q := if q.out ≠ [] then q.put cap ['&'.toUInt8] else q
    if q.overflow then q
    else
      let q := urlenc cap name q
      if q.overflow then q
      else
        let q := q.put cap ['='.toUInt8]
        if q.overflow then q else urlenc cap val q

/-! ## The controls -/

/-- The value that an element is sent with, if it is sent. The text of an option is what `text`
says. -/
def valueOf (text : Nat → List UInt8) (d : Doc) (s : Ctls) (submitter c : Nat) :
    Option (List UInt8) :=
  match d.tagOf c with
  | .input =>
    if typeIn d c ["submit", "button", "image", "reset", "file"] then
      if c = submitter then some ((attr d c .value).getD []) else none
    else if typeIn d c ["checkbox", "radio"] then
      if isChecked d s c then some ((attr d c .value).getD (bytes "on")) else none
    else some (textOf d s c)
  | .textarea => some (textOf d s c)
  | .select =>
    let opt := selectOption d s c
    if opt ≠ 0 then some ((attr d opt .value).getD (text opt)) else none
  | .button => if c = submitter then some ((attr d c .value).getD []) else none
  | _ => none

/-- The name and the value that an element is sent with. -/
def pairOf (text : Nat → List UInt8) (d : Doc) (s : Ctls) (submitter c : Nat) :
    Option (List UInt8 × List UInt8) :=
  match attr d c .name with
  | none => none
  | some name =>
    if name ≠ [] ∧ ¬hasAttr d c .disabled then
      (valueOf text d s submitter c).map fun v => (name, v)
    else none

/-- `rd_query_walk`. -/
def queryWalk (d : Doc) (s : Ctls) (submitter cap : Nat) : Nat → Nat → Query → Query
  | 0, _, q => q
  | fuel + 1, n, q =>
    (d.kids n).foldl (fun q c =>
      if (d.nodes c).kind ≠ .elem then q
      else
        let q :=
          match pairOf (optionText d) d s submitter c with
          | some (name, val) => queryAdd cap name val q
          | none => q
        if d.tagOf c ≠ .select ∧ d.tagOf c ≠ .textarea then queryWalk d s submitter cap fuel c q
        else q) q

/-- `rd_form_query`: the bytes in front of the NUL, and whether there were too many. -/
def formQuery (d : Doc) (s : Ctls) (form submitter cap : Nat) : Query :=
  queryWalk d s submitter cap d.node_count form {}

end Dom
