import MiniWin.Web.Tags
import Mathlib.Logic.Function.Basic

/-!
# HTML: the tree builder

The nodes, attributes and text of `kernel/dom.h`, the stack of open elements, and what a start tag,
an end tag and a piece of text do to them. The attributes up to `dom_attr_count`, the pool up to
`dom_pool_len` and the stack up to `dom_sp` are lists, the stack with its top first; the nodes are
an arena that holds what an earlier page left there.
-/

namespace Dom

open Function

def nodeMax : Nat := 16384
def attrMax : Nat := 24576
def poolSize : Nat := 0x40000
def stackMax : Nat := 192

/-- `rd_attr_t`. -/
structure Attr where
  id : AttrId
  vlen : Nat
  voff : Nat
  deriving DecidableEq

/-- The kinds of a node. -/
inductive Kind where
  | none | doc | elem | text
  deriving DecidableEq

/-- `rd_node_t`, as far as the parser uses it. A text has its bytes at `a` of the pool, and `b` of
them; an element has its attributes at `a`, and `b` of them. -/
structure Node where
  parent : Nat := 0
  first : Nat := 0
  last : Nat := 0
  next : Nat := 0
  a : Nat := 0
  b : Nat := 0
  kind : Kind := .none
  tag : Tag := .none
  deriving DecidableEq

/-- The document. -/
structure Doc where
  nodes : Nat → Node
  node_count : Nat := 0
  attrs : List Attr := []
  pool : List UInt8 := []
  truncated : Bool := false
  html : Nat := 0
  head : Nat := 0
  body : Nat := 0
  stk : List Nat := []
  in_head : Bool := true
  txt_node : Nat := 0
  skip_lf : Bool := false
  foreign : Nat := 0

/-! ## Nodes -/

def Doc.setNode (i : Nat) (n : Node) (d : Doc) : Doc := { d with nodes := update d.nodes i n }

/-- `dom_new_node`, with what its callers put into `a` and `b`. -/
def newNode (n : Node) (d : Doc) : Nat × Doc :=
  if d.node_count ≥ nodeMax then (0, { d with truncated := true })
  else (d.node_count, { d.setNode d.node_count n with node_count := d.node_count + 1 })

/-- `dom_append`. -/
def append (parent child : Nat) (d : Doc) : Doc :=
  let d := d.setNode child { d.nodes child with parent := parent, next := 0 }
  let last := (d.nodes parent).last
  let d :=
    if last ≠ 0 then d.setNode last { d.nodes last with next := child }
    else d.setNode parent { d.nodes parent with first := child }
  d.setNode parent { d.nodes parent with last := child }

/-- `dom_cur`. -/
def Doc.cur (d : Doc) : Nat := d.stk.headD 0

def Doc.tagOf (d : Doc) (n : Nat) : Tag := (d.nodes n).tag

/-- `dom_cur_tag`. -/
def Doc.curTag (d : Doc) : Tag := if d.stk = [] then .none else d.tagOf d.cur

/-- `dom_reset`, with what the arena holds. -/
def reset (arena : Nat → Node) : Doc :=
  let (_, d) := newNode { kind := .doc } { nodes := arena }
  let (html, d) := newNode { kind := .elem, tag := .html } d
  let d := append 0 html d
  let (head, d) := newNode { kind := .elem, tag := .head } d
  let d := append html head d
  let (body, d) := newNode { kind := .elem, tag := .body } d
  let d := append html body d
  { d with html := html, head := head, body := body, stk := [head, html] }

/-- `dom_enter_body`. -/
def enterBody (d : Doc) : Doc :=
  if ¬ d.in_head then d else { d with in_head := false, stk := [d.body, d.html] }

/-! ## Text -/

/-- `dom_in_pre`. -/
def inPre (d : Doc) : Bool :=
  d.stk.any fun n => d.tagOf n ∈ ([.pre, .xmp, .textarea, .listing, .plaintext] : List Tag)

/-- The text node that takes the next byte: the one at hand, the last child of the current element
if its text ends where the pool does, or a new one. -/
def textNode (d : Doc) : Nat × Doc :=
  if d.txt_node ≠ 0 then (d.txt_node, d)
  else
    let par := d.cur
    let last := (d.nodes par).last
    if last ≠ 0 ∧ (d.nodes last).kind = .text
        ∧ (d.nodes last).a + (d.nodes last).b = d.pool.length then
      (last, { d with txt_node := last })
    else
      let (n, d) := newNode { kind := .text, a := d.pool.length } d
      if n = 0 then (0, d) else (n, { append par n d with txt_node := n })

/-- `dom_text_byte`. -/
def textByte (c : UInt8) (d : Doc) : Doc :=
  if d.pool.length + 8 ≥ poolSize then { d with truncated := true }
  else
    let (n, d) := textNode d
    if n = 0 then d
    else { d.setNode n { d.nodes n with b := (d.nodes n).b + 1 } with pool := d.pool ++ [c] }

/-- One character of `dom_add_text`. -/
def emit (pre : Bool) (cp : Nat) (d : Doc) : Doc :=
  if cp = 0x09 ∧ pre then (List.replicate 4 0x20).foldl (fun d c => textByte c d) d
  else if cp = 0x0C ∨ cp = 0x09 ∨ cp = 0x0A then
    textByte (if cp = 0x0C then 0x20 else UInt8.ofNat cp) d
  else if cp < 0x20 ∨ cp = 0x7F then d
  else (mapCp cp).foldl (fun d c => textByte c d) d

/-- The character at the front of a text, and how many of the bytes behind the first are part of
it. -/
def nextChar (decode : Bool) (c : UInt8) (rest : List UInt8) : Nat × Nat :=
  match if c = 0x26 ∧ decode then entity false rest else none with
  | some (used, cp) => (cp, used)
  | none =>
    if c = 0x0D then (0x0A, if rest.head? = some 0x0A then 1 else 0)
    else ((utf8 c rest).2, (utf8 c rest).1 - 1)

/-- The loop of `dom_add_text`: so many bytes are part of the last character. -/
def addChars (decode pre : Bool) : Nat → List UInt8 → Doc → Doc
  | _, [], d => d
  | used + 1, _ :: rest, d => addChars decode pre used rest d
  | 0, c :: rest, d =>
    if d.truncated then d
    else
      addChars decode pre (nextChar decode c rest).2 rest (emit pre (nextChar decode c rest).1 d)

/-- A newline that `dom_skip_lf` swallows. -/
def skipNewline (text : List UInt8) : List UInt8 :=
  match text with
  | 0x0A :: text => text
  | 0x0D :: 0x0A :: text => text
  | text => text

/-- `dom_add_text`. White space between the elements of the head is dropped. -/
def addText (decode : Bool) (text : List UInt8) (d : Doc) : Doc :=
  if d.in_head ∧ d.curTag = .head ∧ text.all isWs then d
  else
    let d := if d.in_head ∧ d.curTag = .head then enterBody d else d
    let (text, d) :=
      if d.skip_lf then (skipNewline text, { d with skip_lf := false }) else (text, d)
    addChars decode (inPre d) 0 text d

/-! ## The stack of open elements -/

/-- The scopes of `dom_scope_stop`. -/
inductive Scope where
  | generic | button | li | table
  deriving DecidableEq

/-- `dom_scope_stop`. -/
def scopeStop (t : Tag) : Scope → Bool
  | .table => t ∈ ([.html, .table, .template] : List Tag)
  | kind => (kind = .button ∧ t = .button) ∨ (kind = .li ∧ (t = .ol ∨ t = .ul))
      ∨ t ∈ ([.html, .table, .td, .th, .caption, .marquee, .object, .template] : List Tag)

/-- A search down the stack: what is below the first element that is `wanted`, if none in front of
it stops the search. -/
def search (d : Doc) (wanted stop : Tag → Bool) : List Nat → Option (List Nat)
  | [] => none
  | n :: below =>
    if wanted (d.tagOf n) then some below
    else if stop (d.tagOf n) then none
    else search d wanted stop below

/-- `dom_pop_to` of what a search has found, if it has. -/
def popTo (found : Option (List Nat)) (d : Doc) : Doc := { d with stk := found.getD d.stk }

/-- `dom_find`. -/
def find (tag : Tag) (kind : Scope) (d : Doc) : Option (List Nat) :=
  search d (· = tag) (scopeStop · kind) d.stk

/-- `dom_insert_elem`. An element that the stack has no room for is closed at once. -/
def insertElem (tag : Tag) (afirst acount : Nat) (push : Bool) (d : Doc) : Nat × Doc :=
  let par := d.cur
  let (n, d) := newNode { kind := .elem, tag := tag, a := afirst, b := acount } d
  if n = 0 then (0, d)
  else
    let d := append par n d
    (n, if push ∧ d.stk.length < stackMax then { d with stk := n :: d.stk } else d)

/-! ## Tags -/

/-- `dom_close_p`. -/
def closeP (d : Doc) : Doc := popTo (find .p .button d) d

/-- `dom_sp--`, if the current element is one of these. -/
def popIf (p : Tag → Bool) (d : Doc) : Doc := if p d.curTag then { d with stk := d.stk.drop 1 } else d

/-- The elements are closed up to one of these, or to the second of the stack. -/
def popUntil (stop : Tag → Bool) (d : Doc) : Doc :=
  { d with stk := go d.stk }
where
  go : List Nat → List Nat
    | n :: m :: l :: below => if stop (d.tagOf n) then n :: m :: l :: below else go (m :: l :: below)
    | stk => stk

/-- What stops the search for an item of the same list: a special element, but these. -/
def listStop (t : Tag) : Bool := t.isSpecial ∧ t ≠ .address ∧ t ≠ .div ∧ t ≠ .p

def isTablePart (t : Tag) : Bool := t ∈ ([.table, .tbody, .thead, .tfoot] : List Tag)

/-- The elements that a start tag closes. -/
def makeRoom (tag : Tag) (d : Doc) : Doc :=
  let d := if tag.closesP then closeP d else d
  let d := if tag.isHeading then popIf Tag.isHeading d else d
  match tag with
  | .li => popTo (search d (· = .li) listStop d.stk) d
  | .dd | .dt => popTo (search d (fun t => t = .dd ∨ t = .dt) listStop d.stk) d
  | .option => popIf (· = .option) d
  | .optgroup => popIf (· = .optgroup) (popIf (· = .option) d)
  | .a => popTo (find .a .generic d) d
  | .button => popTo (find .button .generic d) d
  | .caption | .colgroup | .thead | .tbody | .tfoot =>
    popUntil (fun t => t = .table ∨ t = .template) d
  | .tr => popUntil (fun t => isTablePart t ∨ t = .template) d
  | .td | .th =>
    let d := popUntil (fun t => t = .tr ∨ isTablePart t ∨ t = .template) d
    -- a cell without a row gets one
    if isTablePart d.curTag then (insertElem .tr 0 0 true d).2 else d
  | _ => d

/-- A tag is dropped, and gives back its attributes and their values. -/
def drop (afirst pool_mark : Nat) (d : Doc) : Doc :=
  { d with attrs := d.attrs.take afirst, pool := d.pool.take pool_mark }

/-- The attributes of a second `<html>` or `<body>` go to the first, unless it has some. -/
def rootAttrs (root afirst acount pool_mark : Nat) (d : Doc) : Doc :=
  if (d.nodes root).b = 0 ∧ acount ≠ 0 ∧ afirst + acount = d.attrs.length then
    d.setNode root { d.nodes root with a := afirst, b := acount }
  else drop afirst pool_mark d

/-- `dom_start`, with no text node at hand: the new element, or `0`. -/
def startAt (tag : Tag) (afirst acount pool_mark : Nat) (selfclose : Bool) (d : Doc) : Nat × Doc :=
  if tag = .html then (0, rootAttrs d.html afirst acount pool_mark d)
  else if tag = .head then (0, drop afirst pool_mark d)
  else if tag = .body then
    let d := enterBody d
    (0, rootAttrs d.body afirst acount pool_mark d)
  else if tag = .frame ∨ tag = .frameset then (0, drop afirst pool_mark d)
  else
    let d := if d.in_head ∧ ¬ tag.isHeadish then enterBody d else d
    let d := if ¬ d.in_head then makeRoom tag d else d
    let foreign_root := tag = .svg ∨ tag = .math
    let (n, d) :=
      insertElem tag afirst acount (¬ (tag.isVoid ∨ (selfclose ∧ d.foreign ≠ 0))) d
    (n, if foreign_root ∧ ¬ selfclose then { d with foreign := d.foreign + 1 } else d)

/-- `dom_start`. -/
def start (tag : Tag) (afirst acount pool_mark : Nat) (selfclose : Bool) (d : Doc) : Nat × Doc :=
  startAt tag afirst acount pool_mark selfclose { d with txt_node := 0 }

/-- What a formatting end tag without its element leaves alone. -/
def isFormatting (t : Tag) : Bool :=
  t ∈ ([.a, .b, .big, .code, .em, .font, .i, .nobr, .s, .small, .strike, .strong, .tt, .u] : List Tag)

/-- `dom_end`, with no text node at hand. -/
def endAt (tag : Tag) (d : Doc) : Doc :=
  if tag = .html ∨ tag = .body then d
  else if tag = .head then enterBody d
  else if tag = .br then (start .br d.attrs.length 0 d.pool.length false d).2
  else if tag = .p then
    match find .p .button d with
    | some below => popTo (some below) d
    | none => if ¬ d.in_head then (insertElem .p 0 0 false d).2 else d
  else if tag = .li then popTo (find .li .li d) d
  else if tag = .dd ∨ tag = .dt then popTo (find tag .generic d) d
  else if tag.isHeading then popTo (search d Tag.isHeading (scopeStop · .generic) d.stk) d
  else if isTablePart tag
      ∨ tag ∈ ([.td, .th, .tr, .caption, .colgroup] : List Tag) then popTo (find tag .table d) d
  else
    let d := if tag = .svg ∨ tag = .math then { d with foreign := d.foreign - 1 } else d
    match find tag .generic d with
    | some below => popTo (some below) d
    | none =>
      if isFormatting tag then d else popTo (search d (· = tag) Tag.isSpecial d.stk) d

/-- `dom_end`. -/
def end_ (tag : Tag) (d : Doc) : Doc := endAt tag { d with txt_node := 0 }

end Dom
