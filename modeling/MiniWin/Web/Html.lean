import Mathlib.Algebra.Group.Nat.Defs
import MiniWin.Web.Dom

/-!
# HTML: the tokenizer

`dom_parse` of `kernel/dom.h`. A position in the page is a `u32`, and an offset added to it can
carry it round where the page is nearly as long as that: `at_` is the byte at such a sum, and
`none` is a read behind the page. The loops that could go round get a number of rounds, and `none`
says that these were not enough.
-/

namespace Dom

open Net

/-! ## Attributes -/

/-- The blanks and slashes in front of an attribute, and whether a `/>` was among them. -/
def skipBlanks : List UInt8 → Bool → List UInt8 × Bool
  | [], selfclose => ([], selfclose)
  | c :: l, selfclose =>
    if isWs c ∨ c = 0x2F then
      skipBlanks l (selfclose || (c = 0x2F && l.head? = some 0x3E))
    else (c :: l, selfclose)

/-- The name of an attribute, and what is behind it. -/
def attrName : List UInt8 → List UInt8 × List UInt8
  | [] => ([], [])
  | c :: l =>
    if isWs c ∨ c = 0x3D ∨ c = 0x3E ∨ (c = 0x2F ∧ l.head? = some 0x3E) then ([], c :: l)
    else (c :: (attrName l).1, (attrName l).2)

/-- The value of an attribute, and what is behind it. -/
def attrValue (l : List UInt8) : List UInt8 × List UInt8 :=
  match l.dropWhile isWs with
  | 0x3D :: l =>
    match l.dropWhile isWs with
    | [] => ([], [])
    | q :: l =>
      if q = 0x22 ∨ q = 0x27 then
        (l.takeWhile (· ≠ q), (l.dropWhile (· ≠ q)).drop 1)
      else
        ((q :: l).takeWhile (fun c => ¬ isWs c ∧ c ≠ 0x3E),
          (q :: l).dropWhile (fun c => ¬ isWs c ∧ c ≠ 0x3E))
  | l => ([], l)

/-- `dom_pool_putc`. -/
def putc (c : UInt8) (d : Doc) : Doc :=
  if d.pool.length + 8 < poolSize then { d with pool := d.pool ++ [c] }
  else { d with truncated := true }

/-- One character of a value. -/
def putValue (cp : Nat) (d : Doc) : Doc :=
  let cp := if cp = 0x0D ∨ cp = 0x0A ∨ cp = 0x09 ∨ cp = 0x0C then 0x20 else cp
  if cp < 0x80 then if cp ≥ 0x20 ∧ cp ≠ 0x7F then putc (UInt8.ofNat cp) d else d
  else (mapCp cp).foldl (fun d c => putc c d) d

/-- The character at the front of a value, and how many of the bytes behind the first are part of
it. -/
def nextValueChar (c : UInt8) (rest : List UInt8) : Nat × Nat :=
  match if c = 0x26 then entity true rest else none with
  | some (used, cp) => (cp, used)
  | none => ((utf8 c rest).2, (utf8 c rest).1 - 1)

/-- The loop that stores a value: so many bytes are part of the last character. -/
def putValues : Nat → List UInt8 → Doc → Doc
  | _, [], d => d
  | used + 1, _ :: rest, d => putValues used rest d
  | 0, c :: rest, d =>
    if d.truncated then d
    else putValues (nextValueChar c rest).2 rest (putValue (nextValueChar c rest).1 d)

/-- A name in small letters, as far as the buffer for it goes. -/
def lowerName (name : List UInt8) : List UInt8 := (name.take 15).map lower

/-- An attribute is kept, if it is one of those the engine acts on and there is room for it. -/
def keepAttr (name value : List UInt8) (d : Doc) : Doc :=
  let aid := attrId (lowerName name)
  if aid ≠ .none ∧ d.attrs.length < attrMax then
    let start := d.pool.length
    let d := putValues 0 value d
    let vl := d.pool.length - start
    { d with attrs := d.attrs ++ [{ id := aid, vlen := min vl 65535, voff := start }] }
  else d

/-- The loop of `dom_parse_attrs`: what is behind the tag, and whether it closes itself. -/
def parseAttrs : Nat → List UInt8 → Bool → Doc → Option (List UInt8 × Bool × Doc)
  | 0, _, _, _ => none
  | fuel + 1, l, selfclose, d =>
    match skipBlanks l selfclose with
    | ([], selfclose) => some ([], selfclose, d)
    | (c :: l, selfclose) =>
      if c = 0x3E then some (l, selfclose, d)
      else
        let (name, rest) := attrName (c :: l)
        let (value, rest) := attrValue rest
        parseAttrs fuel rest selfclose (keepAttr name value d)

/-! ## Positions -/

/-- A sum of positions. -/
def add32 (i k : Nat) : Nat := (i + k) % 2 ^ 32

/-- The byte at `h[i + k]`. -/
def at_ (h : List UInt8) (i k : Nat) : Option UInt8 := h[add32 i k]?

/-- `i + k < len`. -/
def inside (h : List UInt8) (i k : Nat) : Bool := add32 i k < h.length

/-- The first position from `i` on that holds one of these bytes, or the end. -/
def runTo (stop : UInt8 → Bool) (h : List UInt8) (i : Nat) : Nat :=
  i + ((h.drop i).takeWhile fun c => !stop c).length

/-- The position behind the next `>`. -/
def skipTag (h : List UInt8) (i : Nat) : Nat :=
  let j := runTo (· = 0x3E) h i
  if j < h.length then j + 1 else h.length

/-- The bytes `h[i .. j)`. -/
def slice (h : List UInt8) (i j : Nat) : List UInt8 := (h.drop i).take (j - i)

/-! ## Comments -/

/-- A comment ends at `j`. -/
def commentEnds (h : List UInt8) (j : Nat) : Option Bool :=
  (at_ h j 0).bind fun c₀ => if c₀ ≠ 0x2D then some false else
  (at_ h j 1).bind fun c₁ => if c₁ ≠ 0x2D then some false else
  (at_ h j 2).bind fun c₂ => if c₂ = 0x3E then some true else
  if c₂ = 0x21 ∧ inside h j 3 then (at_ h j 3).map (· = 0x3E) else some false

/-- The loop that looks for the end of a comment. -/
def commentEnd (h : List UInt8) : Nat → Nat → Option Nat
  | 0, _ => none
  | fuel + 1, j =>
    if inside h j 2 then
      (commentEnds h j).bind fun ends => if ends then some j else commentEnd h fuel (add32 j 1)
    else some j

/-- The position behind a comment whose text begins at `j`. -/
def skipComment (fuel : Nat) (h : List UInt8) (j : Nat) : Option Nat :=
  if h[j]? = some 0x3E then some (j + 1)
  else
    -- the empty comment `<!--->`
    (if inside h j 1 then (at_ h j 0).bind fun c => if c ≠ 0x2D then some false else
      (at_ h j 1).map (· = 0x3E) else some false).bind fun short =>
    if short then some (add32 j 2)
    else
      (commentEnd h fuel j).bind fun j =>
      if ¬ inside h j 2 then some h.length
      else (at_ h j 2).map fun c => add32 j (if c = 0x3E then 3 else 4)

/-- What `<!` begins at `i`: a comment, or something that ends with the next `>`. -/
def skipBang (fuel : Nat) (h : List UInt8) (i : Nat) : Option Nat :=
  (if inside h i 3 then (at_ h i 2).bind fun c => if c ≠ 0x2D then some false else
    (at_ h i 3).map (· = 0x2D) else some false).bind fun comment =>
  if comment then skipComment fuel h (add32 i 4) else some (skipTag h (i + 2))

/-! ## Raw text -/

/-- The name of an end tag at `i`, from its `k`-th byte on. -/
def nameAt (h : List UInt8) (i : Nat) : Nat → List UInt8 → Option Bool
  | _, [] => some true
  | k, n :: name =>
    (at_ h i (2 + k)).bind fun c => if lower c ≠ n then some false else nameAt h i (k + 1) name

/-- There is an end tag with this name at `i`. -/
def closeAt (h name : List UInt8) (i : Nat) : Option Bool :=
  (at_ h i 0).bind fun c₀ => if c₀ ≠ 0x3C then some false else
  (at_ h i 1).bind fun c₁ => if c₁ ≠ 0x2F then some false else
  (nameAt h i 0 name).bind fun same => if ¬ same then some false else
  (if inside h i (2 + name.length) then at_ h i (2 + name.length) else some 0x3E).map fun after =>
    isWs after || after = 0x3E || after = 0x2F

/-- `dom_find_close`. -/
def findClose (h name : List UInt8) : Nat → Nat → Option Nat
  | 0, _ => none
  | fuel + 1, i =>
    if add32 i (2 + name.length) ≤ h.length then
      (closeAt h name i).bind fun found =>
        if found then some i else findClose h name fuel (add32 i 1)
    else some h.length

/-- The loop that takes raw text as it is. -/
def rawText : List UInt8 → Doc → Doc
  | [], d => d
  | c :: text, d =>
    if d.truncated then d
    else if c = 0x0D ∧ text.head? = some 0x0A then rawText text d
    else rawText text (textByte (if c = 0x0D then 0x0A else c) d)

/-- The text of a raw element whose content begins at `i`, and its end tag: the position behind
it. -/
def rawElement (fuel : Nat) (h : List UInt8) (tag : Tag) (i : Nat) (d : Doc) : Option (Nat × Doc) :=
  (findClose h tag.name fuel i).map fun k =>
    let d := if tag = .textarea then { d with skip_lf := true } else d
    let d :=
      if k > i then
        let d := { d with skip_lf := tag = .textarea }
        if tag.rawness = .rcdata then addText true (slice h i k) d else rawText (slice h i k) d
      else d
    (skipTag h k, end_ tag { d with skip_lf := false, txt_node := 0 })

/-! ## Tags -/

/-- The end of the name of a tag that begins at `i`. -/
def nameEnd (h : List UInt8) (i : Nat) : Nat :=
  runTo (fun c => isWs c ∨ c = 0x2F ∨ c = 0x3E) h i

/-- The name of a tag that begins at `i`. -/
def nameOf (h : List UInt8) (i : Nat) : List UInt8 := lowerName (slice h i (nameEnd h i))

/-- An end tag whose name begins at `i`. -/
def endTag (h : List UInt8) (i : Nat) (d : Doc) : Nat × Doc :=
  (skipTag h (nameEnd h i), end_ (tagId (nameOf h i)) d)

/-- The tag of a start tag. `<image>` is `<img>`, if its first letter is small. -/
def startTagId (h : List UInt8) (i : Nat) : Tag :=
  if tagId (nameOf h i) = .unknown ∧ h[i]? = some 0x69 ∧ nameOf h i = bytes "image" then .img
  else tagId (nameOf h i)

/-- A start tag does what it says, with the attributes from `afirst` on. -/
def openTag (tag : Tag) (afirst pool_mark : Nat) (selfclose : Bool) (d : Doc) : Nat × Doc :=
  let d := if tag = .pre ∨ tag = .listing ∨ tag = .textarea then { d with skip_lf := false } else d
  let (el, d) := start tag afirst (d.attrs.length - afirst) pool_mark selfclose d
  (el, if tag = .pre ∨ tag = .listing then { d with skip_lf := true } else d)

/-- What belongs to the start tag of `el` behind it: all of the rest is text, or raw text up to the
end tag, or nothing. -/
def content (fuel : Nat) (h : List UInt8) (tag : Tag) (el i : Nat) (selfclose : Bool) (d : Doc) :
    Option (Nat × Doc) :=
  if tag = .plaintext ∧ el ≠ 0 then some (h.length, addText false (h.drop i) d)
  else if tag.rawness ≠ .normal ∧ el ≠ 0 ∧ ¬ (selfclose ∧ d.foreign ≠ 0) then
    rawElement fuel h tag i d
  else some (i, d)

/-- A start tag whose name begins at `i`. -/
def startTag (fuel : Nat) (h : List UInt8) (i : Nat) (d : Doc) : Option (Nat × Doc) :=
  let tag := startTagId h i
  let pool_mark := d.pool.length
  let afirst := d.attrs.length
  (parseAttrs fuel (h.drop (nameEnd h i)) false d).bind fun (rest, selfclose, d) =>
  let (el, d) := openTag tag afirst pool_mark selfclose d
  content fuel h tag el (h.length - rest.length) selfclose d

/-- One round of the loop of `dom_parse`: what begins at `i`. -/
def token (fuel : Nat) (h : List UInt8) (i : Nat) (d : Doc) : Option (Nat × Doc) :=
  match h.drop i with
  | [] => none
  | c :: rest =>
    if c ≠ 0x3C then
      let j := runTo (· = 0x3C) h i
      some (j, addText true (slice h i j) d)
    else
      match rest with
      | [] => some (i + 1, addText false [0x3C] d)
      | c₁ :: rest =>
        if c₁ = 0x21 then (skipBang fuel h i).map fun i => (i, d)
        else if c₁ = 0x3F then some (skipTag h (i + 2), d)
        else if c₁ = 0x2F then
          match rest with
          | [] => some (skipTag h (i + 2), d)
          | c₂ :: _ =>
            if isAlpha c₂ then some (endTag h (i + 2) d)
            else if c₂ = 0x3E then some (i + 3, d)
            else some (skipTag h (i + 2), d)
        else if ¬ isAlpha c₁ then some (i + 1, addText false [0x3C] d)
        else startTag fuel h (i + 1) d

/-- The loop of `dom_parse`, in so many rounds. Each loop inside a round gets as many. -/
def tokens (fuel : Nat) (h : List UInt8) : Nat → Nat → Doc → Option Doc
  | 0, _, _ => none
  | n + 1, i, d =>
    if i < h.length ∧ ¬ d.truncated then
      (token fuel h i d).bind fun (i, d) => tokens fuel h n i d
    else some { d with txt_node := 0 }

/-- `dom_parse`. -/
def parse (fuel : Nat) (arena : Nat → Node) (h : List UInt8) : Option Doc :=
  tokens fuel h fuel 0 (reset arena)

end Dom
