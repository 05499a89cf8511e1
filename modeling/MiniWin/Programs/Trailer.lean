import MiniWin.Lib.Block
import Mathlib.Algebra.BigOperators.Group.List.Basic
import Mathlib.Data.List.TakeWhile

/-!
# The trailer of a program

`mwp_trailer_parse` of `kernel/mwp_trailer.h`, and `pack` of `tools/mwp_pack.py` with `scale`, which
makes the two icons of a picture. The reader accepts nothing outside of the file, and reads back
what the writer has written; but the writer takes any program for a packed one that has the four
letters in the right place.
-/

namespace Mwp

/-! ## The reader -/

/-- `mwp_trailer_t`. -/
structure Trailer where
  payload_len : ℕ
  icon16_off : ℕ
  icon32_off : ℕ
  title_off : ℕ
  min_abi : ℕ
  flags : ℕ
deriving DecidableEq

/-- The bytes of a file from some offset on. -/
def view (img : List UInt8) (o : ℕ) : Block := fun i => img.getD (o + i) 0

/-- `while (k < end && img[k]) k++`. -/
def titleEnd (img : List UInt8) (stop k : ℕ) : ℕ :=
  if k < stop ∧ img.getD k 0 ≠ 0 then titleEnd img stop (k + 1) else k
termination_by stop - k
decreasing_by omega

/-- **`mwp_trailer_parse`.** -/
def mwpTrailerParse (img : List UInt8) : Option Trailer :=
  let len := img.length
  if len < 33 then none
  else
    let t := view img (len - 32)
    if t 0 ≠ 0x4D ∨ t 1 ≠ 0x57 ∨ t 2 ≠ 0x50 ∨ t 3 ≠ 0x58 then none
    else
      let ver := t.le16 4
      let flags := t.le16 6
      let payload := t.le32 8
      let i16 := t.le32 12
      let i32 := t.le32 16
      let tit := t.le32 20
      let abi := t.le32 24
      let stop := len - 32
      if ver ≠ 1 ∨ flags &&& 0xFFFFFFF8 ≠ 0 ∨ payload = 0 ∨ payload > stop then none
      else if flags.testBit 0 ∧ (i16 < payload ∨ i16 > stop ∨ stop - i16 < 1024) then none
      else if flags.testBit 1 ∧ (i32 < payload ∨ i32 > stop ∨ stop - i32 < 4096) then none
      else if flags.testBit 2 ∧ (tit < payload ∨ tit ≥ stop ∨ titleEnd img stop tit ≥ stop) then
        none
      else
        some {
          payload_len := payload
          icon16_off := if flags.testBit 0 then i16 else 0
          icon32_off := if flags.testBit 1 then i32 else 0
          title_off := if flags.testBit 2 then tit else 0
          min_abi := abi
          flags := flags }

/-! ## The writer -/

/-- A pixel: red, green, blue, alpha. -/
abbrev Pixel := UInt8 × UInt8 × UInt8 × UInt8

/-- What `read_png` gives. -/
structure Png where
  w : ℕ
  h : ℕ
  px : List Pixel
  w_pos : 0 < w
  h_pos : 0 < h
  full : px.length = w * h

/-- The pixels of a box. -/
def Png.box (p : Png) (y0 y1 x0 x1 : ℕ) : List Pixel :=
  (List.range' y0 (y1 - y0)).flatMap fun yy =>
    (List.range' x0 (x1 - x0)).map fun xx => p.px.getD (yy * p.w + xx) (0, 0, 0, 0)

/-- The mean of some pixels, weighted by alpha. -/
def mean (ps : List Pixel) : List UInt8 :=
  let sa := (ps.map fun (_, _, _, a) => a.toNat).sum
  let sr := (ps.map fun (r, _, _, a) => r.toNat * a.toNat).sum
  let sg := (ps.map fun (_, g, _, a) => g.toNat * a.toNat).sum
  let sb := (ps.map fun (_, _, b, a) => b.toNat * a.toNat).sum
  if sa ≠ 0 then
    [UInt8.ofNat (sr / sa), UInt8.ofNat (sg / sa), UInt8.ofNat (sb / sa),
      UInt8.ofNat (sa / ps.length)]
  else [0, 0, 0, 0]

/-- **`scale`**: `n` by `n` pixels. -/
def scale (p : Png) (n : ℕ) : List UInt8 :=
  (List.range n).flatMap fun y =>
    let y0 := y * p.h / n
    let y1 := max (y * p.h / n + 1) ((y + 1) * p.h / n)
    (List.range n).flatMap fun x =>
      let x0 := x * p.w / n
      let x1 := max (x * p.w / n + 1) ((x + 1) * p.w / n)
      mean (p.box y0 y1 x0 x1)

/-- `title.encode("utf-8")`. -/
def utf8 (title : List Char) : List UInt8 := title.flatMap String.utf8EncodeChar

def magic : List UInt8 := [0x4D, 0x57, 0x50, 0x58]

/-- `data[-32:-28] == b"MWPX"`. -/
def LooksPacked (data : List UInt8) : Prop :=
  32 ≤ data.length ∧ (data.drop (data.length - 32)).take 4 = magic

instance (data : List UInt8) : Decidable (LooksPacked data) := inferInstanceAs (Decidable (_ ∧ _))

/-- `struct.unpack("<I", data[-24:-20])[0]`. -/
def payloadWord (data : List UInt8) : ℕ := (view data (data.length - 32)).le32 8

/-- The program proper. -/
def proper (data : List UInt8) : List UInt8 :=
  if LooksPacked data then data.take (payloadWord data) else data

/-- What is in front of the trailer, and what is in it. -/
structure Layout where
  body : List UInt8
  i16 : ℕ
  i32 : ℕ
  tit : ℕ
  flags : ℕ

/-- The body with the title. -/
def addTitle (data : List UInt8) (title : List Char) : Layout :=
  if title ≠ [] then ⟨data ++ ((utf8 title).take 23 ++ [0]), 0, 0, data.length, 4⟩
  else ⟨data, 0, 0, 0, 0⟩

/-- `while len(body) % 4: body += b"\0"`. -/
def pad (body : List UInt8) : List UInt8 :=
  body ++ List.replicate ((4 - body.length % 4) % 4) 0

/-- The body with the icons. -/
def addIcons (l : Layout) : Option Png → Layout
  | none => l
  | some p =>
    let body := pad l.body
    { body := body ++ scale p 16 ++ scale p 32
      i16 := body.length
      i32 := (body ++ scale p 16).length
      tit := l.tit
      flags := l.flags ||| 3 }

def layout (data : List UInt8) (icon : Option Png) (title : List Char) : Layout :=
  addIcons (addTitle data title) icon

def packH (v : ℕ) : List UInt8 := [Block.byteOf v 0, Block.byteOf v 1]

def packI (v : ℕ) : List UInt8 :=
  [Block.byteOf v 0, Block.byteOf v 1, Block.byteOf v 2, Block.byteOf v 3]

/-- The 32 bytes of the trailer. -/
def trailer (l : Layout) (payload abi : ℕ) : List UInt8 :=
  magic ++ packH 1 ++ packH l.flags ++ packI payload ++ packI l.i16 ++ packI l.i32 ++ packI l.tit ++
    packI abi ++ packI 0

/-- **`pack`**; `struct.pack` refuses what does not fit. -/
def pack (data : List UInt8) (icon : Option Png) (title : List Char) (abi : ℤ) :
    Option (List UInt8) :=
  let data := proper data
  let payload := data.length
  let l := layout data icon title
  if l.flags = 0 ∧ abi ≤ 1 then some data
  else if 0 ≤ abi ∧ abi < 2 ^ 32 ∧ payload < 2 ^ 32 ∧ l.i16 < 2 ^ 32 ∧ l.i32 < 2 ^ 32 ∧
      l.tit < 2 ^ 32 then
    some (l.body ++ trailer l payload abi.toNat)
  else none

/-! ## What is meant -/

/-- The text at an offset, up to its NUL. -/
def textAt (img : List UInt8) (o : ℕ) : List UInt8 := (img.drop o).takeWhile (· ≠ 0)

/-- **Everything is inside**: there is a payload, and both icons and the title with its NUL lie
between it and the trailer. -/
structure Inside (img : List UInt8) (t : Trailer) : Prop where
  payload : 0 < t.payload_len ∧ t.payload_len + 32 ≤ img.length
  icon16 : t.flags.testBit 0 → t.payload_len ≤ t.icon16_off ∧ t.icon16_off + 1024 + 32 ≤ img.length
  icon32 : t.flags.testBit 1 → t.payload_len ≤ t.icon32_off ∧ t.icon32_off + 4096 + 32 ≤ img.length
  title : t.flags.testBit 2 → t.payload_len ≤ t.title_off ∧
    t.title_off + (textAt img t.title_off).length + 1 + 32 ≤ img.length

/-- **The round trip** of a program and what is said of it. -/
structure RoundTrip (data : List UInt8) (icon : Option Png) (title : List Char) (abi : ℤ)
    (out : List UInt8) : Prop where
  parse : ∃ t, mwpTrailerParse out = some t ∧ t.payload_len = data.length ∧ t.min_abi = abi ∧
    out.take t.payload_len = data ∧
    t.flags = (if title ≠ [] then 4 else 0) + (if icon.isSome then 3 else 0) ∧
    (title ≠ [] → textAt out t.title_off = (utf8 title).take 23) ∧
    ∀ p, icon = some p → (out.drop t.icon16_off).take 1024 = scale p 16 ∧
      (out.drop t.icon32_off).take 4096 = scale p 32
  again : pack out icon title abi = some out

end Mwp
