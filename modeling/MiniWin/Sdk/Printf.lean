import MiniWin.Lib.Block
import MiniWin.Lib.Casts
import MiniWin.Lib.Numeral

/-!
# Text formatting

`mw_vsnprintf` and `mw_atoi` of `sdk/include/mw_libc.h`. A format is read byte by byte, and what
comes out goes through one cursor, which runs on behind the buffer. An `int` that overflows wraps.
-/

namespace Sdk

open Narrow Numeral

/-! ## The source -/

/-- An argument: an `int` or `u32`, or a text up to its NUL, which may be missing. -/
inductive Arg
  | word (w : UInt32)
  | text (s : Option (List UInt8))

/-- The cursor and the buffer. -/
structure Out where
  n : UInt32
  buf : Block

/-- `MW_PUT`. -/
def Out.put (cap : UInt32) (o : Out) (ch : UInt8) : Out where
  n := o.n + 1
  buf := if o.n + 1 < cap then Function.update o.buf o.n.toNat ch else o.buf

/-- `MW_PUT`, one after the other. -/
def Out.puts (cap : UInt32) (o : Out) (cs : List UInt8) : Out := cs.foldl (put cap) o

/-- `do { tmp[tl++] = digit(u % b); u /= b; } while (u)`. -/
def tmpDigits {b : ℕ} (hb : 1 < b) (digit : ℕ → UInt8) (u : ℕ) : List UInt8 :=
  digit (u % b) :: if _h : u / b = 0 then [] else tmpDigits hb digit (u / b)
termination_by u
decreasing_by
  refine Nat.div_lt_self (Nat.pos_of_ne_zero fun h0 => _h ?_) hb
  rw [h0, Nat.zero_div]

/-- `'0' + d`. -/
def decDigit (d : ℕ) : UInt8 := UInt8.ofNat (48 + d)

/-- `d < 10 ? '0' + d : (c == 'x' ? 'a' : 'A') + d - 10`. -/
def hexDigit (upper : Bool) (d : ℕ) : UInt8 :=
  UInt8.ofNat (if d < 10 then 48 + d else (if upper then 65 else 97) + d - 10)

/-- `mw_isdigit`. -/
def mwIsdigit (c : UInt8) : Bool := 48 ≤ c && c ≤ 57

/-- The loop over the flags. -/
def flagsOf : List UInt8 → Bool → Bool → Bool × Bool × List UInt8
  | [], left, zero => (left, zero, [])
  | c :: fmt, left, zero =>
    if c = 45 then flagsOf fmt true zero
    else if c = 48 then flagsOf fmt left true
    else (left, zero, c :: fmt)

/-- The loop over the width. -/
def widthOf : List UInt8 → ℤ → ℤ × List UInt8
  | [], width => (width, [])
  | c :: fmt, width =>
    if mwIsdigit c then widthOf fmt (wrap 0x80000000 (width * 10 + (c.toNat - 48)))
    else (width, c :: fmt)

/-- What is behind a percent sign, up to the letter. -/
structure Directive where
  left : Bool
  zero : Bool
  width : ℤ
  rest : List UInt8

def directive (fmt : List UInt8) : Directive :=
  let (left, zero, fmt) := flagsOf fmt false false
  let (width, fmt) := widthOf fmt 0
  ⟨left, zero, width, fmt⟩

theorem one_lt_sixteen : 1 < 16 := by decide

/-- What a letter makes of an argument: `s`, `tmp` and `neg`. -/
def converted (c : UInt8) : Arg → Option (Option (List UInt8) × List UInt8 × Bool)
  | .word w =>
    if c = 100 ∨ c = 105 then
      let neg : Bool := w.toNat ≥ 2 ^ 31
      some (none, tmpDigits (by decide : 1 < 10) decDigit (if neg then 0 - w else w).toNat, neg)
    else if c = 117 then some (none, tmpDigits (by decide : 1 < 10) decDigit w.toNat, false)
    else if c = 120 ∨ c = 88 then
      some (none, tmpDigits one_lt_sixteen (hexDigit (c = 88)) w.toNat, false)
    else if c = 99 then some (none, [UInt8.ofNat w.toNat], false)
    else none
  | .text s =>
    if c = 115 then some (some (s.getD [40, 110, 117, 108, 108, 41]), [], false) else none

/-- `s ? mw_strlen(s) : tl + neg`. -/
def fieldLen (s : Option (List UInt8)) (tmp : List UInt8) (neg : Bool) : ℤ :=
  match s with
  | some s => wrap 0x80000000 s.length
  | none => tmp.length + if neg then 1 else 0

/-- `s`, or `tmp` from behind. -/
def fieldBody (s : Option (List UInt8)) (tmp : List UInt8) : List UInt8 :=
  match s with
  | some s => s
  | none => tmp.reverse

/-- The text of a field, with its padding. -/
def Out.field (cap : UInt32) (o : Out) (d : Directive) (s : Option (List UInt8))
    (tmp : List UInt8) (neg : Bool) : Out :=
  let len := fieldLen s tmp neg
  let pad := (if d.width > len then d.width - len else 0).toNat
  let o := if ¬ d.left ∧ ¬ (d.zero ∧ ¬ s.isSome) then o.puts cap (List.replicate pad 32) else o
  let o := if ¬ s.isSome ∧ neg then o.put cap 45 else o
  let o := if ¬ d.left ∧ d.zero ∧ ¬ s.isSome then o.puts cap (List.replicate pad 48) else o
  let o := o.puts cap (fieldBody s tmp)
  if d.left then o.puts cap (List.replicate pad 32) else o

/-- The letters that take an argument. -/
def TakesArg (c : UInt8) : Prop := c ∈ [100, 105, 117, 120, 88, 99, 115]

instance (c : UInt8) : Decidable (TakesArg c) := inferInstanceAs (Decidable (_ ∈ _))

theorem flagsOf_length (fmt : List UInt8) (left zero : Bool) :
    (flagsOf fmt left zero).2.2.length ≤ fmt.length := by
  fun_induction flagsOf fmt left zero with
  | case1 => exact le_rfl
  | case2 left zero fmt ih => exact ih.trans (Nat.le_succ _)
  | case3 left zero fmt h ih => exact ih.trans (Nat.le_succ _)
  | case4 => exact le_rfl

theorem widthOf_length (fmt : List UInt8) (width : ℤ) :
    (widthOf fmt width).2.length ≤ fmt.length := by
  fun_induction widthOf fmt width with
  | case1 => exact le_rfl
  | case2 width c fmt h ih => exact ih.trans (Nat.le_succ _)
  | case3 => exact le_rfl

theorem directive_length (fmt : List UInt8) : (directive fmt).rest.length ≤ fmt.length :=
  (widthOf_length _ 0).trans (flagsOf_length fmt false false)

/-- The loop over the format; there is no result where an argument does not match. -/
def formatFrom (cap : UInt32) (fmt : List UInt8) (args : List Arg) (o : Out) : Option Out :=
  match fmt with
  | [] => some o
  | b :: fmt =>
    if b ≠ 37 then formatFrom cap fmt args (o.put cap b)
    else
      match _h : (directive fmt).rest with
      | [] => some o
      | c :: more =>
        if TakesArg c then
          match args with
          | [] => none
          | a :: args =>
            match converted c a with
            | none => none
            | some (s, tmp, neg) =>
              formatFrom cap more args (o.field cap (directive fmt) s tmp neg)
        else if c = 37 then formatFrom cap more args (o.put cap 37)
        else formatFrom cap more args ((o.put cap 37).put cap c)
termination_by fmt.length
decreasing_by
  · exact Nat.lt_succ_self _
  all_goals
    have hlen := directive_length fmt
    rw [_h, List.length_cons] at hlen
    rw [List.length_cons]
    omega

/-- **`mw_vsnprintf`**: the buffer behind it, and what it returns. -/
def mwVsnprintf (buf : Block) (cap : UInt32) (fmt : List UInt8) (args : List Arg) :
    Option (Block × ℤ) :=
  (formatFrom cap fmt args ⟨0, buf⟩).map fun o =>
    (if cap ≠ 0 then Function.update o.buf (if o.n < cap then o.n else cap - 1).toNat 0 else o.buf,
      wrap 0x80000000 o.n.toNat)

/-- `mw_isspace`. -/
def mwIsspace (c : UInt8) : Bool := c = 32 || c = 9 || c = 10 || c = 13

/-- The loop over the digits of `mw_atoi`. -/
def atoiDigits : List UInt8 → ℤ → ℤ
  | [], v => v
  | c :: s, v =>
    if mwIsdigit c then atoiDigits s (wrap 0x80000000 (v * 10 + (c.toNat - 48))) else v

/-- **`mw_atoi`.** -/
def mwAtoi (s : List UInt8) : ℤ :=
  match s.dropWhile mwIsspace with
  | [] => 0
  | c :: s =>
    if c = 45 then wrap 0x80000000 (-atoiDigits s 0)
    else if c = 43 then atoiDigits s 0
    else atoiDigits (c :: s) 0

/-! ## What a format means -/

/-- What a field is made of. -/
inductive Value
  | dec (i : Bool) (w : UInt32)
  | udec (w : UInt32)
  | hex (upper : Bool) (w : UInt32)
  | chr (w : UInt32)
  | str (s : Option (List UInt8)) (h : ∀ t ∈ s, 0 ∉ t)

def Value.letter : Value → UInt8
  | dec i _ => if i then 105 else 100
  | udec _ => 117
  | hex upper _ => if upper then 88 else 120
  | chr _ => 99
  | str _ _ => 115

def Value.arg : Value → Arg
  | dec _ w => .word w
  | udec w => .word w
  | hex _ w => .word w
  | chr w => .word w
  | str s _ => .text s

/-- The number that an `int` is. -/
def int (w : UInt32) : ℤ := if w.toNat < 2 ^ 31 then w.toNat else w.toNat - 2 ^ 32

/-- A number in a base. -/
def numeral (b : ℕ) (digit : ℕ → UInt8) (n : ℕ) : List UInt8 := (low b n).reverse.map digit

def Value.sign : Value → List UInt8
  | dec _ w => if int w < 0 then [45] else []
  | _ => []

/-- A value behind its sign. -/
def Value.body : Value → List UInt8
  | dec _ w => numeral 10 decDigit (int w).natAbs
  | udec w => numeral 10 decDigit w.toNat
  | hex upper w => numeral 16 (hexDigit upper) w.toNat
  | chr w => [UInt8.ofNat w.toNat]
  | str s _ => s.getD [40, 110, 117, 108, 108, 41]

def Value.isStr : Value → Bool
  | str _ _ => true
  | _ => false

/-- A part of a format, with its argument. Each flag is a minus sign or a zero; a width of 0 is not
there. -/
inductive Piece
  | char (b : UInt8) (h : b ≠ 0 ∧ b ≠ 37)
  | percent
  | unknown (c : UInt8) (h : c ≠ 0 ∧ ¬ TakesArg c ∧ c ≠ 37 ∧ c ≠ 45 ∧ mwIsdigit c = false)
  | field (flags : List Bool) (width : ℕ) (h : width < 2 ^ 31) (v : Value)

/-- A part of a format as it is written. -/
def Piece.format : Piece → List UInt8
  | char b _ => [b]
  | percent => [37, 37]
  | unknown c _ => [37, c]
  | field flags width _ v =>
    37 :: (flags.map (fun minus => if minus then 45 else 48) ++
      ((if width = 0 then [] else numeral 10 decDigit width) ++ [v.letter]))

def Piece.args : Piece → List Arg
  | field _ _ _ v => [v.arg]
  | _ => []

/-- What a part expands to. The zero flag has no meaning for texts; C99 leaves open what it has for
characters, which are padded like numbers. -/
def Piece.text : Piece → List UInt8
  | char b _ => [b]
  | percent => [37]
  | unknown c _ => [37, c]
  | field flags width _ v =>
    let fill := width - (v.sign ++ v.body).length
    if true ∈ flags then v.sign ++ v.body ++ List.replicate fill 32
    else if false ∈ flags ∧ ¬ v.isStr then v.sign ++ List.replicate fill 48 ++ v.body
    else List.replicate fill 32 ++ v.sign ++ v.body

/-- **The contract**: nothing is written from `cap` on, the length of the whole text is returned,
and what fits of it in front of a NUL is in the buffer. -/
def Conforms (ps : List Piece) (buf : Block) (cap : UInt32) : Prop :=
  let s := ps.flatMap Piece.text
  ∃ buf' : Block, mwVsnprintf buf cap (ps.flatMap Piece.format) (ps.flatMap Piece.args) =
      some (buf', (s.length : ℤ)) ∧
    (∀ i, cap.toNat ≤ i → buf' i = buf i) ∧
    (0 < cap.toNat → (∀ i, i < min s.length (cap.toNat - 1) → some (buf' i) = s[i]?) ∧
      buf' (min s.length (cap.toNat - 1)) = 0)

end Sdk
