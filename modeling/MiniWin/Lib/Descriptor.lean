import Mathlib.Algebra.GroupWithZero.Nat
import Mathlib.Algebra.Group.Int.Defs
import Mathlib.Logic.Function.Basic
import Mathlib.Data.Int.Notation
import Mathlib.Data.List.Basic
import Mathlib.Tactic.Common

/-!
# Report descriptors

The descriptor of an input device is a row of items. Global items fill a table that stays, local
items name what is meant by the next main item, and every `Input` lays controls behind one another
in the report whose id is in the table. `Descriptor.controls` is what a descriptor says: each
control with its report, its place there, its usage and its range.

Several things make the meaning of an item depend on more than what is in front of it: a report
goes on where it was left, `Push` and `Pop` keep tables, a usage of four bytes has a page of its
own while any other has the page of the main item, usages and ranges of usages come in their order,
the last one is good for all the controls that are left, and of a set between delimiters only the
first usage counts.
-/

namespace Descriptor

local instance neZero_codes : NeZero 4 := ⟨by decide⟩

/-! ## Items -/

/-- The type of a short item. -/
inductive ItemType
  | main
  | global
  | «local»
  | reserved
  deriving DecidableEq

/-- The two bits of a type. -/
def ItemType.code : ItemType → Fin 4
  | .main => 0
  | .global => 1
  | .local => 2
  | .reserved => 3

/-- The two bits of a size. -/
def sizeCode : ℕ → Fin 4
  | 0 => 0
  | 1 => 1
  | 2 => 2
  | _ => 3

/-- The byte in front of a long item. -/
def longPrefix : UInt8 := 0xFE

/-- The first byte of a short item. -/
def shortPrefix (type size : Fin 4) (tag : Fin 16) : UInt8 :=
  UInt8.ofNat (tag * 16 + type * 4 + size)

/-- **A short item**: of no, one, two or four bytes, and none that begins as a long one. -/
structure Short where
  type : ItemType
  tag : Fin 16
  data : List UInt8
  sized : data.length ∈ [0, 1, 2, 4]
  not_long : shortPrefix type.code (sizeCode data.length) tag ≠ longPrefix

/-- **An item.** -/
inductive Item
  | short (s : Short)
  | long (tag : UInt8) (data : List UInt8) (fits : data.length < 256)

/-- The bytes of an item. -/
def Item.bytes : Item → List UInt8
  | .short s => shortPrefix s.type.code (sizeCode s.data.length) s.tag :: s.data
  | .long tag data _ => longPrefix :: UInt8.ofNat data.length :: tag :: data

/-- The bytes of a descriptor. -/
def encode (items : List Item) : List UInt8 := (items.map Item.bytes).flatten

/-- Bytes as a number, the low byte first. -/
def number (data : List UInt8) : ℕ := data.foldr (fun b v => b.toNat + 256 * v) 0

/-- Bytes as a number in two's complement. -/
def signed (data : List UInt8) : ℤ :=
  if 2 * number data < 256 ^ data.length then number data else number data - 256 ^ data.length

/-! ## What items say -/

/-- A usage with its page. -/
structure Usage where
  page : ℕ
  id : ℕ
  deriving DecidableEq

/-- What local items name: one usage or a range of them, with a page if the item has one. -/
inductive Entry
  | one (page : Option ℕ) (id : ℕ)
  | range (page : Option ℕ) (lo hi : ℕ)

namespace Entry

def page : Entry → Option ℕ
  | one page _ => page
  | range page _ _ => page

/-- The first usage. -/
def first : Entry → ℕ
  | one _ id => id
  | range _ lo _ => lo

/-- How many usages these are. -/
def size : Entry → ℕ
  | one _ _ => 1
  | range _ lo hi => hi - lo + 1

end Entry

/-- The usage of the control `k`: the entries in their order, and the last one again. -/
def nth : List Entry → ℕ → Option (Option ℕ × ℕ)
  | [], _ => none
  | [e], k => some (e.page, e.first + min k (e.size - 1))
  | e :: es, k => if k < e.size then some (e.page, e.first + k) else nth es (k - e.size)

/-- The table of the global items. -/
structure Global where
  page : ℕ := 0
  lmin : ℤ := 0
  lmax : ℤ := 0
  rsize : ℕ := 0
  rcount : ℕ := 0
  /-- Zero is no id. -/
  rid : ℕ := 0

/-- What local items have named. -/
structure Local where
  entries : List Entry := []
  /-- A minimum whose maximum is still to come. -/
  lo : Option (Option ℕ × ℕ) := none
  /-- A maximum whose minimum is still to come. -/
  hi : Option (Option ℕ × ℕ) := none
  /-- A set of usages is open, and whether it has its first. -/
  set : Option Bool := none

/-- **A control**: a field of a report. One that is constant, or that holds an index instead of a
value, has no usage of its own. -/
structure Control where
  rid : ℕ
  off : ℕ
  size : ℕ
  usage : Option Usage
  rel : Bool
  lmin : ℤ
  lmax : ℤ
  deriving DecidableEq

/-- What is known in the middle of a descriptor. -/
structure State where
  table : Global := {}
  stack : List Global := []
  names : Local := {}
  /-- The bits that each report has so far. -/
  used : ℕ → ℕ := fun _ => 0
  controls : List Control := []

/-- An entry is named. In a set the first one counts. -/
def Local.push (l : Local) (e : Entry) : Local :=
  match l.set with
  | none => { l with entries := l.entries ++ [e] }
  | some false => { l with entries := l.entries ++ [e], set := some true }
  | some true => l

/-- The page and the id of a usage: four bytes have both. -/
def usageOf (data : List UInt8) : Option ℕ × ℕ :=
  if data.length = 4 then (some (number data / 65536), number data % 65536)
  else (none, number data)

/-- The bits of an `Input`. -/
def isConstant (data : List UInt8) : Bool := (number data).testBit 0
def isVariable (data : List UInt8) : Bool := (number data).testBit 1
def isRelative (data : List UInt8) : Bool := (number data).testBit 2

/-- The usage of the control `k` of an `Input`. -/
def State.usage (t : State) (data : List UInt8) (k : ℕ) : Option Usage :=
  if isConstant data ∨ ¬ isVariable data then none
  else (nth t.names.entries k).map fun (page, id) => ⟨page.getD t.table.page, id⟩

/-- The controls of an `Input`, one behind the other. -/
def State.inputs (t : State) (data : List UInt8) : List Control :=
  (List.range t.table.rcount).map fun k =>
    { rid := t.table.rid, off := t.used t.table.rid + k * t.table.rsize, size := t.table.rsize
      usage := t.usage data k, rel := isRelative data
      lmin := t.table.lmin, lmax := t.table.lmax }

def State.main (t : State) (tag : ℕ) (data : List UInt8) : State :=
  match tag with
  | 8 =>
    { t with
      names := {}
      used := Function.update t.used t.table.rid
        (t.used t.table.rid + t.table.rcount * t.table.rsize)
      controls := t.controls ++ t.inputs data }
  | _ => { t with names := {} }

def State.global (t : State) (tag : ℕ) (data : List UInt8) : State :=
  match tag with
  | 0 => { t with table := { t.table with page := number data } }
  | 1 => { t with table := { t.table with lmin := signed data } }
  | 2 => { t with table := { t.table with lmax := signed data } }
  | 7 => { t with table := { t.table with rsize := number data } }
  | 8 => { t with table := { t.table with rid := number data } }
  | 9 => { t with table := { t.table with rcount := number data } }
  | 10 => { t with stack := t.table :: t.stack }
  | 11 =>
    match t.stack with
    | [] => t
    | table :: stack => { t with table := table, stack := stack }
  | _ => t

def Local.item (l : Local) (tag : ℕ) (data : List UInt8) : Local :=
  match tag with
  | 0 => l.push (.one (usageOf data).1 (usageOf data).2)
  | 1 =>
    match l.hi with
    | none => { l with lo := some (usageOf data) }
    | some hi => { l with hi := none }.push (.range (usageOf data).1 (usageOf data).2 hi.2)
  | 2 =>
    match l.lo with
    | none => { l with hi := some (usageOf data) }
    | some lo => { l with lo := none }.push (.range lo.1 lo.2 (usageOf data).2)
  | 10 => { l with set := if number data = 1 then some false else none }
  | _ => l

theorem Local.item_one (l : Local) (data : List UInt8) : l.item 1 data = match l.hi with
    | none => { l with lo := some (usageOf data) }
    | some hi => { l with hi := none }.push (.range (usageOf data).1 (usageOf data).2 hi.2) := rfl

theorem Local.item_two (l : Local) (data : List UInt8) : l.item 2 data = match l.lo with
    | none => { l with hi := some (usageOf data) }
    | some lo => { l with lo := none }.push (.range lo.1 lo.2 (usageOf data).2) := rfl

/-- What an item adds. -/
def State.step (t : State) : Item → State
  | .long _ _ _ => t
  | .short s =>
    match s.type with
    | .main => t.main s.tag s.data
    | .global => t.global s.tag s.data
    | .local => { t with names := t.names.item s.tag s.data }
    | .reserved => t

/-- **What a descriptor says.** -/
def controls (items : List Item) : List Control := (items.foldl State.step {}).controls

/-- Something holds of every item with what is known in front of it. -/
def Along (P : State → Item → Prop) : State → List Item → Prop
  | _, [] => True
  | t, i :: items => P t i ∧ Along P (t.step i) items

end Descriptor
