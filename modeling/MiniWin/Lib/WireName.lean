import MiniWin.Lib.Block

/-!
# Names with pointers

A name in a message is a sequence of labels, each with its length in front, and a zero at the end.
Instead of the rest of a name there may be a pointer to a place further in front, where the rest
is. What a name is and what it takes up are relations; a program that reads names is compared with
them.
-/

namespace WireName

/-- Where a pointer at `p` leads. -/
def target (data : Block) (p : Nat) : Nat := (data p).toNat % 64 * 256 + (data (p + 1)).toNat

/-- **The name at `p`** of a message of `len` bytes: its labels, with `k` pointers on the way. -/
inductive NameAt (data : Block) (len : Nat) : Nat → Nat → List (List UInt8) → Prop where
  | root {p : Nat} (hp : p < len) (hb : data p = 0) : NameAt data len 0 p []
  | label {k p : Nat} {ls : List (List UInt8)} (hb : data p ≠ 0) (hlabel : (data p).toNat < 64)
      (hfit : p + 1 + (data p).toNat ≤ len)
      (h : NameAt data len k (p + 1 + (data p).toNat) ls) :
    NameAt data len k p (data.slice (p + 1) (data p).toNat :: ls)
  | pointer {k p : Nat} {ls : List (List UInt8)} (hp : p + 1 < len) (hb : 192 ≤ (data p).toNat)
      (hback : target data p < p) (h : NameAt data len k (target data p) ls) :
    NameAt data len (k + 1) p ls

/-- **The name at `p` ends in front of `e`.** A label takes up what its length says, whatever its
two top bits are. -/
inductive Extent (data : Block) (len : Nat) : Nat → Nat → Prop where
  | root {p : Nat} (hp : p < len) (hb : data p = 0) : Extent data len p (p + 1)
  | pointer {p : Nat} (hp : p + 2 ≤ len) (hb : 192 ≤ (data p).toNat) : Extent data len p (p + 2)
  | label {p e : Nat} (hp : p < len) (hb : data p ≠ 0) (hlabel : (data p).toNat < 192)
      (h : Extent data len (p + 1 + (data p).toNat) e) : Extent data len p e

variable {data : Block} {len k p e : Nat}

theorem Extent.bounds (h : Extent data len p e) : p < e ∧ e ≤ len := by
  induction h with
  | root hp => omega
  | pointer hp => omega
  | label _ _ _ _ ih => omega

/-- The labels with dots between them. -/
def dotted (dot : UInt8) (ls : List (List UInt8)) : List UInt8 := [dot].intercalate ls

theorem dotted_cons (dot : UInt8) (l : List UInt8) (ls : List (List UInt8)) :
    dotted dot (l :: ls) = l ++ ls.flatMap (dot :: ·) := by
  induction ls generalizing l with
  | nil => simp [dotted]
  | cons l' ls ih =>
    rw [List.flatMap_cons, List.cons_append, ← ih l']
    simp [dotted, List.intercalate_cons_cons]

/-! ## Writing a name -/

/-- A name without pointers, as it stands in a message. -/
def wire (ls : List (List UInt8)) : List UInt8 :=
  ls.flatMap (fun l => UInt8.ofNat l.length :: l) ++ [0]

/-- The labels have a length that a name can have. -/
def Short (ls : List (List UInt8)) : Prop := ∀ l ∈ ls, 1 ≤ l.length ∧ l.length < 64

theorem wire_cons (l : List UInt8) (ls : List (List UInt8)) :
    wire (l :: ls) = UInt8.ofNat l.length :: l ++ wire ls := by
  unfold wire
  rw [List.flatMap_cons, List.append_assoc]

/-- **A name that is written is the name that is read**, and ends where its bytes do. -/
theorem nameAt_wire {ls : List (List UInt8)} (hls : Short ls)
    (hwire : data.slice p (wire ls).length = wire ls) (hlen : p + (wire ls).length ≤ len) :
    NameAt data len 0 p ls ∧ Extent data len p (p + (wire ls).length) := by
  induction ls generalizing p with
  | nil =>
    have hb : data p = 0 := (List.cons.inj hwire).1
    have hp : p < len := hlen
    exact ⟨.root hp hb, .root hp hb⟩
  | cons l ls ih =>
    obtain ⟨hpos, hshort⟩ := hls l List.mem_cons_self
    rw [wire_cons, List.cons_append, ← List.singleton_append] at hwire
    obtain ⟨hfirst, hwire⟩ := data.slice_append_inj hwire
    obtain ⟨hl, hwire⟩ := data.slice_append_inj hwire
    have hbyte : (data p).toNat = l.length := by
      have hp : data p = UInt8.ofNat l.length := (List.cons.inj hfirst).1
      rw [hp]
      exact Nat.mod_eq_of_lt (by omega)
    have hne : data p ≠ 0 := by
      intro hz
      rw [hz] at hbyte
      exact absurd hbyte.symm (Nat.ne_of_gt hpos)
    have hlabel : l = data.slice (p + 1) (data p).toNat := by
      rw [hbyte]
      exact hl.symm
    have hsplit : p + (wire (l :: ls)).length = p + 1 + (data p).toNat + (wire ls).length := by
      rw [wire_cons, hbyte]
      simp only [List.cons_append, List.length_cons, List.length_append]
      omega
    rw [hsplit] at hlen ⊢
    obtain ⟨hname, hextent⟩ := ih (fun l' hl' => hls l' (List.mem_cons_of_mem _ hl'))
      (p := p + 1 + (data p).toNat) (by rw [hbyte]; exact hwire) hlen
    refine ⟨?_, .label (by omega) hne (by omega) hextent⟩
    rw [hlabel]
    exact .label hne (by omega) (by omega) hname

end WireName
