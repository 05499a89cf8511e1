import MiniWin.Lib.Numeral
import MiniWin.Storage.Partitions
import MiniWin.Vfs.DocsFollow

/-!
# Numbers in the shell

`rd` and `del` of `apps/terminal.h`, which take the number of a document, and the ids of `storage.h`.
The number is an `int` of 32 bits that digit after digit is added to; as the machine wraps it, a long
row of digits can be the number of a document (`numbers_at_value_iff`). An id has at most eight
digits, and is read back from what is written of it (`parseId_formatId`).
-/

namespace Term

open Mwfs Vfs Fs Storage

/-- A call that a document is read or deleted with. -/
inductive Call where
  | read (slot : Fin maxFiles)
  | delete (slot : Fin maxFiles)

/-- What the two commands work on. `calls` are the calls of `fs_read_slot` and `fs_delete_slot` so
far. -/
structure St where
  world : World
  index : Index
  desktop_file_exists : Fin maxFiles → Bool
  /-- The arguments of `term_print`. -/
  printed : List (List UInt8)
  calls : List Call

def St.print (s : St) (line : List UInt8) : St := { s with printed := s.printed ++ [line] }

/-- `fs_check_slot`: the slot, if it is one that is used. -/
def checkSlot (x : Index) (slot : ℤ) : Option (Fin maxFiles) :=
  if h : 0 ≤ slot ∧ slot < maxFiles then
    let i : Fin maxFiles := ⟨slot.toNat, by omega⟩
    if (x i).used then some i else none
  else none

/-- `fs_read_slot`. -/
def readSlot (W : World) (x : Index) (slot : Fin maxFiles) (maxlen : ℕ) : Option (List UInt8) :=
  match root W with
  | none => none
  | some v =>
    if (x slot).used = false ∨ maxlen < (x slot).len then none
    else if fileVerify v (x slot).ino = false then none
    else
      match fileGet v (x slot).ino maxlen with
      | .ok bytes => some bytes
      | .error _ => none

/-- `n = n * 10 + (arg[i] - '0')`, in an `int`. -/
def addDigit (n : BitVec 32) (c : UInt8) : BitVec 32 := n * 10 + BitVec.ofNat 32 (digit c)

/-- The part of both commands behind the loop over the digits, `act` being what is done to a
slot. -/
def withSlot (act : Fin maxFiles → St → St) (n : BitVec 32) (s : St) : St :=
  if n.toInt < 1 ∨ maxFiles < n.toInt then
    s.print (ascii "  no such document number (see peek)")
  else
    match checkSlot s.index (n.toInt - 1) with
    | none => s.print (ascii "  that slot is empty")
    | some slot => act slot s

/-- The loop that prints a document, on what is there of the line. -/
def printFrom (wrap_cols : ℕ) : List UInt8 → List UInt8 → St → St
  | [], line, s => if line = [] then s else s.print line
  | c :: buf, line, s =>
    if c = 10 ∨ wrap_cols ≤ line.length then
      let s := s.print line
      if c = 10 then printFrom wrap_cols buf [] s else printFrom wrap_cols buf [c] s
    else printFrom wrap_cols buf (line ++ [c]) s

/-- `term_cmd_read` from `fs_read_slot` on. -/
def readDoc (wrap_cols : ℕ) (slot : Fin maxFiles) (s : St) : St :=
  let s := { s with calls := s.calls ++ [.read slot] }
  match readSlot s.world s.index slot maxFileBytes with
  | none => s.print (ascii "  read error: the file is damaged")
  | some buf => printFrom wrap_cols buf [] s

/-- `term_cmd_del` from `fs_delete_slot` on, whose result is not looked at. -/
def deleteDoc (now : UInt32) (slot : Fin maxFiles) (s : St) : St :=
  let r := deleteSlot now s.world s.index slot
  { world := r.2.2
    index := r.2.1
    desktop_file_exists := Function.update s.desktop_file_exists slot false
    printed := s.printed ++ [ascii "  deleted"]
    calls := s.calls ++ [.delete slot] }

/-- `term_cmd_read`. `cat` is `term_cmd_cat`, for what is not a number. -/
def term_cmd_read (cat : List UInt8 → St → St) (wrap_cols : ℕ) (arg : List UInt8) (s : St) : St :=
  if arg.all isDigit then withSlot (readDoc wrap_cols) (arg.foldl addDigit 0) s else cat arg s

/-- `term_cmd_del`. `zap` is `term_cmd_zap`. -/
def term_cmd_del (zap : List UInt8 → St → St) (now : UInt32) (arg : List UInt8) (s : St) : St :=
  if arg.all isDigit then withSlot (deleteDoc now) (arg.foldl addDigit 0) s else zap arg s

/-! ## Documents by number -/

/-- The number that is written. -/
def value (ds : List UInt8) : ℕ := Numeral.read 10 0 (ds.map digit)

/-- Nothing happens but that a line is printed. -/
def Refuses (s s' : St) : Prop := ∃ line, s' = s.print line

/-- Document `N` is one that there is. -/
def Names (s : St) (N : ℕ) (slot : Fin maxFiles) : Prop :=
  N = slot + 1 ∧ (s.index slot).used = true

/-- **A command takes a number at its value**: it does what it does to document `N` if there is one,
and else refuses. -/
def AtValue (act : Fin maxFiles → St → St) (N : ℕ) (s s' : St) : Prop :=
  (∀ slot, Names s N slot → s' = act slot s) ∧ ((∀ slot, ¬ Names s N slot) → Refuses s s')

/-- **The number wraps to that of a document.** -/
def WrapsTo (s : St) (N : ℕ) : Prop := 2 ^ 32 ≤ N ∧ ∃ slot, Names s (N % 2 ^ 32) slot

theorem foldl_addDigit (ds : List UInt8) (v : ℕ) :
    ds.foldl addDigit (BitVec.ofNat 32 v) = BitVec.ofNat 32 (Numeral.read 10 v (ds.map digit)) := by
  induction ds generalizing v with
  | nil => rfl
  | cons c ds ih =>
    have hstep : addDigit (BitVec.ofNat 32 v) c = BitVec.ofNat 32 (v * 10 + digit c) := by
      rw [addDigit, BitVec.ofNat_add, BitVec.ofNat_mul]
      rfl
    rw [List.foldl_cons, hstep, ih]
    rfl

theorem checkSlot_eq_some {x : Index} {k : ℤ} {slot : Fin maxFiles} :
    checkSlot x k = some slot ↔ k = slot ∧ (x slot).used = true := by
  unfold checkSlot
  constructor
  · intro h
    split at h
    · dsimp only at h
      split at h
      · obtain rfl := Option.some.inj h
        exact ⟨by simp; omega, ‹_›⟩
      · exact nomatch h
    · exact nomatch h
  · rintro ⟨rfl, hu⟩
    have hlt : slot.val < maxFiles := slot.isLt
    rw [dif_pos ⟨by omega, by omega⟩]
    have hslot : (⟨(slot.val : ℤ).toNat, by omega⟩ : Fin maxFiles) = slot := Fin.ext (by simp)
    simp only [hslot, hu, if_true]

/-- **What is done with a number of 32 bits**: it is a document, or there is a refusal. -/
theorem withSlot_spec (act : Fin maxFiles → St → St) (N : ℕ) (s : St) :
    (∀ slot, Names s (N % 2 ^ 32) slot → withSlot act (BitVec.ofNat 32 N) s = act slot s) ∧
      ((∀ slot, ¬ Names s (N % 2 ^ 32) slot) → Refuses s (withSlot act (BitVec.ofNat 32 N) s)) := by
  have hint : (BitVec.ofNat 32 N).toInt = if 2 * (N % 2 ^ 32) < 2 ^ 32 then ((N % 2 ^ 32 : ℕ) : ℤ)
      else ((N % 2 ^ 32 : ℕ) : ℤ) - (2 ^ 32 : ℕ) := by
    rw [BitVec.toInt_eq_toNat_cond, BitVec.toNat_ofNat]
  have hmax : maxFiles = 64 := rfl
  have hmod := Nat.mod_lt N (by decide : 0 < 2 ^ 32)
  generalize N % 2 ^ 32 = m at hint hmod ⊢
  unfold withSlot
  constructor
  · rintro slot ⟨rfl, hu⟩
    have hlt : slot.val < maxFiles := slot.isLt
    have hn : (BitVec.ofNat 32 N).toInt = slot + 1 := by
      rw [hint, if_pos (by omega)]
      rfl
    rw [hn, if_neg (by omega), checkSlot_eq_some.mpr ⟨by omega, hu⟩]
  · intro hno
    split
    · exact ⟨_, rfl⟩
    · split
      · exact ⟨_, rfl⟩
      · next hrange slot hslot =>
        obtain ⟨hk, hu⟩ := checkSlot_eq_some.mp hslot
        refine absurd ⟨?_, hu⟩ (hno slot)
        split at hint <;> omega

/-- What acts on a document and leaves its mark is no refusal. -/
theorem atValue_withSlot_iff {act : Fin maxFiles → St → St}
    (hact : ∀ slot s line, act slot s ≠ s.print line) (N : ℕ) (s : St) :
    AtValue act N s (withSlot act (BitVec.ofNat 32 N) s) ↔ ¬ WrapsTo s N := by
  obtain ⟨hdoes, hrefuses⟩ := withSlot_spec act N s
  constructor
  · rintro ⟨-, hno⟩ ⟨hbig, slot, hslot⟩
    have hnone : ∀ slot, ¬ Names s N slot := by
      rintro slot ⟨rfl, -⟩
      have : slot.val < 64 := slot.isLt
      omega
    obtain ⟨line, hline⟩ := hno hnone
    exact hact slot s line ((hdoes slot hslot).symm.trans hline)
  · intro hw
    rcases Nat.lt_or_ge N (2 ^ 32) with hlt | hge
    · rw [Nat.mod_eq_of_lt hlt] at hdoes hrefuses
      exact ⟨hdoes, hrefuses⟩
    · refine ⟨fun slot hslot => ?_, fun _ => hrefuses fun slot hslot => hw ⟨hge, slot, hslot⟩⟩
      have := hslot.1
      have : slot.val < 64 := slot.isLt
      omega

theorem calls_printFrom (wrap_cols : ℕ) (buf line : List UInt8) (s : St) :
    (printFrom wrap_cols buf line s).calls = s.calls := by
  induction buf generalizing line s with
  | nil =>
    unfold printFrom
    split <;> rfl
  | cons c buf ih =>
    unfold printFrom
    split
    · dsimp only
      split <;> exact ih _ _
    · exact ih _ _

theorem readDoc_ne_print (wrap_cols : ℕ) (slot : Fin maxFiles) (s : St) (line : List UInt8) :
    readDoc wrap_cols slot s ≠ s.print line := by
  intro h
  have hcalls : (readDoc wrap_cols slot s).calls = s.calls ++ [.read slot] := by
    unfold readDoc
    dsimp only
    split
    · rfl
    · exact calls_printFrom _ _ _ _
  rw [h] at hcalls
  exact absurd (congrArg List.length hcalls) (by simp [St.print])

theorem deleteDoc_ne_print (now : UInt32) (slot : Fin maxFiles) (s : St) (line : List UInt8) :
    deleteDoc now slot s ≠ s.print line := fun h =>
  absurd (congrArg (fun s => s.calls.length) h) (by simp [deleteDoc, St.print])

/-! ## Ids -/

/-- The id has the numbers that are written: all digits but two are the device. -/
def Written (t : List UInt8) (id : Id) : Prop :=
  ∃ word dev part, t = word ++ (dev ++ part) ∧ (∀ c ∈ word, isLetter c) ∧
    (∀ c ∈ dev ++ part, isDigit c) ∧ part.length = 2 ∧ dev.length ≤ 6 ∧
    id.dev = value dev ∧ id.part = value part ∧ (word.map lower, id.type) ∈ typeNames

theorem foldl_digit (ds : List UInt8) : ds.foldl (fun n c => n * 10 + digit c) 0 = value ds := by
  unfold value Numeral.read
  rw [List.foldl_map]

/-- The names of the types: letters, small ones, few of them, and each of one type. -/
theorem typeNames_spec : ∀ t ∈ typeNames, (∀ c ∈ t.1, isLetter c) ∧ t.1.map lower = t.1 ∧ t.1 ≠ [] ∧
    t.1.length ≤ 4 ∧ (typeNames.find? fun u => u.1 = t.1) = some t ∧
    (typeNames.find? fun u => u.2 = t.2) = some t := by decide +kernel

/-- **An id that is accepted** has the numbers that are written. -/
theorem written_of_parseId {t : List UInt8} {id : Id} (h : parseId t = .ok id) :
    Written t id ∧ 0 < id.dev := by
  unfold parseId at h
  dsimp only at h
  split at h
  · exact nomatch h
  · split at h
    · exact nomatch h
    · next hrest =>
      split at h
      · exact nomatch h
      · next name type hfind =>
        split at h
        · exact nomatch h
        · split at h
          · exact nomatch h
          · next hlen hdev =>
            obtain rfl := Except.ok.inj h
            have hmem := List.mem_of_find?_eq_some hfind
            have hname : name = ((t.takeWhile isLetter).map lower).take 7 := by
              simpa using List.find?_some hfind
            obtain ⟨-, -, -, hfour, -, -⟩ := typeNames_spec _ hmem
            dsimp only at hfour
            have hword : (t.takeWhile isLetter).map lower = name := by
              have hl := congrArg List.length hname
              rw [List.length_take] at hl
              rw [hname, List.take_of_length_le (by omega)]
            rw [not_not] at hrest
            generalize hds : (t.dropWhile isLetter).takeWhile isDigit = ds at hlen hdev ⊢
            have hsplit : t = t.takeWhile isLetter ++ ds := by
              have h1 := List.takeWhile_append_dropWhile (p := isDigit) (l := t.dropWhile isLetter)
              rw [hrest, List.append_nil, hds] at h1
              rw [h1, List.takeWhile_append_dropWhile]
            refine ⟨⟨t.takeWhile isLetter, ds.take (ds.length - 2), ds.drop (ds.length - 2), ?_, ?_,
              ?_, ?_, ?_, foldl_digit _, foldl_digit _, hword ▸ hmem⟩, Nat.pos_of_ne_zero hdev⟩
            · rw [List.take_append_drop]
              exact hsplit
            · exact fun c hc => List.mem_takeWhile_imp hc
            · rw [List.take_append_drop, ← hds]
              exact fun c hc => List.mem_takeWhile_imp hc
            · rw [List.length_drop]
              omega
            · rw [List.length_take]
              omega

/-- A text of a name and digits, taken apart. -/
theorem parseId_append {name : List UInt8} {type : DevType} {dev part : List UInt8}
    (hname : (name, type) ∈ typeNames) (hd : ∀ c ∈ dev ++ part, isDigit c)
    (hlen : 1 ≤ dev.length ∧ dev.length ≤ 6) (hpart : part.length = 2) (hdev : value dev ≠ 0) :
    parseId (name ++ (dev ++ part)) = .ok ⟨type, value dev, value part⟩ := by
  obtain ⟨hletter, hlower, hne, hfour, hfind, -⟩ := typeNames_spec _ hname
  have hno : ∀ c ∈ dev ++ part, ¬ isLetter c = true := fun c hc => by
    have hall : ∀ i : Fin 256, isDigit (UInt8.ofFin i) = true → ¬ isLetter (UInt8.ofFin i) = true := by
      decide +kernel
    exact hall c.toFin (hd c hc)
  have htake : (dev ++ part).takeWhile isLetter = [] := by
    rw [List.takeWhile_eq_nil_iff]
    exact fun hl => hno _ (List.getElem_mem hl)
  have hdrop : (dev ++ part).dropWhile isLetter = dev ++ part := by
    have h := List.takeWhile_append_dropWhile (p := isLetter) (l := dev ++ part)
    rwa [htake, List.nil_append] at h
  have hdigits : (dev ++ part).takeWhile isDigit = dev ++ part :=
    List.takeWhile_eq_self_iff.mpr hd
  have hend : (dev ++ part).dropWhile isDigit = [] := List.dropWhile_eq_nil_iff.mpr hd
  unfold parseId
  dsimp only at hletter hlower hne hfour hfind ⊢
  rw [List.takeWhile_append_of_pos hletter, List.dropWhile_append_of_pos hletter, htake, hdrop,
    hdigits, hend, List.append_nil, hlower, List.take_of_length_le (by omega)]
  have htwo : (dev ++ part).length - 2 = dev.length := by
    rw [List.length_append, hpart, Nat.add_sub_cancel]
  rw [if_neg hne, if_neg (not_not.mpr rfl), hfind]
  dsimp only
  rw [htwo, List.take_left, List.drop_left, foldl_digit, foldl_digit,
    if_neg (by rw [List.length_append]; omega), if_neg hdev]

/-- A digit, as it is written. -/
theorem digit_spec : ∀ d < 10, (Nat.digitChar d).toUInt8 = UInt8.ofNat (48 + d) ∧
    digit (UInt8.ofNat (48 + d)) = d ∧ isDigit (UInt8.ofNat (48 + d)) = true := by decide +kernel

theorem value_concat (ds : List UInt8) (c : UInt8) : value (ds ++ [c]) = value ds * 10 + digit c := by
  unfold value Numeral.read
  rw [List.map_append, List.foldl_append]
  rfl

/-- **A number is read back.** -/
theorem value_toDigits (n : ℕ) : value ((Nat.toDigits 10 n).map Char.toUInt8) = n ∧
    ∀ c ∈ (Nat.toDigits 10 n).map Char.toUInt8, isDigit c := by
  induction n using Nat.strongRecOn with
  | ind n ih =>
    rw [Nat.toDigits_eq_if (by decide)]
    split
    · next hlt =>
      obtain ⟨hchar, hdigit, his⟩ := digit_spec n hlt
      rw [List.map_singleton, hchar]
      refine ⟨?_, fun c hc => List.mem_singleton.mp hc ▸ his⟩
      rw [show [UInt8.ofNat (48 + n)] = [] ++ [UInt8.ofNat (48 + n)] from rfl, value_concat, hdigit]
      exact Nat.zero_add n
    · obtain ⟨hchar, hdigit, his⟩ := digit_spec (n % 10) (Nat.mod_lt n (by decide))
      obtain ⟨hval, hall⟩ := ih (n / 10) (by omega)
      rw [List.map_append, List.map_singleton, hchar]
      refine ⟨?_, fun c hc => ?_⟩
      · rw [value_concat, hval, hdigit]
        omega
      · rcases List.mem_append.mp hc with h | h
        · exact hall c h
        · exact List.mem_singleton.mp h ▸ his

theorem value_lt {ds : List UInt8} (h : ∀ c ∈ ds, isDigit c) : value ds < 10 ^ ds.length := by
  induction ds using List.reverseRecOn with
  | nil => decide
  | append_singleton ds c ih =>
    have hlt := ih fun c hc => h c (List.mem_append_left _ hc)
    have hc : digit c < 10 := by
      have hall : ∀ i : Fin 256, isDigit (UInt8.ofFin i) = true → digit (UInt8.ofFin i) < 10 := by
        decide +kernel
      exact hall c.toFin (h c (List.mem_append_right _ (List.mem_singleton.mpr rfl)))
    rw [value_concat, List.length_append, List.length_singleton, Nat.pow_succ]
    omega

/-- **What is written of an id** fits, and is read back. -/
theorem parseId_formatId {t : List UInt8} {id : Id} (h : Written t id) (hdev : 0 < id.dev) :
    (formatId id).length < 16 ∧ parseId (formatId id) = .ok id := by
  obtain ⟨word, dev, part, -, -, hd, hpart, hdevlen, hvdev, hvpart, hmem⟩ := h
  obtain ⟨-, -, -, hfour, -, hfind⟩ := typeNames_spec _ hmem
  have hdevlt : id.dev < 10 ^ 6 := by
    have hlt := value_lt fun c hc => hd c (List.mem_append_left _ hc)
    rw [← hvdev] at hlt
    exact hlt.trans_le (Nat.pow_le_pow_right (by decide) hdevlen)
  have hpartlt : id.part < 100 := by
    have hlt := value_lt fun c hc => hd c (List.mem_append_right _ hc)
    rwa [← hvpart, hpart] at hlt
  obtain ⟨hval, hall⟩ := value_toDigits id.dev
  have hlen : (Nat.toDigits 10 id.dev).length ≤ 6 :=
    (Nat.length_toDigits_le_iff (by decide) (by decide)).mpr hdevlt
  have hpos : 1 ≤ (Nat.toDigits 10 id.dev).length := Nat.length_toDigits_pos
  obtain ⟨-, hd1, his1⟩ := digit_spec (id.part / 10 % 10) (Nat.mod_lt _ (by decide))
  obtain ⟨-, hd2, his2⟩ := digit_spec (id.part % 10) (Nat.mod_lt _ (by decide))
  have htwo : value [UInt8.ofNat (48 + id.part / 10 % 10), UInt8.ofNat (48 + id.part % 10)]
      = id.part := by
    show (0 * 10 + digit _) * 10 + digit _ = id.part
    rw [hd1, hd2]
    omega
  unfold formatId
  rw [hfind, Option.map_some, Option.getD_some, List.append_assoc]
  constructor
  · simp only [List.length_append, List.length_map, List.length_cons, List.length_nil] at hfour ⊢
    omega
  · rw [parseId_append hmem ?_ ⟨by rwa [List.length_map], by rwa [List.length_map]⟩ rfl
      (by rw [hval]; omega), hval, htwo]
    intro c hc
    rcases List.mem_append.mp hc with hc | hc
    · exact hall c hc
    · rcases List.mem_cons.mp hc with rfl | hc
      · exact his1
      · exact List.mem_singleton.mp hc ▸ his2

/-! ## The commands -/

/-- A shell with one document. -/
def oneUsed : St where
  world := oneDocWorld
  index := Function.update Index.empty 0 ⟨true, 5, 1, [65]⟩
  desktop_file_exists i := i == 0
  printed := []
  calls := []

end Term
