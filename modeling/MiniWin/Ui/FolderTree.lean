import MiniWin.Lib.Outline
import Mathlib.Data.List.DropRight

/-!
# The folder tree of MiniFiles

`fx_expand`, `fx_collapse`, `fx_tree_walk` and `fx_refresh_all` of `kernel/apps/minifiles.h`. The
table is an outline (`Tree.outline`), and what a row stands for is the directory its name was listed
from (`Listed`).
-/

namespace MiniFiles

abbrev Text := List UInt8

def slash : UInt8 := 0x2F

/-- An entry of a directory. -/
structure Entry where
  dir : Bool
  name : Text
  short : name.length ≤ 31

/-- What `vfs_stat` finds at a path, and what `vfs_ls_each` lists of it. -/
structure Found where
  dir : Bool
  entries : List Entry

/-- What `vfs_stat` and `vfs_ls_each` say for each path. -/
abbrev Disk := Text → Option Found

/-- `fx_node_t` -/
structure Node where
  name : Text := []
  parent : ℤ := 0
  depth : ℕ := 0
  expanded : Bool := false
  has_kids : Bool := false
  mount : Bool := false

/-- `fx_tree`, its first `fx_tree_n` nodes, with `fx_tree_sel`. -/
structure Tree where
  rows : List Node
  sel : ℕ

def treeMax : ℕ := 128

/-! ## Names -/

/-- `fx_up` -/
def upper (c : UInt8) : UInt8 := if 0x61 ≤ c ∧ c ≤ 0x7A then c - 32 else c

/-- `fx_namecmp` -/
def nameCmp : Text → Text → ℤ
  | [], [] => 0
  | a :: _, [] => (upper a).toNat
  | [], b :: _ => -((upper b).toNat : ℤ)
  | a :: as, b :: bs =>
    if upper a = upper b then nameCmp as bs else (upper a).toNat - (upper b).toNat

/-- `kstrcpy` with room for `FX_NAME` bytes. -/
def copyName (s : Text) : Text := s.take 31

/-- `fx_kids_cb` over a directory: the first 48 sub-folders. -/
def kids (f : Found) : List Text :=
  ((f.entries.filter (·.dir)).take 48).map fun e => copyName e.name

/-- A round of the insertion sort. -/
def insertName (l : List Text) (tmp : Text) : List Text :=
  l.rdropWhile (fun a => 0 < nameCmp a tmp) ++ tmp :: l.rtakeWhile fun a => 0 < nameCmp a tmp

/-- The insertion sort of `fx_expand`. -/
def sortNames (l : List Text) : List Text := l.foldl insertName []

/-- `fx_has_subdir` -/
def hasSubdir (D : Disk) (path : Text) : Bool :=
  match D path with
  | some f => f.dir && f.entries.any (·.dir)
  | none => false

/-! ## The table -/

namespace Tree

def n (t : Tree) : ℕ := t.rows.length

def node (t : Tree) (j : ℕ) : Node := t.rows.getD j {}

/-- The chain of `fx_node_path`, from the row up. -/
def chain (t : Tree) : ℕ → ℤ → List ℕ
  | 0, _ => []
  | f + 1, i => if i > 0 then i.toNat :: t.chain f (t.node i.toNat).parent else []

/-- `fx_node_path` -/
def nodePath (t : Tree) (i : ℤ) : Text :=
  match t.chain 20 i with
  | [] => [slash]
  | chain => (chain.reverse.flatMap fun j => slash :: (t.node j).name).take 95

/-- `fx_tree_reset` -/
def reset (D : Disk) : Tree where
  rows := [{ parent := -1, has_kids := hasSubdir D [slash] }]
  sel := 0

/-- Row `i` opened, with new rows behind it: what `fx_expand` does to the table. -/
def insertRows (t : Tree) (i : ℕ) (new : List Node) : Tree where
  rows := (t.rows.take (i + 1)).modify i (fun nd => { nd with expanded := true }) ++ new ++
    (t.rows.drop (i + 1)).map fun nd =>
      if nd.parent > (i : ℤ) then { nd with parent := nd.parent + new.length } else nd
  sel := if t.sel > i then t.sel + new.length else t.sel

/-- `fx_expand` -/
def expand (D : Disk) (t : Tree) (i : ℤ) : Tree :=
  if i < 0 ∨ i ≥ t.n ∨ (t.node i.toNat).expanded = true ∨ (t.node i.toNat).has_kids = false then t
  else
    let path := t.nodePath i
    match D path with
    | none => t
    | some dir =>
      let names := sortNames (kids dir)
      let cnt := min names.length (treeMax - t.n)
      if cnt = 0 then t
      else
        let new := (names.take cnt).map fun name : Text =>
          { name := copyName name, parent := i, depth := ((t.node i.toNat).depth + 1) % 256,
            mount := path == [slash, 0x6D, 0x6E, 0x74] : Node }
        -- `fx_has_subdir` needs the nodes in place: `fx_node_path` walks parents
        let t' := t.insertRows i.toNat new
        t.insertRows i.toNat (new.mapIdx fun k nd =>
          { nd with has_kids := hasSubdir D (t'.nodePath (i + 1 + k)) })

/-- Row `i` closed, without the `k` rows behind it: what `fx_collapse` does to the table. -/
def removeRows (t : Tree) (i k : ℕ) : Tree where
  rows := (t.rows.take (i + 1)).modify i (fun nd => { nd with expanded := false }) ++
    (t.rows.drop (i + 1 + k)).map fun nd =>
      if nd.parent > (i : ℤ) + k then { nd with parent := nd.parent - k } else nd
  sel := if t.sel > i + k then t.sel - k else if t.sel > i then i else t.sel

/-- `fx_collapse` -/
def collapse (t : Tree) (i : ℤ) : Tree :=
  if i < 0 ∨ i ≥ t.n ∨ (t.node i.toNat).expanded = false then t
  else
    t.removeRows i.toNat ((t.rows.drop (i.toNat + 1)).findIdx fun nd =>
      ¬ nd.depth > (t.node i.toNat).depth)

/-- `fx_find_child` -/
def findChild (t : Tree) (parent : ℕ) (name : Text) : Option ℕ :=
  (((t.rows.drop (parent + 1)).takeWhile fun nd => nd.depth > (t.node parent).depth).findIdx?
    fun nd => nd.parent = (parent : ℤ) ∧ nameCmp nd.name name = 0).map (· + (parent + 1))

end Tree

/-! ## Walks -/

/-- A call of `fx_expand`: what it found, and which row it was to open. -/
structure Expansion where
  disk : Disk
  tree : Tree
  row : ℤ

/-- The disk, the tree, and the calls of `fx_expand` so far. -/
structure Session where
  disk : Disk
  tree : Tree
  opened : List Expansion

theorem token_pos {p q : Text} {c : UInt8} (h : p.dropWhile (· = slash) = c :: q) :
    0 < (((c :: q).takeWhile (· ≠ slash)).take 31).length := by
  have hc := List.head?_dropWhile_not (· = slash) p
  rw [h] at hc
  rw [List.takeWhile_cons_of_pos (by simpa using hc)]
  exact Nat.succ_pos _

/-- The tokens that `fx_tree_walk` takes from a path: at most 31 bytes each. -/
def tokens (p : Text) : List Text :=
  match _h : p.dropWhile (· = slash) with
  | [] => []
  | c :: q =>
    let l := ((c :: q).takeWhile (· ≠ slash)).take 31
    l :: tokens ((c :: q).drop l.length)
termination_by p.length
decreasing_by
  have hle := List.length_dropWhile_le (· = slash) p
  rw [_h] at hle
  have hpos := token_pos _h
  have hc : 0 < (c :: q).length := Nat.succ_pos _
  rw [List.length_drop]
  omega

namespace Session

def start (D : Disk) : Session := ⟨D, .reset D, []⟩

def expand (s : Session) (i : ℤ) : Session where
  disk := s.disk
  tree := s.tree.expand s.disk i
  opened := s.opened ++ [⟨s.disk, s.tree, i⟩]

def collapse (s : Session) (i : ℤ) : Session := { s with tree := s.tree.collapse i }

def select (s : Session) (i : ℕ) : Session := { s with tree := { s.tree with sel := i } }

/-- The loop of `fx_tree_walk`. -/
def walkFrom (open_last : Bool) : List Text → ℕ → Session → Session × ℕ
  | [], cur, s => (s, cur)
  | tok :: toks, cur, s =>
    let s := if (s.tree.findChild cur tok).isSome then s else s.expand cur
    match s.tree.findChild cur tok with
    | none => (s, cur)
    | some c => walkFrom open_last toks c (if toks ≠ [] ∨ open_last then s.expand c else s)

/-- `fx_tree_walk` -/
def treeWalk (s : Session) (path : Text) (open_last : Bool) : Session × ℕ :=
  match tokens path with
  | [] => (if open_last then s.expand 0 else s, 0)
  | toks => walkFrom open_last toks 0 (s.expand 0)

/-- What `fx_refresh_all` remembers: the paths of the first 24 open folders. -/
def saved (t : Tree) : List Text :=
  (((List.range t.n).filter fun i => (t.node i).expanded).take 24).map fun i => t.nodePath i

/-- `fx_refresh_all`, with what is on the disk by then, and `fx_cwd`. -/
def refreshAll (s : Session) (D : Disk) (cwd : Text) : Session :=
  let t := (saved s.tree).foldl (fun t path => (treeWalk t path true).1) ⟨D, .reset D, s.opened⟩
  let here := match D cwd with
    | some f => if f.dir then cwd else [slash]
    | none => [slash]
  let w := t.treeWalk here false
  w.1.select w.2

end Session

/-- What is done with the tree. -/
inductive Call
  | expand (i : ℤ)
  | collapse (i : ℤ)
  | walk (path : Text) (open_last : Bool)
  /-- `fx_goto`: a walk that selects. -/
  | goTo (path : Text)
  | refreshAll (D : Disk) (cwd : Text)

def Session.step (s : Session) : Call → Session
  | .expand i => s.expand i
  | .collapse i => s.collapse i
  | .walk path open_last => (s.treeWalk path open_last).1
  | .goTo path => let w := s.treeWalk path false; w.1.select w.2
  | .refreshAll D cwd => s.refreshAll D cwd

/-- A run, from `fx_tree_reset` on. -/
def run (D : Disk) (l : List Call) : Session := l.foldl Session.step (.start D)

/-! ## What the tree is to show -/

/-- The names of the sub-folders. -/
def Found.subs (f : Found) : List Text := (f.entries.filter (·.dir)).map (·.name)

/-- The canonical path of a directory, from the names on the way to it. -/
def pathText : List Text → Text
  | [] => [slash]
  | ns => ns.flatMap (slash :: ·)

def Tree.outline (t : Tree) : Outline where
  n := t.n
  parent j := (t.node j).parent.toNat
  depth j := (t.node j).depth

/-- **The directory that a row was listed from**, as the names on the way to it. -/
inductive Listed (D : Disk) (t : Tree) : ℕ → List Text → Prop
  | root : Listed D t 0 []
  | sub {j : ℕ} {ns : List Text} {f : Found} (h0 : 0 < j) (hj : j < t.n)
      (hp : Listed D t (t.node j).parent.toNat ns) (hf : D (pathText ns) = some f)
      (hmem : (t.node j).name ∈ f.subs) : Listed D t j (ns ++ [(t.node j).name])

/-- An open row has its sub-folders below it, and a closed one has nothing. -/
def Shows (D : Disk) (t : Tree) (i : ℕ) (ns : List Text) : Prop :=
  if (t.node i).expanded then ∃ f, D (pathText ns) = some f ∧
    ((t.outline.children i).map fun j => (t.node j).name).Perm f.subs
  else t.outline.children i = []

/-- **The folder tree is a faithful preorder.** -/
structure Faithful (D : Disk) (t : Tree) : Prop where
  n_pos : 1 ≤ t.n
  n_le : t.n ≤ treeMax
  sel_lt : t.sel < t.n
  parent : ∀ j, 0 < j → j < t.n → 0 ≤ (t.node j).parent ∧ (t.node j).parent < j ∧
    (t.node j).depth = (t.node (t.node j).parent.toNat).depth + 1
  block : ∀ i < t.n, ∃ k, i + k < t.n ∧ ∀ j, t.outline.Below i j ↔ i < j ∧ j ≤ i + k
  shown : ∀ i < t.n, ∃ ns, Listed D t i ns ∧ t.nodePath i = pathText ns ∧ Shows D t i ns

/-- A call of `fx_expand` finds what it can show: as long as there is any room it is room for all
sub-folders, they are 48 at most, at level 20 at most, and their paths are texts for the VFS. -/
def Expansion.Whole (x : Expansion) : Prop :=
  0 ≤ x.row → x.row < x.tree.n → (x.tree.node x.row.toNat).expanded = false →
    (x.tree.node x.row.toNat).has_kids = true → x.tree.n < treeMax →
    ∀ ns f, Listed x.disk x.tree x.row.toNat ns → x.disk (pathText ns) = some f → f.subs ≠ [] →
      ns.length < 20 ∧ f.subs.length ≤ 48 ∧ x.tree.n + f.subs.length ≤ treeMax ∧
      ∀ name ∈ f.subs, (pathText (ns ++ [name])).length < 96

/-! ## The names of the sub-folders -/

theorem perm_insertName (l : List Text) (tmp : Text) : (insertName l tmp).Perm (tmp :: l) := by
  unfold insertName
  refine List.perm_middle.trans ?_
  rw [List.rdropWhile_append_rtakeWhile]

theorem perm_sortNames (l : List Text) : (sortNames l).Perm l := by
  have key (acc : List Text) : (l.foldl insertName acc).Perm (acc ++ l) := by
    induction l generalizing acc with
    | nil => rw [List.foldl_nil, List.append_nil]
    | cons a l ih =>
      refine (ih _).trans (((perm_insertName acc a).append_right l).trans ?_)
      exact List.perm_middle.symm
  exact key []

theorem kids_eq {f : Found} (h : f.subs.length ≤ 48) : kids f = f.subs := by
  rw [Found.subs, List.length_map] at h
  rw [kids, List.take_of_length_le h, Found.subs]
  exact List.map_congr_left fun e _ => List.take_of_length_le e.short

/-! ## Paths -/

variable {D : Disk} {t s b : Tree} {i j c : ℕ} {ns : List Text}

theorem Listed.chain_eq (hn : ∀ j, 0 < j → j < t.n → 0 ≤ (t.node j).parent) (h : Listed D t j ns)
    {f : ℕ} (hf : ns.length ≤ f) :
    (t.chain f j).reverse.map (fun j => (t.node j).name) = ns := by
  induction h generalizing f with
  | root => cases f <;> rfl
  | @sub j ns _ h0 hj _ _ _ ih =>
    rw [List.length_append, List.length_singleton] at hf
    obtain ⟨f, rfl⟩ := Nat.exists_eq_add_of_le' (Nat.le_of_add_left_le hf)
    have hcast := Int.toNat_of_nonneg (hn j h0 hj)
    have := ih (Nat.le_of_succ_le_succ hf)
    rw [hcast] at this
    rw [Tree.chain, if_pos (Int.natCast_pos.mpr h0), Int.toNat_natCast, List.reverse_cons,
      List.map_append, this]
    rfl

/-- **A path that fits is complete.** -/
theorem Listed.nodePath_eq (hn : ∀ j, 0 < j → j < t.n → 0 ≤ (t.node j).parent)
    (h : Listed D t j ns) (hlen : ns.length ≤ 20) (hfit : (pathText ns).length < 96) :
    t.nodePath j = pathText ns := by
  have hchain := h.chain_eq hn hlen
  unfold Tree.nodePath
  cases hc : t.chain 20 j with
  | nil =>
    rw [hc] at hchain
    rw [← hchain]
    rfl
  | cons k l =>
    rw [hc] at hchain
    have hne : ns ≠ [] := fun h0 => by
      rw [h0] at hchain
      simp at hchain
    have htext : pathText ns = ((k :: l).reverse).flatMap fun j => slash :: (t.node j).name := by
      rw [← hchain] at hne ⊢
      rw [pathText, List.flatMap_map]
      exact hne
    rw [htext] at hfit
    dsimp only
    rw [htext, List.take_of_length_le (Nat.le_of_lt_succ hfit)]

/-! ## Rows in between -/

/-- One table is the other one with `c` rows behind row `i`. -/
structure Same (s b : Tree) (i c : ℕ) : Prop extends Outline.Embeds s.outline b.outline i c where
  name_eq : ∀ j < s.n, (b.node (Outline.shift i c j)).name = (s.node j).name

namespace Same

open Outline

variable (e : Same s b i c)
include e

/-- A row stands for the same directory as before. -/
theorem listed (h : Listed D s j ns) : Listed D b (shift i c j) ns := by
  induction h with
  | root =>
    rw [shift_of_le (Nat.zero_le i)]
    exact .root
  | @sub j ns f h0 hj hp hf hmem ih =>
    have hparent : (b.node (shift i c j)).parent.toNat = shift i c (s.node j).parent.toNat :=
      e.parent_eq j h0 hj
    rw [← e.name_eq j hj] at hmem ⊢
    exact .sub (shift_pos.mpr h0) (e.shift_lt.mpr hj) (by rwa [hparent]) hf hmem

theorem listed_back (hb : b.outline.Laws) (h : Listed D b (shift i c j) ns) (hj : j < s.n) :
    Listed D s j ns := by
  generalize hm : shift i c j = m at h
  induction h generalizing j with
  | root =>
    obtain rfl : j = 0 := shift_injective (hm.trans (shift_of_le (Nat.zero_le i)).symm)
    exact .root
  | @sub m ns f h0 hm' hp hf hmem ih =>
    subst hm
    have hj0 := shift_pos.mp h0
    have hparent : (b.node (shift i c j)).parent.toNat = shift i c (s.node j).parent.toNat :=
      e.parent_eq j hj0 hj
    have hlt := hb.parent_lt _ h0 hm'
    rw [e.parent_eq j hj0 hj] at hlt
    rw [e.name_eq j hj] at hmem ⊢
    exact .sub hj0 hj (ih ((shift_lt_shift.mp hlt).trans hj) hparent.symm) hf hmem

/-- A row other than row `i` shows the same as before. -/
theorem shows (hnew : ∀ m, i < m → m ≤ i + c → i ≤ b.outline.parent m ∧ b.outline.parent m ≤ i + c)
    (hji : j ≠ i) (hexp : (b.node (shift i c j)).expanded = (s.node j).expanded) :
    Shows D b (shift i c j) ns ↔ Shows D s j ns := by
  have hnames : ((s.outline.children j).map (shift i c)).map (fun j => (b.node j).name) =
      (s.outline.children j).map fun j => (s.node j).name := by
    rw [List.map_map]
    exact List.map_congr_left fun k hk => e.name_eq k (mem_children.mp hk).2.1
  unfold Shows
  rw [hexp, e.children_shift hnew hji, hnames, List.map_eq_nil_iff]

end Same

/-- What every call keeps. -/
structure Kept (D : Disk) (t : Tree) : Prop where
  laws : t.outline.Laws
  parent_nonneg : ∀ j, 0 < j → j < t.n → 0 ≤ (t.node j).parent
  n_le : t.n ≤ treeMax
  sel_lt : t.sel < t.n
  shown : ∀ i < t.n, ∃ ns, Listed D t i ns ∧ ns.length ≤ 20 ∧ (pathText ns).length < 96 ∧
    Shows D t i ns

theorem Kept.faithful (h : Kept D t) : Faithful D t where
  n_pos := h.laws.pos
  n_le := h.n_le
  sel_lt := h.sel_lt
  parent j h0 hj := by
    have hnonneg := h.parent_nonneg j h0 hj
    have hlt : (t.node j).parent.toNat < j := h.laws.parent_lt j h0 hj
    exact ⟨hnonneg, by omega, h.laws.depth_eq j h0 hj⟩
  block i hi := h.laws.block hi
  shown i hi := by
    obtain ⟨ns, hlisted, hlen, hfit, hshows⟩ := h.shown i hi
    exact ⟨ns, hlisted, hlisted.nodePath_eq h.parent_nonneg hlen hfit, hshows⟩

/-! ## `fx_tree_reset` -/

theorem kept_reset (D : Disk) : Kept D (.reset D) where
  laws :=
    { pos := Nat.one_pos
      root := rfl
      parent_lt := fun j h0 hj => absurd h0 (Nat.not_lt_of_le (Nat.le_of_lt_succ hj))
      depth_eq := fun j h0 hj => absurd h0 (Nat.not_lt_of_le (Nat.le_of_lt_succ hj))
      nested := fun j k h0 hj => absurd h0 (Nat.not_lt_of_le (Nat.le_of_lt_succ hj)) }
  parent_nonneg j h0 hj := absurd h0 (Nat.not_lt_of_le (Nat.le_of_lt_succ hj))
  n_le := (by decide : 1 ≤ 128)
  sel_lt := Nat.one_pos
  shown i hi := by
    obtain rfl : i = 0 := Nat.lt_one_iff.mp hi
    exact ⟨[], .root, Nat.zero_le _, (by decide : 1 < 96), rfl⟩

/-! ## The rows of the table -/

theorem Tree.getElem?_rows (h : j < t.n) : t.rows[j]? = some (t.node j) := by
  rw [Tree.node, List.getD_eq_getElem?_getD, List.getElem?_eq_getElem h]
  rfl

/-- The rows as far as row `i`, with a change of row `i`. -/
theorem Tree.length_front (g : Node → Node) (hi : i < t.n) :
    ((t.rows.take (i + 1)).modify i g).length = i + 1 := by
  rw [List.length_modify, List.length_take]
  exact Nat.min_eq_left hi

theorem Tree.getElem?_front (g : Node → Node) (hi : i < t.n) (hji : j ≤ i) :
    ((t.rows.take (i + 1)).modify i g)[j]? = some (if j = i then g (t.node j) else t.node j) := by
  rw [List.getElem?_modify, List.getElem?_take_of_lt (Nat.lt_succ_of_le hji),
    Tree.getElem?_rows (hji.trans_lt hi)]
  by_cases h : j = i
  · rw [Option.map_eq_map, Option.map_some, if_pos h.symm, if_pos h]
  · rw [Option.map_eq_map, Option.map_some, if_neg (Ne.symm h), if_neg h]

/-! ## `fx_expand` -/

section Insert

open Outline

variable {new : List Node}

theorem Tree.n_insertRows (hi : i < t.n) : (t.insertRows i new).n = t.n + new.length := by
  have hle : i + 1 ≤ t.rows.length := hi
  rw [Tree.n, Tree.insertRows, List.length_append, List.length_append, Tree.length_front _ hi,
    List.length_map, List.length_drop, Tree.n]
  omega

theorem Tree.node_insertRows (hi : i < t.n) (hj : j < t.n) :
    (t.insertRows i new).node (shift i new.length j) =
      if j ≤ i then (if j = i then { t.node j with expanded := true } else t.node j)
      else if (t.node j).parent > (i : ℤ) then
        { t.node j with parent := (t.node j).parent + new.length }
      else t.node j := by
  have hfront := Tree.length_front (fun nd => { nd with expanded := true }) hi
  rw [Tree.node, Tree.insertRows, List.getD_eq_getElem?_getD]
  rcases Nat.lt_or_ge i j with hij | hji
  · rw [shift_of_lt hij, if_neg (Nat.not_le_of_lt hij), List.append_assoc,
      List.getElem?_append_right (by omega), List.getElem?_append_right (by omega),
      List.getElem?_map, List.getElem?_drop, hfront, show i + 1 + (j + new.length - (i + 1) - new.length) = j by omega,
      Tree.getElem?_rows hj]
    rfl
  · rw [shift_of_le hji, if_pos hji, List.append_assoc, List.getElem?_append_left (by omega),
      Tree.getElem?_front _ hi hji]
    rfl

theorem Tree.node_insertRows_new (hi : i < t.n) {k : ℕ} (hk : k < new.length) :
    (t.insertRows i new).node (i + 1 + k) = new.getD k {} := by
  have hfront := Tree.length_front (fun nd => { nd with expanded := true }) hi
  rw [Tree.node, Tree.insertRows, List.getD_eq_getElem?_getD, List.append_assoc,
    List.getElem?_append_right (by omega), List.getElem?_append_left (by omega), hfront,
    Nat.add_sub_cancel_left, List.getD_eq_getElem?_getD]

theorem Tree.names_new (hi : i < t.n) :
    (List.range new.length).map ((fun j => ((t.insertRows i new).node j).name) ∘ (i + 1 + ·)) =
      new.map (·.name) := by
  refine List.ext_getElem (by rw [List.length_map, List.length_range, List.length_map]) ?_
  intro k hk hk'
  rw [List.length_map] at hk'
  rw [List.getElem_map, List.getElem_range, List.getElem_map, Function.comp_apply,
    Tree.node_insertRows_new hi hk', List.getD_eq_getElem?_getD, List.getElem?_eq_getElem hk']
  rfl

/-- What `fx_expand` puts below row `i`. -/
structure Fresh (t : Tree) (i : ℕ) (nd : Node) : Prop where
  parent : nd.parent = i
  depth : nd.depth = (t.node i).depth + 1
  closed : nd.expanded = false

theorem Tree.fresh_new (hi : i < t.n) (hnew : ∀ nd ∈ new, Fresh t i nd) {m : ℕ} (him : i < m)
    (hmi : m ≤ i + new.length) : Fresh t i ((t.insertRows i new).node m) := by
  have hk : m - (i + 1) < new.length := by omega
  rw [show m = i + 1 + (m - (i + 1)) by omega, Tree.node_insertRows_new hi hk,
    List.getD_eq_getElem?_getD, List.getElem?_eq_getElem hk]
  exact hnew _ (List.getElem_mem hk)

theorem Kept.same_insertRows (h : Kept D t) (hi : i < t.n) :
    Same t (t.insertRows i new) i new.length where
  row := hi
  n_eq := Tree.n_insertRows hi
  depth_eq j hj := by
    change ((t.insertRows i new).node _).depth = (t.node j).depth
    rw [Tree.node_insertRows hi hj]
    split <;> split <;> rfl
  parent_eq j h0 hj := by
    have hlt : (t.node j).parent.toNat < j := h.laws.parent_lt j h0 hj
    have hnonneg := h.parent_nonneg j h0 hj
    change ((t.insertRows i new).node _).parent.toNat = shift i _ (t.node j).parent.toNat
    rw [Tree.node_insertRows hi hj]
    rcases Nat.lt_or_ge i j with hij | hji
    · rw [if_neg (Nat.not_le_of_lt hij)]
      by_cases hp : (t.node j).parent > (i : ℤ)
      · rw [if_pos hp, shift_of_lt (by omega)]
        dsimp only
        omega
      · rw [if_neg hp, shift_of_le (by omega)]
    · rw [if_pos hji, shift_of_le (by omega)]
      split <;> rfl
  name_eq j hj := by
    rw [Tree.node_insertRows hi hj]
    split <;> split <;> rfl

/-- **What `fx_expand` does to the table** keeps it. -/
theorem Kept.insertRows (h : Kept D t) (hi : i < t.n) (hclosed : (t.node i).expanded = false)
    (hnew : ∀ nd ∈ new, Fresh t i nd) (hroom : t.n + new.length ≤ treeMax) {f : Found}
    (hlisted : Listed D t i ns) (hf : D (pathText ns) = some f)
    (hnames : (new.map (·.name)).Perm f.subs) (hlevel : ns.length < 20)
    (hshort : (pathText ns).length < 96)
    (hfit : ∀ name ∈ f.subs, (pathText (ns ++ [name])).length < 96) :
    Kept D (t.insertRows i new) := by
  have e : Same t (t.insertRows i new) i new.length := h.same_insertRows hi
  have hempty : t.outline.children i = [] := by
    obtain ⟨_, -, -, -, hshows⟩ := h.shown i hi
    rwa [Shows, hclosed] at hshows
  have hparent (m : ℕ) (him : i < m) (hmi : m ≤ i + new.length) :
      ((t.insertRows i new).outline.parent m) = i := by
    change ((t.insertRows i new).node m).parent.toNat = i
    rw [(Tree.fresh_new hi hnew him hmi).parent, Int.toNat_natCast]
  have hlaws := e.laws_big h.laws hempty hparent fun m him hmi =>
    (Tree.fresh_new hi hnew him hmi).depth
  have hpath : Listed D (t.insertRows i new) i ns := by
    have := e.listed hlisted
    rwa [shift_of_le (Nat.le_refl i)] at this
  refine ⟨hlaws, fun m h0 hm => ?_, by rwa [Tree.n_insertRows hi], ?_, fun m hm => ?_⟩
  · rcases shift_or (i := i) (c := new.length) m with ⟨j, rfl⟩ | ⟨him, hmi⟩
    · have hj := e.shift_lt.mp hm
      have := h.parent_nonneg j (shift_pos.mp h0) hj
      rw [Tree.node_insertRows hi hj]
      split
      · split <;> exact this
      · split
        · exact Int.add_nonneg this (Int.natCast_nonneg _)
        · exact this
    · rw [(Tree.fresh_new hi hnew him hmi).parent]
      exact Int.natCast_nonneg i
  · have := h.sel_lt
    rw [Tree.n_insertRows hi, Tree.insertRows]
    dsimp only
    split <;> omega
  rcases shift_or (i := i) (c := new.length) m with ⟨j, rfl⟩ | ⟨him, hmi⟩
  · have hj := e.shift_lt.mp hm
    rcases eq_or_ne j i with rfl | hji
    · -- the row that has been opened
      rw [shift_of_le (Nat.le_refl j)]
      refine ⟨ns, hpath, hlevel.le, hshort, ?_⟩
      have hexp : ((t.insertRows j new).node (shift j new.length j)).expanded = true := by
        rw [Tree.node_insertRows hi hj, if_pos (Nat.le_refl j), if_pos rfl]
      rw [shift_of_le (Nat.le_refl j)] at hexp
      rw [Shows, if_pos hexp, e.children_new hempty hparent, List.map_map]
      exact ⟨f, hf, (Tree.names_new hi).symm ▸ hnames⟩
    · obtain ⟨ms, hms, hlen, hfits, hshows⟩ := h.shown j hj
      refine ⟨ms, e.listed hms, hlen, hfits, (e.shows ?_ hji ?_).mpr hshows⟩
      · intro m him hmi
        rw [hparent m him hmi]
        omega
      · rw [Tree.node_insertRows hi hj, if_neg hji]
        split <;> [rfl; split <;> rfl]
  · -- a new row
    have hfresh := Tree.fresh_new hi hnew him hmi
    have hname : ((t.insertRows i new).node m).name ∈ f.subs := by
      refine hnames.subset ?_
      rw [← Tree.names_new hi]
      refine List.mem_map.mpr ⟨m - (i + 1), List.mem_range.mpr (by omega), ?_⟩
      rw [Function.comp_apply, show i + 1 + (m - (i + 1)) = m by omega]
    refine ⟨ns ++ [((t.insertRows i new).node m).name], .sub (Nat.zero_lt_of_lt him) hm ?_ hf hname,
      ?_, hfit _ hname, ?_⟩
    · rwa [hfresh.parent, Int.toNat_natCast]
    · rw [List.length_append]
      exact hlevel
    · rw [Shows, hfresh.closed]
      exact e.children_between hparent him hmi

theorem mem_subs {f : Found} {name : Text} (h : name ∈ f.subs) : copyName name = name := by
  obtain ⟨e, -, rfl⟩ := List.mem_map.mp h
  exact List.take_of_length_le e.short

/-- **A call of `fx_expand` that finds what it can show** keeps the tree. -/
theorem Kept.expand (h : Kept D t) {i : ℤ} (hw : Expansion.Whole ⟨D, t, i⟩) :
    Kept D (t.expand D i) := by
  unfold Tree.expand
  split
  · exact h
  rename_i hguard
  simp only [not_or, Int.not_lt, Bool.not_eq_true, Bool.not_eq_false] at hguard
  obtain ⟨h0, hi, hclosed, hkids⟩ := hguard
  lift i to ℕ using h0
  rw [ge_iff_le, Int.not_le, Int.ofNat_lt] at hi
  rw [Int.toNat_natCast] at hclosed hkids ⊢
  obtain ⟨ns, hlisted, hlen, hshort, -⟩ := h.shown i hi
  have hpath := hlisted.nodePath_eq h.parent_nonneg hlen hshort
  dsimp only
  split
  · exact h
  rename_i dir hdir
  rw [hpath] at hdir
  split
  · exact h
  rename_i hcnt
  have hperm := perm_sortNames (kids dir)
  have hsubs : dir.subs ≠ [] := fun hnil => by
    have hnone : kids dir = [] := by
      rw [kids_eq (by rw [hnil]; exact Nat.zero_le _), hnil]
    rw [hnone] at hcnt
    exact hcnt (Nat.zero_min _)
  have hspace : t.n < treeMax := by omega
  obtain ⟨hlevel, h48, hroom, hfit⟩ := hw (Int.natCast_nonneg i) (Int.ofNat_lt.mpr hi)
    hclosed hkids hspace ns dir hlisted hdir hsubs
  replace hroom : t.n + dir.subs.length ≤ treeMax := hroom
  rw [kids_eq h48] at hperm hcnt ⊢
  have hlength := hperm.length_eq
  rw [List.take_of_length_le (Nat.le_min.mpr ⟨Nat.le_refl _, by omega⟩)]
  refine h.insertRows hi hclosed ?_ ?_ hlisted hdir ?_ hlevel hshort hfit
  · intro nd hnd
    obtain ⟨k, hk, rfl⟩ := List.mem_mapIdx.mp hnd
    rw [List.getElem_map]
    have hdepth : (t.node i).depth ≤ i := h.laws.depth_le hi
    have hle : t.n ≤ 128 := h.n_le
    exact ⟨rfl, Nat.mod_eq_of_lt (by omega), rfl⟩
  · rw [List.length_mapIdx, List.length_map, hlength]
    exact hroom
  · refine List.Perm.trans (List.Perm.of_eq ?_) hperm
    refine List.ext_getElem (by simp only [List.length_map, List.length_mapIdx]) ?_
    intro k hk hk'
    rw [List.getElem_map, List.getElem_mapIdx, List.getElem_map]
    exact mem_subs (hperm.subset (List.getElem_mem hk'))

end Insert

/-! ## `fx_collapse` -/

section Remove

open Outline

variable {k : ℕ}

theorem Tree.n_removeRows (hk : i + k < t.n) : (t.removeRows i k).n = t.n - k := by
  have hle : i + k + 1 ≤ t.rows.length := hk
  rw [Tree.n, Tree.removeRows, List.length_append, Tree.length_front _ (by omega),
    List.length_map, List.length_drop, Tree.n]
  omega

theorem Tree.node_removeRows (hk : i + k < t.n) (hj : j < t.n - k) :
    (t.removeRows i k).node j =
      if j ≤ i then (if j = i then { t.node j with expanded := false } else t.node j)
      else if (t.node (j + k)).parent > (i : ℤ) + k then
        { t.node (j + k) with parent := (t.node (j + k)).parent - k }
      else t.node (j + k) := by
  have hi : i < t.n := Nat.lt_of_add_right_lt hk
  have hfront := Tree.length_front (fun nd => { nd with expanded := false }) hi
  rw [Tree.node, Tree.removeRows, List.getD_eq_getElem?_getD]
  rcases Nat.lt_or_ge i j with hij | hji
  · rw [if_neg (Nat.not_le_of_lt hij), List.getElem?_append_right (by omega), List.getElem?_map,
      List.getElem?_drop, hfront, show i + 1 + k + (j - (i + 1)) = j + k by omega,
      Tree.getElem?_rows (by omega)]
    rfl
  · rw [if_pos hji, List.getElem?_append_left (by omega), Tree.getElem?_front _ hi hji]
    rfl

/-- The rows below row `i` go. -/
theorem Kept.same_removeRows (h : Kept D t) (hk : i + k < t.n)
    (hbelow : ∀ j, t.outline.Below i j ↔ i < j ∧ j ≤ i + k) : Same (t.removeRows i k) t i k where
  row := by
    change i < (t.removeRows i k).n
    rw [Tree.n_removeRows hk]
    omega
  n_eq := by
    change t.n = (t.removeRows i k).n + k
    rw [Tree.n_removeRows hk]
    omega
  depth_eq j hj := by
    change (t.node _).depth = ((t.removeRows i k).node j).depth
    rw [Tree.node_removeRows hk (by rwa [← Tree.n_removeRows hk])]
    unfold shift
    split
    · split <;> rfl
    · split <;> rfl
  parent_eq j h0 hj := by
    replace hj : j < (t.removeRows i k).n := hj
    rw [Tree.n_removeRows hk] at hj
    change (t.node _).parent.toNat = shift i k ((t.removeRows i k).node j).parent.toNat
    rw [Tree.node_removeRows hk hj]
    rcases Nat.lt_or_ge i j with hij | hji
    · rw [shift_of_lt hij, if_neg (Nat.not_le_of_lt hij)]
      have hnonneg := h.parent_nonneg (j + k) (by omega) (by omega)
      by_cases hp : (t.node (j + k)).parent > (i : ℤ) + k
      · rw [if_pos hp]
        change _ = shift i k ((t.node (j + k)).parent - k).toNat
        rw [shift_of_lt (by omega)]
        omega
      · -- the parent is not among the rows that go, or the row would be
        have hpi : (t.node (j + k)).parent.toNat ≤ i := by
          by_contra hlt
          have hle : (t.node (j + k)).parent.toNat ≤ i + k := by omega
          have := (hbelow (j + k)).mp (.deeper (by omega) (by change j + k < t.n; omega)
            ((hbelow _).mpr ⟨Nat.not_le.mp hlt, hle⟩))
          omega
        rw [if_neg hp, shift_of_le hpi]
    · have hlt : (t.node j).parent.toNat < j := h.laws.parent_lt j h0 (by change j < t.n; omega)
      rw [shift_of_le hji, if_pos hji]
      split <;> exact (shift_of_le (by omega)).symm
  name_eq j hj := by
    rw [Tree.node_removeRows hk (by rwa [← Tree.n_removeRows hk])]
    unfold shift
    split
    · split <;> rfl
    · split <;> rfl

/-- **What `fx_collapse` does to the table** keeps it. -/
theorem Kept.removeRows (h : Kept D t) (hk : i + k < t.n)
    (hbelow : ∀ j, t.outline.Below i j ↔ i < j ∧ j ≤ i + k) : Kept D (t.removeRows i k) := by
  have e := h.same_removeRows hk hbelow
  have hn := Tree.n_removeRows hk
  refine ⟨e.laws_small h.laws, fun j h0 hj => ?_, ?_, ?_, fun j hj => ?_⟩
  · rw [Tree.node_removeRows hk (by omega)]
    have hnonneg := h.parent_nonneg (j + k) (by omega) (by omega)
    have hnonneg' := h.parent_nonneg j (by omega) (by omega)
    split
    · split <;> exact hnonneg'
    · split
      · dsimp only
        omega
      · exact hnonneg
  · rw [hn]
    exact (Nat.sub_le _ _).trans h.n_le
  · have := h.sel_lt
    rw [hn, Tree.removeRows]
    dsimp only
    split
    · omega
    · split <;> omega
  obtain ⟨ns, hns, hlen, hfit, hshows⟩ := h.shown (shift i k j) (e.shift_lt.mpr hj)
  refine ⟨ns, e.listed_back h.laws hns hj, hlen, hfit, ?_⟩
  rcases eq_or_ne j i with rfl | hji
  · -- the row that has been closed
    have hexp : ((t.removeRows j k).node j).expanded = false := by
      rw [Tree.node_removeRows hk (by omega), if_pos (Nat.le_refl j), if_pos rfl]
    rw [Shows, hexp]
    refine List.eq_nil_iff_forall_not_mem.mpr fun m hm => ?_
    obtain ⟨h0, hm, hp⟩ := mem_children.mp hm
    have hparent := e.parent_eq m h0 hm
    rw [hp, shift_of_le (Nat.le_refl j)] at hparent
    obtain ⟨hlt, hle⟩ := (hbelow _).mp (.child (shift_pos.mpr h0) (e.shift_lt.mpr hm) hparent)
    exact absurd (shift_not_between hlt) (Nat.not_lt_of_le hle)
  · refine (e.shows (fun m him hmi => ?_) hji ?_).mp hshows
    · cases (hbelow m).mpr ⟨him, hmi⟩ with
      | child _ _ hp => omega
      | deeper _ _ hp =>
        have := (hbelow _).mp hp
        omega
    · rw [Tree.node_removeRows hk (by omega), if_neg hji]
      unfold shift
      split
      · rfl
      · split <;> rfl

/-- The rows that `fx_collapse` counts. -/
theorem Tree.deeper_rows (hi : i < t.n)
    (hk : (t.rows.drop (i + 1)).findIdx (fun nd => ¬ nd.depth > (t.node i).depth) = k) :
    i + k < t.n ∧ (∀ m, i < m → m ≤ i + k → (t.node i).depth < (t.node m).depth) ∧
      (i + k + 1 = t.n ∨ (t.node (i + k + 1)).depth ≤ (t.node i).depth) := by
  have hlength : (t.rows.drop (i + 1)).length = t.n - (i + 1) := List.length_drop
  have hrow (r : ℕ) (hr : r < (t.rows.drop (i + 1)).length) :
      (t.rows.drop (i + 1))[r] = t.node (i + 1 + r) := by
    rw [List.getElem_drop, Tree.node, List.getD_eq_getElem?_getD, List.getElem?_eq_getElem]
    rfl
  have hle : k ≤ t.n - (i + 1) := by
    rw [← hk, ← hlength]
    exact List.findIdx_le_length
  refine ⟨by omega, fun m him hmi => ?_, ?_⟩
  · have := List.not_of_lt_findIdx (hk.symm ▸ (by omega : m - (i + 1) < k))
    rw [hrow, show i + 1 + (m - (i + 1)) = m by omega] at this
    simpa using this
  · rcases Nat.lt_or_eq_of_le hle with hlt | heq
    · have := List.findIdx_getElem (w := by rw [hk, hlength]; exact hlt)
      rw [hrow] at this
      simp only [hk] at this
      rw [show i + k + 1 = i + 1 + k by omega]
      exact .inr (by simpa using this)
    · exact .inl (by omega)

theorem Kept.collapse (h : Kept D t) (i : ℤ) : Kept D (t.collapse i) := by
  unfold Tree.collapse
  split
  · exact h
  rename_i hguard
  simp only [not_or, Int.not_lt, Bool.not_eq_false] at hguard
  obtain ⟨h0, hi, -⟩ := hguard
  lift i to ℕ using h0
  rw [ge_iff_le, Int.not_le, Int.ofNat_lt] at hi
  rw [Int.toNat_natCast]
  obtain ⟨hlt, hdeep, hend⟩ := Tree.deeper_rows hi rfl
  exact h.removeRows hlt fun j => h.laws.below_iff_between hlt hdeep hend

end Remove

/-! ## Runs -/

theorem Listed.select (h : Listed D t j ns) (i : ℕ) : Listed D { t with sel := i } j ns := by
  induction h with
  | root => exact .root
  | sub h0 hj _ hf hmem ih => exact .sub h0 hj ih hf hmem

/-- `fx_tree_sel` may be any row. -/
theorem Kept.select (h : Kept D t) (hi : i < t.n) : Kept D { t with sel := i } where
  laws := h.laws
  parent_nonneg := h.parent_nonneg
  n_le := h.n_le
  sel_lt := hi
  shown j hj :=
    let ⟨ns, hns, hlen, hfit, hshows⟩ := h.shown j hj
    ⟨ns, hns.select i, hlen, hfit, hshows⟩

theorem Tree.n_le_expand (D : Disk) (t : Tree) (i : ℤ) : t.n ≤ (t.expand D i).n := by
  unfold Tree.expand
  split
  · exact Nat.le_refl _
  rename_i hguard
  simp only [not_or, Int.not_lt] at hguard
  dsimp only
  split
  · exact Nat.le_refl _
  · split
    · exact Nat.le_refl _
    · rw [Tree.n_insertRows (by omega)]
      exact Nat.le_add_right _ _

theorem Tree.findChild_lt {parent : ℕ} {name : Text} {k : ℕ}
    (h : t.findChild parent name = some k) : k < t.n := by
  obtain ⟨r, hr, rfl⟩ := Option.map_eq_some_iff.mp h
  obtain ⟨hlt, -⟩ := List.findIdx?_eq_some_iff_getElem.mp hr
  have hle := hlt.trans_le (List.takeWhile_sublist _).length_le
  rw [List.length_drop] at hle
  unfold Tree.n
  omega

namespace Session

variable {P : Session → Prop} {s : Session}

/-- A walk does nothing but calls of `fx_expand`. -/
theorem walkFrom_rule (hexp : ∀ s i, P s → P (s.expand i)) (open_last : Bool) (toks : List Text)
    (cur : ℕ) (h : P s) : P (walkFrom open_last toks cur s).1 := by
  induction toks generalizing cur s with
  | nil => exact h
  | cons tok toks ih =>
    rw [walkFrom]
    have hs : P (if (s.tree.findChild cur tok).isSome then s else s.expand cur) := by
      split
      · exact h
      · exact hexp s cur h
    split
    · exact hs
    · refine ih _ ?_
      split
      · exact hexp _ _ hs
      · exact hs

theorem treeWalk_rule (hexp : ∀ s i, P s → P (s.expand i)) (path : Text) (open_last : Bool)
    (h : P s) : P (s.treeWalk path open_last).1 := by
  unfold treeWalk
  split
  · dsimp only
    split
    · exact hexp s 0 h
    · exact h
  · exact walkFrom_rule hexp _ _ _ (hexp s 0 h)

/-- The walk ends at a row. -/
theorem walkFrom_lt (open_last : Bool) (toks : List Text) {cur : ℕ} (h : cur < s.tree.n) :
    (walkFrom open_last toks cur s).2 < (walkFrom open_last toks cur s).1.tree.n := by
  induction toks generalizing cur s with
  | nil => exact h
  | cons tok toks ih =>
    rw [walkFrom]
    have hs : cur < (if (s.tree.findChild cur tok).isSome then s else s.expand cur).tree.n := by
      split
      · exact h
      · exact h.trans_le (Tree.n_le_expand _ _ _)
    split
    · exact hs
    · rename_i c hc
      have hlt := Tree.findChild_lt hc
      refine ih ?_
      split
      · exact hlt.trans_le (Tree.n_le_expand _ _ _)
      · exact hlt

theorem treeWalk_lt (path : Text) (open_last : Bool) (h : 0 < s.tree.n) :
    (s.treeWalk path open_last).2 < (s.treeWalk path open_last).1.tree.n := by
  unfold treeWalk
  split
  · dsimp only
    split
    · exact h.trans_le (Tree.n_le_expand _ _ _)
    · exact h
  · exact walkFrom_lt _ _ (h.trans_le (Tree.n_le_expand _ _ _))

/-- As long as all calls of `fx_expand` find what they can show, the tree is kept. -/
def Keeps (s : Session) : Prop := (∀ x ∈ s.opened, x.Whole) → Kept s.disk s.tree

theorem keeps_expand (s : Session) (i : ℤ) (h : s.Keeps) : (s.expand i).Keeps := fun hall => by
  have hall := List.forall_mem_append.mp hall
  exact (h hall.1).expand (hall.2 _ (List.mem_singleton_self _))

theorem prefix_treeWalk (s : Session) (path : Text) (open_last : Bool) :
    s.opened <+: (s.treeWalk path open_last).1.opened :=
  treeWalk_rule (P := fun s' => s.opened <+: s'.opened)
    (fun _ _ h => h.trans (List.prefix_append _ _)) path open_last List.prefix_rfl

theorem keeps_goTo (path : Text) (open_last : Bool) (h : s.Keeps) :
    ((s.treeWalk path open_last).1.select (s.treeWalk path open_last).2).Keeps := fun hall => by
  have hkept := h fun x hx => hall x ((s.prefix_treeWalk path open_last).subset hx)
  have hwalk := treeWalk_rule keeps_expand path open_last h hall
  exact hwalk.select (treeWalk_lt path open_last hkept.laws.pos)

theorem keeps_saved (l : List Text) (h : s.Keeps) :
    (l.foldl (fun t path => (treeWalk t path true).1) s).Keeps := by
  induction l generalizing s with
  | nil => exact h
  | cons path l ih => exact ih (treeWalk_rule keeps_expand path true h)

theorem prefix_saved (l : List Text) (s : Session) :
    s.opened <+: (l.foldl (fun t path => (treeWalk t path true).1) s).opened := by
  induction l generalizing s with
  | nil => exact List.prefix_rfl
  | cons path l ih => exact (s.prefix_treeWalk path true).trans (ih _)

/-- **Every call keeps the tree**, as long as all calls of `fx_expand` find what they can show. -/
theorem keeps_step (x : Call) (h : s.Keeps) : (s.step x).Keeps := by
  cases x with
  | expand i => exact keeps_expand s i h
  | collapse i => exact fun hall => (h hall).collapse i
  | walk path open_last => exact treeWalk_rule keeps_expand path open_last h
  | goTo path => exact keeps_goTo path false h
  | refreshAll D cwd => exact keeps_goTo _ false (keeps_saved _ fun _ => kept_reset D)

theorem prefix_step (s : Session) (x : Call) : s.opened <+: (s.step x).opened := by
  cases x with
  | expand i => exact List.prefix_append _ _
  | collapse i => exact List.prefix_rfl
  | walk path open_last => exact s.prefix_treeWalk path open_last
  | goTo path => exact s.prefix_treeWalk path false
  | refreshAll D cwd =>
    exact (prefix_saved (saved s.tree) ⟨D, .reset D, s.opened⟩).trans (prefix_treeWalk _ _ false)

theorem keeps_run (l : List Call) (h : s.Keeps) : (l.foldl step s).Keeps := by
  induction l generalizing s with
  | nil => exact h
  | cons x l ih => exact ih (keeps_step x h)

theorem prefix_run (l : List Call) (s : Session) : s.opened <+: (l.foldl step s).opened := by
  induction l generalizing s with
  | nil => exact List.prefix_rfl
  | cons x l ih => exact (s.prefix_step x).trans (ih _)

end Session

/-- **The folder tree is a faithful preorder in every state of a run** all of whose calls of
`fx_expand` find what they can show. -/
theorem faithful_of_whole (D : Disk) (l l' : List Call)
    (h : ∀ x ∈ (run D (l ++ l')).opened, x.Whole) :
    Faithful (run D l).disk (run D l).tree := by
  refine (Session.keeps_run l (fun _ => kept_reset D) fun x hx => h x ?_).faithful
  rw [run, List.foldl_append]
  exact (Session.prefix_run l' _).subset hx

/-- A disk with the folders `docs` and `mnt`. -/
def plain : Disk := fun path =>
  some ⟨true, if path = [slash] then
    [⟨true, [0x6D, 0x6E, 0x74], by decide⟩, ⟨true, [0x64, 0x6F, 0x63, 0x73], by decide⟩] else []⟩

theorem faithful_plain :
    Faithful (run plain [.expand 0]).disk (run plain [.expand 0]).tree := by
  refine faithful_of_whole plain [.expand 0] [] fun x hx => ?_
  obtain rfl := List.mem_singleton.mp hx
  intro _ _ _ _ _ ns f hns hf _
  cases hns with
  | root =>
    obtain rfl := Option.some.inj hf
    decide
  | sub h0 => exact absurd h0 (Nat.lt_irrefl 0)

theorem Listed.length_eq (h : Faithful D t) (hroot : (t.node 0).depth = 0) (hl : Listed D t j ns) :
    ns.length = (t.node j).depth := by
  induction hl with
  | root => exact hroot.symm
  | @sub j ns _ h0 hj _ _ _ ih =>
    rw [List.length_append, List.length_singleton, ih, ← (h.parent j h0 hj).2.2]

/-- A disk with a folder `a`, with a folder `a` in it, and so on: 21 of them. -/
def nested : Disk := fun path =>
  some ⟨true, if path.length < 42 then [⟨true, [0x61], by decide⟩] else []⟩

/-- Each of the folders opened. -/
def openAll : List Call := (List.range 21).map fun i => .expand i

theorem openAll_tree :
    let t := (run nested openAll).tree
    21 < t.n ∧ (t.node 0).depth = 0 ∧ (t.node 21).depth = 21 ∧
      t.nodePath 21 ≠ pathText ((t.chain 21 21).reverse.map fun j => (t.node j).name) := by
  decide +kernel

/-- The path of the last one is that of the folder it is in. -/
theorem deep_path_cut :
    ¬ ∀ (D : Disk) (l : List Call), Faithful (run D l).disk (run D l).tree := by
  intro h
  have hfaithful := h nested openAll
  obtain ⟨hlt, hroot, hdepth, hne⟩ := openAll_tree
  obtain ⟨ns, hns, hpath, -⟩ := hfaithful.shown 21 hlt
  have hlen := hns.length_eq hfaithful hroot
  have hchain := hns.chain_eq (fun j h0 hj => (hfaithful.parent j h0 hj).1)
    (hlen.trans hdepth).le
  rw [← hchain] at hpath
  exact hne hpath

end MiniFiles
