import MiniWin.Mwfs.Faulty

/-!
# The walk of a check past what cannot be read

On a volume in order whose device fails to read some sectors, `mwfs_chk_walk` takes a
directory for ended where it cannot read on, and an entry for a bad one, which it
removes, where it cannot read the inode. So it comes to the inodes that can be read
from the root on (`Met`), unless its stack is too small for the directories among them.
-/

namespace Mwfs

open Place

/-! ## What can be read -/

/-- What a check can list of a directory. -/
def Lists (s : St) (d : Nat) (es : List Dent) : Prop := ∀ idx, (dirNth s d idx).join = es[idx]?

theorem Lists.unique {s : St} {d : Nat} {es es' : List Dent} (h : Lists s d es)
    (h' : Lists s d es') : es = es' := List.ext_getElem? fun idx => (h idx).symm.trans (h' idx)

/-- **The inodes that can be read from the root on.** -/
inductive Met (s : St) : Nat → Prop
  | root : Met s rootIno
  | entry {d : Nat} {es : List Dent} {e : Dent} (h : Met s d) (hl : Lists s d es) (he : e ∈ es)
    (hi : (inoGet s e.ino).isSome) : Met s e.ino

/-- The directories among these entries, as far as their inodes can be read. -/
def subdirs (s : St) (es : List Dent) : List Nat :=
  (es.filter fun e => e.type = tDir ∧ (inoGet s e.ino).isSome).map fun e => e.ino

/-- **The directories that are still to be walked become too many** for
`MWFS_CHK_STACK`. -/
inductive Overflows (s : St) : List Nat → Prop
  | here {stack : List Nat} (h : chkStack < stack.length) : Overflows s stack
  | next {d : Nat} {stack : List Nat} {es : List Dent} (hl : Lists s d es)
    (h : Overflows s ((subdirs s es).reverse ++ stack)) : Overflows s (d :: stack)

theorem overflows_cons {s : St} {d : Nat} {stack : List Nat} {es : List Dent}
    (hlen : (d :: stack).length ≤ chkStack) (hl : Lists s d es) :
    Overflows s (d :: stack) ↔ Overflows s ((subdirs s es).reverse ++ stack) := by
  constructor
  · intro h
    cases h with
    | here h => omega
    | next hl' h =>
      obtain rfl := hl.unique hl'
      exact h
  · exact .next hl

theorem not_overflows_nil {s : St} : ¬ Overflows s [] := by
  intro h
  cases h with
  | here h => exact absurd h (by decide)

/-! ## The walk -/

/-- **The walk under way** on the volume `s`, which holds the tree `G₀`. The graph is now
`G`: entries of directories that were walked are missing. -/
structure Reading (g : Geo) (f : Nat → Bool) (G₀ : Graph) (s : St) (cur : Option Nat) (G : Graph)
    (c : Chk) : Prop where
  faulty : Faulty g f c.s
  ok : GraphOk g G
  rep : Rep g G (view g c.s.disk)
  ino : (view g c.s.disk).ino = (view g s.disk).ino
  bit : (view g c.s.disk).bit = (view g s.disk).bit
  kind : G.kind = G₀.kind
  refs : ∀ j o, G₀ j = some o → ∀ p,
    (view g c.s.disk).ref ((view g s.disk).ino j).top p
      = (view g s.disk).ref ((view g s.disk).ino j).top p
  fresh : ∀ d, c.reach d = false ∨ d ∈ c.stack → G d = G₀ d
  met : ∀ j, c.reach j = true → Met s j
  named : ∀ j, c.reach j = true → j = rootIno ∨
    ∃ d e, Entry G₀ d e ∧ e.ino = j ∧ c.reach d = true ∧ d ∉ c.stack
  root : c.reach rootIno = true
  stack : ∀ d ∈ c.stack, c.reach d = true ∧ IsDir G₀ d
  nodup : c.stack.Nodup
  closed : c.r.incomplete = false → ∀ d, c.reach d = true → d ∉ c.stack → cur ≠ some d →
    ∀ es, Lists s d es → ∀ e ∈ es, (inoGet s e.ino).isSome → c.reach e.ino = true
  same : (∀ i, i ≠ 0 → i < g.inode_count → (inoGet s i).isSome) → c.s = s

section Walk

variable {g : Geo} {f : Nat → Bool} {G₀ G : Graph} {s : St} {cur : Option Nat} {c : Chk}

/-- The volume as it was before the check. -/
structure Orderly (g : Geo) (f : Nat → Bool) (G : Graph) (s : St) : Prop where
  faulty : Faulty g f s
  tree : Tree g G
  rep : Rep g G (view g s.disk)

theorem Reading.dom (h : Reading g f G₀ s cur G c) (j : Nat) : G j = none ↔ G₀ j = none := by
  rw [← kind_none_iff, ← kind_none_iff, h.kind]

theorem Reading.inoGet_eq (h : Reading g f G₀ s cur G c) (hs : Orderly g f G₀ s) (i : Nat) :
    inoGet c.s i = inoGet s i := by
  by_cases hi : i = 0 ∨ g.inode_count ≤ i
  · rw [inoGet, h.faulty.geo, if_pos hi, inoGet, hs.faulty.geo, if_pos hi]
  · rw [not_or, not_le] at hi
    rw [h.faulty.inoGet_eq hi.1 hi.2, hs.faulty.inoGet_eq hi.1 hi.2, h.ino]

theorem Faulty.chkBlock (fix : Bool) (h : Faulty g f c.s) (hrep : Rep g G (view g c.s.disk))
    {j : Nat} {o : Obj} (hj : G j = some o) {l : Nat}
    (hl : (view g c.s.disk).Has ((view g c.s.disk).ino j) l) : chkBlock fix l c = (true, c) := by
  obtain ⟨hl0, p, rfl⟩ := hl
  have hown := Inv.owns_ino hrep hj hl0
  have hdata := Inv.data hrep _ hown
  have hle := hdata.le
  have hlt := hdata.lt
  unfold Mwfs.chkBlock
  rw [h.geo, if_neg (by omega), h.bitGet_eq hdata.bit, Inv.used hrep _ hown]
  cases f (g.bitmap_lba + (view g c.s.disk).ref ((view g c.s.disk).ino j).top p / 4096) <;> rfl

/-- The sectors of an object give the walk nothing to do. -/
theorem Faulty.eachBlock (fix : Bool) (h : Faulty g f c.s) (hrep : Rep g G (view g c.s.disk))
    {j : Nat} {o : Obj} (hj : G j = some o) :
    eachBlock Chk.s (Mwfs.chkBlock fix) ((view g c.s.disk).ino j) c = (true, c) := by
  have hgoes : GoesBy f Chk.s (Mwfs.chkBlock fix) (view g c.s.disk) (· = c)
      ((view g c.s.disk).Has ((view g c.s.disk).ino j)) := by
    refine ⟨?_, ?_, ?_⟩
    · rintro l _ hl rfl
      rw [h.chkBlock fix hrep hj hl]
    · rintro l _ hl rfl
      rw [h.chkBlock fix hrep hj hl]
    · rintro l _ ⟨hl0, p, rfl⟩ rfl
      exact h.rd_data (hrep.data hj p hl0)
  rw [eachBlock_seen hgoes rfl]
  exact Prod.ext rfl (hgoes.visit (fun l hl => View.has_of_seen hl) rfl)

/-- What the first visit to an inode does. -/
structure Came (ino : Nat) (dir : Prop) (c c' : Chk) : Prop where
  s : c'.s = c.s
  reach : c'.reach = Function.update c.reach ino true
  file : ¬ dir → c'.stack = c.stack ∧ c'.r.incomplete = c.r.incomplete
  push : dir → c.stack.length < chkStack →
    c'.stack = ino :: c.stack ∧ c'.r.incomplete = c.r.incomplete
  full : dir → chkStack ≤ c.stack.length → c'.stack = c.stack ∧ c'.r.incomplete = true

theorem Reading.chkVisit (fix : Bool) (h : Reading g f G₀ s cur G c) {j : Nat} {o : Obj}
    (hj : G j = some o) :
    Came j (o.type = tDir) c (chkVisit fix j ((view g c.s.disk).ino j) c) := by
  have htype : ((view g c.s.disk).ino j).type = o.type := (h.rep.objRep hj).type_eq
  unfold Mwfs.chkVisit
  dsimp only
  rw [htype]
  by_cases hdir : o.type = tDir
  · rw [if_pos hdir]
    by_cases hlen : c.stack.length < chkStack
    · rw [if_pos hlen]
      exact ⟨rfl, rfl, fun hc => absurd hdir hc, fun _ _ => ⟨rfl, rfl⟩, fun _ hc => by omega⟩
    · rw [if_neg hlen]
      exact ⟨rfl, rfl, fun hc => absurd hdir hc, fun _ hc => absurd hc hlen, fun _ _ => ⟨rfl, rfl⟩⟩
  · rw [if_neg hdir]
    have hwalk := Faulty.eachBlock (c := { c with
      reach := Function.update c.reach j true, r := { c.r with files := c.r.files + 1 } }) fix
      h.faulty h.rep hj
    dsimp only at hwalk
    rw [hwalk]
    split
    · exact ⟨rfl, rfl, fun _ => ⟨rfl, rfl⟩, fun hc => absurd hc hdir, fun hc => absurd hc hdir⟩
    · exact ⟨rfl, rfl, fun _ => ⟨rfl, rfl⟩, fun hc => absurd hc hdir, fun hc => absurd hc hdir⟩

/-! ## One entry -/

/-- The walk is in the directory `d`, of which it can list `es`, and `done` of them are
behind it. Of these it has kept the ones whose inode can be read. -/
structure InList (g : Geo) (f : Nat → Bool) (G₀ : Graph) (s : St) (G : Graph) (c : Chk) (d m : Nat)
    (slots : List (Option Dent)) (done todo : List Dent) : Prop where
  get : (inoGet s d).isSome
  dir : G d = some (.dir slots)
  head : (view g s.disk).Head f ((view g s.disk).ino d) m
  lists : Lists s d (done ++ todo)
  entries : ∀ e ∈ done ++ todo, Entry G₀ d e
  nodup : (done ++ todo).Nodup
  ents : ents (slots.take (8 * m)) = (done.filter fun e => (inoGet s e.ino).isSome) ++ todo
  reached : c.reach d = true
  popped : d ∉ c.stack
  seen : ∀ e ∈ done, (inoGet s e.ino).isSome → c.reach e.ino = true
  ahead : ∀ e ∈ todo, c.reach e.ino = false

/-- What is on the stack, unless it has become too small. -/
def Stacked (s : St) (O : Prop) (es done : List Dent) (rest : List Nat) (c : Chk) : Prop :=
  (c.r.incomplete = false ∧ c.stack = (subdirs s done).reverse ++ rest ∧ c.stack.length ≤ chkStack ∧
      (Overflows s ((subdirs s es).reverse ++ rest) ↔ O)) ∨
    (c.r.incomplete = true ∧ O)

theorem subdirs_append (s : St) (a b : List Dent) : subdirs s (a ++ b) = subdirs s a ++ subdirs s b := by
  unfold subdirs
  rw [List.filter_append, List.map_append]

theorem subdirs_single (s : St) (e : Dent) :
    subdirs s [e] = if e.type = tDir ∧ (inoGet s e.ino).isSome then [e.ino] else [] := by
  unfold subdirs
  by_cases h : e.type = tDir ∧ (inoGet s e.ino).isSome
  · rw [if_pos h, List.filter_singleton, decide_eq_true h]
    rfl
  · rw [if_neg h, List.filter_singleton, decide_eq_false h]
    rfl

variable {d m : Nat} {slots : List (Option Dent)} {done todo : List Dent} {e : Dent}
  {rest : List Nat} {O : Prop}

/-- **A directory is put on the stack**, or the stack is too small. -/
theorem Stacked.visit {c' : Chk} (h : Stacked s O (done ++ e :: todo) done rest c)
    (hi : (inoGet s e.ino).isSome) (hv : Came e.ino (e.type = tDir) c c') :
    Stacked s O (done ++ e :: todo) (done ++ [e]) rest c' := by
  have hone := subdirs_single s e
  rcases h with ⟨hinc, hstack, hlen, hO⟩ | ⟨hinc, hO⟩
  · by_cases hdir : e.type = tDir
    · rw [if_pos ⟨hdir, hi⟩] at hone
      by_cases hroom : c.stack.length < chkStack
      · obtain ⟨hpush, hr⟩ := hv.push hdir hroom
        refine Or.inl ⟨hr.trans hinc, ?_, ?_, hO⟩
        · rw [hpush, hstack, subdirs_append, hone, List.reverse_append, List.reverse_singleton,
            List.singleton_append, List.cons_append]
        · rw [hpush, List.length_cons]
          exact hroom
      · refine Or.inr ⟨(hv.full hdir (Nat.le_of_not_lt hroom)).2, hO.mp (.here ?_)⟩
        have hsub : subdirs s (done ++ e :: todo) = subdirs s done ++ [e.ino] ++ subdirs s todo := by
          rw [← hone, ← subdirs_append, ← subdirs_append, List.append_assoc, List.singleton_append]
        rw [hstack, List.length_append, List.length_reverse] at hroom
        rw [hsub, List.length_append, List.length_reverse, List.length_append, List.length_append,
          List.length_singleton]
        omega
    · rw [if_neg (fun hc => hdir hc.1)] at hone
      obtain ⟨hpush, hr⟩ := hv.file hdir
      refine Or.inl ⟨hr.trans hinc, ?_, by rw [hpush]; exact hlen, hO⟩
      rw [hpush, hstack, subdirs_append, hone, List.append_nil]
  · refine Or.inr ⟨?_, hO⟩
    by_cases hdir : e.type = tDir
    · by_cases hroom : c.stack.length < chkStack
      · exact (hv.push hdir hroom).2.trans hinc
      · exact (hv.full hdir (Nat.le_of_not_lt hroom)).2
    · exact (hv.file hdir).2.trans hinc

theorem Stacked.skip {s' : St} {r : Report} (h : Stacked s O (done ++ e :: todo) done rest c)
    (hi : inoGet s e.ino = none) (hr : r.incomplete = c.r.incomplete) :
    Stacked s O (done ++ e :: todo) (done ++ [e]) rest { c with s := s', r := r } := by
  have hone := subdirs_single s e
  rw [if_neg (fun hc => by rw [hi] at hc; exact absurd hc.2 (by simp))] at hone
  refine h.imp (fun ⟨hinc, hstack, hlen, hO⟩ => ⟨hr.trans hinc, ?_, hlen, hO⟩) fun ⟨hinc, hO⟩ =>
    ⟨hr.trans hinc, hO⟩
  rw [subdirs_append, hone, List.append_nil]
  exact hstack

theorem InList.next (h : InList g f G₀ s G c d m slots done (e :: todo)) :
    Entry G₀ d e ∧ e ∉ done ∧ e ∉ todo ∧ c.reach e.ino = false := by
  have hmem : e ∈ done ++ e :: todo := List.mem_append_right _ List.mem_cons_self
  obtain ⟨-, hnd, hdisj⟩ := List.nodup_append.mp h.nodup
  exact ⟨h.entries e hmem, fun hc => hdisj e hc e List.mem_cons_self rfl,
    (List.nodup_cons.mp hnd).1, h.ahead e List.mem_cons_self⟩

/-- **An inode that can be read** is visited, and its entry stays. -/
theorem Reading.visit {c' : Chk} (h : Reading g f G₀ s (some d) G c) (hs : Orderly g f G₀ s)
    (hin : InList g f G₀ s G c d m slots done (e :: todo)) (hi : (inoGet s e.ino).isSome)
    (hv : Came e.ino (e.type = tDir) c c') :
    Reading g f G₀ s (some d) G c' ∧ InList g f G₀ s G c' d m slots (done ++ [e]) todo ∧
      c'.left g ≤ c.left g := by
  obtain ⟨hent, hdone, htodo, hr⟩ := hin.next
  obtain ⟨hroot, o, ho, hty⟩ := hs.tree.ok.entry d e hent
  obtain ⟨he0, helt⟩ := hs.tree.ok.bound _ _ ho
  have hreach : ∀ i, c'.reach i = true ↔ i = e.ino ∨ c.reach i = true := fun i => by
    rw [hv.reach]
    exact reach_update
  have hstack : c'.stack = c.stack ∨ (e.type = tDir ∧ c'.stack = e.ino :: c.stack) := by
    by_cases hd : e.type = tDir
    · by_cases hroom : c.stack.length < chkStack
      · exact Or.inr ⟨hd, (hv.push hd hroom).1⟩
      · exact Or.inl (hv.full hd (Nat.le_of_not_lt hroom)).1
    · exact Or.inl (hv.file hd).1
  have hfresh : e.ino ∉ c.stack := fun hm => by
    rw [(h.stack _ hm).1] at hr
    exact absurd hr (by simp)
  -- what was popped before stays so
  have hout : ∀ x, c.reach x = true → x ∉ c.stack → x ∉ c'.stack := by
    intro x hx hxs hm
    rcases hstack with hs | ⟨-, hs⟩
    · exact hxs (hs ▸ hm)
    · rw [hs, List.mem_cons] at hm
      rcases hm with rfl | hm
      · rw [hr] at hx
        exact absurd hx (by simp)
      · exact hxs hm
  have hsub : ∀ x, x ∈ c.stack → x ∈ c'.stack := fun x hx => by
    rcases hstack with hs | ⟨-, hs⟩
    · rw [hs]
      exact hx
    · rw [hs]
      exact List.mem_cons_of_mem _ hx
  have hdir : IsDir G₀ e.ino ↔ e.type = tDir := by
    rw [← hty]
    constructor
    · rintro ⟨sl, hsl⟩
      rw [hsl] at ho
      obtain rfl := Option.some.inj ho
      rfl
    · intro ht
      cases o with
      | file bytes aux => exact absurd (show tFile = tDir from ht) (by decide)
      | dir sl => exact ⟨sl, ho⟩
  refine ⟨⟨by rw [hv.s]; exact h.faulty, h.ok, by rw [hv.s]; exact h.rep, by rw [hv.s]; exact h.ino,
    by rw [hv.s]; exact h.bit, h.kind, by rw [hv.s]; exact h.refs, ?_, ?_, ?_,
    (hreach _).mpr (Or.inr h.root), ?_, ?_, ?_, by rw [hv.s]; exact h.same⟩,
    ⟨hin.get, hin.dir, hin.head, ?_, ?_, ?_, ?_, (hreach d).mpr (Or.inr hin.reached),
      hout d hin.reached hin.popped, ?_, ?_⟩, ?_⟩
  · intro x hx
    refine h.fresh x ?_
    rcases hx with hx | hx
    · refine Or.inl (Bool.eq_false_iff.mpr fun hc => ?_)
      rw [(hreach x).mpr (Or.inr hc)] at hx
      exact absurd hx (by simp)
    · rcases hstack with hst | ⟨-, hst⟩
      · exact Or.inr (hst ▸ hx)
      · rw [hst, List.mem_cons] at hx
        rcases hx with rfl | hx
        · exact Or.inl hr
        · exact Or.inr hx
  · intro j hj
    rcases (hreach j).mp hj with rfl | hj
    · exact .entry (h.met d hin.reached) hin.lists
        (List.mem_append_right _ List.mem_cons_self) hi
    · exact h.met j hj
  · intro j hj
    rcases (hreach j).mp hj with rfl | hj
    · exact Or.inr ⟨d, e, hent, rfl, (hreach d).mpr (Or.inr hin.reached),
        hout d hin.reached hin.popped⟩
    · refine (h.named j hj).imp id ?_
      rintro ⟨x, e', he', rfl, hx, hxs⟩
      exact ⟨x, e', he', rfl, (hreach x).mpr (Or.inr hx), hout x hx hxs⟩
  · intro x hx
    rcases hstack with hst | ⟨hd, hst⟩
    · obtain ⟨hxr, hxd⟩ := h.stack x (hst ▸ hx)
      exact ⟨(hreach x).mpr (Or.inr hxr), hxd⟩
    · rw [hst, List.mem_cons] at hx
      rcases hx with rfl | hx
      · exact ⟨(hreach _).mpr (Or.inl rfl), hdir.mpr hd⟩
      · obtain ⟨hxr, hxd⟩ := h.stack x hx
        exact ⟨(hreach x).mpr (Or.inr hxr), hxd⟩
  · rcases hstack with hst | ⟨-, hst⟩
    · rw [hst]
      exact h.nodup
    · rw [hst]
      exact List.nodup_cons.mpr ⟨hfresh, h.nodup⟩
  · intro hinc x hx hxs hcur es hes e' he' hi'
    have hfile : c.r.incomplete = false ∧ (e.type = tDir → e.ino ∈ c'.stack) := by
      by_cases hd : e.type = tDir
      · by_cases hroom : c.stack.length < chkStack
        · obtain ⟨hst, hri⟩ := hv.push hd hroom
          exact ⟨hri.symm.trans hinc, fun _ => by rw [hst]; exact List.mem_cons_self⟩
        · rw [(hv.full hd (Nat.le_of_not_lt hroom)).2] at hinc
          exact absurd hinc (by simp)
      · exact ⟨(hv.file hd).2.symm.trans hinc, fun hc => absurd hc hd⟩
    rcases (hreach x).mp hx with rfl | hx
    · by_cases hd : e.type = tDir
      · exact absurd (hfile.2 hd) hxs
      · -- a file lists nothing
        have hnil : es = [] := by
          refine hes.unique fun idx => ?_
          unfold dirNth
          cases hg : inoGet s e.ino with
          | none => rfl
          | some t =>
            have htt : t.type ≠ tDir := by
              rw [hs.faulty.inoGet_eq he0 helt] at hg
              split at hg
              · rw [← Option.some.inj hg, (hs.rep.objRep ho).type_eq, hty]
                exact hd
              · exact nomatch hg
            dsimp only
            rw [if_pos htt]
            rfl
        rw [hnil] at he'
        exact absurd he' List.not_mem_nil
    · exact (hreach _).mpr (Or.inr (h.closed hfile.1 x hx (fun hm => hxs (hsub x hm)) hcur es hes
        e' he' hi'))
  · rw [List.append_assoc]
    exact hin.lists
  · rw [List.append_assoc]
    exact hin.entries
  · rw [List.append_assoc]
    exact hin.nodup
  · rw [hin.ents, List.filter_append, List.filter_singleton, hi, cond_true, List.append_assoc,
      List.singleton_append]
  · intro e' he' hi'
    rcases List.mem_append.mp he' with he' | he'
    · exact (hreach _).mpr (Or.inr (hin.seen e' he' hi'))
    · obtain rfl := List.mem_singleton.mp he'
      exact (hreach _).mpr (Or.inl rfl)
  · intro e' he'
    refine Bool.eq_false_iff.mpr fun hc => ?_
    rcases (hreach _).mp hc with heq | hc
    · -- no object has two names
      have hent' := hin.entries e' (List.mem_append_right _ (List.mem_cons_of_mem e he'))
      have hsame := (hs.tree.single _ _ _ _ _ hent'.edge (heq ▸ hent.edge)).2
      exact htodo (hs.tree.ok.inj hent' hent hsame ▸ he')
    · rw [hin.ahead e' (List.mem_cons_of_mem e he')] at hc
      exact absurd hc (by simp)
  · refine Chk.left_le hv.reach hr helt ?_
    rcases hstack with hst | ⟨-, hst⟩
    · rw [hst]
      exact Nat.le_succ _
    · rw [hst, List.length_cons]

/-- **An inode that cannot be read**: the entry goes. -/
theorem Reading.skip {r : Report} (h : Reading g f G₀ s (some d) G c) (hs : Orderly g f G₀ s)
    (hin : InList g f G₀ s G c d m slots done (e :: todo)) (hi : inoGet s e.ino = none)
    (hr : r.incomplete = c.r.incomplete) :
    ∃ s' G' slots', dirRemove c.s d e.name = (.ok, s') ∧
      Reading g f G₀ s (some d) G' { c with s := s', r := r } ∧
      InList g f G₀ s G' { c with s := s', r := r } d m slots' (done ++ [e]) todo := by
  obtain ⟨hent₀, hdone, htodo, -⟩ := hin.next
  obtain ⟨-, o, ho, -⟩ := hs.tree.ok.entry d e hent₀
  obtain ⟨he0, helt⟩ := hs.tree.ok.bound _ _ ho
  obtain ⟨hd0, hdlt⟩ := h.ok.bound d _ hin.dir
  obtain ⟨sl₀, hd₀⟩ := hent₀.isDir
  have hhead : (view g c.s.disk).Head f ((view g c.s.disk).ino d) m := by
    rw [h.ino]
    exact hin.head.congr (h.refs d _ hd₀)
  have hmem : e ∈ ents (slots.take (8 * m)) := by
    rw [hin.ents]
    exact List.mem_append_right _ List.mem_cons_self
  have hget : inoGet c.s d ≠ none := by
    rw [h.inoGet_eq hs]
    exact Option.isSome_iff_ne_none.mp hin.get
  obtain ⟨s', k, b, hs', hfaulty, hworking, h0, hview⟩ :=
    h.faulty.dirRemove_eq h.rep hin.dir hhead hget hmem
  have hmem' : e ∈ ents slots := by
    rw [← List.take_append_drop (8 * m) slots, ents_append]
    exact List.mem_append_left _ hmem
  have hent : Entry G d e := ⟨slots, hin.dir, hmem'⟩
  rcases dirRemove_at h.faulty.sane h.rep hin.dir hd0 hdlt e.name with
    ⟨-, hno⟩ | ⟨e', x, s'', hx, hn, hs'', hswap, hstep, -⟩
  · exact absurd rfl (hno e hmem')
  obtain rfl : s'' = s'.working := (Prod.ext_iff.mp (hs''.symm.trans hworking)).2
  obtain rfl : e' = e :=
    h.ok.inj ⟨slots, hin.dir, mem_ents.mpr (List.mem_of_getElem? hx)⟩ hent hn
  have hnd : (ents slots).Nodup := List.Nodup.of_map _ (h.ok.names d slots hin.dir)
  -- the entry is among the slots that can be read
  have hx8 : x < 8 * m := by
    by_contra hge
    rw [← List.take_append_drop (8 * m) slots, ents_append] at hnd
    refine (List.nodup_append.mp hnd).2.2 e' hmem e' (mem_ents.mpr ?_) rfl
    refine List.mem_of_getElem? (i := x - 8 * m) ?_
    rw [List.getElem?_drop, Nat.add_sub_cancel' (by omega)]
    exact hx
  have hents : ents ((slots.set x none).take (8 * m))
      = (done.filter fun e => (inoGet s e.ino).isSome) ++ todo := by
    have hx' : (slots.take (8 * m))[x]? = some (some e') := by
      rw [List.getElem?_take_of_lt hx8]
      exact hx
    obtain ⟨a, b, hab, hab'⟩ := ents_set_none hx'
    rw [List.take_set, hab']
    rw [hin.ents] at hab
    have hnot : e' ∉ done.filter fun e => (inoGet s e.ino).isSome := fun hc =>
      hdone (List.mem_filter.mp hc).1
    obtain ⟨rfl, -, rfl⟩ := (List.append_cons_inj_of_notMem hnot htodo).mp hab
    rfl
  have hkept : (done ++ [e']).filter (fun e => (inoGet s e.ino).isSome)
      = done.filter fun e => (inoGet s e.ino).isSome := by
    rw [List.filter_append, List.filter_singleton, hi]
    exact List.append_nil _
  have hF : diskForest G (view g c.s.disk) d = some ((view g c.s.disk).ino d).top :=
    diskForest_some.mpr ⟨⟨_, hin.dir⟩, rfl⟩
  refine ⟨s', _, slots.set x none, hs', ⟨hfaulty, hswap.ok h.ok (by simp), hstep.rep, ?_, ?_,
    hswap.kind.trans h.kind, ?_, ?_, h.met, h.named, h.root, h.stack, h.nodup, fun hinc =>
      h.closed (hr.symm.trans hinc), fun hall => ?_⟩, ⟨hin.get, Function.update_self .., hin.head, ?_,
    ?_, ?_, by rw [hkept]; exact hents, hin.reached, hin.popped, ?_, fun e he =>
      hin.ahead e (List.mem_cons_of_mem e' he)⟩⟩
  · rw [hview, View.setSec_ino, h.ino]
  · rw [hview, View.setSec_bit, h.bit]
  · intro j oj hj p
    obtain ⟨o', ho'⟩ := Option.ne_none_iff_exists'.mp fun hc => by
      rw [(h.dom j).mp hc] at hj
      exact absurd hj (by simp)
    rw [hview, ← h.refs j oj hj p, ← h.ino]
    exact Inv.ref_write_leaf h.rep hF (isTab_datPos k) b
      (diskForest_some.mpr ⟨⟨o', ho'⟩, rfl⟩) (fun _ => Or.inr rfl) p
  · intro y hy
    have hyd : y ≠ d := by
      rintro rfl
      rcases hy with hy | hy
      · rw [hin.reached] at hy
        exact absurd hy (by simp)
      · exact hin.popped hy
    rw [Function.update_of_ne hyd]
    exact h.fresh y hy
  · have hsome := hall e'.ino he0 helt
    rw [hi] at hsome
    exact absurd hsome (by simp)
  · rw [List.append_assoc]
    exact hin.lists
  · rw [List.append_assoc]
    exact hin.entries
  · rw [List.append_assoc]
    exact hin.nodup
  · intro e he hsome
    rcases List.mem_append.mp he with he | he
    · exact hin.seen e he hsome
    · obtain rfl := List.mem_singleton.mp he
      rw [hi] at hsome
      exact absurd hsome (by simp)

/-- **One entry.** -/
theorem Reading.entry (h : Reading g f G₀ s (some d) G c) (hs : Orderly g f G₀ s)
    (hin : InList g f G₀ s G c d m slots done (e :: todo))
    (hst : Stacked s O (done ++ e :: todo) done rest c) :
    ∃ c' G' slots', chkEntry true d e c = ((inoGet s e.ino).isNone, c') ∧
      Reading g f G₀ s (some d) G' c' ∧ InList g f G₀ s G' c' d m slots' (done ++ [e]) todo ∧
      Stacked s O (done ++ e :: todo) (done ++ [e]) rest c' ∧ c'.left g ≤ c.left g := by
  obtain ⟨hent, -, -, hr⟩ := hin.next
  obtain ⟨-, o, ho, hty⟩ := hs.tree.ok.entry d e hent
  obtain ⟨he0, helt⟩ := hs.tree.ok.bound _ _ ho
  obtain ⟨o', ho'⟩ := Option.ne_none_iff_exists'.mp fun hc => by
    rw [(h.dom e.ino).mp hc] at ho
    exact absurd ho (by simp)
  have htype : o'.type = o.type := by
    rw [← (h.rep.objRep ho').type_eq, h.ino, (hs.rep.objRep ho).type_eq]
  unfold chkEntry
  rw [h.faulty.geo, if_neg (by omega), h.inoGet_eq hs]
  cases hget : inoGet s e.ino with
  | none =>
    obtain ⟨s', G', slots', hs', hw, hin'⟩ := h.skip hs hin hget
      (r := { c.r with bad_entries := c.r.bad_entries + 1, fixed := c.r.fixed + 1 }) rfl
    unfold chkRemove
    rw [if_neg (by simp)]
    rw [hs']
    exact ⟨_, G', slots', rfl, hw, hin', hst.skip hget rfl, Nat.le_refl _⟩
  | some t =>
    have ht : t = (view g c.s.disk).ino e.ino := by
      rw [hs.faulty.inoGet_eq he0 helt] at hget
      split at hget
      · rw [← Option.some.inj hget, h.ino]
      · exact nomatch hget
    have htt : t.type = e.type := by
      rw [ht, (h.rep.objRep ho').type_eq, htype, hty]
    have hlive : t.type ≠ tFree := ht ▸ h.rep.not_free ho'
    dsimp only
    rw [if_neg (not_or.mpr ⟨hlive, not_not.mpr htt⟩), hr, if_neg (by simp), ht]
    have hv := h.chkVisit true ho'
    rw [htype, hty] at hv
    have hsome : (inoGet s e.ino).isSome := by
      rw [hget]
      rfl
    obtain ⟨hw, hin', hleft⟩ := h.visit hs hin hsome hv
    exact ⟨_, G, slots, rfl, hw, hin', hst.visit hsome hv, hleft⟩

/-- **The entries that are left.** -/
theorem Reading.entries {n : Nat} (h : Reading g f G₀ s (some d) G c) (hs : Orderly g f G₀ s)
    (hin : InList g f G₀ s G c d m slots done todo)
    (hst : Stacked s O (done ++ todo) done rest c) (hn : todo.length < n) :
    ∃ c' G' slots', chkEntries true d n (done.filter fun e => (inoGet s e.ino).isSome).length c
        = some c' ∧
      Reading g f G₀ s (some d) G' c' ∧ InList g f G₀ s G' c' d m slots' (done ++ todo) [] ∧
      Stacked s O (done ++ todo) (done ++ todo) rest c' ∧ c'.left g ≤ c.left g := by
  induction n generalizing c G slots done todo with
  | zero => omega
  | succ n ih =>
    obtain ⟨t, hget⟩ := Option.isSome_iff_exists.mp hin.get
    obtain ⟨hd0, hdlt⟩ := h.ok.bound d _ hin.dir
    have ht : t = (view g c.s.disk).ino d := by
      rw [hs.faulty.inoGet_eq hd0 hdlt] at hget
      split at hget
      · rw [← Option.some.inj hget, h.ino]
      · exact nomatch hget
    obtain ⟨o₀, hd₀⟩ := Option.ne_none_iff_exists'.mp fun hc => by
      have hdir := hin.dir
      rw [(h.dom d).mpr hc] at hdir
      exact absurd hdir (by simp)
    have hhead : (view g c.s.disk).Head f ((view g c.s.disk).ino d) m := by
      rw [h.ino]
      exact hin.head.congr (h.refs d o₀ hd₀)
    have hnth := h.faulty.dirNth_eq h.rep hin.dir hhead ((h.inoGet_eq hs d).trans hget) ht
      (done.filter fun e => (inoGet s e.ino).isSome).length
    rw [hin.ents, List.getElem?_append_right (Nat.le_refl _), Nat.sub_self] at hnth
    unfold chkEntries
    cases todo with
    | nil =>
      refine ⟨c, G, slots, ?_, h, by rw [List.append_nil]; exact hin,
        by rw [List.append_nil]; rw [List.append_nil] at hst; exact hst, Nat.le_refl _⟩
      split
      · next e heq =>
        rw [heq] at hnth
        exact nomatch hnth
      · rfl
    | cons e todo =>
      obtain ⟨c', G', slots', heq, hw, hin', hst', hleft⟩ := h.entry hs hin hst
      have hdone : (done ++ [e] ++ todo) = done ++ e :: todo := by
        rw [List.append_assoc, List.singleton_append]
      have hnth' : dirNth c.s d (done.filter fun e => (inoGet s e.ino).isSome).length
          = some (some e) := by
        exact Option.join_eq_some_iff.mp hnth
      rw [hnth']
      dsimp only
      rw [heq]
      obtain ⟨c'', G'', slots'', heq', hw'', hin'', hst'', hleft'⟩ :=
        ih hw hin' (by rw [hdone]; exact hst') (by rw [List.length_cons] at hn; omega)
      rw [hdone] at hin'' hst''
      refine ⟨c'', G'', slots'', ?_, hw'', hin'', hst'', hleft'.trans hleft⟩
      rw [List.filter_append, List.filter_singleton] at heq'
      cases hi : inoGet s e.ino with
      | none =>
        rw [hi, Option.isSome_none, cond_false, List.append_nil] at heq'
        exact heq'
      | some t =>
        rw [hi, Option.isSome_some, cond_true, List.length_append] at heq'
        exact heq'

/-! ## The whole walk -/

/-- The directories that are left to be walked, unless there were too many. -/
def Pending (s : St) (O : Prop) (c : Chk) : Prop :=
  (c.r.incomplete = false ∧ c.stack.length ≤ chkStack ∧ (Overflows s c.stack ↔ O)) ∨
    (c.r.incomplete = true ∧ O)

/-- The next directory is taken from the stack. -/
theorem Reading.pop {r : Report} {stack : List Nat} (h : Reading g f G₀ s none G c)
    (hstack : c.stack = d :: stack) (hr : r.incomplete = c.r.incomplete) :
    Reading g f G₀ s (some d) G { c with stack := stack, r := r } := by
  have hsub : ∀ x, x ∉ c.stack → x ∉ stack := fun x hx hm =>
    hx (by rw [hstack]; exact List.mem_cons_of_mem d hm)
  have hmem : ∀ x, x ∈ stack → x ∈ c.stack := fun x hx => by
    rw [hstack]
    exact List.mem_cons_of_mem d hx
  refine ⟨h.faulty, h.ok, h.rep, h.ino, h.bit, h.kind, h.refs, fun x hx =>
    h.fresh x (hx.imp id (hmem x)), h.met, fun j hj => (h.named j hj).imp id ?_, h.root,
    fun x hx => h.stack x (hmem x hx), (hstack ▸ h.nodup : (d :: stack).Nodup).of_cons, ?_, h.same⟩
  · rintro ⟨x, e, he, hj, hx, hxs⟩
    exact ⟨x, e, he, hj, hx, hsub x hxs⟩
  · intro hinc x hx hxs hcur es hes
    refine h.closed (hr.symm.trans hinc) x hx (fun hm => ?_) (by simp) es hes
    rw [hstack, List.mem_cons] at hm
    rcases hm with rfl | hm
    · exact hcur rfl
    · exact hxs hm

/-- A directory has been walked. -/
theorem Reading.close (h : Reading g f G₀ s (some d) G c) {es : List Dent} (hl : Lists s d es)
    (hseen : ∀ e ∈ es, (inoGet s e.ino).isSome → c.reach e.ino = true) :
    Reading g f G₀ s none G c := by
  refine { h with closed := fun hinc x hx hxs _ es' hes' e he hi => ?_ }
  by_cases hxd : x = d
  · subst hxd
    obtain rfl := hl.unique hes'
    exact hseen e he hi
  · exact h.closed hinc x hx hxs (fun hc => hxd (Option.some.inj hc).symm) es' hes' e he hi

/-- The walk comes into a directory. -/
theorem Reading.start {r : Report} {stack : List Nat} (h : Reading g f G₀ s none G c)
    (hs : Orderly g f G₀ s) (hstack : c.stack = d :: stack) (hget : (inoGet s d).isSome) :
    ∃ m slots es, InList g f G₀ s G { c with stack := stack, r := r } d m slots [] es ∧
      es.length < entriesFuel ((view g s.disk).ino d) := by
  obtain ⟨hdr, sl, hd₀⟩ := h.stack d (by rw [hstack]; exact List.mem_cons_self)
  obtain ⟨hd0, hdlt⟩ := hs.tree.ok.bound d _ hd₀
  obtain ⟨m, hm⟩ := (view g s.disk).exists_head f ((view g s.disk).ino d)
  have hdir : G d = some (.dir sl) := by
    rw [h.fresh d (Or.inr (by rw [hstack]; exact List.mem_cons_self)), hd₀]
  have hsub : ∀ e ∈ ents (sl.take (8 * m)), e ∈ ents sl := fun e he => by
    rw [← List.take_append_drop (8 * m) sl, ents_append]
    exact List.mem_append_left _ he
  have hnd : (ents sl).Nodup := List.Nodup.of_map _ (hs.tree.ok.names d sl hd₀)
  have hlen : (ents (sl.take (8 * m))).length ≤ (ents sl).length := by
    conv_rhs => rw [← List.take_append_drop (8 * m) sl, ents_append, List.length_append]
    exact Nat.le_add_right _ _
  refine ⟨m, sl, ents (sl.take (8 * m)), ⟨hget, hdir, hm, ?_, fun e he => ⟨sl, hd₀, hsub e he⟩, ?_,
    rfl, hdr, ?_, fun e he => absurd he List.not_mem_nil, ?_⟩,
    Nat.lt_of_le_of_lt hlen (hs.rep.dirRep hd₀).entriesFuel⟩
  · obtain ⟨t, hget⟩ := Option.isSome_iff_exists.mp hget
    have ht : t = (view g s.disk).ino d := by
      rw [hs.faulty.inoGet_eq hd0 hdlt] at hget
      split at hget
      · exact (Option.some.inj hget).symm
      · exact nomatch hget
    exact hs.faulty.dirNth_eq hs.rep hd₀ hm hget ht
  · rw [← List.take_append_drop (8 * m) sl, ents_append] at hnd
    exact (List.nodup_append.mp hnd).1
  · exact (List.nodup_cons.mp (hstack ▸ h.nodup : (d :: stack).Nodup)).1
  · intro e he
    have hent : Entry G₀ d e := ⟨sl, hd₀, hsub e he⟩
    refine Bool.eq_false_iff.mpr fun hc => ?_
    rcases h.named e.ino hc with hroot | ⟨x, e', he', hino, -, hx⟩
    · exact (hs.tree.ok.entry d e hent).1 hroot
    · -- another directory that has been walked would name it
      obtain rfl : x = d := (hs.tree.single _ _ _ _ _ he'.edge (hino ▸ hent.edge)).1
      exact hx (by rw [hstack]; exact List.mem_cons_self)

theorem Reading.run {n : Nat} (h : Reading g f G₀ s none G c) (hs : Orderly g f G₀ s)
    (hp : Pending s O c) (hn : c.left g ≤ n) :
    ∃ c' G', chkWalk true n c = some c' ∧ Reading g f G₀ s none G' c' ∧ c'.stack = [] ∧
      (c'.r.incomplete = true ↔ O) := by
  have hend : ∀ {c' : Chk}, c'.stack = [] → Pending s O c' → (c'.r.incomplete = true ↔ O) := by
    rintro c' hnil (⟨hinc, -, hO⟩ | ⟨hinc, hO⟩)
    · rw [hnil] at hO
      exact iff_of_false (by rw [hinc]; simp) fun hc => not_overflows_nil (hO.mpr hc)
    · exact iff_of_true hinc hO
  induction n generalizing c G with
  | zero =>
    have hnil : c.stack = [] := List.eq_nil_iff_length_eq_zero.mpr (by unfold Chk.left at hn; omega)
    refine ⟨c, G, ?_, h, hnil, hend hnil hp⟩
    unfold chkWalk
    rw [hnil]
  | succ n ih =>
    unfold chkWalk
    cases hstack : c.stack with
    | nil => exact ⟨c, G, rfl, h, hstack, hend hstack hp⟩
    | cons d stack =>
      dsimp only
      rw [h.inoGet_eq hs]
      have hleft : ∀ r, Chk.left g { c with stack := stack, r := r } ≤ n := fun r => by
        unfold Chk.left at hn ⊢
        rw [hstack, List.length_cons] at hn
        dsimp only
        omega
      have hover : ∀ es, Lists s d es →
          (c.r.incomplete = false ∧ stack.length ≤ chkStack ∧
            (Overflows s ((subdirs s es).reverse ++ stack) ↔ O)) ∨ (c.r.incomplete = true ∧ O) := by
        intro es hes
        refine hp.imp ?_ id
        rintro ⟨hinc, hlen, hO⟩
        refine ⟨hinc, ?_, ?_⟩
        · rw [hstack, List.length_cons] at hlen
          omega
        · rw [hstack] at hlen hO
          exact (overflows_cons hlen hes).symm.trans hO
      cases hget : inoGet s d with
      | none =>
        have hlists : Lists s d [] := fun idx => by
          unfold dirNth
          rw [hget]
          rfl
        refine ih ((h.pop hstack rfl).close hlists fun e he => absurd he List.not_mem_nil) ?_
          (hleft c.r)
        exact hover [] hlists
      | some t =>
        have hsome : (inoGet s d).isSome := by rw [hget]; rfl
        obtain ⟨-, sl, hd₀⟩ := h.stack d (by rw [hstack]; exact List.mem_cons_self)
        obtain ⟨hd0, hdlt⟩ := hs.tree.ok.bound d _ hd₀
        have ht : t = (view g s.disk).ino d := by
          rw [hs.faulty.inoGet_eq hd0 hdlt] at hget
          split at hget
          · exact (Option.some.inj hget).symm
          · cases hget
        obtain ⟨m, slots, es, hin, hfuel⟩ :=
          h.start (r := { c.r with dirs := c.r.dirs + 1 }) hs hstack hsome
        have hw : Reading g f G₀ s (some d) G
            { c with stack := stack, r := { c.r with dirs := c.r.dirs + 1 } } := h.pop hstack rfl
        have hst : Stacked s O ([] ++ es) [] stack
            { c with stack := stack, r := { c.r with dirs := c.r.dirs + 1 } } :=
          (hover es hin.lists).imp (fun h => ⟨h.1, rfl, h.2⟩) id
        obtain ⟨c', G', slots', heq, hw', hin', hst', hleft'⟩ :=
          hw.entries (n := entriesFuel ((view g s.disk).ino d)) hs hin hst hfuel
        have hblock := Faulty.eachBlock (c := { c with
          stack := stack, r := { c.r with dirs := c.r.dirs + 1 } }) true h.faulty h.rep hin.dir
        have hlists' : Lists s d ([] ++ es) := by
          have := hin'.lists
          rwa [List.append_nil] at this
        obtain ⟨c'', G'', heq', hw'', hnil, hinc⟩ := ih (hw'.close hlists' hin'.seen) (by
          refine hst'.imp ?_ id
          rintro ⟨hinc, hpush, hlen, hO⟩
          refine ⟨hinc, hlen, ?_⟩
          rw [hpush]
          exact hO) (hleft'.trans (hleft _))
        refine ⟨c'', G'', ?_, hw'', hnil, hinc⟩
        dsimp only at hblock ⊢
        rw [ht, ← h.ino, hblock]
        rw [h.ino]
        rw [show chkEntries true d (entriesFuel ((view g s.disk).ino d)) 0 _ = some c' from heq]
        exact heq'

/-- **What the walk leaves.** -/
theorem chkWalk_reading (hs : Orderly g f G₀ s) :
    ∃ c G, chkWalk true s.vol.inode_count (Chk.start s) = some c ∧ Reading g f G₀ s none G c ∧
      (c.r.incomplete = true ↔ Overflows s [rootIno]) ∧
      (c.r.incomplete = false → ∀ j, c.reach j = true ↔ Met s j) := by
  have hroot : ∀ j, (Chk.start s).reach j = true ↔ j = rootIno := fun j => beq_iff_eq
  have hstart : Reading g f G₀ s none G₀ (Chk.start s) := by
    refine ⟨hs.faulty, hs.tree.ok, hs.rep, rfl, rfl, rfl, fun _ _ _ _ => rfl, fun _ _ => rfl, ?_, ?_,
      (hroot _).mpr rfl, ?_, List.nodup_singleton _, ?_, fun _ => rfl⟩
    · intro j hj
      obtain rfl := (hroot j).mp hj
      exact .root
    · exact fun j hj => Or.inl ((hroot j).mp hj)
    · intro d hd
      obtain rfl := List.mem_singleton.mp hd
      exact ⟨(hroot _).mpr rfl, hs.tree.ok.root⟩
    · intro _ d hd hds
      exact absurd (List.mem_singleton.mpr ((hroot d).mp hd)) hds
  have hleft : (Chk.start s).left g ≤ s.vol.inode_count := by
    rw [hs.faulty.geo]
    exact Chk.start_left hs.tree.ok s
  obtain ⟨c, G, hc, hw, hnil, hinc⟩ := hstart.run (O := Overflows s [rootIno]) hs
    (Or.inl ⟨rfl, show 1 ≤ chkStack by decide, Iff.rfl⟩) hleft
  refine ⟨c, G, hc, hw, hinc, fun hfull j => ⟨hw.met j, fun hj => ?_⟩⟩
  have hnot : ∀ d, d ∉ c.stack := fun d => by
    rw [hnil]
    exact List.not_mem_nil
  induction hj with
  | root => exact hw.root
  | entry hd hl he hi ih => exact hw.closed hfull _ ih (hnot _) (by simp) _ hl _ he hi

end Walk

end Mwfs
