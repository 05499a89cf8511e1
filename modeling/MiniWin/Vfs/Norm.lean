import MiniWin.Lib.LexPath
import MiniWin.Mwfs.Basic

/-!
# Path names

`vfs_norm` of `kernel/vfs.h`. A path name is joined to the current directory in a scratch buffer
that is longer than a path, and its components are copied from there one by one, with a stack of
where each begins.
-/

namespace Vfs

open Mwfs LexPath

abbrev Text := List UInt8

/-- `VFS_PATH_MAX`. -/
def pathMax : Nat := 96

def slash : UInt8 := 0x2F
def here : Text := [0x2E]
def up : Text := [0x2E, 0x2E]

/-- The characters that `tmp` holds, its terminator apart. -/
def tmpMax : Nat := pathMax * 2 + 1

/-- The components that `comp_start` has room for. -/
def compMax : Nat := 40

/-- `tmp`: what is kept of the current directory and of the path. -/
def scratch (cwd path : Text) : Text :=
  let tmp :=
    if path.head? ≠ some slash then
      let tmp := cwd.take (tmpMax - 1)
      if tmp ≠ [] ∧ tmp.getLast? ≠ some slash then tmp ++ [slash] else tmp
    else []
  tmp ++ path.take (tmpMax - tmp.length)

/-- `out`, and `comp_start` from its top down. -/
structure Built where
  out : Text
  starts : List Nat

/-- One component. -/
def component (outmax : Nat) (c : Text) (b : Built) : Except Err Built :=
  if c = here then .ok b
  else if c = up then
    match b.starts with
    | [] => .ok b
    | start :: starts => .ok { out := b.out.take start, starts := starts }
  else if c.length > nameMax then .error .name
  else if b.starts.length ≥ compMax then .error .name
  else if b.out.length + c.length + 2 > outmax then .error .name
  else
    let out := if b.out.length > 1 then b.out ++ [slash] else b.out
    let start := if out.length > 1 ∧ out.getLast? = some slash then out.length - 1 else out.length
    .ok { out := out ++ c, starts := start :: b.starts }

/-- The next component, and what is behind it. -/
def nextComp (tmp : Text) : Option (Text × Text) :=
  match tmp.dropWhile (· = slash) with
  | [] => none
  | c :: tmp => some ((c :: tmp).takeWhile (· ≠ slash), (c :: tmp).dropWhile (· ≠ slash))

/-- The loop of `vfs_norm`, which reads at least one character a round. -/
def build (outmax : Nat) : Nat → Text → Built → Except Err Built
  | 0, _, b => .ok b
  | rounds + 1, tmp, b =>
    match nextComp tmp with
    | none => .ok b
    | some (c, tmp) => (component outmax c b).bind (build outmax rounds tmp)

/-- `vfs_norm`, in the current directory `cwd`. -/
def norm (cwd path : Text) (outmax : Nat) : Except Err Text :=
  let tmp := scratch cwd path
  (build outmax (tmp.length + 1) tmp { out := [slash], starts := [] }).map fun b =>
    if b.out.length > 1 ∧ b.out.getLast? = some slash then b.out.dropLast else b.out

example : norm [slash, 97, slash, 98] (up ++ [slash] ++ up ++ [slash] ++ up ++ [slash, 99]) pathMax
    = .ok [slash, 99] := by decide

/-! ## The components -/

variable {cwd path tmp tmp' c : Text} {cs front : List Text} {b b' : Built} {outmax rounds : Nat}

/-- **What has been written is a list of components**, and the stack says where each begins. -/
structure Shows (cs : List Text) (b : Built) : Prop where
  full : ∀ c ∈ cs, c ≠ []
  out : b.out = text slash cs
  starts : b.starts = (List.range cs.length).reverse.map fun k => (text slash (cs.take k)).length

theorem shows_nil : Shows [] { out := [slash], starts := [] } :=
  ⟨fun _ h => (nomatch h), rfl, rfl⟩

theorem Shows.length_starts (h : Shows cs b) : b.starts.length = cs.length := by
  rw [h.starts, List.length_map, List.length_reverse, List.length_range]

/-- One more component, and where it begins. -/
theorem Shows.concat (h : Shows cs b) (hc : c ≠ []) :
    Shows (cs ++ [c]) { out := text slash (cs ++ [c]), starts := b.out.length :: b.starts } := by
  refine ⟨fun d hd => ?_, rfl, ?_⟩
  · rcases List.mem_append.mp hd with hd | hd
    · exact h.full d hd
    · rwa [List.mem_singleton.mp hd]
  dsimp only
  rw [List.length_append, List.length_singleton, List.range_succ, List.reverse_append,
    List.reverse_singleton, List.singleton_append, List.map_cons, List.take_left, h.out, h.starts]
  congr 1
  refine List.map_congr_left fun k hk => ?_
  rw [List.mem_reverse, List.mem_range] at hk
  rw [List.take_append_of_le_length (Nat.le_of_lt hk)]

/-- The last component is taken back. -/
theorem Shows.dropLast {start : Nat} {starts : List Nat} (h : Shows cs b)
    (hs : b.starts = start :: starts) :
    Shows cs.dropLast { out := b.out.take start, starts := starts } := by
  rcases List.eq_nil_or_concat' cs with rfl | ⟨cs, c, rfl⟩
  · rw [h.starts] at hs
    exact nomatch hs
  · have hall := h.starts
    rw [hs, List.length_append, List.length_singleton, List.range_succ, List.reverse_append,
      List.reverse_singleton, List.singleton_append, List.map_cons, List.take_left] at hall
    obtain ⟨rfl, rfl⟩ := List.cons.inj hall
    rw [List.dropLast_concat]
    refine ⟨fun d hd => h.full d (List.mem_append_left _ hd), ?_, List.map_congr_left fun k hk => ?_⟩
    · rw [h.out]
      dsimp only
      rw [text_concat]
      split
      · next hnil => rw [hnil]; rfl
      · rw [List.append_assoc, List.take_left]
    · rw [List.mem_reverse, List.mem_range] at hk
      rw [List.take_append_of_le_length (Nat.le_of_lt hk)]

/-- There is room for the component `c` behind these: it is not too long, it is not one too many,
and the path with it fits. -/
def Room (outmax : Nat) (cs : List Text) (c : Text) : Prop :=
  c.length ≤ nameMax ∧ cs.length < compMax ∧ (text slash cs).length + c.length + 2 ≤ outmax

/-- **One component**: it does to the path what it means, or there is no room for it. -/
theorem Shows.component (h : Shows cs b) (outmax : Nat) (hc : c ≠ []) :
    (∃ b', component outmax c b = .ok b' ∧ Shows (step here up cs c) b'
      ∧ (c ≠ here → c ≠ up → Room outmax cs c))
    ∨ component outmax c b = .error .name ∧ c ≠ here ∧ c ≠ up ∧ ¬ Room outmax cs c := by
  have hcount := h.length_starts
  have hout := h.out
  unfold Vfs.component step
  split
  · next hhere => exact .inl ⟨b, rfl, h, fun hne => absurd hhere hne⟩
  next hhere =>
  split
  · next hup =>
    refine .inl ?_
    cases hs : b.starts with
    | nil =>
      rw [hs] at hcount
      obtain rfl := List.length_eq_zero_iff.mp hcount.symm
      exact ⟨b, rfl, h, fun _ hne => absurd hup hne⟩
    | cons start starts => exact ⟨_, rfl, h.dropLast hs, fun _ hne => absurd hup hne⟩
  next hup =>
  split
  · exact .inr ⟨rfl, hhere, hup, fun hroom => by have := hroom.1; omega⟩
  split
  · exact .inr ⟨rfl, hhere, hup, fun hroom => by have := hroom.2.1; omega⟩
  split
  · exact .inr ⟨rfl, hhere, hup, fun hroom => by have := hroom.2.2; rw [hout] at *; omega⟩
  next hlong hmany hfit =>
  refine .inl ⟨_, rfl, ?_, fun _ _ => ⟨by omega, by omega, by rw [← hout]; omega⟩⟩
  have hconcat := h.concat hc
  rw [text_concat, ← hout] at hconcat
  by_cases hnil : cs = []
  · -- the first component stands behind the separator of the root
    have hroot : b.out = [slash] := by rw [hout, hnil]; rfl
    rw [if_pos hnil] at hconcat
    rw [hroot] at hconcat ⊢
    exact hconcat
  · have hlong : b.out.length > 1 := by
      rw [hout]
      exact one_lt_length_text hnil h.full
    rw [if_neg hnil] at hconcat
    rw [if_pos hlong, if_pos ⟨by rw [List.length_append]; omega, List.getLast?_concat⟩,
      List.length_append, List.length_singleton, Nat.add_sub_cancel]
    exact hconcat

/-! ## The loop -/

theorem nextComp_none (h : nextComp tmp = none) : comps slash tmp = [] := by
  unfold nextComp at h
  rw [← comps_dropWhile]
  split at h
  · next hnil => rw [hnil]; rfl
  · cases h

/-- **The loop takes the components one by one.** -/
theorem nextComp_some (h : nextComp tmp = some (c, tmp')) :
    comps slash tmp = c :: comps slash tmp' ∧ tmp'.length < tmp.length := by
  unfold nextComp at h
  split at h
  · cases h
  next x t ht =>
  obtain ⟨rfl, rfl⟩ := Prod.mk.inj (Option.some.inj h)
  have hx : x ≠ slash := by
    have hhead := List.head?_dropWhile_not (· = slash) tmp
    rw [ht] at hhead
    simpa using hhead
  refine ⟨by rw [← comps_dropWhile, ht, comps_takeWhile hx], ?_⟩
  have hdrop := (List.dropWhile_sublist (· = slash) (l := tmp)).length_le
  have hrest := (List.dropWhile_sublist (· ≠ slash) (l := t)).length_le
  rw [ht, List.length_cons] at hdrop
  rw [List.dropWhile_cons_of_pos (by simpa using hx)]
  omega

/-- Every component that is pushed finds room, when these come behind `done`. -/
def Accepted (outmax : Nat) (done cs : List Text) : Prop :=
  ∀ front c, front ++ [c] <+: cs → c ≠ here → c ≠ up → Room outmax (normal here up (done ++ front)) c

theorem accepted_nil (outmax : Nat) (done : List Text) : Accepted outmax done [] :=
  fun front c h => absurd (List.prefix_nil.mp h) (by simp)

theorem accepted_cons {done : List Text} : Accepted outmax done (c :: cs) ↔
    (c ≠ here → c ≠ up → Room outmax (normal here up done) c)
      ∧ Accepted outmax (done ++ [c]) cs := by
  constructor
  · intro h
    refine ⟨fun hhere hup => ?_, fun front d hd => ?_⟩
    · have := h [] c (by simp) hhere hup
      rwa [List.append_nil] at this
    · have := h (c :: front) d (by simpa using hd)
      rwa [List.append_cons] at this
  · rintro ⟨hc, hrest⟩ front d hd hhere hup
    cases front with
    | nil =>
      obtain ⟨rfl, -⟩ := List.cons_prefix_cons.mp hd
      rw [List.append_nil]
      exact hc hhere hup
    | cons e front =>
      obtain ⟨rfl, htail⟩ := List.cons_prefix_cons.mp hd
      rw [List.append_cons]
      exact hrest front d htail hhere hup

/-- **The loop puts the text into normal form**, or finds no room for a component. -/
theorem build_spec (outmax : Nat) : ∀ {rounds : Nat} {tmp : Text} {b : Built} {done : List Text},
    tmp.length < rounds → Shows (normal here up done) b →
      (Accepted outmax done (comps slash tmp) ∧ ∃ b', build outmax rounds tmp b = .ok b'
        ∧ Shows (normal here up (done ++ comps slash tmp)) b')
      ∨ (¬ Accepted outmax done (comps slash tmp) ∧ build outmax rounds tmp b = .error .name)
  | 0, _, _, _, hr, _ => absurd hr (Nat.not_lt_zero _)
  | rounds + 1, tmp, b, done, hr, h => by
    unfold build
    cases hnext : nextComp tmp with
    | none =>
      rw [nextComp_none hnext, List.append_nil]
      exact .inl ⟨accepted_nil outmax done, b, rfl, h⟩
    | some p =>
      obtain ⟨c, tmp'⟩ := p
      obtain ⟨hcomps, hlt⟩ := nextComp_some hnext
      have hc : c ≠ [] := (mem_comps (t := tmp) (hcomps ▸ List.mem_cons_self)).1
      dsimp only
      rw [hcomps, accepted_cons]
      rcases h.component outmax hc with ⟨b', hb, hshows, hroom⟩ | ⟨hb, hhere, hup, hno⟩
      · rw [← normal_concat] at hshows
        rw [hb]
        rcases build_spec outmax (show tmp'.length < rounds by omega) hshows with
          ⟨hacc, b'', hb', hshows'⟩ | ⟨hacc, hb'⟩
        · rw [List.append_assoc] at hshows'
          exact .inl ⟨⟨hroom, hacc⟩, b'', hb', hshows'⟩
        · exact .inr ⟨fun hall => hacc hall.2, hb'⟩
      · rw [hb]
        exact .inr ⟨fun hall => hno (hall.1 hhere hup), rfl⟩

/-! ## `vfs_norm` -/

/-- **What comes of the text in the scratch buffer.** -/
theorem norm_cases (cwd path : Text) (outmax : Nat) :
    (Accepted outmax [] (comps slash (scratch cwd path)) ∧ norm cwd path outmax
      = .ok (text slash (normal here up (comps slash (scratch cwd path)))))
    ∨ (¬ Accepted outmax [] (comps slash (scratch cwd path)) ∧ norm cwd path outmax = .error .name) := by
  unfold norm
  dsimp only
  generalize scratch cwd path = tmp
  have hstart : Shows (normal here up []) { out := [slash], starts := [] } := shows_nil
  rcases build_spec outmax (Nat.lt_succ_self tmp.length) hstart with ⟨hacc, b, hb, hshows⟩ | ⟨hacc, hb⟩
  · refine .inl ⟨hacc, ?_⟩
    rw [List.nil_append] at hshows
    rw [hb, ← hshows.out]
    -- the path does not end with a separator that is to be taken away
    have hlast : ¬ (b.out.length > 1 ∧ b.out.getLast? = some slash) := by
      rintro ⟨hlong, hend⟩
      rw [hshows.out] at hlong hend
      rw [text_getLast (fun c hc => mem_comps (mem_normal hc).1) hend] at hlong
      exact absurd hlong (by decide)
    show Except.ok (if _ then _ else _) = _
    rw [if_neg hlast]
  · rw [hb]
    exact .inr ⟨hacc, rfl⟩

/-- The current directory is the text of a normal form, and fits `vfs_cwd`. -/
def Canonical (cwd : Text) : Prop :=
  ∃ cs : List Text, (∀ c ∈ cs, c ≠ [] ∧ slash ∉ c ∧ c ≠ here ∧ c ≠ up ∧ c.length ≤ nameMax)
    ∧ cwd = text slash cs ∧ cwd.length < pathMax

/-- The path name behind the current directory, or on its own if it is absolute. -/
def joined (cwd path : Text) : Text :=
  if path.head? = some slash then path
  else if cwd = [slash] then slash :: path else cwd ++ slash :: path

/-- **The lexical normal form**: the components of the current directory, if the path is relative,
and those of the path, without `.` and with each `..` taking back the one in front of it. -/
def wanted (cwd path : Text) : List Text :=
  normal here up ((if path.head? = some slash then [] else comps slash cwd) ++ comps slash path)

theorem normal_joined (cwd path : Text) :
    normal here up (comps slash (joined cwd path)) = wanted cwd path := by
  unfold joined wanted
  split
  · rfl
  split
  · next hroot =>
    rw [hroot, comps_cons_sep, comps_cons_sep]
    rfl
  · rw [comps_append]

/-- **The scratch buffer keeps the first `193` characters.** -/
theorem scratch_eq (h : Canonical cwd) (path : Text) :
    scratch cwd path = (joined cwd path).take tmpMax := by
  obtain ⟨cs, hcs, hcwd, hfit⟩ := h
  unfold pathMax at hfit
  unfold scratch joined tmpMax pathMax
  by_cases habs : path.head? = some slash
  · rw [if_pos habs, if_neg (not_not.mpr habs)]
    rfl
  · rw [if_neg habs, if_pos habs, List.take_of_length_le (by omega)]
    by_cases hroot : cwd = [slash]
    · rw [if_pos hroot, hroot]
      rfl
    · have hlast : cwd ≠ [] ∧ cwd.getLast? ≠ some slash := by
        refine ⟨fun hnil => ?_, fun hend => hroot ?_⟩
        · have hlen := length_text slash cs
          rw [← hcwd, hnil, List.length_nil] at hlen
          omega
        · rw [hcwd] at hend ⊢
          rw [text_getLast (fun c hc => ⟨(hcs c hc).1, (hcs c hc).2.1⟩) hend]
          rfl
      have hkept : (cwd ++ [slash]).length ≤ 96 * 2 + 1 := by
        rw [List.length_append, List.length_singleton]
        omega
      rw [if_neg hroot, if_pos hlast, List.append_cons cwd slash path, List.take_append,
        List.take_of_length_le hkept]

/-- The joined text begins with a separator, and so does what is kept of it. -/
theorem take_joined (h : Canonical cwd) (path : Text) :
    ∃ t, (joined cwd path).take tmpMax = slash :: t := by
  obtain ⟨cs, -, hcwd, -⟩ := h
  have hhead : ∃ t, joined cwd path = slash :: t := by
    unfold joined
    split
    · next habs =>
      cases path with
      | nil => exact nomatch habs
      | cons c path => exact ⟨path, by rw [Option.some.inj habs]⟩
    split
    · exact ⟨path, rfl⟩
    · rw [hcwd]
      unfold text
      split
      · exact ⟨_, rfl⟩
      · next hne =>
        obtain ⟨c, cs, rfl⟩ := List.exists_cons_of_ne_nil hne
        exact ⟨_, rfl⟩
  obtain ⟨t, ht⟩ := hhead
  exact ⟨_, by rw [ht]; rfl⟩

/-- **Every component of the normal form had room where it stands.** -/
theorem Accepted.room (h : Accepted outmax [] cs) (front : List Text) (c : Text) :
    front ++ [c] <+: normal here up cs → Room outmax front c := by
  induction cs using List.reverseRecOn with
  | nil => exact fun hp => absurd (List.prefix_nil.mp hp) (by simp)
  | append_singleton cs d ih =>
    have hcs : Accepted outmax [] cs := fun front c hp => h front c (hp.trans (List.prefix_append _ _))
    have hd := h cs d (List.prefix_refl _)
    rw [normal_concat]
    unfold step
    split
    · exact ih hcs
    split
    · exact fun hp => ih hcs (hp.trans (List.dropLast_prefix _))
    · next hhere hup =>
      intro hp
      rcases List.prefix_concat_iff.mp hp with heq | hp
      · obtain ⟨rfl, hc⟩ := List.append_inj' heq rfl
        obtain rfl := (List.cons.inj hc).1
        exact hd hhere hup
      · exact ih hcs hp

/-- The normal form ends in front of `outmax`. -/
theorem Accepted.length_lt (h : Accepted outmax [] cs) (hmax : 2 ≤ outmax) :
    (text slash (normal here up cs)).length < outmax := by
  rcases List.eq_nil_or_concat' (normal here up cs) with hnil | ⟨front, c, hconcat⟩
  · rw [hnil]
    exact hmax
  · obtain ⟨-, -, hfit⟩ := h.room front c (hconcat ▸ List.prefix_rfl)
    have hlen : (text slash (front ++ [c])).length ≤ (text slash front).length + 1 + c.length := by
      rw [text_concat]
      split
      · rw [List.length_append, List.length_singleton]
        omega
      · rw [List.length_append, List.length_append, List.length_singleton]
    rw [hconcat]
    omega

/-- **A normal form stays as it is**, in any current directory. -/
theorem norm_text (hcs : ∀ c ∈ cs, (c ≠ [] ∧ slash ∉ c) ∧ c ≠ here ∧ c ≠ up)
    (hlen : (text slash cs).length ≤ tmpMax)
    (hroom : ∀ front c, front ++ [c] <+: cs → Room outmax front c) (cwd : Text) :
    norm cwd (text slash cs) outmax = .ok (text slash cs) := by
  have hhead : (text slash cs).head? = some slash := by
    unfold text
    split
    · rfl
    · next hne =>
      obtain ⟨c, cs, rfl⟩ := List.exists_cons_of_ne_nil hne
      rfl
  have hscratch : scratch cwd (text slash cs) = text slash cs := by
    unfold scratch
    rw [if_neg (not_not.mpr hhead)]
    exact List.take_of_length_le hlen
  have hcomps : comps slash (text slash cs) = cs := comps_text fun c hc => (hcs c hc).1
  have hplain : ∀ {front : List Text}, front <+: cs → normal here up front = front := fun hp =>
    normal_of_plain fun c hc => (hcs c (hp.subset hc)).2
  have hcases := norm_cases cwd (text slash cs) outmax
  rw [hscratch, hcomps, hplain (List.prefix_refl cs)] at hcases
  rcases hcases with ⟨-, hok⟩ | ⟨hacc, -⟩
  · exact hok
  · refine absurd (fun front c hp _ _ => ?_) hacc
    rw [List.nil_append, hplain ((List.prefix_append _ _).trans hp)]
    exact hroom front c hp

/-- **`vfs_norm` refuses the path, or gives its lexical normal form**, whose components are not too
long, which ends in front of `outmax`, and which is its own normal form. -/
def Normalises (cwd path : Text) (outmax : Nat) : Prop :=
  norm cwd path outmax = .error .name ∨ ∃ out, norm cwd path outmax = .ok out
    ∧ out = text slash (wanted cwd path) ∧ (∀ c ∈ wanted cwd path, c.length ≤ nameMax)
    ∧ out.length < outmax ∧ (out.getLast? = some slash → out = [slash])
    ∧ ∀ cwd', norm cwd' out outmax = .ok out

/-- The components of what `vfs_norm` keeps of the joined text, its first `193` characters. -/
def kept (cwd path : Text) : List Text := comps slash ((joined cwd path).take tmpMax)

theorem full_normal (t : Text) : ∀ c ∈ normal here up (comps slash t), c ≠ [] ∧ slash ∉ c :=
  fun _ hc => mem_comps (mem_normal hc).1

theorem norm_kept (hcwd : Canonical cwd) (path : Text) (outmax : Nat) :
    (Accepted outmax [] (kept cwd path)
      ∧ norm cwd path outmax = .ok (text slash (normal here up (kept cwd path))))
    ∨ (¬ Accepted outmax [] (kept cwd path) ∧ norm cwd path outmax = .error .name) := by
  have hcases := norm_cases cwd path outmax
  rw [scratch_eq hcwd] at hcases
  exact hcases

/-- Where what is kept has the normal form of the whole path, it is what comes out. -/
theorem normalises_of_kept (hcwd : Canonical cwd) (hmax : 2 ≤ outmax)
    (hform : normal here up (kept cwd path) = wanted cwd path) : Normalises cwd path outmax := by
  rcases norm_kept hcwd path outmax with ⟨hacc, hok⟩ | ⟨-, herr⟩
  · refine .inr ⟨_, hok, congrArg (text slash) hform, fun c hc => ?_, hacc.length_lt hmax,
      fun hend => ?_, fun cwd' => ?_⟩
    · obtain ⟨front, back, hsplit⟩ := List.append_of_mem (hform ▸ hc)
      exact (hacc.room front c ⟨back, by
        rw [hsplit, List.append_assoc]
        rfl⟩).1
    · have hroot : normal here up (kept cwd path) = [] := text_getLast (full_normal _) hend
      rw [hroot]
      rfl
    · refine norm_text (fun c hc => ⟨full_normal _ c hc, (mem_normal hc).2⟩) ?_ hacc.room cwd'
      obtain ⟨t, ht⟩ := take_joined hcwd path
      rw [ht]
      refine (length_text_normal_le t).trans ?_
      rw [← ht]
      exact List.length_take_le _ _
  · exact .inl herr

/-- **Path names are put into normal form exactly if what is cut off does not matter**: one of the
components that are kept has no room, or `outmax` has room for the root and its terminator and what
is kept has the normal form of the whole path. -/
theorem norm_iff (hcwd : Canonical cwd) : Normalises cwd path outmax
    ↔ (Accepted outmax [] (kept cwd path) →
      2 ≤ outmax ∧ normal here up (kept cwd path) = wanted cwd path) := by
  constructor
  · intro h hacc
    rcases norm_kept hcwd path outmax with ⟨-, hok⟩ | ⟨hno, -⟩
    · rcases h with herr | ⟨out, hout, hform, -, hfit, -, -⟩
      · rw [hok] at herr
        exact nomatch herr
      · obtain rfl := Except.ok.inj (hok.symm.trans hout)
        have hpos := length_text slash (normal here up (kept cwd path))
        refine ⟨by omega, text_inj (full_normal _) ?_ hform⟩
        rw [← normal_joined]
        exact full_normal _
    · exact absurd hacc hno
  · intro h
    rcases norm_kept hcwd path outmax with ⟨hacc, -⟩ | ⟨-, herr⟩
    · exact normalises_of_kept hcwd (h hacc).1 (h hacc).2
    · exact .inl herr

theorem canonical_root : Canonical [slash] := ⟨[], by simp, rfl, by decide⟩

/-- `/./x` is `/x`. -/
theorem norm_iff_short : Normalises [slash] [slash, 0x2E, slash, 120] pathMax :=
  (norm_iff canonical_root).mpr fun _ => by decide

/-- `/`, then `./` until the buffer is full, then `x`. -/
def dotted : Text := slash :: (List.replicate 96 [0x2E, slash]).flatten ++ [120]

/-- **What is cut off matters**: the name behind the first `193` characters is lost. -/
theorem long_path_cut : norm [slash] dotted pathMax = .ok [slash]
    ∧ wanted [slash] dotted = [[120]]
    ∧ ¬ ∀ cwd path outmax, Canonical cwd → Normalises cwd path outmax := by
  have hnorm : norm [slash] dotted pathMax = .ok [slash] := by decide +kernel
  have hwanted : wanted [slash] dotted = [[120]] := by decide +kernel
  refine ⟨hnorm, hwanted, fun h => ?_⟩
  rcases h [slash] dotted pathMax canonical_root with herr | ⟨out, hout, hform, -⟩
  · rw [hnorm] at herr
    exact nomatch herr
  · rw [hnorm] at hout
    rw [hwanted, ← Except.ok.inj hout] at hform
    exact absurd hform (by decide)

end Vfs
