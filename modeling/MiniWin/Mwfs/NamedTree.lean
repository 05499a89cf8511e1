import MiniWin.Mwfs.History

/-!
# A tree of named byte strings

What a volume is for, without its sectors: a path leads to a file, to a folder or nowhere, and a
call changes that or is refused. In every run the volume shows such a tree, and each call answers
what the tree says, unless there is no room (`volume_refines`).
-/

namespace Mwfs

/-! ## The tree -/

deriving instance DecidableEq for Kind

/-- What each path leads to: a file or a folder. The names of a path are in capitals here. -/
abbrev NameTree := List Name → Option Kind

/-- The tree of a formatted volume. -/
def NameTree.empty : NameTree := Function.update (fun _ => none) [] (some .dir)

/-- The path of a name in a folder. -/
def key (dir : List Name) (name : Name) : List Name := dir.map fold ++ [fold name]

theorem key_eq (dir : List Name) (name : Name) : key dir name = (dir ++ [name]).map fold := by
  simp [key]

/-- The object at `a`, with all that is below it, is at `b` now. -/
def NameTree.move (T : NameTree) (a b : List Name) : NameTree := fun p =>
  if b <+: p then T (a ++ p.drop b.length) else if a <+: p then none else T p

/-- There is nothing in the folder. -/
def NameTree.Bare (T : NameTree) (p : List Name) : Prop := ∀ n, T (p ++ [fold n]) = none

namespace Op

/-- The folders of a call are there, and what is to be copied. -/
def Found (T : NameTree) : Op (List Name) → Prop
  | put d _ _ _ _ | mkdir d _ _ | unlink d _ => T (d.map fold) = some .dir
  | copy src d _ _ => T (src.map fold) ≠ none ∧ T (d.map fold) = some .dir
  | rename fd _ td _ => T (fd.map fold) = some .dir ∧ T (td.map fold) = some .dir

open Classical in
/-- What a call answers that finds its folders, if there is room. -/
noncomputable def answer (T : NameTree) : Op (List Name) → Err
  | put d name _ _ _ =>
    if nameOk name = false then .name
    else if T (key d name) = some .dir then .isdir else .ok
  | copy src d name _ =>
    if nameOk name = false then .name
    else if T (src.map fold) = some .dir ∨ T (key d name) = some .dir then .isdir else .ok
  | mkdir d name _ =>
    if nameOk name = false then .name else if T (key d name) ≠ none then .exist else .ok
  | unlink d name =>
    if T (key d name) = none then .noent
    else if T (key d name) = some .dir ∧ ¬ T.Bare (key d name) then .notempty else .ok
  | rename fd fn td tn =>
    if T (key fd fn) = none then .noent
    else if nameOk tn = false then .name
    else if key fd fn ≠ key td tn ∧ T (key td tn) ≠ none ∧
      (T (key td tn) = some .dir ∨ T (key fd fn) = some .dir) then .exist
    else .ok

/-- What a call makes of the tree. -/
def apply (T : NameTree) : Op (List Name) → NameTree
  | put d name data aux _ => Function.update T (key d name) (some (.file data aux))
  | copy src d name _ => Function.update T (key d name) (T (src.map fold))
  | mkdir d name _ => Function.update T (key d name) (some .dir)
  | unlink d name => Function.update T (key d name) none
  | rename fd fn td tn =>
    if key fd fn = key td tn then T else T.move (key fd fn) (key td tn)

/-- The folder that is to have a renamed object is that object or lies below it. -/
def Inside : Op (List Name) → Prop
  | rename fd fn td _ => key fd fn <+: td.map fold
  | _ => False

end Op

/-- **The volume shows the tree**, and nothing besides it. -/
structure Presents (s : St) (T : NameTree) : Prop where
  file : ∀ p b, Shows s p b ↔ ∃ aux, T (p.map fold) = some (.file b aux)
  absent : ∀ p, Absent s p ↔ T (p.map fold) = none
  verifies : ∀ p b aux i, T (p.map fold) = some (.file b aux) → walk s rootIno p = .ok i →
    fileVerify s i = true
  /-- The entries of a folder, each once. -/
  lists : ∀ p d, T (p.map fold) = some .dir → walk s rootIno p = .ok d → ∃ es : List Dent,
    (∀ k, dirNth s d k = some es[k]?) ∧ (es.map fun e => fold e.name).Nodup ∧
      ∀ n, (∃ e ∈ es, fold e.name = fold n) ↔ T (key p n) ≠ none

/-- The answer of a call is the tree's. -/
structure Answers (T : NameTree) (call : Op (List Name)) (r : Err) : Prop where
  found : call.Found T → r = call.answer T ∨ r = .full ∨ r = .toobig
  missing : ¬ call.Found T → r ≠ .ok

/-- Runs of calls on a formatted volume, with the tree that those make which answered `ok`. -/
inductive Runs : St → NameTree → Prop
  | mkfs {s s' : St} {label : Name} (hw : Works s) (hn : s.vol.sectors < 4294967296)
    (h : mkfs s label = (.ok, s')) : Runs s' .empty
  | call {s : St} {T : NameTree} {call : Op (List Name)} {op : Op Nat} (h : Runs s T)
    (hop : call.resolve s = .ok op) (hC : ¬ call.Inside) :
    Runs (op.run s).2 (if (op.run s).1 = .ok then call.apply T else T)

/-! ## The tree of a graph -/

/-- From the root the path leads to `j`. -/
abbrev At (G : Graph) (p : List Name) (j : Nat) : Prop := Leads (Edge G) rootIno (p.map fold) j

/-- The tree is the one the graph has. -/
structure Shape (G : Graph) (T : NameTree) : Prop where
  leads : ∀ p j, Leads (Edge G) rootIno p j → T p = G.kind j
  none : ∀ p : List Name, (∀ j, ¬ At G p j) → T (p.map fold) = Option.none

section Shape

variable {g : Geo} {G Gm G' : Graph} {s : St} {T : NameTree} {d j : Nat} {p : List Name} {name : Name}

/-- The path of a name, in a folder that a path leads to. -/
theorem Settled.key_leads (h : Settled g G s) (hp : At G p d) :
    Leads (Edge G) rootIno (key p name) j ↔ Edge G d (fold name) j := by
  have hdet : ∀ x l y z, Edge G x l y → Edge G x l z → y = z := fun _ _ _ _ => h.ok.edge_det
  unfold key
  rw [Leads.snoc_iff]
  refine ⟨fun ⟨v, hv, he⟩ => ?_, fun he => ⟨d, hp, he⟩⟩
  obtain rfl := hv.det hdet hp
  exact he

namespace Shape

variable (hS : Shape G T)

include hS

theorem ne_none_iff (h : Settled g G s) : T (p.map fold) ≠ Option.none ↔ ∃ j, At G p j := by
  constructor
  · intro hp
    by_contra hno
    exact hp (hS.none p fun j hj => hno ⟨j, hj⟩)
  · rintro ⟨j, hj⟩
    obtain ⟨o, ho⟩ := h.obj_of_leads hj
    rw [hS.leads _ j hj, ne_eq, kind_none_iff, ho]
    exact nofun

theorem folder_iff (hp : At G p d) : T (p.map fold) = some .dir ↔ IsDir G d := by
  rw [hS.leads _ d hp, kind_dir_iff]

variable (h : Settled g G s) (hp : At G p d)

include h hp

/-- **A name** leads nowhere when the folder has no entry for it. -/
theorem key_iff : T (key p name) ≠ Option.none ↔ ∃ e, Entry G d e ∧ fold e.name = fold name := by
  rw [key_eq, hS.ne_none_iff h]
  unfold At
  rw [← key_eq]
  simp only [h.key_leads hp]
  exact ⟨fun ⟨_, e, he, hn, _⟩ => ⟨e, he, hn⟩, fun ⟨e, he, hn⟩ => ⟨e.ino, e, he, hn, rfl⟩⟩

theorem key_none (hno : ∀ e, Entry G d e → fold e.name ≠ fold name) :
    T (key p name) = Option.none := by
  by_contra hc
  obtain ⟨e, he, hn⟩ := (hS.key_iff h hp).mp hc
  exact hno e he hn

theorem key_folder {e : Dent} (he : Entry G d e) (hn : fold e.name = fold name) :
    T (key p name) = some .dir ↔ e.type = tDir := by
  rw [hS.leads _ e.ino ((h.key_leads hp).mpr ⟨e, he, hn, rfl⟩), kind_dir_iff,
    h.ok.dir_of_entry he]

theorem key_bare {e : Dent} (he : Entry G d e) (hn : fold e.name = fold name) :
    T.Bare (key p name) ↔ ∀ e', ¬ Entry G e.ino e' := by
  have hp' : Leads (Edge G) rootIno ((p ++ [name]).map fold) e.ino := by
    rw [← key_eq]
    exact (h.key_leads hp).mpr ⟨e, he, hn, rfl⟩
  have hkey : ∀ n, key p name ++ [fold n] = key (p ++ [name]) n := fun n => by simp [key]
  unfold NameTree.Bare
  simp only [hkey]
  constructor
  · intro hno e' he'
    exact (hS.key_iff h hp').mpr ⟨e', he', rfl⟩ (hno e'.name)
  · intro hno n
    exact hS.key_none h hp' fun e' he' _ => hno e' he'

end Shape

/-- What is shown of a graph. -/
theorem Shape.presents (hS : Shape G T) (h : Settled g G s) : Presents s T where
  file p b := by
    rw [h.shows_iff]
    constructor
    · rintro ⟨j, aux, hp, hk⟩
      exact ⟨aux, (hS.leads _ j hp).trans hk⟩
    · rintro ⟨aux, hT⟩
      obtain ⟨j, hp⟩ := (hS.ne_none_iff h).mp (by rw [hT]; exact nofun)
      exact ⟨j, aux, hp, (hS.leads _ j hp).symm.trans hT⟩
  absent p := by
    rw [h.absent_iff, ← not_iff_not, ← ne_eq (T _), hS.ne_none_iff h]
    push Not
    rfl
  verifies p b aux i hT hw := by
    have hk := (hS.leads _ i ((h.walk_root p).mp hw)).symm.trans hT
    exact fileVerify_spec h.sane h.ok h.rep (kind_file_iff.mp hk)
  lists p d hT hw := by
    have hp := (h.walk_root p).mp hw
    obtain ⟨slots, hsl⟩ := (hS.folder_iff hp).mp hT
    obtain ⟨hd0, hdlt⟩ := h.ok.bound d _ hsl
    refine ⟨ents slots, dirNth_spec h.sane h.rep hsl hd0 hdlt, h.ok.names d _ hsl, fun n => ?_⟩
    rw [hS.key_iff h hp]
    exact exists_congr fun e => and_congr_left' ⟨entry_of_mem hsl, mem_of_entry hsl⟩

theorem Settled.emptyShape (h : Settled g emptyGraph s) : Shape emptyGraph .empty where
  leads p j hp := by
    obtain ⟨o, ho⟩ := h.obj_of_leads hp
    obtain rfl : j = rootIno := by
      by_contra hc
      unfold emptyGraph at ho
      rw [if_neg hc] at ho
      exact nomatch ho
    obtain rfl := hp.unique h.tree.single h.ok.root_free (.nil _)
    rfl
  none p hp := by
    unfold NameTree.empty
    rw [Function.update_of_ne]
    intro hc
    unfold At at hp
    rw [hc] at hp
    exact hp _ (.nil _)

/-- **A name changed.** -/
theorem Shape.placed {i : Option Nat} (hS : Shape G T) (h : Settled g G s) (hd : IsDir G d)
    (hp : At G p d) (hi : ∀ w, i = some w → G w = Option.none)
    (hleaf : ∀ j, Edge G d (fold name) j → ∀ n k, ¬ Edge G j n k)
    (hpl : Placed G G' d (fold name) i) :
    Shape G' (Function.update T (key p name) (i.bind G'.kind)) := by
  have hleads : ∀ {q j}, Leads (Edge G') rootIno q j ↔
      (q = key p name ∧ i = some j) ∨ (q ≠ key p name ∧ Leads (Edge G) rootIno q j) := by
    intro q j
    rw [hpl.edge]
    exact (h.tree.placeable hd hleaf hi).leads_iff hp
  refine ⟨fun q j hq => ?_, fun q hq => ?_⟩
  · rcases hleads.mp hq with ⟨rfl, rfl⟩ | ⟨hne, hq⟩
    · rw [Function.update_self]
      rfl
    · rw [Function.update_of_ne hne, hS.leads q j hq,
        hpl.kind_of_leads h.toHolds h.tree hi hp hq hne]
  · by_cases hc : q.map fold = key p name
    · rw [hc, Function.update_self]
      cases i with
      | none => rfl
      | some w => exact absurd (hleads.mpr (Or.inl ⟨hc, rfl⟩)) (hq w)
    · rw [Function.update_of_ne hc]
      exact hS.none q fun j hj => hq j (hleads.mpr (Or.inr ⟨hc, hj⟩))

/-- **An object moved**, with all that is below it. -/
theorem Shape.moved {fd td i : Nat} {fn tn : Name} {q : List Name} (hS : Shape G T)
    (hM : Movable (Edge G) rootIno fd (fold fn) td (fold tn) i)
    (hmv : Moved G Gm G' fd (fold fn) td (fold tn) i)
    (hp : Leads (Edge G) rootIno (p.map fold) fd) (hq : Leads (Edge G) rootIno (q.map fold) td) :
    Shape G' (T.move (key p fn) (key q tn)) := by
  have hleads : ∀ {x j}, Leads (Edge G') rootIno x j ↔
      (∃ r, x = q.map fold ++ fold tn :: r ∧ Leads (Edge G) i r j) ∨
        (Leads (Edge G) rootIno x j ∧ ¬ key q tn <+: x ∧ ¬ key p fn <+: x) := by
    intro x j
    rw [hmv.edge_eq]
    exact hM.leads_iff hq hp
  have hold : ∀ {r j}, Leads (Edge G) rootIno (key p fn ++ r) j ↔ Leads (Edge G) i r j := by
    intro r j
    rw [Leads.append_iff]
    constructor
    · rintro ⟨v, hv, hr⟩
      rwa [hv.det hM.det (hp.snoc hM.edge)] at hr
    · exact fun hr => ⟨i, hp.snoc hM.edge, hr⟩
  have hsplit : ∀ r, q.map fold ++ fold tn :: r = key q tn ++ r := fun r => by simp [key]
  have hmove : ∀ r, T.move (key p fn) (key q tn) (key q tn ++ r) = T (key p fn ++ r) := fun r => by
    unfold NameTree.move
    rw [if_pos ⟨r, rfl⟩, List.drop_left]
  refine ⟨fun x j hx => ?_, fun x hx => ?_⟩
  · rcases hleads.mp hx with ⟨r, rfl, hr⟩ | ⟨hx, hnq, hnp⟩
    · rw [hsplit, hmove, hS.leads _ j (hold.mpr hr), hmv.kept j (hM.not_target hr)]
    · have hkept : ¬ Edge G td (fold tn) j := fun hc =>
        hnq ⟨[], by rw [List.append_nil]; exact (hq.snoc hc).unique hM.single hM.free hx⟩
      unfold NameTree.move
      rw [if_neg hnq, if_neg hnp, hS.leads x j hx, hmv.kept j hkept]
  · by_cases hc : key q tn <+: x.map fold
    · obtain ⟨r, hr⟩ := hc
      obtain ⟨-, r', -, -, hr'⟩ := List.map_eq_append_iff.mp hr.symm
      rw [← hr, hmove, ← hr', show key p fn ++ r'.map fold = (p ++ fn :: r').map fold by simp [key]]
      refine hS.none _ fun j hj => hx j (hleads.mpr (Or.inl ⟨r, ?_, hold.mp (?_)⟩))
      · rw [hsplit, hr]
      · rw [← hr']
        simpa [key, At] using hj
    · unfold NameTree.move
      rw [if_neg hc]
      by_cases hc' : key p fn <+: x.map fold
      · exact if_pos hc'
      · rw [if_neg hc']
        exact hS.none x fun j hj => hx j (hleads.mpr (Or.inr ⟨hj, hc, hc'⟩))

/-! ## Calls -/

/-- What an operation answers and leaves, as its graphs have it. -/
def Outcome (g : Geo) (G : Graph) (op : Op Nat) (r : Err) (Gm G' : Graph) : Prop :=
  (r = .ok ∧ Did g G op Gm G') ∨ (Gm = G ∧ G' = G ∧ Refused G op r)

/-- What a call that is resolved answers and leaves, as the tree has it. -/
structure Called (T : NameTree) (call : Op (List Name)) (G' : Graph) (r : Err) : Prop where
  shape : Shape G' (if r = .ok then call.apply T else T)
  answers : Answers T call r

variable {r : Err} {call : Op (List Name)}

theorem Called.refused (hS : Shape G T) (hr : r ≠ .ok)
    (ha : call.Found T → r = call.answer T ∨ r = .full ∨ r = .toobig) : Called T call G r := by
  refine ⟨?_, ha, fun _ => hr⟩
  rwa [if_neg hr]

theorem Called.noRoom (hS : Shape G T) (hr : r = .full ∨ r = .toobig) : Called T call G r :=
  .refused hS (by rcases hr with rfl | rfl <;> nofun) fun _ => Or.inr hr

/-- A call in what is not a folder. -/
theorem Called.noDir (hS : Shape G T) (hp : At G p d) (hr : r ≠ .ok) (hno : ¬ IsDir G d)
    (hf : call.Found T → T (p.map fold) = some .dir) : Called T call G r :=
  .refused hS hr fun hc => absurd ((hS.folder_iff hp).mp (hf hc)) hno

theorem Called.done (hf : call.Found T) (ha : call.answer T = .ok)
    (hS : Shape G' (call.apply T)) : Called T call G' .ok := by
  refine ⟨?_, fun _ => Or.inl ha.symm, fun hno => absurd hf hno⟩
  rwa [if_pos rfl]

/-- **A file made.** -/
theorem Shape.made {b : List UInt8} {aux : UInt32} (hS : Shape G T) (h : Settled g G s)
    (hd : IsDir G d) (hp : At G p d) (hm : MadeFile g G d name b aux G') :
    Shape G' (Function.update T (key p name) (some (.file b aux))) ∧ T (key p name) ≠ some .dir := by
  obtain ⟨i, hi, -, -, hpl, hkind, hfile⟩ := hm.placed h.ok
  have hS' := hS.placed h hd hp (fun w hw => Option.some.inj hw ▸ hi)
    (fun j hj => edge_stop (hfile j hj)) hpl
  rw [Option.bind_some, hkind] at hS'
  refine ⟨hS', fun hc => ?_⟩
  obtain ⟨e, he, hn⟩ := (hS.key_iff h hp).mp (by rw [hc]; exact nofun)
  exact hfile e.ino ⟨e, he, hn, rfl⟩
    ((h.ok.dir_of_entry he).mp ((hS.key_folder h hp he hn).mp hc))

theorem Shape.makeRefused (hS : Shape G T) (h : Settled g G s)
    (hp : At G p d) (hr : MakeRefused G d name r) :
    r ≠ .ok ∧ (r = Op.answer T (.put p name [] 0 0) ∨ r = .full ∨ r = .toobig) := by
  rcases hr with ⟨rfl, hname⟩ | ⟨rfl, hname, e, he, hn, hty⟩ | rfl | rfl
  · exact ⟨nofun, Or.inl (if_pos hname).symm⟩
  · have hT := (hS.key_folder h hp he hn).mpr hty
    exact ⟨nofun, Or.inl (by simp [Op.answer, hname, hT])⟩
  · exact ⟨nofun, Or.inr (Or.inl rfl)⟩
  · exact ⟨nofun, Or.inr (Or.inr rfl)⟩

section Called

variable {aux now : UInt32} {data : List UInt8} {src q : List Name} {i td : Nat} {tn : Name}
  (hS : Shape G T) (h : Settled g G s) (hp : At G p d)

include hS h hp

theorem Called.put (hr : Outcome g G (.put d name data aux now) r Gm G') :
    Called T (.put p name data aux now) G' r := by
  rcases hr with ⟨rfl, hdid⟩ | ⟨-, rfl, href⟩
  · cases hdid with
    | put hd hname hm =>
      obtain ⟨hS', hno⟩ := hS.made h hd hp hm
      exact .done ((hS.folder_iff hp).mpr hd) (by simp [Op.answer, hname, hno]) hS'
  · cases href with
    | noDir hr hd hno =>
      obtain rfl := List.mem_singleton.mp hd
      exact .noDir hS hp hr hno id
    | put hr =>
      obtain ⟨hr, ha⟩ := hS.makeRefused h hp hr
      exact .refused hS hr fun _ => ha

theorem Called.copy (hs : At G src i)
    (hr : Outcome g G (.copy i d name now) r Gm G') : Called T (.copy src p name now) G' r := by
  obtain ⟨o, ho⟩ := h.obj_of_leads hs
  have hfile {b : List UInt8} {x : UInt32} (hb : G i = some (.file b x)) :
      T (src.map fold) = some (.file b x) :=
    (hS.leads _ i hs).trans (kind_file_iff.mpr hb)
  rcases hr with ⟨rfl, hdid⟩ | ⟨-, rfl, href⟩
  · cases hdid with
    | copy hb hd hname hm =>
      obtain ⟨hS', hno⟩ := hS.made h hd hp hm
      have hT := hfile hb
      refine .done ⟨by rw [hT]; exact nofun, (hS.folder_iff hp).mpr hd⟩ ?_ ?_
      · simp [Op.answer, hname, hno, hT]
      · rw [← hT] at hS'
        exact hS'
  · cases href with
    | noDir hr hd hno =>
      obtain rfl := List.mem_singleton.mp hd
      exact .noDir hS hp hr hno And.right
    | noSource _ hno => exact nomatch hno.symm.trans ho
    | copyDir hdir hr =>
      have hT := (hS.folder_iff hs).mpr hdir
      rcases hr with ⟨rfl, hname⟩ | ⟨rfl, hname⟩
      · exact .refused hS nofun fun _ => Or.inl (by simp [Op.answer, hname])
      · exact .refused hS nofun fun _ => Or.inl (by simp [Op.answer, hname, hT])
    | copy hb hr =>
      obtain ⟨hr, ha⟩ := hS.makeRefused h hp hr
      refine .refused hS hr fun _ => ?_
      simpa [Op.answer, hfile hb] using ha

theorem Called.mkdir (hr : Outcome g G (.mkdir d name now) r Gm G') :
    Called T (.mkdir p name now) G' r := by
  rcases hr with ⟨rfl, hdid⟩ | ⟨-, rfl, href⟩
  · cases hdid with
    | mkdir hd hname hm =>
      obtain ⟨i, hi, -, -, hpl, hkind, hno⟩ := hm.placed h.ok
      have hS' := hS.placed h hd hp (fun w hw => Option.some.inj hw ▸ hi)
        (fun j hj => absurd hj (hno j)) hpl
      rw [Option.bind_some, hkind] at hS'
      have hT := hS.key_none h hp fun e he hn => hno e.ino ⟨e, he, hn, rfl⟩
      exact .done ((hS.folder_iff hp).mpr hd) (by simp [Op.answer, hname, hT]) hS'
  · cases href with
    | noDir hr hd hno =>
      obtain rfl := List.mem_singleton.mp hd
      exact .noDir hS hp hr hno id
    | mkdir hr =>
      rcases hr with ⟨rfl, hname⟩ | ⟨rfl, hname, he⟩ | hr
      · exact .refused hS nofun fun _ => Or.inl (by simp [Op.answer, hname])
      · have hT := (hS.key_iff h hp).mpr he
        exact .refused hS nofun fun _ => Or.inl (by simp [Op.answer, hname, hT])
      · exact .noRoom hS hr

theorem Called.unlink (hr : Outcome g G (.unlink d name) r Gm G') :
    Called T (.unlink p name) G' r := by
  rcases hr with ⟨rfl, hdid⟩ | ⟨-, rfl, href⟩
  · cases hdid with
    | unlink hn hun =>
      obtain ⟨hpl, hedge, hstop⟩ := hun.placed h.ok hn
      have hS' := hS.placed (i := none) h hedge.isDir hp nofun
        (fun j hj => h.ok.edge_det hj hedge ▸ hstop) hpl
      obtain ⟨he, -⟩ := hun
      have hT := (hS.key_iff h hp).mpr ⟨_, he, hn⟩
      have hbare : T.Bare (key p name) :=
        (hS.key_bare h hp he hn).mpr fun e' he' => hstop _ _ he'.edge
      exact .done ((hS.folder_iff hp).mpr hedge.isDir) (by simp [Op.answer, hT, hbare]) hS'
  · cases href with
    | noDir hr hd hno =>
      obtain rfl := List.mem_singleton.mp hd
      exact .noDir hS hp hr hno id
    | unlink hr =>
      rcases hr with ⟨rfl, hno⟩ | ⟨rfl, e, he, hn, hty, e', he'⟩
      · have hT := hS.key_none h hp hno
        exact .refused hS nofun fun _ => Or.inl (by simp [Op.answer, hT])
      · refine .refused hS nofun fun _ => Or.inl ?_
        have hT := (hS.key_folder h hp he hn).mpr hty
        have hbare : ¬ T.Bare (key p name) := fun hc =>
          (hS.key_bare h hp he hn).mp hc e' he'
        simp [Op.answer, hT, hbare]

theorem Called.rename (hq : Leads (Edge G) rootIno (q.map fold) td)
    (hC : ¬ Op.Inside (.rename p name q tn))
    (hr : Outcome g G (.rename d name td tn) r Gm G') :
    Called T (.rename p name q tn) G' r := by
  rcases hr with ⟨rfl, hdid⟩ | ⟨-, rfl, href⟩
  · cases hdid with
    | rename hd htd hname hren =>
      obtain ⟨-, i, hi, hdone⟩ := hren.moved h.ok hname
      have hfound : Op.Found T (.rename p name q tn) :=
        ⟨(hS.folder_iff hp).mpr hd, (hS.folder_iff hq).mpr htd⟩
      have hpi := (h.key_leads hp).mpr hi
      obtain ⟨e, he, hn, rfl⟩ := hi
      have hT := (hS.key_iff h hp).mpr ⟨e, he, hn⟩
      rcases hdone with ⟨rfl, rfl, hsame⟩ | hmv
      · have hkey := hpi.unique h.tree.single h.ok.root_free ((h.key_leads hq).mpr hsame)
        refine .done hfound (by simp [Op.answer, hname, hkey, hkey ▸ hT]) ?_
        rwa [Op.apply, if_pos hkey]
      · have hself : ¬ Below (Edge G) e.ino td := by
          rintro ⟨x, hx⟩
          exact hC ⟨x, (hpi.append hx).unique h.tree.single h.ok.root_free hq⟩
        have hM := h.tree.movable ⟨e, he, hn, rfl⟩ hself hmv
        have hne : key p name ≠ key q tn := fun hc =>
          hmv.ne ((h.key_leads hq).mp (hc ▸ hpi))
        refine .done hfound ?_ ?_
        · rw [Op.answer, if_neg hT, if_neg (by rw [hname]; nofun), if_neg]
          rintro ⟨-, hsome, hdir⟩
          obtain ⟨e', he', hn'⟩ := (hS.key_iff h hq).mp hsome
          obtain ⟨hj, hi⟩ := hmv.files e'.ino ⟨e', he', hn', rfl⟩
          rw [hS.key_folder h hq he' hn', hS.key_folder h hp he hn, h.ok.dir_of_entry he',
            h.ok.dir_of_entry he] at hdir
          exact hdir.elim hj hi
        · rw [Op.apply, if_neg hne]
          exact hS.moved hM hmv hp hq
  · cases href with
    | noDir hr hd hno =>
      rcases List.mem_pair.mp hd with rfl | rfl
      · exact .noDir hS hp hr hno And.left
      · exact .noDir hS hq hr hno And.right
    | rename hr =>
      rcases hr with ⟨rfl, hno⟩ | ⟨rfl, hname, he⟩ | ⟨rfl, hname, e, e', he, hn, he', hn', hne, hty⟩ |
        ⟨hr, -⟩
      · have hT := hS.key_none h hp hno
        exact .refused hS nofun fun _ => Or.inl (by simp [Op.answer, hT])
      · have hT := (hS.key_iff h hp).mpr he
        exact .refused hS nofun fun _ => Or.inl (by simp [Op.answer, hname, hT])
      · refine .refused hS nofun fun _ => Or.inl ?_
        have hT := (hS.key_iff h hp).mpr ⟨e, he, hn⟩
        have hT' := (hS.key_iff h hq).mpr ⟨e', he', hn'⟩
        have hkey : key p name ≠ key q tn := fun hc => by
          have hpi := (h.key_leads hp).mpr ⟨e, he, hn, rfl⟩
          rw [hc] at hpi
          exact hne (h.ok.edge_det ⟨e', he', hn', rfl⟩ ((h.key_leads hq).mp hpi))
        rw [← hS.key_folder h hq he' hn', ← hS.key_folder h hp he hn] at hty
        simp [Op.answer, hT, hname, hkey, hT', hty]
      · exact .noRoom hS hr

end Called

theorem Settled.outcome (h : Settled g G s) (op : Op Nat) (hop : ¬ op.IntoItself s) :
    ∃ Gm G', Settled g G' (op.run s).2 ∧ Outcome g G op (op.run s).1 Gm G' := by
  obtain ⟨Gm, G', hran, -, -, h'⟩ := h.step hop
  exact ⟨Gm, G', h', hran.result⟩

/-- **A call whose paths are resolved** runs as the tree says. -/
theorem Settled.called {op : Op Nat} (h : Settled g G s) (hS : Shape G T)
    (hop : call.resolve s = .ok op) (hC : ¬ call.Inside) :
    ∃ G', Settled g G' (op.run s).2 ∧ Called T call G' (op.run s).1 := by
  have hw {x : List Name} {i : Nat} (hi : walk s rootIno x = .ok i) := (h.walk_root x).mp hi
  cases call with
  | put p =>
    obtain ⟨d, hd, rfl⟩ := map_eq_ok hop
    obtain ⟨Gm, G', h', hr⟩ := h.outcome (.put d ..) id
    exact ⟨G', h', .put hS h (hw hd) hr⟩
  | copy src p =>
    obtain ⟨i, hi, hop⟩ := bind_eq_ok hop
    obtain ⟨d, hd, rfl⟩ := map_eq_ok hop
    obtain ⟨Gm, G', h', hr⟩ := h.outcome (.copy i d ..) id
    exact ⟨G', h', .copy hS h (hw hd) (hw hi) hr⟩
  | mkdir p =>
    obtain ⟨d, hd, rfl⟩ := map_eq_ok hop
    obtain ⟨Gm, G', h', hr⟩ := h.outcome (.mkdir d ..) id
    exact ⟨G', h', .mkdir hS h (hw hd) hr⟩
  | unlink p =>
    obtain ⟨d, hd, rfl⟩ := map_eq_ok hop
    obtain ⟨Gm, G', h', hr⟩ := h.outcome (.unlink d _) id
    exact ⟨G', h', .unlink hS h (hw hd) hr⟩
  | rename p fn q tn =>
    obtain ⟨d, hd, hop⟩ := bind_eq_ok hop
    obtain ⟨td, htd, rfl⟩ := map_eq_ok hop
    have hself : ¬ (Op.rename d fn td tn).IntoItself s := by
      rintro ⟨i, hi, ⟨x, hx⟩, -⟩
      obtain ⟨o, ho⟩ := h.obj_of_leads (hw hd)
      have hpi := (hw hd).append ((walk_iff h.sane h.ok h.rep ho _).mp hi)
      obtain ⟨o', ho'⟩ := h.obj_of_leads hpi
      have hpx := hpi.append ((walk_iff h.sane h.ok h.rep ho' x).mp hx)
      exact hC ⟨_, hpx.unique h.tree.single h.ok.root_free (hw htd)⟩
    obtain ⟨Gm, G', h', hr⟩ := h.outcome _ hself
    exact ⟨G', h', .rename hS h (hw hd) (hw htd) hC hr⟩

end Shape

/-! ## Runs -/

theorem Runs.settled {s : St} {T : NameTree} (h : Runs s T) : ∃ g G, Settled g G s ∧ Shape G T := by
  induction h with
  | mkfs hw hn hmk =>
    obtain ⟨g, -, h⟩ := settled_mkfs hw hn hmk
    exact ⟨g, _, h, h.emptyShape⟩
  | call _ hop hC ih =>
    obtain ⟨g, G, h, hS⟩ := ih
    obtain ⟨G', h', hc⟩ := h.called hS hop hC
    exact ⟨g, G', h', hc.shape⟩

end Mwfs
