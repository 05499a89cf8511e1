import MiniWin.Web.Address

/-!
# Links and the host

What an authority says is a relation on texts that does not look at buffers. The link that
`web_resolve_ref` finds agrees with it as long as the authority fits.
-/

namespace Web

open Net Hr

/-! ## What an authority says -/

/-- The server of an authority: what is behind the user. -/
inductive Server : List UInt8 → List UInt8 → Prop
  | plain {a} (h : '@'.toUInt8 ∉ a) : Server a a
  | user {u s} (h : '@'.toUInt8 ∉ u) : Server (u ++ '@'.toUInt8 :: s) s

/-- The text of a port. -/
structure PortText (ds : List UInt8) : Prop where
  ne_nil : ds ≠ []
  digits : ∀ c ∈ ds, isDigit c
  le : decimalValue ds ≤ 65535

/-- The host and the port of a server, with 0 for a port that is not written. -/
inductive HostPort : List UInt8 → List UInt8 → UInt16 → Prop
  | port {h ds} (hds : PortText ds) :
    HostPort (h ++ ':'.toUInt8 :: ds) h (UInt16.ofNat (decimalValue ds))
  | bare {s} (hno : ∀ h ds, s = h ++ ':'.toUInt8 :: ds → ¬ PortText ds) : HostPort s s 0

/-- The reference has an authority: its scheme and what is behind the slashes, on a page of the
scheme `https`. -/
inductive Absolute (https : Bool) : List UInt8 → Bool → List UInt8 → Prop
  | https {rest} : Absolute https (bytes "https://" ++ rest) true rest
  | http {rest} : Absolute https (bytes "http://" ++ rest) false rest
  | same {rest} : Absolute https (bytes "//" ++ rest) https rest

/-- The authority at the start of a text. -/
def authority (rest : List UInt8) : List UInt8 := rest.takeWhile (!endsAuthority ·)

/-- The path behind an authority. -/
def pathBehind (tail : List UInt8) : List UInt8 :=
  if tail.head? = some '/'.toUInt8 then tail else '/'.toUInt8 :: tail

/-- The path of a reference without an authority on a page with the path `last`. -/
def pathFrom (last ref : List UInt8) : List UInt8 :=
  if ref.head? = some '/'.toUInt8 then ref
  else if ref.head? = some '?'.toUInt8 then last.takeWhile (· ≠ '?'.toUInt8) ++ ref
  else if ref.head? = some '#'.toUInt8 ∨ ref = [] then last
  else (last.takeWhile (· ≠ '?'.toUInt8)).rdropWhile (· ≠ '/'.toUInt8) ++ ref

/-- A path on the wire: without its fragment, and the root for none. -/
def onWire (path : List UInt8) : List UInt8 :=
  if path.takeWhile (· ≠ '#'.toUInt8) = [] then ['/'.toUInt8]
  else path.takeWhile (· ≠ '#'.toUInt8)

/-- The path that a reference means. -/
def wholePath (pg : Page) (ref : List UInt8) : List UInt8 :=
  match absolute pg.https ref with
  | some (_, rest) => onWire (pathBehind (rest.drop (authority rest).length))
  | none => onWire (pathFrom pg.path ref)

/-- The authority of a reference, if it has one, fits into the buffer of the host. -/
def Fits (pg : Page) (ref : List UInt8) : Prop :=
  ∀ https rest, Absolute pg.https ref https rest → (authority rest).length ≤ urlbarMaxlen

/-- A path from the root. -/
def Rooted (path : List UInt8) : Prop := path.head? = some '/'.toUInt8

/-- **The link goes where the reference says.** -/
structure LeadsTo (pg : Page) (ref : List UInt8) (l : Link) : Prop where
  /-- The authority of a reference names the host and the port. -/
  authority : Fits pg ref → ∀ https rest, Absolute pg.https ref https rest →
    l.https = https ∧ ∃ s port, Server (authority rest) s ∧ HostPort s l.host port
      ∧ l.port = portOn pg https l.host port
  /-- A reference without an authority stays on the host of the page. -/
  stays : (∀ https rest, ¬ Absolute pg.https ref https rest) →
    l.https = pg.https ∧ l.host = pg.host ∧ l.port = portOn pg pg.https pg.host 0
  rooted : Fits pg ref → Rooted pg.path → Rooted l.path
  no_fragment : '#'.toUInt8 ∉ l.path
  /-- A path that fits is not cut. -/
  whole : Fits pg ref → (wholePath pg ref).length < pathMax → l.path = wholePath pg ref

variable {a s h ds ref rest path : List UInt8} {https b : Bool} {p : UInt8 → Bool} {x : UInt8}
  {pg : Page} {l : Link}

/-! ## The split -/

theorem server_dropUser (a : List UInt8) : Server a (dropUser a) := by
  unfold dropUser
  split
  · next hnil =>
    refine .plain fun hmem => ?_
    exact absurd (List.dropWhile_eq_nil_iff.1 hnil _ hmem) (by simp)
  · next c t hcons =>
    have hc : c = '@'.toUInt8 := by
      have hhead := List.head?_dropWhile_not (· ≠ '@'.toUInt8) a
      rw [hcons] at hhead
      simpa using hhead
    have happ := List.takeWhile_append_dropWhile (p := (· ≠ '@'.toUInt8)) (l := a)
    rw [hcons, hc] at happ
    have hu : '@'.toUInt8 ∉ a.takeWhile (· ≠ '@'.toUInt8) := fun hmem => by
      simpa using List.mem_takeWhile_imp hmem
    exact happ ▸ Server.user hu

/-- The last byte that fails a test parts a text. -/
theorem rtakeWhile_append_cons (hds : ∀ c ∈ ds, p c) (hx : ¬ p x) :
    (h ++ x :: ds).rtakeWhile p = ds := by
  unfold List.rtakeWhile
  rw [List.reverse_append, List.reverse_cons, List.append_assoc,
    List.takeWhile_append_of_pos (by simpa using hds), List.singleton_append,
    List.takeWhile_cons_of_neg hx, List.append_nil, List.reverse_reverse]

theorem rdropWhile_append_cons (hds : ∀ c ∈ ds, p c) (hx : ¬ p x) :
    (h ++ x :: ds).rdropWhile p = h ++ [x] := by
  have happ := List.rdropWhile_append_rtakeWhile (p := p) (l := h ++ x :: ds)
  rw [rtakeWhile_append_cons hds hx] at happ
  exact List.append_cancel_right (happ.trans (List.append_cons h x ds))

theorem exists_last (hmem : x ∈ s) : ∃ h ds, s = h ++ x :: ds ∧ x ∉ ds := by
  induction s with
  | nil => exact nomatch hmem
  | cons c s ih =>
    by_cases hs : x ∈ s
    · obtain ⟨h, ds, rfl, hds⟩ := ih hs
      exact ⟨c :: h, ds, rfl, hds⟩
    · obtain rfl := (List.mem_cons.1 hmem).resolve_right hs
      exact ⟨[], s, rfl, hs⟩

theorem ne_of_not_mem (h : x ∉ ds) : ∀ c ∈ ds, decide (c ≠ x) = true := fun _ hc =>
  decide_eq_true fun heq => h (heq ▸ hc)

theorem dropWhile_append_cons (hds : ∀ c ∈ ds, p c) (hx : ¬ p x) :
    (ds ++ x :: s).dropWhile p = x :: s := by
  rw [List.dropWhile_append_of_pos hds, List.dropWhile_cons_of_neg hx]

theorem Server.eq_dropUser (h : Server a s) : dropUser a = s := by
  unfold dropUser
  cases h with
  | plain h =>
    rw [List.dropWhile_eq_nil_iff.2 (ne_of_not_mem h)]
  | user h => rw [dropWhile_append_cons (ne_of_not_mem h) (by simp)]

theorem le_decimal (v : Nat) (ds : List UInt8) :
    v ≤ ds.foldl (fun n c => n * 10 + (c.toNat - 48)) v := by
  induction ds generalizing v with
  | nil => exact le_rfl
  | cons c ds ih => exact (show v ≤ v * 10 + (c.toNat - 48) by omega).trans (ih _)

theorem portOf_eq_some {v n : Nat} (hv : v ≤ 65535) :
    portOf v ds = some n ↔ (∀ c ∈ ds, isDigit c)
      ∧ ds.foldl (fun n c => n * 10 + (c.toNat - 48)) v = n ∧ n ≤ 65535 := by
  induction ds generalizing v with
  | nil =>
    simp only [portOf, List.foldl_nil, List.not_mem_nil, false_implies, implies_true, true_and,
      Option.some_inj]
    exact ⟨fun h => ⟨h, h ▸ hv⟩, And.left⟩
  | cons c ds ih =>
    have hle := le_decimal (v * 10 + (c.toNat - 48)) ds
    unfold portOf
    rw [List.forall_mem_cons, List.foldl_cons]
    split
    · next hc =>
      dsimp only
      split
      · next hbig =>
        refine iff_of_false (nomatch ·) ?_
        rintro ⟨-, rfl, hn⟩
        omega
      · next hsmall => rw [ih (by omega), and_iff_right hc]
    · next hc => exact iff_of_false (nomatch ·) fun h => hc h.1.1

theorem portText_iff (hne : ds ≠ []) :
    PortText ds ↔ portOf 0 ds = some (decimalValue ds) := by
  rw [portOf_eq_some (by omega)]
  exact ⟨fun h => ⟨h.digits, rfl, h.le⟩, fun h => ⟨hne, h.1, h.2.2⟩⟩

theorem PortText.no_colon (h : PortText ds) : ∀ c ∈ ds, decide (c ≠ ':'.toUInt8) = true :=
  ne_of_not_mem fun hmem => absurd (h.digits _ hmem) (by decide)

/-- A port begins at the last colon. -/
theorem PortText.eq_last {h' ds' : List UInt8} (hds : PortText ds) (hds' : ':'.toUInt8 ∉ ds')
    (heq : h ++ ':'.toUInt8 :: ds = h' ++ ':'.toUInt8 :: ds') : h = h' ∧ ds = ds' := by
  have hlast := rtakeWhile_append_cons (h := h) (x := ':'.toUInt8) hds.no_colon (by simp)
  rw [heq, rtakeWhile_append_cons (ne_of_not_mem hds') (by simp)] at hlast
  obtain rfl := hlast
  exact ⟨List.append_cancel_right heq, rfl⟩

/-- `web_split_port` finds the host and the port. -/
theorem splitPort_spec (a : List UInt8) :
    HostPort (dropUser a) (splitPort a 0).1 (splitPort a 0).2 := by
  unfold splitPort
  generalize dropUser a = s
  dsimp only
  split
  · next hno =>
    refine .bare fun h ds hs => ?_
    exact absurd (hs ▸ List.mem_append_right h List.mem_cons_self) hno
  next hcolon =>
  obtain ⟨h, ds, rfl, hds⟩ := exists_last (not_not.1 hcolon)
  have hall := ne_of_not_mem hds
  rw [rtakeWhile_append_cons hall (by simp), rdropWhile_append_cons hall (by simp),
    List.dropLast_concat]
  split
  · next hnone =>
    refine .bare fun h' ds' heq hport => ?_
    obtain ⟨rfl, rfl⟩ := hport.eq_last hds heq.symm
    rw [(portText_iff hport.ne_nil).1 hport] at hnone
    exact nomatch hnone
  · next v hv =>
    split
    · next hnil =>
      refine .bare fun h' ds' heq hport => ?_
      exact hport.ne_nil ((hport.eq_last hds heq.symm).2.trans hnil)
    · next hne =>
      obtain ⟨hdig, rfl, hle⟩ := (portOf_eq_some (by omega)).1 hv
      exact .port ⟨hne, hdig, hle⟩

/-! ## The path -/

theorem absolute_eq_some : absolute b ref = some (https, rest) ↔ Absolute b ref https rest := by
  constructor
  · intro h
    unfold absolute at h
    split at h
    · next hs =>
      obtain ⟨t, rfl⟩ := hs
      obtain ⟨rfl, rfl⟩ := Prod.mk.inj (Option.some_inj.1 h)
      exact .https
    split at h
    · next hs =>
      obtain ⟨t, rfl⟩ := hs
      obtain ⟨rfl, rfl⟩ := Prod.mk.inj (Option.some_inj.1 h)
      exact .http
    split at h
    · next hs =>
      obtain ⟨t, rfl⟩ := hs
      obtain ⟨rfl, rfl⟩ := Prod.mk.inj (Option.some_inj.1 h)
      exact .same
    · exact nomatch h
  · rintro (_ | _ | _) <;> rfl

theorem onWire_rooted (h : Rooted path) : Rooted (onWire path) := by
  obtain ⟨t, rfl⟩ := List.head?_eq_some_iff.1 h
  rfl

theorem not_mem_onWire (path : List UInt8) : '#'.toUInt8 ∉ onWire path := by
  unfold onWire
  split
  · decide
  · exact fun hmem => absurd (List.mem_takeWhile_imp hmem) (by simp)

/-- The path that goes out is the beginning of the one that is meant. -/
theorem settle_path (https : Bool) (host : List UInt8) (port : UInt16) (path : List UInt8) :
    (settle pg https host port (path.take (pathMax - 1)) pathMax).path
      = (onWire path).take (pathMax - 1) := by
  unfold settle onWire kstrcpy
  dsimp only
  rw [← List.take_takeWhile]
  by_cases hnil : path.takeWhile (· ≠ '#'.toUInt8) = []
  · rw [hnil, List.take_nil, if_pos rfl, if_pos rfl]
    rfl
  · rw [if_neg hnil, if_neg fun h => ?_, List.take_take, min_self]
    exact hnil ((List.take_eq_nil_iff.1 h).resolve_left (by decide))

theorem relativePath_eq (pg : Page) (ref : List UInt8) :
    relativePath pg.path ref = (pathFrom pg.path ref).take (pathMax - 1) := by
  have hlast : kstrcpy pg.path pathMax = pg.path := List.take_of_length_le pg.path_fits
  have hquery := (List.takeWhile_prefix (l := pg.path) (· ≠ '?'.toUInt8)).length_le
  unfold relativePath pathFrom
  rw [hlast]
  dsimp only
  split_ifs
  · rfl
  · rw [appendStr_eq _ (hquery.trans pg.path_fits)]
  · rw [List.take_of_length_le pg.path_fits]
  · rw [appendStr_eq _ ((List.rdropWhile_prefix _ _).length_le.trans (hquery.trans pg.path_fits))]

/-- What is behind an authority is nothing, or begins with a byte that ends one. -/
theorem drop_authority (rest : List UInt8) :
    rest.drop (authority rest).length = []
      ∨ ∃ c t, rest.drop (authority rest).length = c :: t ∧ endsAuthority c := by
  have happ := List.takeWhile_append_dropWhile (p := (!endsAuthority ·)) (l := rest)
  have hdrop : rest.drop (authority rest).length = rest.dropWhile (!endsAuthority ·) :=
    (List.append_cancel_left ((List.prefix_iff_eq_append.1 (List.takeWhile_prefix _)).trans
      happ.symm) :)
  rw [hdrop]
  have hhead := List.head?_dropWhile_not (!endsAuthority ·) rest
  cases hrest : rest.dropWhile (!endsAuthority ·) with
  | nil => exact .inl rfl
  | cons c t =>
    rw [hrest] at hhead
    exact .inr ⟨c, t, rfl, by simpa using hhead⟩

/-- Behind an authority that fits, the path goes out as it is meant. -/
theorem authorityPath_eq {tail : List UInt8}
    (htail : tail = [] ∨ ∃ c t, tail = c :: t ∧ endsAuthority c) :
    ∃ path, authorityPath tail = path.take (pathMax - 1) ∧ onWire path = onWire (pathBehind tail)
      ∧ Rooted path := by
  obtain rfl | ⟨c, t, rfl, hc⟩ := htail
  · exact ⟨['/'.toUInt8], rfl, rfl, rfl⟩
  obtain (rfl | rfl | rfl) : c = '/'.toUInt8 ∨ c = '?'.toUInt8 ∨ c = '#'.toUInt8 := by
    simpa [endsAuthority] using hc
  · exact ⟨'/'.toUInt8 :: t, rfl, rfl, rfl⟩
  · refine ⟨'/'.toUInt8 :: '?'.toUInt8 :: t, ?_, rfl, rfl⟩
    exact appendStr_eq ('?'.toUInt8 :: t) (show ['/'.toUInt8].length ≤ pathMax - 1 by decide)
  · exact ⟨['/'.toUInt8], rfl, rfl, rfl⟩

theorem pathFrom_rooted (h : Rooted path) (ref : List UInt8) : Rooted (pathFrom path ref) := by
  obtain ⟨t, rfl⟩ := List.head?_eq_some_iff.1 h
  unfold pathFrom
  split_ifs with hslash
  · exact hslash
  · rfl
  · rfl
  · -- the first slash is never behind the last one
    set dir := ('/'.toUInt8 :: t).takeWhile (· ≠ '?'.toUInt8)
    obtain ⟨u, hu⟩ := List.rdropWhile_prefix (· ≠ '/'.toUInt8) dir
    cases hd : dir.rdropWhile (· ≠ '/'.toUInt8) with
    | nil => exact absurd (List.rdropWhile_eq_nil_iff.1 hd '/'.toUInt8 List.mem_cons_self) (by simp)
    | cons c d =>
      rw [hd, List.cons_append] at hu
      exact congrArg some (List.cons_eq_cons.1 hu).1

theorem Rooted.take {n : Nat} (h : Rooted path) (hn : n ≠ 0) : Rooted (path.take n) := by
  unfold Rooted
  rw [List.head?_take, if_neg hn]
  exact h

theorem settle_no_fragment (https : Bool) (host : List UInt8) (port : UInt16)
    (path : List UInt8) : '#'.toUInt8 ∉ (settle pg https host port path pathMax).path :=
  fun hmem => not_mem_onWire path (List.mem_of_mem_take hmem)

/-! ## The link -/

/-- The link of a reference with an authority and of one without. -/
theorem resolveRef_cases (h : resolveRef pg ref (urlbarMaxlen + 1) pathMax = some l) :
    (∃ https rest auth, Absolute pg.https ref https rest
      ∧ auth = (authority rest).take urlbarMaxlen
      ∧ l = settle pg https (splitPort auth 0).1 (splitPort auth 0).2
        (authorityPath (rest.drop auth.length)) pathMax)
    ∨ ((∀ https rest, ¬ Absolute pg.https ref https rest)
      ∧ l = settle pg pg.https pg.host 0 (relativePath pg.path ref) pathMax) := by
  unfold resolveRef at h
  split at h
  · next https rest habs =>
    dsimp only at h
    split at h
    · exact nomatch h
    · exact .inl ⟨https, rest, _, absolute_eq_some.1 habs, rfl, (Option.some_inj.1 h).symm⟩
  · next habs =>
    split at h
    · exact nomatch h
    · refine .inr ⟨fun https rest hb => ?_, ?_⟩
      · exact nomatch habs.symm.trans (absolute_eq_some.2 hb)
      · rw [← Option.some_inj.1 h]
        congr 1
        exact List.take_of_length_le pg.host_fits

theorem Absolute.unique {https' : Bool} {rest' : List UInt8} (h : Absolute b ref https rest)
    (h' : Absolute b ref https' rest') : https = https' ∧ rest = rest' :=
  Prod.mk.inj (Option.some_inj.1 ((absolute_eq_some.2 h).symm.trans (absolute_eq_some.2 h')))

/-- **A link leads where its reference says**, on every page and for every reference. -/
theorem resolveRef_leads (h : resolveRef pg ref (urlbarMaxlen + 1) pathMax = some l) :
    LeadsTo pg ref l := by
  obtain ⟨https, rest, auth, habs, rfl, rfl⟩ | ⟨hno, rfl⟩ := resolveRef_cases h
  · have hwhole : Fits pg ref → ∃ path, Rooted path ∧ onWire path = wholePath pg ref
        ∧ (authority rest).take urlbarMaxlen = authority rest
        ∧ authorityPath (rest.drop (authority rest).length) = path.take (pathMax - 1) := by
      intro hfits
      obtain ⟨path, hpath, hwire, hroot⟩ := authorityPath_eq (drop_authority rest)
      refine ⟨path, hroot, ?_, List.take_of_length_le (hfits _ _ habs), hpath⟩
      unfold wholePath
      rw [absolute_eq_some.2 habs]
      exact hwire
    constructor
    · intro hfits https' rest' habs'
      obtain ⟨rfl, rfl⟩ := habs.unique habs'
      rw [List.take_of_length_le (hfits _ _ habs)]
      exact ⟨rfl, _, _, server_dropUser _, splitPort_spec _, rfl⟩
    · exact fun hno => absurd habs (hno _ _)
    · intro hfits _
      obtain ⟨path, hroot, -, hauth, hpath⟩ := hwhole hfits
      rw [hauth, hpath, settle_path]
      exact (onWire_rooted hroot).take (by decide)
    · exact settle_no_fragment _ _ _ _
    · intro hfits hlen
      obtain ⟨path, -, hwire, hauth, hpath⟩ := hwhole hfits
      rw [hauth, hpath, settle_path, hwire, List.take_of_length_le (Nat.le_sub_one_of_lt hlen)]
  · rw [relativePath_eq]
    constructor
    · exact fun _ https rest habs => absurd habs (hno https rest)
    · exact fun _ => ⟨rfl, rfl, rfl⟩
    · intro _ hroot
      rw [settle_path]
      exact (onWire_rooted (pathFrom_rooted hroot ref)).take (by decide)
    · exact settle_no_fragment _ _ _ _
    · intro _ hlen
      have hnone : absolute pg.https ref = none :=
        Option.eq_none_iff_forall_ne_some.2 fun q hq => hno q.1 q.2 (absolute_eq_some.1 hq)
      unfold wholePath at hlen ⊢
      rw [hnone] at hlen ⊢
      rw [settle_path, List.take_of_length_le (Nat.le_sub_one_of_lt hlen)]

/-- A link from `http://a:8080/x/y` to `//u@b:90/?q#f` and one to `z`. -/
theorem resolveRef_leads_from_a :
    ∃ pg l l',
      resolveRef pg (bytes "//u@b:90?q#f") (urlbarMaxlen + 1) pathMax = some l
      ∧ resolveRef pg (bytes "z") (urlbarMaxlen + 1) pathMax = some l'
      ∧ LeadsTo pg (bytes "//u@b:90?q#f") l ∧ LeadsTo pg (bytes "z") l'
      ∧ l = ⟨false, bytes "b", 90, bytes "/?q"⟩ ∧ l' = ⟨false, bytes "a", 8080, bytes "/x/z"⟩ := by
  let pg : Page := ⟨false, bytes "a", bytes "/x/y", 8080, by decide, by decide⟩
  exact ⟨pg, ⟨false, bytes "b", 90, bytes "/?q"⟩, ⟨false, bytes "a", 8080, bytes "/x/z"⟩,
    by decide, by decide, resolveRef_leads (by decide), resolveRef_leads (by decide), rfl, rfl⟩

/-! ## Link after link -/

/-! ## The port of the page -/

/-- A server has one host and one port. -/
theorem HostPort.unique {h' : List UInt8} {port port' : UInt16} (hp : HostPort s h port)
    (hp' : HostPort s h' port') : h = h' ∧ port = port' := by
  cases hp with
  | bare hno =>
    cases hp' with
    | bare => exact ⟨rfl, rfl⟩
    | port hds => exact absurd hds (hno _ _ rfl)
  | @port _ ds hds =>
    generalize hs : h ++ ':'.toUInt8 :: ds = s at hp'
    cases hp' with
    | bare hno => exact absurd hds (hno _ _ hs.symm)
    | @port _ ds' hds' =>
      obtain ⟨rfl, rfl⟩ := hds.eq_last (fun hmem => by simpa using hds'.no_colon _ hmem) hs
      exact ⟨rfl, rfl⟩

/-- A link keeps to the written host and to the written port or that of its scheme, its path is from
the root and without a fragment, and nothing of it is cut. -/
def KeepsHost (pg : Page) (ref : List UInt8) : Prop :=
  ∀ l, resolveRef pg ref (urlbarMaxlen + 1) pathMax = some l →
    (∀ https rest, Absolute pg.https ref https rest →
      ∃ s port, Server (authority rest) s ∧ HostPort s l.host port
        ∧ l.port = if port ≠ 0 then port else if https then 443 else 80)
      ∧ Rooted l.path ∧ '#'.toUInt8 ∉ l.path
      ∧ Fits pg ref ∧ (wholePath pg ref).length < pathMax

/-- A link to the host of the page stays on the port of the page. -/
theorem not_keepsHost :
    ¬ KeepsHost ⟨false, bytes "a", bytes "/", 8080, by decide, by decide⟩ (bytes "http://a/x") := by
  intro h
  obtain ⟨s, port, hs, hp, hport⟩ := (h ⟨false, bytes "a", 8080, bytes "/x"⟩ (by decide)).1 false
    (bytes "a/x") .http
  rw [← hs.eq_dropUser] at hp
  obtain ⟨-, rfl⟩ := hp.unique (splitPort_spec _)
  exact absurd hport (by decide)

end Web
