import MiniWin.Net.DnsNames

/-!
# DNS: answers belong to the question

What a datagram must be for a lookup to take an address from it, in terms of names and records:
a chain of `CNAME` records from the name that was asked for to an address. `dns_handle_reply` is
compared with it, for every datagram whose names it reads right.
-/

namespace Dns

open Net WireName Walk

/-! ## Records -/

/-- A record: where the name of its owner begins, and where that name ends. -/
structure Rec where
  owner : Nat
  fields : Nat

def Rec.rtype (d : Dgram) (r : Rec) : UInt16 := get16 d.data r.fields
def Rec.rclass (d : Dgram) (r : Rec) : UInt16 := get16 d.data (r.fields + 2)
def Rec.rdlength (d : Dgram) (r : Rec) : Nat := (get16 d.data (r.fields + 8)).toNat
def Rec.rdata (r : Rec) : Nat := r.fields + 10

/-- The datagram has these records from `p` on, and the next would begin at `q`. -/
inductive Section (d : Dgram) : Nat → List Rec → Nat → Prop where
  | nil (p : Nat) : Section d p [] p
  | cons {p x q : Nat} {rs : List Rec} (hx : Extent d.data d.len.toNat p x)
      (hdata : x + 10 + Rec.rdlength d ⟨p, x⟩ ≤ d.len.toNat)
      (h : Section d (x + 10 + Rec.rdlength d ⟨p, x⟩) rs q) : Section d p (⟨p, x⟩ :: rs) q

/-- The record is about the name `w`. -/
def Owned (d : Dgram) (w : List UInt8) (r : Rec) : Prop :=
  ∃ t, Decodes d.data d.len.toNat r.owner t ∧ SameName t w

/-- An IN record of the name `w` with an address. -/
structure AddrOf (d : Dgram) (w : List UInt8) (r : Rec) : Prop where
  owned : Owned d w r
  rtype : r.rtype d = typeA
  rclass : r.rclass d = classIn
  rdlength : r.rdlength d = 4

/-- An IN `CNAME` record of the name `w` to the name `t`. -/
structure CnameOf (d : Dgram) (w : List UInt8) (r : Rec) (t : List UInt8) : Prop where
  owned : Owned d w r
  rtype : r.rtype d = typeCname
  rclass : r.rclass d = classIn
  target : Decodes d.data d.len.toNat r.rdata t

/-- **Among the records there is, in order, a chain** of `CNAME` records from `w` on, and behind it
the address `ip` of its last name. -/
inductive HasChain (d : Dgram) : List UInt8 → List Rec → UInt32 → Prop where
  | addr {w : List UInt8} {r : Rec} {rs : List Rec} (h : AddrOf d w r) :
    HasChain d w (r :: rs) (get32 d.data r.rdata)
  | cname {w t : List UInt8} {r : Rec} {rs : List Rec} {ip : UInt32} (h : CnameOf d w r t)
      (hc : HasChain d t rs ip) : HasChain d w (r :: rs) ip
  | other {w : List UInt8} {r : Rec} {rs : List Rec} {ip : UInt32} (hc : HasChain d w rs ip) :
    HasChain d w (r :: rs) ip

/-- **Behind these records the name to look for is `u`**: each `CNAME` of the name so far is
followed, and there was no address of it. -/
inductive Follows (d : Dgram) : List UInt8 → List Rec → List UInt8 → Prop where
  | nil (w : List UInt8) : Follows d w [] w
  | cname {w t u : List UInt8} {r : Rec} {rs : List Rec} (h : CnameOf d w r t)
      (hf : Follows d t rs u) : Follows d w (r :: rs) u
  | other {w u : List UInt8} {r : Rec} {rs : List Rec} (ha : ¬ AddrOf d w r)
      (hc : ∀ t, ¬ CnameOf d w r t) (hf : Follows d w rs u) : Follows d w (r :: rs) u

/-- A name that has a `CNAME` has no other one behind it, and no address. -/
def Consistent (d : Dgram) (recs : List Rec) : Prop :=
  recs.Pairwise fun r r' => ∀ w t, CnameOf d w r t →
    ¬ AddrOf d w r' ∧ ∀ t', ¬ CnameOf d w r' t'

section
variable {d : Dgram} {w t u v : List UInt8} {r : Rec} {rs xs ys pre post : List Rec}
  {p q x n : Nat} {ip : UInt32}

theorem Section.append (h : Section d p xs q) (h' : Section d q ys n) :
    Section d p (xs ++ ys) n := by
  induction h with
  | nil => exact h'
  | cons hx hdata _ ih => exact .cons hx hdata (ih h')

theorem Section.split (h : Section d p (xs ++ ys) n) : ∃ q, Section d p xs q ∧ Section d q ys n := by
  induction xs generalizing p with
  | nil => exact ⟨p, .nil p, h⟩
  | cons r xs ih =>
    cases h with
    | cons hx hdata h =>
      obtain ⟨q, hq, hrest⟩ := ih h
      exact ⟨q, .cons hx hdata hq, hrest⟩

theorem Section.le (h : Section d p rs q) (hp : p ≤ d.len.toNat) : q ≤ d.len.toNat := by
  induction h with
  | nil => exact hp
  | cons _ hdata _ ih => exact ih hdata

theorem Follows.append (h : Follows d w xs u) (h' : Follows d u ys v) : Follows d w (xs ++ ys) v := by
  induction h with
  | nil => exact h'
  | cname hc _ ih => exact .cname hc (ih h')
  | other ha hc _ ih => exact .other ha hc (ih h')

theorem Follows.chain (h : Follows d w rs u) (ha : AddrOf d u r) :
    HasChain d w (rs ++ [r]) (get32 d.data r.rdata) := by
  induction h with
  | nil => exact .addr ha
  | cname hc _ ih => exact .cname hc (ih ha)
  | other _ _ _ ih => exact .other (ih ha)

/-- A name the chain goes on from is in the records. -/
theorem HasChain.exists_mem (h : HasChain d w rs ip) :
    ∃ r ∈ rs, AddrOf d w r ∨ ∃ t, CnameOf d w r t := by
  induction h with
  | addr ha => exact ⟨_, List.mem_cons_self, Or.inl ha⟩
  | cname hc => exact ⟨_, List.mem_cons_self, Or.inr ⟨_, hc⟩⟩
  | other _ ih =>
    obtain ⟨r, hr, h⟩ := ih
    exact ⟨r, List.mem_cons_of_mem _ hr, h⟩

theorem CnameOf.unique (h : CnameOf d w r t) {w' t' : List UInt8} (h' : CnameOf d w' r t') :
    t = t' := h.target.unique d.len.toNat_lt h'.target

/-- **The first chain is the one that is followed**, where names are consistent. -/
theorem HasChain.follows (hcons : Consistent d (pre ++ [r])) (h : HasChain d w (pre ++ [r]) ip)
    (hfirst : ∀ ip', ¬ HasChain d w pre ip') :
    ∃ u, Follows d w pre u ∧ AddrOf d u r ∧ ip = get32 d.data r.rdata := by
  induction pre generalizing w with
  | nil =>
    rw [List.nil_append] at h
    cases h with
    | addr ha => exact ⟨w, .nil w, ha, rfl⟩
    | cname _ hc => exact nomatch hc
    | other hc => exact nomatch hc
  | cons y pre ih =>
    obtain ⟨hy, hcons⟩ := List.pairwise_cons.mp hcons
    have hnotAddr : ¬ AddrOf d w y := fun ha => hfirst _ (.addr ha)
    by_cases hcname : ∃ t, CnameOf d w y t
    · obtain ⟨t, hc⟩ := hcname
      have htail : HasChain d t (pre ++ [r]) ip := by
        cases h with
        | addr ha => exact absurd ha hnotAddr
        | cname hc' hrest => exact hc.unique hc' ▸ hrest
        | other hrest =>
          -- the chain would begin at a second record of the same name
          obtain ⟨r', hr', hor⟩ := hrest.exists_mem
          have hno := hy r' hr' w t hc
          rcases hor with ha | ⟨t', hc'⟩
          · exact absurd ha hno.1
          · exact absurd hc' (hno.2 t')
      obtain ⟨u, hf, ha, hip⟩ := ih hcons htail fun ip' hip' => hfirst ip' (.cname hc hip')
      exact ⟨u, .cname hc hf, ha, hip⟩
    · have hnone : ∀ t, ¬ CnameOf d w y t := fun t hc => hcname ⟨t, hc⟩
      have htail : HasChain d w (pre ++ [r]) ip := by
        cases h with
        | addr ha => exact absurd ha hnotAddr
        | cname hc' _ => exact absurd hc' (hnone _)
        | other hrest => exact hrest
      obtain ⟨u, hf, ha, hip⟩ := ih hcons htail fun ip' hip' => hfirst ip' (.other hip')
      exact ⟨u, .other hnotAddr hnone hf, ha, hip⟩

end

/-! ## What a reply must be -/

/-- The datagram comes as an answer to the query. -/
structure Heard (c : Client) (d : Dgram) : Prop where
  querying : c.state = .querying
  port : d.src_port = serverPort
  asked : d.src_ip ∈ c.servers.take (c.attempt + 1)
  long : 12 ≤ d.len.toNat
  id : get16 d.data 0 = c.query_id
  qr : get16 d.data 2 &&& 0x8000 ≠ 0
  opcode : (get16 d.data 2 >>> 11) &&& 0x0F = 0

def rcode (d : Dgram) : UInt16 := get16 d.data 2 &&& 0x0F
def ancount (d : Dgram) : Nat := (get16 d.data 6).toNat

/-- Its single question is the one that was asked, and its name ends in front of `x`. -/
structure Questioned (c : Client) (d : Dgram) (x : Nat) : Prop where
  single : get16 d.data 4 = 1
  name : ∃ t, Decodes d.data d.len.toNat 12 t ∧ SameName t c.hostname.text
  extent : Extent d.data d.len.toNat 12 x
  room : x + 4 ≤ d.len.toNat
  qtype : get16 d.data x = typeA
  qclass : get16 d.data (x + 2) = classIn

/-- **The datagram answers the question with `ip`.** -/
structure Bound (c : Client) (d : Dgram) (ip : UInt32) : Prop where
  heard : Heard c d
  noerror : rcode d = 0
  answer : ∃ x recs q, Questioned c d x ∧ Section d (x + 4) recs q ∧ recs.length ≤ ancount d
    ∧ HasChain d c.hostname.text recs ip

/-- **A well-formed datagram whose first address at the end of a chain is `ip`.** -/
structure FirstBound (c : Client) (d : Dgram) (ip : UInt32) : Prop where
  heard : Heard c d
  noerror : rcode d = 0
  answer : ∃ x pre r post q, Questioned c d x ∧ Section d (x + 4) (pre ++ r :: post) q
    ∧ (pre ++ r :: post).length = ancount d ∧ Consistent d (pre ++ r :: post)
    ∧ HasChain d c.hostname.text (pre ++ [r]) ip ∧ ∀ ip', ¬ HasChain d c.hostname.text pre ip'

/-! ## What is read of a reply -/

/-- A name is read and skipped at `p`: that of the question, or the owner of the next record while
there is no address yet. -/
inductive Due (c : Client) (d : Dgram) : Nat → Prop where
  | question (h : get16 d.data 4 = 1) : Due c d 12
  | owner {x p : Nat} {recs : List Rec} {u : List UInt8} (hq : Questioned c d x) (h0 : rcode d = 0)
      (hs : Section d (x + 4) recs p) (hn : recs.length < ancount d)
      (hf : Follows d c.hostname.text recs u) : Due c d p

/-- The target of a `CNAME` of the name to look for. -/
inductive Target (c : Client) (d : Dgram) : Nat → Prop where
  | intro {x q : Nat} {recs : List Rec} {r : Rec} {u : List UInt8} (hq : Questioned c d x)
      (h0 : rcode d = 0) (hs : Section d (x + 4) (recs ++ [r]) q) (hn : recs.length < ancount d)
      (hf : Follows d c.hostname.text recs u) (ho : Owned d u r) (ht : r.rtype d = typeCname)
      (hc : r.rclass d = classIn) : Target c d r.rdata

/-- **The names that are read of a reply are clean.** -/
structure Clean (c : Client) (d : Dgram) : Prop where
  due : Heard c d → ∀ p, Due c d p → CleanName d.data d.len.toNat p ∧ CleanSkip d.data d.len.toNat p
  target : Heard c d → ∀ p, Target c d p → CleanName d.data d.len.toNat p

/-! ## The answers -/

/-- The C string `want` is the name `u`, up to case. -/
def Wants (want u : List UInt8) : Prop := want.map lower = u.map lower ∧ 0 ∉ want

section
variable {d : Dgram} {want u t : List UInt8} {c : Client} {p q x n : Nat} {ip : UInt32}

theorem Wants.same (h : Wants want u) (t : List UInt8) : SameName t want ↔ SameName t u := by
  unfold SameName
  rw [h.1]

/-- An owner is compared right. -/
theorem owner_iff (hclean : CleanName d.data d.len.toNat p) (hw : Wants want u) :
    ((decodeName d.data d.len.toNat p 256).any fun owner => nameEq (cString owner) want) = true
      ↔ ∃ t, Decodes d.data d.len.toNat p t ∧ SameName t u := by
  have hlen := d.len.toNat_lt
  constructor
  · intro h
    cases ht : decodeName d.data d.len.toNat p 256 with
    | none => rw [ht] at h; exact nomatch h
    | some t =>
      have hdec := decodes_of_decodeName hlen hclean ht
      obtain ⟨hnz, hcs⟩ := cString_of_clean hlen hclean hdec
      rw [ht, Option.any_some, hcs, nameEq_iff hnz hw.2, hw.same] at h
      exact ⟨t, hdec, h⟩
  · rintro ⟨t, hdec, hsame⟩
    obtain ⟨hnz, hcs⟩ := cString_of_clean hlen hclean hdec
    rw [decodeName_of_decodes hlen hdec, Option.any_some, hcs, nameEq_iff hnz hw.2, hw.same]
    exact hsame

/-- **One round of the walk over the answers.** -/
theorem answers_step (hp : p ≤ d.len.toNat) (hclean : CleanName d.data d.len.toNat p)
    (hskip : CleanSkip d.data d.len.toNat p)
    (htarget : ∀ x, Extent d.data d.len.toNat p x → Owned d u ⟨p, x⟩ →
      Rec.rtype d ⟨p, x⟩ = typeCname → Rec.rclass d ⟨p, x⟩ = classIn →
      x + 10 + Rec.rdlength d ⟨p, x⟩ ≤ d.len.toNat → CleanName d.data d.len.toNat (x + 10))
    (hw : Wants want u) (n : Nat) (foreign : Bool) :
    (answers d (n + 1) p want foreign = some .broken
      ∧ ¬ ∃ x, Extent d.data d.len.toNat p x ∧ x + 10 + Rec.rdlength d ⟨p, x⟩ ≤ d.len.toNat)
    ∨ ∃ x, Extent d.data d.len.toNat p x ∧ x + 10 + Rec.rdlength d ⟨p, x⟩ ≤ d.len.toNat ∧
      ((AddrOf d u ⟨p, x⟩
          ∧ answers d (n + 1) p want foreign = some (.found (get32 d.data (x + 10))))
        ∨ (∃ t want' foreign', CnameOf d u ⟨p, x⟩ t ∧ Wants want' t
          ∧ answers d (n + 1) p want foreign
            = answers d n (x + 10 + Rec.rdlength d ⟨p, x⟩) want' foreign')
        ∨ (¬ AddrOf d u ⟨p, x⟩ ∧ (∀ t, ¬ CnameOf d u ⟨p, x⟩ t) ∧ ∃ foreign',
          answers d (n + 1) p want foreign
            = answers d n (x + 10 + Rec.rdlength d ⟨p, x⟩) want foreign')) := by
  have hlen := d.len.toNat_lt
  have howner : ∀ x, ((decodeName d.data d.len.toNat p 256).any fun owner =>
      nameEq (cString owner) want) = true ↔ Owned d u ⟨p, x⟩ := fun _ => owner_iff hclean hw
  rw [answers]
  dsimp only
  rcases skipName_spec hlen hskip hp with ⟨heq, hno⟩ | ⟨x, hx, heq⟩
  · rw [heq]
    exact Or.inl ⟨if_pos (Or.inl rfl), fun ⟨x, hx, _⟩ => hno ⟨x, hx⟩⟩
  have hpx := hx.bounds
  rw [heq]
  dsimp only
  rw [show p + (x - p) = x by omega]
  obtain ⟨rdlength, hrd⟩ : ∃ n, (get16 d.data (x + 8)).toNat = n := ⟨_, rfl⟩
  have hrd' : ∀ p, Rec.rdlength d ⟨p, x⟩ = rdlength := fun _ => hrd
  rw [hrd]
  by_cases hfields : x + 10 > d.len.toNat
  · rw [if_pos (Or.inr hfields)]
    refine Or.inl ⟨rfl, fun ⟨x', hx', hin⟩ => ?_⟩
    obtain rfl := Extent.unique hx hx'
    omega
  rw [if_neg (show ¬ (x - p = 0 ∨ x + 10 > d.len.toNat) by omega)]
  by_cases hdata : x + 10 + rdlength > d.len.toNat
  · rw [if_pos hdata]
    refine Or.inl ⟨rfl, fun ⟨x', hx', hin⟩ => ?_⟩
    obtain rfl := Extent.unique hx hx'
    rw [hrd'] at hin
    omega
  rw [if_neg hdata]
  refine Or.inr ⟨x, hx, by rw [hrd']; omega, ?_⟩
  rw [hrd']
  have hown := howner x
  generalize (decodeName d.data d.len.toNat p 256).any
    (fun owner => nameEq (cString owner) want) = ok at hown ⊢
  by_cases hcname : ok = true ∧ get16 d.data x = typeCname ∧ get16 d.data (x + 2) = classIn
  · obtain ⟨hok, htype, hclass⟩ := hcname
    rw [if_pos ⟨hok, htype, hclass⟩]
    have hnotAddr : ¬ AddrOf d u ⟨p, x⟩ := fun ha =>
      absurd (htype.symm.trans ha.rtype) (by decide)
    have hct := htarget x hx (hown.mp hok) htype hclass (by rw [hrd']; omega)
    cases ht : decodeName d.data d.len.toNat (x + 10) 256 with
    | none =>
      refine Or.inr (Or.inr ⟨hnotAddr, fun t hc => ?_, _, rfl⟩)
      have hdec := decodeName_of_decodes hlen hc.target
      rw [show Rec.rdata ⟨p, x⟩ = x + 10 from rfl, ht] at hdec
      exact nomatch hdec
    | some t =>
      have hdec := decodes_of_decodeName hlen hct ht
      obtain ⟨hnz, hcs⟩ := cString_of_clean hlen hct hdec
      refine Or.inr (Or.inl ⟨t, t, foreign || !ok, ⟨hown.mp hok, htype, hclass, hdec⟩,
        ⟨rfl, hnz⟩, ?_⟩)
      dsimp only
      rw [hcs]
  rw [if_neg hcname]
  have hnotCname : ∀ t, ¬ CnameOf d u ⟨p, x⟩ t := fun t hc =>
    hcname ⟨hown.mpr hc.owned, hc.rtype, hc.rclass⟩
  by_cases haddr : ok = true ∧ get16 d.data x = typeA ∧ get16 d.data (x + 2) = classIn
      ∧ rdlength = 4
  · rw [if_pos haddr]
    obtain ⟨hok, htype, hclass, hfour⟩ := haddr
    exact Or.inl ⟨⟨hown.mp hok, htype, hclass, (hrd' p).trans hfour⟩, rfl⟩
  · rw [if_neg haddr]
    exact Or.inr (Or.inr ⟨fun ha => haddr ⟨hown.mpr ha.owned, ha.rtype, ha.rclass,
      (hrd' p).symm.trans ha.rdlength⟩, hnotCname, _, rfl⟩)

/-- **Where the walk is**: behind the records `recs`, which begin at `x`, with `n` to come. -/
structure At (c : Client) (d : Dgram) (x : Nat) (recs : List Rec) (n p : Nat)
    (want u : List UInt8) : Prop where
  done : Section d x recs p
  count : recs.length + n = ancount d
  follows : Follows d c.hostname.text recs u
  wants : Wants want u

variable {recs recs' pre post : List Rec} {r : Rec} {y : Nat}

theorem At.step (hc : Clean c d) (hh : Heard c d) (hq : Questioned c d x) (h0 : rcode d = 0)
    (h : At c d (x + 4) recs (n + 1) p want u) (foreign : Bool) :
    (answers d (n + 1) p want foreign = some .broken
      ∧ ∀ r q, ¬ Section d p [r] q)
    ∨ ∃ r q, Section d p [r] q ∧
      ((AddrOf d u r ∧ answers d (n + 1) p want foreign = some (.found (get32 d.data r.rdata)))
        ∨ ∃ want' u' foreign', Follows d u [r] u' ∧ At c d (x + 4) (recs ++ [r]) n q want' u'
          ∧ answers d (n + 1) p want foreign = answers d n q want' foreign') := by
  have hn : recs.length < ancount d := by
    have := h.count
    omega
  obtain ⟨hclean, hskip⟩ := hc.due hh p (.owner hq h0 h.done hn h.follows)
  have hnext : ∀ {r q u' want'}, Section d p [r] q → Follows d u [r] u' → Wants want' u' →
      At c d (x + 4) (recs ++ [r]) n q want' u' := fun {r q u' want'} hs hf hw =>
    ⟨h.done.append hs, by
      rw [List.length_append, List.length_singleton]
      have := h.count
      omega, h.follows.append hf, hw⟩
  have hone : ∀ y, Extent d.data d.len.toNat p y →
      y + 10 + Rec.rdlength d ⟨p, y⟩ ≤ d.len.toNat →
      Section d p [⟨p, y⟩] (y + 10 + Rec.rdlength d ⟨p, y⟩) := fun y hy hdata =>
    .cons hy hdata (.nil _)
  rcases answers_step (h.done.le hq.room) hclean hskip
      (fun y hy hown htype hclass hdata => hc.target hh _
        (.intro hq h0 (h.done.append (hone y hy hdata)) hn h.follows hown htype hclass))
      h.wants n foreign with ⟨hb, hno⟩ | ⟨y, hy, hdata, hcase⟩
  · refine Or.inl ⟨hb, fun r q hs => ?_⟩
    cases hs with
    | cons hx hdata _ => exact hno ⟨_, hx, hdata⟩
  refine Or.inr ⟨⟨p, y⟩, _, hone y hy hdata, ?_⟩
  rcases hcase with ⟨ha, heq⟩ | ⟨t, want', foreign', hcn, hw, heq⟩ | ⟨ha, hcn, foreign', heq⟩
  · exact Or.inl ⟨ha, heq⟩
  · have hf : Follows d u [⟨p, y⟩] t := .cname hcn (.nil t)
    exact Or.inr ⟨want', t, foreign', hf, hnext (hone y hy hdata) hf hw, heq⟩
  · have hf : Follows d u [⟨p, y⟩] u := .other ha hcn (.nil u)
    exact Or.inr ⟨want, u, foreign', hf, hnext (hone y hy hdata) hf h.wants, heq⟩

/-- **The walk returns**, and an address it finds is the end of the chain that is followed. -/
theorem At.found (hc : Clean c d) (hh : Heard c d) (hq : Questioned c d x) (h0 : rcode d = 0)
    (h : At c d (x + 4) recs n p want u) (foreign : Bool) :
    ∃ a, answers d n p want foreign = some a ∧ ∀ ip, a = .found ip →
      ∃ recs' r q u', Section d (x + 4) (recs' ++ [r]) q ∧ recs'.length < ancount d
        ∧ Follows d c.hostname.text recs' u' ∧ AddrOf d u' r ∧ ip = get32 d.data r.rdata := by
  induction n generalizing recs p want u foreign with
  | zero => exact ⟨_, rfl, fun ip hip => nomatch hip⟩
  | succ n ih =>
    rcases h.step hc hh hq h0 foreign with ⟨heq, _⟩ | ⟨r, q, hs, ⟨ha, heq⟩ |
      ⟨want', u', foreign', _, hat, heq⟩⟩
    · exact ⟨_, heq, fun ip hip => nomatch hip⟩
    · refine ⟨_, heq, fun ip hip => ⟨recs, r, q, u, h.done.append hs, ?_, h.follows, ha, ?_⟩⟩
      · have := h.count
        omega
      · injection hip with hip
        exact hip.symm
    · rw [heq]
      exact ih hat foreign'

/-- Records at one place are the same. -/
theorem Section.head_unique {q q' : Nat} {r r' : Rec} (h : Section d p [r] q)
    (h' : Section d p (r' :: recs) q') : r = r' ∧ Section d q recs q' := by
  cases h with
  | cons hx hdata hnil =>
    cases hnil
    cases h' with
    | cons hx' hdata' hrest =>
      obtain rfl := Extent.unique hx hx'
      exact ⟨rfl, hrest⟩

theorem Follows.unique_one {v v' : List UInt8} (h : Follows d u [r] v)
    (h' : Follows d u (r :: recs) v') : Follows d v recs v' := by
  cases h with
  | cname hc hnil =>
    cases hnil
    cases h' with
    | cname hc' hrest => exact hc.unique hc' ▸ hrest
    | other _ hno _ => exact absurd hc (hno _)
  | other ha hno hnil =>
    cases hnil
    cases h' with
    | cname hc' _ => exact absurd hc' (hno _)
    | other _ _ hrest => exact hrest

/-- **An address at the end of the chain that is followed is found.** -/
theorem At.finds {v : List UInt8} (hc : Clean c d) (hh : Heard c d) (hq : Questioned c d x)
    (h0 : rcode d = 0) (h : At c d (x + 4) recs n p want u) (foreign : Bool)
    (hn : n = (pre ++ r :: post).length) (hs : Section d p (pre ++ r :: post) q)
    (hf : Follows d u pre v) (ha : AddrOf d v r) :
    answers d n p want foreign = some (.found (get32 d.data r.rdata)) := by
  induction pre generalizing recs n p want u foreign with
  | nil =>
    obtain rfl : n = post.length + 1 := hn
    cases hf
    rcases h.step hc hh hq h0 foreign with ⟨_, hno⟩ | ⟨r', q', hs', hcase⟩
    · obtain ⟨q', hq', _⟩ := @Section.split d [r] _ _ _ hs
      exact absurd hq' (hno r q')
    · obtain ⟨rfl, _⟩ := hs'.head_unique hs
      rcases hcase with ⟨_, heq⟩ | ⟨want', u', foreign', hf, _⟩
      · exact heq
      · cases hf with
        | cname hcn => exact absurd (hcn.rtype.symm.trans ha.rtype) (by decide)
        | other hno => exact absurd ha hno
  | cons y pre ih =>
    obtain rfl : n = (pre ++ r :: post).length + 1 := hn
    rcases h.step hc hh hq h0 foreign with ⟨_, hno⟩ | ⟨r', q', hs', hcase⟩
    · obtain ⟨q', hq', _⟩ := @Section.split d [y] _ _ _ hs
      exact absurd hq' (hno y q')
    · obtain ⟨rfl, hrest⟩ := hs'.head_unique hs
      rcases hcase with ⟨ha', _⟩ | ⟨want', u', foreign', hf', hat, heq⟩
      · cases hf with
        | cname hcn => exact absurd (hcn.rtype.symm.trans ha'.rtype) (by decide)
        | other hno => exact absurd ha' hno
      · rw [heq]
        exact ih hat foreign' rfl hrest (hf'.unique_one hf)

end

/-! ## The question -/

section
variable {e : Env} {c c' : Client} {d : Dgram} {x : Nat} {ip : UInt32}

/-- **The echoed question is checked right**, where there is one. -/
theorem question_spec (hclean : CleanName d.data d.len.toNat 12)
    (hskip : CleanSkip d.data d.len.toNat 12) (h12 : 12 ≤ d.len.toNat) (hqd : get16 d.data 4 = 1)
    (code : UInt16) :
    (question d code c = some none ∧ ∀ x, ¬ Questioned c d x)
      ∨ ∃ x, question d code c = some (some (x + 4)) ∧ Questioned c d x := by
  have hlen := d.len.toNat_lt
  have howner : ∀ t, Decodes d.data d.len.toNat 12 t →
      (nameEq (cString t) c.hostname.text = false ↔ ¬ SameName t c.hostname.text) := by
    intro t hdec
    obtain ⟨hnz, hcs⟩ := cString_of_clean hlen hclean hdec
    rw [hcs, ← nameEq_iff hnz c.hostname.ended, Bool.not_eq_true]
  unfold question
  dsimp only
  rw [hqd, if_neg (show ¬ (1 : UInt16) > 1 by decide), if_pos rfl]
  cases ht : decodeName d.data d.len.toNat 12 256 with
  | none =>
    refine Or.inl ⟨rfl, fun x hq => ?_⟩
    obtain ⟨t, hdec, _⟩ := hq.name
    rw [decodeName_of_decodes hlen hdec] at ht
    exact nomatch ht
  | some t =>
    have hdec := decodes_of_decodeName hlen hclean ht
    dsimp only
    rcases skipName_spec hlen hskip h12 with ⟨heq, hno⟩ | ⟨x, hx, heq⟩
    · rw [heq]
      exact Or.inl ⟨if_pos (Or.inl rfl), fun x hq => hno ⟨x, hq.extent⟩⟩
    have hbounds := hx.bounds
    rw [heq]
    dsimp only
    rw [show 12 + (x - 12) = x by omega]
    by_cases hroom : x + 4 > d.len.toNat
    · rw [if_pos (Or.inr hroom)]
      refine Or.inl ⟨rfl, fun x' hq => ?_⟩
      obtain rfl := Extent.unique hx hq.extent
      exact absurd hq.room (Nat.not_le.mpr hroom)
    rw [if_neg (show ¬ (x - 12 = 0 ∨ x + 4 > d.len.toNat) by omega)]
    by_cases hbad : nameEq (cString t) c.hostname.text = false ∨ get16 d.data x ≠ typeA
        ∨ get16 d.data (x + 2) ≠ classIn
    · rw [if_pos hbad]
      refine Or.inl ⟨rfl, fun x' hq => ?_⟩
      obtain rfl := Extent.unique hx hq.extent
      obtain ⟨t', hdec', hsame⟩ := hq.name
      obtain rfl := Decodes.unique hlen hdec hdec'
      rcases hbad with hname | htype | hclass
      · exact (howner t hdec).mp hname hsame
      · exact htype hq.qtype
      · exact hclass hq.qclass
    · rw [if_neg hbad]
      obtain ⟨hname, htype, hclass⟩ : nameEq (cString t) c.hostname.text ≠ false
          ∧ get16 d.data x = typeA ∧ get16 d.data (x + 2) = classIn := by
        refine ⟨fun h => hbad (Or.inl h), ?_, ?_⟩
        · exact Decidable.byContradiction fun h => hbad (Or.inr (Or.inl h))
        · exact Decidable.byContradiction fun h => hbad (Or.inr (Or.inr h))
      have hsame : SameName t c.hostname.text :=
        not_not.mp fun h => hname ((howner t hdec).mpr h)
      exact Or.inr ⟨x, rfl, hqd, ⟨t, hdec, hsame⟩, hx, Nat.not_lt.mp hroom, htype, hclass⟩

/-- A reply without one question is not one of an address. -/
theorem question_none (hqd : get16 d.data 4 ≠ 1) (code : UInt16) :
    question d code c = some none ∨ (question d code c = some (some 12) ∧ code ≠ 0) := by
  unfold question
  dsimp only
  rw [if_neg hqd]
  split
  · exact Or.inl rfl
  · by_cases h : code = 0 ∨ code = 3
    · exact Or.inl (if_pos h)
    · exact Or.inr ⟨if_neg h, fun h0 => h (Or.inl h0)⟩

/-! ## One datagram -/

theorem sendAttempt_state (c : Client) : (sendAttempt e c).state = c.state := rfl

theorem nextAttemptOrFail_state (why : List UInt8) (hc : c.state = .querying) :
    (nextAttemptOrFail e why c).state ≠ .resolved := by
  unfold nextAttemptOrFail
  split
  · rw [sendAttempt_state]
    exact fun h => nomatch hc.symm.trans h
  · exact fun h => nomatch h

/-- The walk starts from the name that was asked for. -/
theorem wants_hostname (c : Client) : Wants (c.hostname.text.map lower) c.hostname.text := by
  refine ⟨?_, fun h0 => ?_⟩
  · rw [List.map_map]
    exact List.map_congr_left fun b _ => (lower_byte b).1
  · obtain ⟨b, hb, hlow⟩ := List.mem_map.mp h0
    rw [(lower_byte b).2.2.mp hlow] at hb
    exact c.hostname.ended hb

/-- What is done behind the question, which ends in front of `pos`. -/
def behind (e : Env) (d : Dgram) (c : Client) (pos : Nat) : Option Client :=
  if rcode d ≠ 0 then
    if rcode d = 3 then
      some { failAppend (bytes " says it does not exist).") (failAppend (ipStr d.src_ip)
        (failAppend (bytes "No such host (server ") { c with fail := [] })) with state := .failed }
    else
      some (nextAttemptOrFail e
        (bytes "Server error " ++ [UInt8.ofNat (48 + (rcode d).toNat % 10)]) c)
  else
    match answers d (ancount d) pos (c.hostname.text.map lower) false with
    | none => none
    | some .broken => some { c with state := .failed }
    | some (.found ip) => some { c with result_ip := ip, state := .resolved }
    | some (.ran_out true) => some c
    | some (.ran_out false) =>
      some { failAppend (bytes "The name exists but has no IPv4 address (A record).")
        { c with fail := [] } with state := .failed }

theorem handleReply_heard (hh : Heard c d) : handleReply e d c
    = match question d (rcode d) c with
      | none => none
      | some none => some c
      | some (some pos) => behind e d c pos := by
  have hlong : ¬ d.len < 12 := by
    rw [UInt16.lt_iff_toNat_lt]
    exact Nat.not_lt.mpr hh.long
  unfold handleReply
  rw [if_neg (not_not.mpr hh.querying), if_neg (not_not.mpr hh.port),
    if_neg (not_not.mpr hh.asked), if_neg hlong, if_neg (not_not.mpr hh.id)]
  dsimp only
  rw [if_neg hh.qr, if_neg (not_not.mpr hh.opcode)]
  rfl

/-- **A datagram that does not come as an answer changes nothing.** -/
theorem handleReply_not_heard (hh : ¬ Heard c d) : handleReply e d c = some c := by
  unfold handleReply
  by_cases hquerying : c.state = .querying
  swap; · exact if_pos hquerying
  rw [if_neg (not_not.mpr hquerying)]
  by_cases hport : d.src_port = serverPort
  swap; · exact if_pos hport
  rw [if_neg (not_not.mpr hport)]
  by_cases hasked : d.src_ip ∈ c.servers.take (c.attempt + 1)
  swap; · exact if_pos hasked
  rw [if_neg (not_not.mpr hasked)]
  by_cases hlong : d.len < 12
  · exact if_pos hlong
  rw [if_neg hlong]
  by_cases hid : get16 d.data 0 = c.query_id
  swap; · exact if_pos hid
  rw [if_neg (not_not.mpr hid)]
  dsimp only
  by_cases hqr : get16 d.data 2 &&& 0x8000 = 0
  · exact if_pos hqr
  rw [if_neg hqr]
  refine if_pos fun hop => hh ⟨hquerying, hport, hasked, ?_, hid, hqr, hop⟩
  rw [UInt16.lt_iff_toNat_lt] at hlong
  exact Nat.not_lt.mp hlong

/-- The walk begins in front of the answers, with the name that was asked for. -/
theorem At.start (c : Client) (d : Dgram) (x : Nat) :
    At c d (x + 4) [] (ancount d) (x + 4) (c.hostname.text.map lower) c.hostname.text :=
  ⟨.nil _, Nat.zero_add _, .nil _, wants_hostname c⟩

/-- **A call returns, and resolves to an address only of a datagram that answers with it.** -/
theorem handleReply_bound (hc : Clean c d) (hres : c.state ≠ .resolved) :
    ∃ c', handleReply e d c = some c' ∧ (c'.state = .resolved → Bound c d c'.result_ip) := by
  by_cases hh : Heard c d
  swap; · exact ⟨c, handleReply_not_heard hh, fun h => absurd h hres⟩
  rw [handleReply_heard hh]
  by_cases hqd : get16 d.data 4 = 1
  swap
  · rcases question_none (c := c) hqd (rcode d) with heq | ⟨heq, h0⟩
    · rw [heq]
      exact ⟨c, rfl, fun h => absurd h hres⟩
    · rw [heq]
      dsimp only [behind]
      rw [if_pos h0]
      split
      · exact ⟨_, rfl, fun h => nomatch h⟩
      · exact ⟨_, rfl, fun h => absurd h (nextAttemptOrFail_state _ hh.querying)⟩
  obtain ⟨hclean, hskip⟩ := hc.due hh 12 (.question hqd)
  rcases question_spec (c := c) hclean hskip hh.long hqd (rcode d) with ⟨heq, _⟩ | ⟨x, heq, hq⟩
  · rw [heq]
    exact ⟨c, rfl, fun h => absurd h hres⟩
  rw [heq]
  dsimp only [behind]
  by_cases h0 : rcode d ≠ 0
  · rw [if_pos h0]
    split
    · exact ⟨_, rfl, fun h => nomatch h⟩
    · exact ⟨_, rfl, fun h => absurd h (nextAttemptOrFail_state _ hh.querying)⟩
  rw [if_neg h0]
  obtain ⟨a, ha, hfound⟩ := (At.start c d x).found hc hh hq (not_not.mp h0) false
  rw [ha]
  cases a with
  | broken => exact ⟨_, rfl, fun h => nomatch h⟩
  | ran_out foreign =>
    cases foreign with
    | true => exact ⟨c, rfl, fun h => absurd h hres⟩
    | false => exact ⟨_, rfl, fun h => nomatch h⟩
  | found ip =>
    refine ⟨_, rfl, fun _ => ⟨hh, not_not.mp h0, ?_⟩⟩
    obtain ⟨recs, r, q, u, hs, hn, hf, haddr, rfl⟩ := hfound ip rfl
    refine ⟨x, recs ++ [r], q, hq, hs, ?_, hf.chain haddr⟩
    rw [List.length_append]
    exact hn

/-- **A well-formed datagram that answers the question is believed.** -/
theorem handleReply_first (hc : Clean c d) (hb : FirstBound c d ip) :
    handleReply e d c = some { c with result_ip := ip, state := .resolved } := by
  obtain ⟨hh, h0, x, pre, r, post, q, hq, hs, hn, hcons, hchain, hfirst⟩ := hb
  rw [handleReply_heard hh]
  obtain ⟨hclean, hskip⟩ := hc.due hh 12 (.question hq.single)
  rcases question_spec (c := c) hclean hskip hh.long hq.single (rcode d) with
    ⟨_, hno⟩ | ⟨x', heq, hq'⟩
  · exact absurd hq (hno x)
  obtain rfl := Extent.unique hq.extent hq'.extent
  rw [heq]
  dsimp only [behind]
  rw [if_neg (not_not.mpr h0)]
  have hcons' : Consistent d (pre ++ [r]) :=
    hcons.sublist ((List.singleton_sublist.mpr List.mem_cons_self).append_left pre)
  obtain ⟨u, hf, ha, rfl⟩ := hchain.follows hcons' hfirst
  rw [(At.start c d x).finds hc hh hq h0 false hn.symm hs hf ha]

/-! ## Runs -/

/-- A call: for a datagram that comes, or to look at the clock. -/
inductive Call where
  | reply (e : Env) (d : Dgram)
  | poll (e : Env)

def Call.run : Call → Client → Option Client
  | .reply e d, c => handleReply e d c
  | .poll e, c => some (Dns.poll e c)

def runAll : List Call → Client → Option Client
  | [], c => some c
  | x :: xs, c => (x.run c).bind (runAll xs)

/-- In front of the call `x` the client is `b`. -/
def Before (xs : List Call) (c : Client) (x : Call) (b : Client) : Prop :=
  ∃ pre post, xs = pre ++ x :: post ∧ runAll pre c = some b

section
variable {x y : Call} {xs : List Call} {b c₁ : Client}

theorem Before.head (y : Call) (xs : List Call) (c : Client) : Before (y :: xs) c y c :=
  ⟨[], xs, rfl, rfl⟩

theorem Before.cons (hy : y.run c = some c₁) (h : Before xs c₁ x b) : Before (y :: xs) c x b := by
  obtain ⟨pre, post, rfl, hpre⟩ := h
  refine ⟨y :: pre, post, rfl, ?_⟩
  rw [runAll, hy, Option.bind_some, hpre]

theorem Before.cases (hy : y.run c = some c₁) (h : Before (y :: xs) c x b) :
    (x = y ∧ b = c) ∨ Before xs c₁ x b := by
  obtain ⟨pre, post, heq, hpre⟩ := h
  cases pre with
  | nil =>
    obtain ⟨rfl, _⟩ := List.cons.inj heq
    injection hpre with hpre
    exact Or.inl ⟨rfl, hpre.symm⟩
  | cons z pre =>
    obtain ⟨rfl, rfl⟩ := List.cons.inj heq
    rw [runAll, hy, Option.bind_some] at hpre
    exact Or.inr ⟨pre, post, rfl, hpre⟩

/-- A lookup that is over stays as it is. -/
theorem runAll_over (hc : c.state ≠ .querying) (xs : List Call) : runAll xs c = some c := by
  induction xs with
  | nil => rfl
  | cons y xs ih =>
    have hy : y.run c = some c := by
      cases y with
      | reply e d => exact handleReply_not_heard fun hh => hc hh.querying
      | poll e => exact congrArg some (if_pos hc)
    rw [runAll, hy, Option.bind_some, ih]

theorem poll_state (e : Env) (hc : c.state ≠ .resolved) : (poll e c).state ≠ .resolved := by
  unfold poll
  split
  · exact hc
  · next hq =>
    split
    · exact nextAttemptOrFail_state _ (not_not.mp hq)
    · exact hc

end

/-- **DNS answers are bound to the question**: in every run of clean datagrams each call returns,
the lookup gets an address only by a datagram that answers its question with it, and each
well-formed such datagram resolves it. -/
theorem runAll_bound (c : Client) (xs : List Call)
    (hclean : ∀ e d b, Before xs c (.reply e d) b → Clean b d) :
    ∃ c', runAll xs c = some c'
      ∧ (c.state ≠ .resolved → c'.state = .resolved →
          ∃ e d b, Before xs c (.reply e d) b ∧ Bound b d c'.result_ip)
      ∧ ∀ e d b ip, Before xs c (.reply e d) b → FirstBound b d ip →
          c'.state = .resolved ∧ c'.result_ip = ip := by
  induction xs generalizing c with
  | nil =>
    refine ⟨c, rfl, fun hne h => absurd h hne, fun e d b ip hb => ?_⟩
    obtain ⟨pre, post, hnil, _⟩ := hb
    exact absurd hnil.symm (List.append_ne_nil_of_right_ne_nil pre (List.cons_ne_nil _ post))
  | cons y xs ih =>
    by_cases hc : c.state = .querying
    swap
    · refine ⟨c, runAll_over hc _, fun hne h => absurd h hne, fun e d b ip hb hfirst => ?_⟩
      obtain ⟨pre, post, _, hpre⟩ := hb
      rw [runAll_over hc] at hpre
      injection hpre with hpre
      exact absurd (hpre ▸ hfirst.heard.querying) hc
    have hne : c.state ≠ .resolved := fun h => nomatch hc.symm.trans h
    obtain ⟨c₁, hy, hbound⟩ : ∃ c₁, y.run c = some c₁ ∧ (c₁.state = .resolved →
        ∃ e d, y = .reply e d ∧ Bound c d c₁.result_ip) := by
      cases y with
      | reply e d =>
        obtain ⟨c₁, hy, hb⟩ := handleReply_bound (e := e) (hclean e d c (.head _ xs c)) hne
        exact ⟨c₁, hy, fun h => ⟨e, d, rfl, hb h⟩⟩
      | poll e => exact ⟨_, rfl, fun h => absurd h (poll_state e hne)⟩
    rw [runAll, hy, Option.bind_some]
    by_cases hc₁ : c₁.state = .resolved
    · obtain ⟨e, d, rfl, hb⟩ := hbound hc₁
      have hover : c₁.state ≠ .querying := fun h => nomatch hc₁.symm.trans h
      refine ⟨c₁, runAll_over hover xs, fun _ _ => ⟨e, d, c, .head _ xs c, hb⟩,
        fun e' d' b ip hbefore hfirst => ?_⟩
      rcases hbefore.cases hy with ⟨heq, rfl⟩ | ⟨pre, post, _, hpre⟩
      · injection heq with he hd
        subst he hd
        rw [Call.run, handleReply_first (hclean _ _ _ (.head _ xs _)) hfirst] at hy
        injection hy with hy
        exact hy ▸ ⟨rfl, rfl⟩
      · rw [runAll_over hover] at hpre
        injection hpre with hpre
        exact absurd (hpre ▸ hfirst.heard.querying) hover
    · obtain ⟨c', hrun, hsound, hcomplete⟩ := ih c₁ fun e d b hb => hclean e d b (hb.cons hy)
      refine ⟨c', hrun, fun _ h => ?_, fun e d b ip hbefore hfirst => ?_⟩
      · obtain ⟨e, d, b, hb, hbd⟩ := hsound hc₁ h
        exact ⟨e, d, b, hb.cons hy, hbd⟩
      · rcases hbefore.cases hy with ⟨rfl, rfl⟩ | hbefore
        · rw [Call.run, handleReply_first (hclean e d b (.head _ xs b)) hfirst] at hy
          injection hy with hy
          exact absurd (hy ▸ rfl) hc₁
        · exact hcomplete e d b ip hbefore hfirst

end

/-! ## Two replies -/

/-- A lookup of `a`. -/
def lookupA : Client where
  state := .querying
  query_id := 7
  query_tick := 0
  result_ip := 0
  query_wall := 0
  servers := [1]
  attempt := 0
  fail := []
  hostname := ⟨bytes "a", by decide, by decide⟩
  sent := []

/-- A reply to the question with this name, with the address 10.0.0.1 for it. -/
def replyTo (name : List UInt8) : Dgram where
  src_ip := 1
  src_port := serverPort
  data := Block.zero.put 0 ([0, 7, 0x80, 0, 0, 1, 0, 1, 0, 0, 0, 0] ++ name
    ++ [0, 1, 0, 1, 0xC0, 12, 0, 1, 0, 1, 0, 0, 0, 0, 0, 4, 10, 0, 0, 1])
  len := UInt16.ofNat (32 + name.length)

theorem replyTo_clean : Clean lookupA (replyTo [1, 97, 0]) := by
  have hroot : CleanName (replyTo [1, 97, 0]).data 35 14 :=
    .intro (fun h => absurd rfl h.2.1) (fun h => absurd rfl h.2.1) fun q h => nomatch h
  have hname : CleanName (replyTo [1, 97, 0]).data 35 12 := by
    refine .intro (fun _ => by decide) (fun _ i hi => ?_) fun q h => ?_
    · obtain rfl : i = 0 := Nat.lt_one_iff.mp hi
      decide
    · injection h with h
      exact h ▸ hroot
  have hpointer : CleanName (replyTo [1, 97, 0]).data 35 19 := by
    refine .intro (fun _ => by decide) (fun h => absurd h.2.2 (by decide)) fun q h => ?_
    injection h with h
    exact h ▸ hname
  have hskip14 : CleanSkip (replyTo [1, 97, 0]).data 35 14 :=
    .intro (by decide) fun q h => nomatch h
  have hskip : CleanSkip (replyTo [1, 97, 0]).data 35 12 := by
    refine .intro (by decide) fun q h => ?_
    injection h with h
    exact h ▸ hskip14
  have hskip19 : CleanSkip (replyTo [1, 97, 0]).data 35 19 :=
    .intro (by decide) fun q h => nomatch h
  have hx : ∀ {x}, Questioned lookupA (replyTo [1, 97, 0]) x → x = 15 := fun hq =>
    Extent.unique hq.extent (.label (by decide) (by decide) (by decide)
      (.root (by decide) (by decide)))
  have hfirst : ∀ {recs : List Rec} {x q : Nat}, Questioned lookupA (replyTo [1, 97, 0]) x →
      recs.length < ancount (replyTo [1, 97, 0]) → Section (replyTo [1, 97, 0]) (x + 4) recs q →
      recs = [] ∧ q = 19 := by
    intro recs x q hq hn hs
    obtain rfl : recs = [] := List.length_eq_zero_iff.mp (Nat.lt_one_iff.mp hn)
    cases hs
    exact ⟨rfl, congrArg (· + 4) (hx hq)⟩
  refine ⟨fun _ p hp => ?_, fun _ p hp => ?_⟩
  · cases hp with
    | question => exact ⟨hname, hskip⟩
    | owner hq _ hs hn =>
      obtain ⟨_, rfl⟩ := hfirst hq hn hs
      exact ⟨hpointer, hskip19⟩
  · cases hp with
    | intro hq _ hs hn _ _ htype =>
      obtain ⟨q, hq', hr⟩ := hs.split
      obtain ⟨rfl, rfl⟩ := hfirst hq hn hq'
      cases hr with
      | cons hx' =>
        obtain rfl := Extent.unique hx' (.pointer (by decide) (by decide))
        exact absurd htype (by decide)

theorem runAll_bound_replyTo : ∃ e d b, Before [.reply ⟨0, 0⟩ (replyTo [1, 97, 0])] lookupA
    (.reply e d) b ∧ Bound b d 0x0A000001 := by
  have hrun : runAll [.reply ⟨0, 0⟩ (replyTo [1, 97, 0])] lookupA
      = some { lookupA with result_ip := 0x0A000001, state := .resolved } := rfl
  have hclean : ∀ e d b, Before [.reply ⟨0, 0⟩ (replyTo [1, 97, 0])] lookupA (.reply e d) b →
      Clean b d := by
    intro e d b hb
    have hone : Call.run (.reply ⟨0, 0⟩ (replyTo [1, 97, 0])) lookupA
        = some { lookupA with result_ip := 0x0A000001, state := .resolved } := rfl
    rcases hb.cases hone with ⟨heq, rfl⟩ | ⟨pre, post, hnil, _⟩
    · injection heq with _ hd
      exact hd ▸ replyTo_clean
    · exact absurd hnil.symm (List.append_ne_nil_of_right_ne_nil pre (List.cons_ne_nil _ post))
  obtain ⟨c', heq, hbound, _⟩ := runAll_bound lookupA _ hclean
  rw [hrun] at heq
  injection heq with heq
  subst heq
  exact hbound (by decide) rfl

/-- **A zero in a label cuts the comparison**: the question is not the one that was asked. -/
theorem zero_in_label_resolves : ∃ e c d ip, c.state = .querying
    ∧ handleReply e d c = some { c with result_ip := ip, state := .resolved } ∧ ¬ Bound c d ip := by
  refine ⟨⟨0, 0⟩, lookupA, replyTo [3, 97, 0, 98, 0], 0x0A000001, rfl, rfl, fun hb => ?_⟩
  obtain ⟨x, recs, q, hq, _⟩ := hb.answer
  obtain ⟨t, ht, hsame⟩ := hq.name
  have hdec := decodeName_of_decodes (replyTo [3, 97, 0, 98, 0]).len.toNat_lt ht
  have htext : decodeName (replyTo [3, 97, 0, 98, 0]).data 37 12 256 = some [97, 0, 98] := rfl
  obtain rfl : t = [97, 0, 98] := Option.some.inj (hdec.symm.trans htext)
  unfold SameName at hsame
  revert hsame
  decide

end Dns
