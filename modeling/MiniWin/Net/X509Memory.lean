import MiniWin.Net.X509Safe

/-!
# X509: no access outside the certificate

Every function of the parser with its reads is taken in turn. What it is given lies in the
certificate; then everything it touches does, and so do the elements that it hands on. The loops end
because an element that is in its row is not empty.
-/

namespace X509

open Asn1 Tls Pkcs1

variable {m : Mem} {r B : Row} {t : Tlv} {fuel : Nat}

namespace Trace

variable {G P : Access → Prop} {E : Stop → Prop} {α β : Type}

/-- The subject of the rules below. -/
abbrev Sane (m : Mem) (B : Row) (G P : Access → Prop) (E : Stop → Prop) (Q : α → Prop) (x : T α) :
    Prop :=
  Rely m B G P → E .refused → x.Under G P Q E

variable {Q : α → Prop} {R : β → Prop} {x : T α} {f : α → T β}

theorem Sane.bind (hx : Sane m B G P E Q x) (hf : ∀ a, Q a → Sane m B G P E R (f a)) :
    Sane m B G P E R (x >>= f) := fun hr he =>
  (hx hr he).bind fun a ha => hf a ha hr he

theorem Sane.imp {Q' : α → Prop} (hx : Sane m B G P E Q x) (h : ∀ a, Q a → Q' a) :
    Sane m B G P E Q' x := fun hr he => (hx hr he).imp h

theorem sane_pure {a : α} (h : Q a) : Sane m B G P E Q (pure a : T α) := fun _ _ =>
  Logged.under_pure h

theorem sane_must {o : Option α} (h : ∀ a, o = some a → Q a) : Sane m B G P E Q (must o) := by
  intro _ he
  cases o with
  | none => exact Logged.under_stop he
  | some a => exact Logged.under_pure (h a rfl)

theorem sane_reading {a : α} {l : List UInt32} (hl : ∀ p ∈ l, InBuf B p) (h : Q a) :
    Sane m B G P E Q (reading a l) := fun hr _ => by
  refine Logged.under_emit fun _ => ⟨fun s hs => ?_, h⟩
  obtain ⟨p, hp, rfl⟩ := List.mem_map.1 hs
  exact hr.read p (hl p hp)

/-- A read that nothing is asked of. -/
theorem sane_bool {b : Bool} {l : List UInt32} (hl : ∀ p ∈ l, InBuf B p) :
    Sane m B G P E (fun _ => True) (reading b l) := sane_reading hl trivial

theorem sane_parseTlv (h : Within r B) :
    Sane m B G P E (fun o => ∀ t, o = some t → Elem r t) (parseTlv m r) := fun hr _ => by
  refine Logged.under_emit fun hG => ?_
  obtain ⟨hcall, helem⟩ := hr.call r (hG _ List.mem_cons_self)
  refine ⟨List.forall_mem_cons.2 ⟨hcall, fun s hs => ?_⟩, helem⟩
  obtain ⟨p, hp, rfl⟩ := List.mem_map.1 hs
  exact hr.read p (inBuf_tlvReads h p hp)

theorem sane_expect {tag : UInt8} (h : Within r B) :
    Sane m B G P E (fun o => ∀ t, o = some t → Elem r t) (expect m r tag) :=
  (sane_parseTlv h).bind fun _ ho => sane_pure fun t ht =>
    ho t (Option.filter_eq_some_iff.1 ht).1

theorem sane_oidEquals {oid : List UInt8} (h : Within t.row B) :
    Sane m B G P E (fun _ => True) (oidEquals m t oid) := sane_bool (inBuf_oidReads h)

theorem sane_slice {n : Nat} (h : Within r B) (hn : n ≤ r.remaining.toNat) :
    Sane m B G P E (fun _ => True) (slice m r.p n) := sane_reading (inBuf_span h hn) trivial

/-! ### Names -/

theorem sane_commonName (h : Within t.row B) :
    Sane m B G P E (fun o => ∀ v, o = some v → Within v.row B) (commonName m t) := by
  refine (sane_parseTlv h).bind fun o ho => ?_
  cases o with
  | none => exact sane_pure nofun
  | some oid =>
    have hoid := ho oid rfl
    refine (sane_oidEquals (hoid.row_within h)).bind fun b _ => ?_
    cases b with
    | false => exact sane_pure nofun
    | true =>
      have hbehind := hoid.behind_within h
      exact (sane_parseTlv hbehind).imp fun o ho v hv => (ho v hv).row_within hbehind

theorem sane_keptName {cn : List UInt8} {v : Option Tlv} (h : ∀ t, v = some t → Within t.row B) :
    Sane m B G P E (fun _ => True) (keptName m cn v) := by
  cases v with
  | none => exact sane_pure trivial
  | some t => exact sane_slice (h t rfl) (Nat.min_le_left _ _)

/-- A round of a loop that goes on behind an element. -/
theorem fuel_behind (hfuel : r.remaining.toNat < fuel + 1 ∨ E .endless) (h : Elem r t) :
    (r.behind t).remaining.toNat < fuel ∨ E .endless :=
  hfuel.imp_left fun hlt => h.shrinks.trans_le (Nat.le_of_lt_succ hlt)

theorem fuel_row (hfuel : r.remaining.toNat < fuel + 1 ∨ E .endless) (h : Elem r t) :
    t.row.remaining.toNat < fuel ∨ E .endless :=
  hfuel.imp_left fun hlt => h.shorter.trans_le (Nat.le_of_lt_succ hlt)

theorem sane_cnInSet {cn : List UInt8} (h : Within r B)
    (hfuel : r.remaining.toNat < fuel ∨ E .endless) :
    Sane m B G P E (fun _ => True) (cnInSet m fuel r cn) := by
  induction fuel generalizing r cn with
  | zero => exact fun _ _ => Logged.under_stop (hfuel.resolve_left (Nat.not_lt_zero _))
  | succ fuel ih =>
    unfold cnInSet
    split
    · exact sane_pure trivial
    · refine (sane_expect h).bind fun o ho => ?_
      cases o with
      | none => exact sane_pure trivial
      | some atv =>
        have helem := ho atv rfl
        refine (sane_commonName (helem.row_within h)).bind fun v hv => ?_
        refine (sane_keptName hv).bind fun cn' _ => ?_
        exact ih (helem.behind_within h) (fuel_behind hfuel helem)

theorem sane_extractCn {cn : List UInt8} (h : Within r B)
    (hfuel : r.remaining.toNat < fuel ∨ E .endless) :
    Sane m B G P E (fun _ => True) (extractCn m fuel r cn) := by
  induction fuel generalizing r cn with
  | zero => exact fun _ _ => Logged.under_stop (hfuel.resolve_left (Nat.not_lt_zero _))
  | succ fuel ih =>
    unfold extractCn
    split
    · exact sane_pure trivial
    · refine (sane_expect h).bind fun o ho => ?_
      cases o with
      | none => exact sane_pure trivial
      | some rdn =>
        have helem := ho rdn rfl
        refine (sane_cnInSet (helem.row_within h) (fuel_row hfuel helem)).bind fun cn' _ => ?_
        exact ih (helem.behind_within h) (fuel_behind hfuel helem)

/-! ### Extensions -/

theorem sane_oneOf {os : List (List UInt8)} (h : Within t.row B) :
    Sane m B G P E (fun _ => True) (oneOf m t os) := by
  induction os with
  | nil => exact sane_pure trivial
  | cons o os ih =>
    refine (sane_oidEquals h).bind fun b _ => ?_
    cases b with
    | true => exact sane_pure trivial
    | false => exact ih

theorem sane_byte {p : UInt32} (h : InBuf B p) : Sane m B G P E (fun _ => True) (byte m p) :=
  sane_reading (List.forall_mem_singleton.2 h) trivial

theorem sane_isTrue (h : Within t.row B) : Sane m B G P E (fun _ => True) (isTrue m t) := by
  unfold isTrue
  split
  · next hlen =>
    refine (sane_byte (inBuf_head h hlen)).bind fun b _ => sane_pure trivial
  · exact sane_pure trivial

/-- What an extension hands on. -/
def ExtWithin (B : Row) (x : Ext) : Prop :=
  Within x.oid.row B ∧ ∀ octet, x.octet = some octet → Within octet.row B

theorem sane_readExt (h : Within t.row B) :
    Sane m B G P E (fun o => ∀ x, o = some x → ExtWithin B x) (readExt m t) := by
  refine (sane_parseTlv h).bind fun o ho => ?_
  cases o with
  | none => exact sane_pure nofun
  | some oid =>
    have hoid := ho oid rfl
    have hbehind := hoid.behind_within h
    have hoctet : ∀ {r : Row} {octet : Option Tlv}, Within r B →
        (∀ t, octet = some t → Elem r t) → ∀ t, octet = some t → Within t.row B :=
      fun hr ho t ht => (ho t ht).row_within hr
    refine (sane_expect hbehind).bind fun o ho => ?_
    cases o with
    | none =>
      refine (sane_expect hbehind).bind fun octet hx => sane_pure ?_
      rintro x ⟨⟩
      exact ⟨hoid.row_within h, hoctet hbehind hx⟩
    | some b =>
      have hb := ho b rfl
      have hlast := hb.behind_within hbehind
      refine (sane_isTrue (hb.row_within hbehind)).bind fun critical _ => ?_
      refine (sane_expect hlast).bind fun octet hx => sane_pure ?_
      rintro x ⟨⟩
      exact ⟨hoid.row_within h, hoctet hlast hx⟩

theorem sane_keyUsage (h : Within t.row B) :
    Sane m B G P E (fun _ => True) (keyUsage m t) := by
  refine (sane_expect h).bind fun o ho => ?_
  cases o with
  | none => exact sane_pure trivial
  | some bits =>
    dsimp only
    split
    · next hlen =>
      intro hr _
      exact Logged.under_emit fun hG =>
        ⟨hr.usage bits ((ho bits rfl).row_within h) hlen hG, trivial⟩
    · exact sane_pure trivial

theorem sane_caFlag (h : Within t.row B) : Sane m B G P E (fun _ => True) (caFlag m t) := by
  refine (sane_expect h).bind fun o ho => ?_
  cases o with
  | none => exact sane_pure trivial
  | some bc =>
    have hbc := (ho bc rfl).row_within h
    dsimp only
    split
    · exact sane_pure trivial
    · refine (sane_expect hbc).bind fun o ho => ?_
      cases o with
      | none => exact sane_pure trivial
      | some ca =>
        exact (sane_isTrue ((ho ca rfl).row_within hbc)).bind fun b _ => sane_pure trivial

/-- A subjectAltName that is kept lies in the certificate. -/
def SanWithin (B : Row) (e : Extensions) : Prop := ∀ r, e.san_ext = some r → Within r B

theorem sane_applyValue {x : Ext} {e : Extensions} (hx : Within x.oid.row B) (h : Within t.row B)
    (he : SanWithin B e) : Sane m B G P E (SanWithin B) (applyValue m x e t) := by
  refine (sane_oidEquals hx).bind fun b _ => ?_
  cases b with
  | true =>
    refine sane_pure fun r hr => ?_
    obtain rfl := Option.some.inj hr
    exact h
  | false =>
    refine (sane_oidEquals hx).bind fun b _ => ?_
    cases b with
    | true =>
      refine (sane_keyUsage h).bind fun o _ => ?_
      cases o <;> exact sane_pure he
    | false =>
      refine (sane_oidEquals hx).bind fun b _ => ?_
      cases b with
      | true =>
        refine (sane_caFlag h).bind fun o _ => ?_
        cases o <;> exact sane_pure he
      | false => exact sane_pure he

theorem sane_applyExt {x : Ext} {e : Extensions} (hx : ExtWithin B x) (he : SanWithin B e) :
    Sane m B G P E (SanWithin B) (applyExt m x e) := by
  have hcheck : Sane m B G P E (SanWithin B) (checkCritical m x e) := by
    unfold checkCritical
    split
    · refine (sane_oneOf hx.1).bind fun b _ => ?_
      cases b <;> exact sane_pure he
    · exact sane_pure he
  refine hcheck.bind fun e' he' => ?_
  cases hoctet : x.octet with
  | none => exact sane_pure he'
  | some octet => exact sane_applyValue hx.1 (hx.2 octet hoctet) he'

theorem sane_parseExtensions {e : Extensions} (h : Within r B) (he : SanWithin B e)
    (hfuel : r.remaining.toNat < fuel ∨ E .endless) :
    Sane m B G P E (SanWithin B) (parseExtensions m fuel r e) := by
  induction fuel generalizing r e with
  | zero => exact fun _ _ => Logged.under_stop (hfuel.resolve_left (Nat.not_lt_zero _))
  | succ fuel ih =>
    unfold parseExtensions
    split
    · exact sane_pure he
    · refine (sane_expect h).bind fun o ho => ?_
      cases o with
      | none => exact sane_pure he
      | some x =>
        have helem := ho x rfl
        refine (sane_readExt (helem.row_within h)).bind fun o hx => ?_
        cases o with
        | none => exact sane_pure he
        | some ext =>
          refine (sane_applyExt (hx ext rfl) he).bind fun e' he' => ?_
          exact ih (helem.behind_within h) he' (fuel_behind hfuel helem)

theorem sane_inElement {e : Extensions} (h : Within t.row B) (he : SanWithin B e)
    (hfuel : t.row.remaining.toNat < fuel ∨ E .endless) :
    Sane m B G P E (SanWithin B) (inElement m fuel t e) := by
  unfold inElement
  split
  · refine (sane_expect h).bind fun o ho => ?_
    cases o with
    | none => exact sane_pure he
    | some exts =>
      have helem := ho exts rfl
      exact sane_parseExtensions (helem.row_within h) he (hfuel.imp_left helem.shorter.trans)
  · exact sane_pure he

theorem sane_parseTail {e : Extensions} (h : Within r B) (he : SanWithin B e)
    (hfuel : r.remaining.toNat < fuel ∨ E .endless) :
    Sane m B G P E (SanWithin B) (parseTail m fuel r e) := by
  induction fuel generalizing r e with
  | zero => exact fun _ _ => Logged.under_stop (hfuel.resolve_left (Nat.not_lt_zero _))
  | succ fuel ih =>
    unfold parseTail
    split
    · exact sane_pure he
    · refine (sane_parseTlv h).bind fun o ho => ?_
      cases o with
      | none => exact sane_pure he
      | some t =>
        have helem := ho t rfl
        refine (sane_inElement (helem.row_within h) he (fuel_row hfuel helem)).bind
          fun e' he' => ?_
        exact ih (helem.behind_within h) he' (fuel_behind hfuel helem)

/-! ### Keys and signatures -/

/-- The bytes of a BIT STRING. -/
theorem bits_within (h : Within t.row B) :
    Within ⟨(bitStringBytes t).1, (bitStringBytes t).2⟩ B := by
  unfold bitStringBytes
  split
  · exact h.part (show (0 : UInt32).toNat ≤ t.len.toNat from Nat.zero_le _)
  · next hlen =>
    exact h.skip (k := 1) (Nat.pos_of_ne_zero fun h0 => hlen (UInt32.toNat_inj.1 h0))

theorem sane_curveGroup (h : Within t.row B) :
    Sane m B G P E (fun o => ∀ gw, o = some gw → 0 < gw.2) (curveGroup m t) := by
  refine (sane_oidEquals h).bind fun b _ => ?_
  cases b with
  | true => exact sane_pure (by rintro gw ⟨⟩; decide)
  | false =>
    refine (sane_oidEquals h).bind fun b _ => ?_
    cases b with
    | true => exact sane_pure (by rintro gw ⟨⟩; decide)
    | false => exact sane_pure nofun

theorem sane_ecPoint {group : UInt16} {want : Nat} (h : Within t.row B) (hwant : 0 < want) :
    Sane m B G P E (fun _ => True) (ecPoint m t group want) := by
  unfold ecPoint
  split
  · next hlen =>
    have hbits := bits_within h
    refine (sane_byte (inBuf_head hbits (hwant.trans_eq hlen.symm))).bind fun b _ => ?_
    split
    · exact (sane_slice hbits le_rfl).bind fun _ _ => sane_pure trivial
    · exact sane_pure trivial
  · exact sane_pure trivial

theorem sane_ecKey {r' : Row} (h : Within r B) (h' : Within r' B) :
    Sane m B G P E (fun _ => True) (ecKey m r r') := by
  refine (sane_parseTlv h).bind fun o ho => ?_
  cases o with
  | none => exact sane_pure trivial
  | some curve_oid =>
    refine (sane_expect h').bind fun o' ho' => ?_
    cases o' with
    | none => exact sane_pure trivial
    | some pt_bits =>
      refine (sane_curveGroup ((ho curve_oid rfl).row_within h)).bind fun o hwant => ?_
      cases o with
      | none => exact sane_pure trivial
      | some gw => exact sane_ecPoint ((ho' pt_bits rfl).row_within h') (hwant gw rfl)

/-- The integers of a key. -/
def IntsWithin (B : Row) (ints : Tlv × Tlv) : Prop :=
  Within ints.1.row B ∧ ints.1.next = ints.1.value + ints.1.len ∧ Within ints.2.row B

theorem sane_rsaInts (h : Within r B) :
    Sane m B G P E (fun o => ∀ ints, o = some ints → IntsWithin B ints) (rsaInts m r) := by
  refine (sane_expect h).bind fun o ho => ?_
  cases o with
  | none => exact sane_pure nofun
  | some pk_bits =>
    have hbits := bits_within ((ho pk_bits rfl).row_within h)
    refine (sane_expect hbits).bind fun o ho => ?_
    cases o with
    | none => exact sane_pure nofun
    | some rsa_seq =>
      have hseq := (ho rsa_seq rfl).row_within hbits
      refine (sane_expect hseq).bind fun o ho => ?_
      cases o with
      | none => exact sane_pure nofun
      | some mod_t =>
        have hmod := ho mod_t rfl
        have hbehind := hmod.behind_within hseq
        refine (sane_expect hbehind).bind fun o ho => ?_
        cases o with
        | none => exact sane_pure nofun
        | some exp_t =>
          refine sane_pure ?_
          rintro ints ⟨⟩
          exact ⟨hmod.row_within hseq, hmod.next_eq, (ho exp_t rfl).row_within hbehind⟩

theorem sane_rsaKey {o : Option (Tlv × Tlv)} (h : ∀ ints, o = some ints → IntsWithin B ints) :
    Sane m B G P E (fun _ => True) (rsaKey m o) := by
  cases o with
  | none => exact sane_pure trivial
  | some ints =>
    obtain ⟨hmod, hnext, hexp⟩ := h ints rfl
    refine sane_reading (fun p hp => ?_) trivial
    exact (List.mem_append.1 hp).elim (inBuf_modulusReads hmod hnext p)
      (inBuf_smallIntReads hexp p)

/-- What the certificate has to have is read. -/
theorem sane_need {f : Tlv → T β} {x : T (Option Tlv)}
    (hx : Sane m B G P E (fun o => ∀ t, o = some t → Elem r t) x)
    (hf : ∀ t, Elem r t → Sane m B G P E R (f t)) :
    Sane m B G P E R (x >>= fun o => must o >>= f) :=
  hx.bind fun _ ho => (sane_must ho).bind hf

theorem sane_parseKey (h : Within t.row B) :
    Sane m B G P E (fun _ => True) (parseKey m t) := by
  refine sane_need (sane_expect h) fun alg halg => ?_
  have halg' := halg.row_within h
  refine sane_need (sane_parseTlv halg') fun alg_oid hoid => ?_
  have hoid' := hoid.row_within halg'
  refine (sane_oidEquals hoid').bind fun b _ => ?_
  cases b with
  | true =>
    exact (sane_ecKey (hoid.behind_within halg') (halg.behind_within h)).bind fun _ _ =>
      sane_pure trivial
  | false =>
    refine (sane_oidEquals hoid').bind fun b _ => ?_
    cases b with
    | true => exact (sane_rsaInts (halg.behind_within h)).bind fun _ ho => sane_rsaKey ho
    | false => exact sane_pure trivial

theorem sane_sigAlg (h : Within t.row B) : Sane m B G P E (fun _ => True) (sigAlg m t) := by
  have hstep : ∀ {oid : List UInt8} {v : Option (Scheme × Hash)}
      {x : T (Option (Scheme × Hash))}, Sane m B G P E (fun _ => True) x →
      Sane m B G P E (fun _ => True)
        (oidEquals m t oid >>= fun b => if b = true then pure v else x) := fun hx =>
    (sane_oidEquals h).bind fun b _ => by
      cases b with
      | true => exact sane_pure trivial
      | false => exact hx
  unfold sigAlg
  refine hstep ?_
  refine hstep ?_
  refine hstep ?_
  refine hstep ?_
  refine hstep ?_
  exact hstep (sane_pure trivial)

theorem sane_skipSerial (h : Within r B) :
    Sane m B G P E (fun r' => Within r' B) (skipSerial m r) := by
  refine sane_need (sane_parseTlv h) fun t ht => ?_
  have hbehind := ht.behind_within h
  split
  · exact sane_need (sane_parseTlv hbehind) fun serial hs =>
      sane_pure (hs.behind_within hbehind)
  · exact sane_pure hbehind

theorem sane_nameBytes (h : Within r B) (ht : Elem r t) :
    Sane m B G P E (fun _ => True) (nameBytes m r t) :=
  sane_slice h ((Nat.min_le_left _ _).trans ht.next_le)

theorem sane_validity (h : Within t.row B) :
    Sane m B G P E (fun _ => True) (validity m t) := by
  refine sane_need (sane_parseTlv h) fun nb hnb => ?_
  have hbehind := hnb.behind_within h
  refine sane_need (sane_parseTlv hbehind) fun na hna => ?_
  refine sane_reading (fun p hp => ?_) trivial
  exact (List.mem_append.1 hp).elim (inBuf_timeReads (hnb.row_within h) p)
    (inBuf_timeReads (hna.row_within hbehind) p)

/-! ### The certificate -/

theorem sane_parse (hfuel : B.remaining.toNat < fuel ∨ E .endless) :
    Sane m B G P E (fun c => SanWithin B c.ext) (parse fuel m B.p B.remaining) := by
  have hfuel' : ∀ {r : Row}, Within r B → r.remaining.toNat < fuel ∨ E .endless := fun h =>
    hfuel.imp_left h.le.trans_lt
  refine sane_need (sane_expect (within_self B)) fun outer houter => ?_
  have houter' := houter.row_within (within_self B)
  refine sane_need (sane_expect houter') fun tbs htbs => ?_
  refine (sane_skipSerial (htbs.row_within houter')).bind fun r hr => ?_
  refine sane_need (sane_expect hr) fun alg halg => ?_
  have hr := halg.behind_within hr
  refine sane_need (sane_expect hr) fun issuer hissuer => ?_
  refine (sane_nameBytes hr hissuer).bind fun _ _ => ?_
  have hr := hissuer.behind_within hr
  refine sane_need (sane_expect hr) fun valid hvalid => ?_
  refine (sane_validity (hvalid.row_within hr)).bind fun _ _ => ?_
  have hr := hvalid.behind_within hr
  refine sane_need (sane_expect hr) fun subject hsubject => ?_
  refine (sane_nameBytes hr hsubject).bind fun _ _ => ?_
  have hname := hsubject.row_within hr
  refine (sane_extractCn hname (hfuel' hname)).bind fun _ _ => ?_
  have hr := hsubject.behind_within hr
  refine sane_need (sane_expect hr) fun spki hspki => ?_
  refine (sane_parseKey (hspki.row_within hr)).bind fun _ _ => ?_
  have hr := hspki.behind_within hr
  have hnone : SanWithin B {} := fun _ h => nomatch h
  refine (sane_parseTail hr hnone (hfuel' hr)).bind fun ext hext => ?_
  have hr := htbs.behind_within houter'
  refine sane_need (sane_expect hr) fun sig_alg hsig_alg => ?_
  have halg' := hsig_alg.row_within hr
  refine sane_need (sane_parseTlv halg') fun sig_alg_oid hoid => ?_
  refine (sane_sigAlg (hoid.row_within halg')).bind fun _ _ => ?_
  have hr := hsig_alg.behind_within hr
  refine sane_need (sane_expect hr) fun sig_bits hbits => ?_
  have hbytes := bits_within (hbits.row_within hr)
  exact (sane_slice hbytes (Nat.min_le_left _ _)).bind fun _ _ => sane_pure hext

theorem sane_sanMatches {host : List UInt8} (h : Within r B)
    (hfuel : r.remaining.toNat < fuel ∨ E .endless) :
    Sane m B G P E (fun _ => True) (sanMatches m host fuel r) := by
  induction fuel generalizing r with
  | zero => exact fun _ _ => Logged.under_stop (hfuel.resolve_left (Nat.not_lt_zero _))
  | succ fuel ih =>
    unfold sanMatches
    split
    · exact sane_pure trivial
    · refine (sane_parseTlv h).bind fun o ho => ?_
      cases o with
      | none => exact sane_pure trivial
      | some gn =>
        have helem := ho gn rfl
        have hnext := ih (helem.behind_within h) (fuel_behind hfuel helem)
        dsimp only
        split
        · refine (sane_bool (inBuf_nameReads (helem.row_within h))).bind fun b _ => ?_
          cases b with
          | true => exact sane_pure trivial
          | false => exact hnext
        · exact hnext

theorem sane_matchesHostname {host : List UInt8} {c : Cert} (h : SanWithin B c.ext)
    (hfuel : B.remaining.toNat < fuel ∨ E .endless) :
    Sane m B G P E (fun _ => True) (matchesHostname fuel m c host) := by
  unfold matchesHostname
  cases hsan : c.ext.san_ext with
  | none => exact sane_pure trivial
  | some san =>
    have hin := h san hsan
    refine (sane_expect hin).bind fun o ho => ?_
    cases o with
    | none => exact sane_pure trivial
    | some names_seq =>
      have hnames := (ho names_seq rfl).row_within hin
      exact sane_sanMatches hnames (hfuel.imp_left hnames.le.trans_lt)

end Trace

/-! ## The certificate and its host name -/

/-- `x509_parse`, and `x509_matches_hostname` on what it accepts. -/
def inspect (fuel : Nat) (m : Mem) (B : Row) (host : List UInt8) : Trace.T Bool := do
  let c ← Trace.parse fuel m B.p B.remaining
  Trace.matchesHostname fuel m c host

/-- **The parser is memory-safe** on the certificate in a row of bytes: whatever the host name, in
every call and in every read, and it comes to its end. -/
structure MemorySafe (m : Mem) (B : Row) : Prop where
  accesses : ∀ fuel host, ∀ s ∈ (inspect fuel m B host).log, s.Safe m B
  ends : ∀ host, ∃ fuel, (inspect fuel m B host).out ≠ .error .endless

/-- **What the certificate must not bring**, where the parser comes to it. -/
def SoundDer (m : Mem) (B : Row) : Prop :=
  ∀ fuel host, ∀ s ∈ (inspect fuel m B host).log, s.Sound m B

theorem sane_inspect {G P : Access → Prop} {E : Stop → Prop} {host : List UInt8}
    (hfuel : B.remaining.toNat < fuel ∨ E .endless) :
    Trace.Sane m B G P E (fun _ => True) (inspect fuel m B host) :=
  (Trace.sane_parse hfuel).bind fun _ hc => Trace.sane_matchesHostname hc hfuel

/-- Sound accesses are safe. -/
theorem rely_sound (m : Mem) (B : Row) : Rely m B (Access.Sound m B) (Access.Safe m B) where
  call r hround :=
    ⟨fun _ ht => (elem_of_sound ht hround).toInside, fun _ ht => elem_of_sound ht hround⟩
  read _ h := h
  usage bits h htwo hG := by
    have hend := hG _ List.mem_cons_self
    refine List.forall_mem_cons.2 ⟨trivial, fun s hs => ?_⟩
    obtain ⟨p, hp, rfl⟩ := List.mem_map.1 hs
    exact inBuf_usageReads h htwo hend p hp

/-- With more unused bits than there are, the byte behind the two of a KeyUsage is read. -/
theorem third_read (hlen : t.len = 2) (hcount : 8 < m t.value) :
    t.value + 2 ∈ usageReads m t := by
  refine List.mem_cons_of_mem _ (List.mem_map.2 ⟨8, List.mem_filter.2 ⟨by decide, ?_⟩, ?_⟩)
  · have hb := (m t.value).toNat_lt
    have hcount' : 8 < (m t.value).toNat := hcount
    rw [hlen, show ((2 : UInt32) - 1) * 8 = 8 from rfl]
    refine decide_eq_true (UInt32.lt_iff_toNat_lt.2 ?_)
    rw [UInt32.toNat_sub, UInt8.toNat_toUInt32]
    show 8 < (2 ^ 32 - (m t.value).toNat + 8) % 2 ^ 32
    omega
  · rw [UInt32.add_assoc]
    rfl

/-- And safe accesses are sound. -/
theorem rely_safe (m : Mem) (B : Row) : Rely m B (Access.Safe m B) (Access.Sound m B) where
  call r hsafe := by
    have hround : ¬ GoesRound m r := fun h => by
      obtain ⟨t, ht, hout⟩ := not_inside_of_round h
      exact hout (hsafe t ht)
    exact ⟨hround, fun _ ht => elem_of_sound ht hround⟩
  read _ _ := trivial
  usage bits h htwo hG := by
    refine List.forall_mem_cons.2 ⟨fun hlen hcount => ?_, fun s hs => ?_⟩
    · exact hG _ (List.mem_cons_of_mem _ (List.mem_map_of_mem (third_read hlen hcount)))
    · obtain ⟨p, hp, rfl⟩ := List.mem_map.1 hs
      trivial

/-- **The parser is memory-safe just where the certificate is sound.** -/
theorem memorySafe_iff (m : Mem) (B : Row) : MemorySafe m B ↔ SoundDer m B := by
  constructor
  · intro h fuel host
    exact (sane_inspect (E := fun _ => True) (.inr trivial) (rely_safe m B) trivial
      (h.accesses fuel host)).1
  · intro h
    refine ⟨fun fuel host => ?_, fun host => ⟨B.remaining.toNat + 1, fun hend => ?_⟩⟩
    · exact (sane_inspect (E := fun _ => True) (.inr trivial) (rely_sound m B) trivial
        (h fuel host)).1
    · exact (sane_inspect (E := (· ≠ .endless)) (.inl (Nat.lt_succ_self _)) (rely_sound m B) nofun
        (h _ host)).2.2 _ hend rfl

/-- The whole of the certificate is read first. -/
theorem call_mem_log (fuel : Nat) (m : Mem) (B : Row) (host : List UInt8) :
    Access.call B ∈ (inspect fuel m B host).log :=
  Logged.mem_log_bind (Logged.mem_log_bind (Logged.mem_log_bind List.mem_cons_self))

/-- A KeyUsage of two bytes at the end of a certificate, with nine unused bits: the byte behind the
certificate is read. -/
example : Access.read 42 ∈ (inspect 4 (derAt [
    0x30, 0x28, 0x30, 0x26, 0x02, 0x01, 0x01, 0x30, 0x00, 0x30, 0x00, 0x30, 0x04, 0x17, 0x00, 0x17,
    0x00, 0x30, 0x00, 0x30, 0x04, 0x30, 0x02, 0x06, 0x00, 0xA3, 0x0F, 0x30, 0x0D, 0x30, 0x0B, 0x06,
    0x03, 0x55, 0x1D, 0x0F, 0x04, 0x04, 0x03, 0x02, 0x09, 0x80]) ⟨0, 42⟩ []).log := by
  decide +kernel

/-- Eight bytes whose length is `2 ^ 32 - 4`. -/
theorem not_memorySafe :
    ¬ MemorySafe (derAt [0x30, 0x84, 0xFF, 0xFF, 0xFF, 0xFC, 0x30, 0x00]) ⟨0, 8⟩ := by
  intro h
  obtain ⟨t, ht, hout⟩ := not_inside_of_round
    (m := derAt [0x30, 0x84, 0xFF, 0xFF, 0xFF, 0xFC, 0x30, 0x00]) (r := ⟨0, 8⟩)
    (by unfold GoesRound; decide)
  exact hout (h.accesses 0 [] _ (call_mem_log 0 _ _ _) t ht)

end X509
