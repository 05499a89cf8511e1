import MiniWin.Net.DnsReply

/-!
# DNS: the question on the wire

What `dns_send_attempt` sends, and what `dns_decode_name` and `dns_skip_name` read there. The text
of a host is two bytes shorter than its name in a message, and a dot at its end makes a label of
no bytes, which ends the name in front of the byte that is to end it.
-/

namespace Dns

open Net WireName

variable {host : List UInt8} {ls : List (List UInt8)} {label l stop out rest : List UInt8}

/-- What `dns_resolve` keeps of the host it is given. -/
def keep (host : List UInt8) (h : 0 ∉ host) : Host where
  text := host.take (maxName - 1)
  fits := by
    rw [List.length_take]
    unfold maxName
    omega
  ended := fun hz => h (List.mem_of_mem_take hz)

/-- The host is a row of labels with one dot between them, and one at the end perhaps. -/
def WellFormed (host : List UInt8) : Prop :=
  ∃ ls : List (List UInt8), ls ≠ [] ∧ Short ls ∧ (∀ l ∈ ls, '.'.toUInt8 ∉ l)
    ∧ (host = dotted '.'.toUInt8 ls ∨ host = dotted '.'.toUInt8 ls ++ ['.'.toUInt8])

/-- A packet in memory. -/
def packet (pkt : List UInt8) : Block := Block.zero.put 0 pkt

/-- **The packet asks for the host of the client**: it fits `pkt`, and what is read of its question
is the host, up to case and a dot at the end, and that an address is wanted. -/
structure Asks (c : Client) (pkt : List UInt8) : Prop where
  fits : pkt.length ≤ 12 + maxName + 4
  name : ∃ t, decodeName (packet pkt) pkt.length 12 256 = some t ∧ SameName t c.hostname.text
  question : ∃ n, skipName (packet pkt) pkt.length 12 = some n ∧ 12 + n + 4 = pkt.length
    ∧ get16 (packet pkt) (12 + n) = typeA ∧ get16 (packet pkt) (12 + n + 2) = classIn
  /-- `dns_handle_reply` accepts it as the question of a reply. -/
  echo : ∀ src_ip src_port code, Dns.question
    { src_ip := src_ip, src_port := src_port, data := packet pkt, len := UInt16.ofNat pkt.length }
    code c = some (some pkt.length)

/-! ## The name in the packet -/

theorem length_encodeLabels : ∀ (label host : List UInt8),
    (encodeLabels label host).length = label.length + host.length + 1
  | label, [] => rfl
  | label, c :: host => by
    unfold encodeLabels
    split
    · rw [List.cons_append, List.length_cons, List.length_append, length_encodeLabels]
      simp only [List.length_nil, List.length_cons]
      omega
    · rw [length_encodeLabels]
      simp only [List.length_append, List.length_cons, List.length_nil]
      omega

/-- **A name takes two bytes more than its text.** -/
theorem length_encodeName (host : List UInt8) : (encodeName host).length = host.length + 2 := by
  unfold encodeName
  rw [List.length_append, length_encodeLabels]
  simp only [List.length_nil, List.length_cons]
  omega

theorem encodeLabels_append (hl : '.'.toUInt8 ∉ l) (label rest : List UInt8) :
    encodeLabels label (l ++ rest) = encodeLabels (label ++ l) rest := by
  induction l generalizing label with
  | nil => rw [List.nil_append, List.append_nil]
  | cons c l ih =>
    rw [List.mem_cons, not_or] at hl
    rw [List.cons_append, encodeLabels, if_neg (Ne.symm hl.1), ih hl.2, List.append_assoc]
    rfl

/-- Labels with a dot in front of each, and then what becomes of the end. -/
theorem encodeLabels_flatMap (hls : ∀ l ∈ ls, '.'.toUInt8 ∉ l)
    (hstop : ∀ label, encodeLabels label stop = UInt8.ofNat label.length :: label ++ out)
    (label : List UInt8) : encodeLabels label (ls.flatMap ('.'.toUInt8 :: ·) ++ stop)
      = UInt8.ofNat label.length :: label ++ ls.flatMap (fun l => UInt8.ofNat l.length :: l) ++ out := by
  induction ls generalizing label with
  | nil =>
    rw [List.flatMap_nil, List.nil_append, hstop, List.flatMap_nil, List.append_nil]
  | cons l ls ih =>
    rw [List.flatMap_cons, List.cons_append, List.cons_append, encodeLabels, if_pos rfl,
      List.append_assoc, encodeLabels_append (hls l List.mem_cons_self),
      ih fun l' hl' => hls l' (List.mem_cons_of_mem _ hl')]
    simp

theorem encodeName_dotted (hne : ls ≠ []) (hls : ∀ l ∈ ls, '.'.toUInt8 ∉ l)
    (hstop : ∀ label, encodeLabels label stop = UInt8.ofNat label.length :: label ++ out) :
    encodeName (dotted '.'.toUInt8 ls ++ stop)
      = ls.flatMap (fun l => UInt8.ofNat l.length :: l) ++ out ++ [0] := by
  obtain ⟨l, ls, rfl⟩ := List.exists_cons_of_ne_nil hne
  unfold encodeName
  rw [dotted_cons, List.append_assoc, encodeLabels_append (hls l List.mem_cons_self), List.nil_append,
    encodeLabels_flatMap (fun l' hl' => hls l' (List.mem_cons_of_mem _ hl')) hstop, List.flatMap_cons]

/-- **The name of a host.** -/
theorem encodeName_plain (hne : ls ≠ []) (hls : ∀ l ∈ ls, '.'.toUInt8 ∉ l) :
    encodeName (dotted '.'.toUInt8 ls) = wire ls := by
  have h : encodeName (dotted '.'.toUInt8 ls ++ [])
      = ls.flatMap (fun l => UInt8.ofNat l.length :: l) ++ [] ++ [0] :=
    encodeName_dotted hne hls fun label => (List.append_nil _).symm
  rw [List.append_nil, List.append_nil] at h
  exact h

/-- **A dot at the end writes one zero too many.** -/
theorem encodeName_trailing (hne : ls ≠ []) (hls : ∀ l ∈ ls, '.'.toUInt8 ∉ l) :
    encodeName (dotted '.'.toUInt8 ls ++ ['.'.toUInt8]) = wire ls ++ [0] :=
  encodeName_dotted hne hls fun _ => rfl

/-! ## The packet -/

/-- What `dns_send_attempt` sends. -/
def query (c : Client) : List UInt8 :=
  put16be c.query_id ++ put16be 0x0100 ++ put16be 1 ++ put16be 0 ++ put16be 0 ++ put16be 0
    ++ encodeName c.hostname.text ++ put16be typeA ++ put16be classIn

theorem sendAttempt_sent (e : Env) (c : Client) :
    (sendAttempt e c).sent = c.sent ++ [(c.servers.getD c.attempt 0, query c)] := rfl

theorem length_query (c : Client) : (query c).length = c.hostname.text.length + 18 := by
  unfold query
  simp only [List.length_append, length_encodeName]
  simp only [put16be, List.length_cons, List.length_nil]
  omega

/-- The name and the rest of the question lie behind the header. -/
theorem slice_query (c : Client) {name rest : List UInt8}
    (h : encodeName c.hostname.text ++ [0, 1, 0, 1] = name ++ rest) :
    (packet (query c)).slice 12 name.length = name
      ∧ (packet (query c)).slice (12 + name.length) rest.length = rest := by
  have hquery : query c = (put16be c.query_id ++ put16be 0x0100 ++ put16be 1 ++ put16be 0
      ++ put16be 0 ++ put16be 0) ++ (name ++ rest) := by
    rw [← h]
    unfold query
    rw [List.append_assoc, List.append_assoc]
    rfl
  have hall : (packet (query c)).slice 0 (query c).length = query c := Block.slice_put _ _ _
  rw [hquery] at hall ⊢
  exact Block.slice_append_inj _ (Block.slice_append_inj _ hall).2

theorem get16_of_slice {data : Block} {x n : Nat} {u v : UInt8}
    (h : data.slice x n = u :: v :: rest) : get16 data x = u.toUInt16 <<< 8 ||| v.toUInt16 := by
  obtain rfl : n = (u :: v :: rest).length := by rw [← h, Block.length_slice]
  obtain ⟨hu, hrest⟩ := data.slice_append_inj
    (show data.slice x ([u] ++ v :: rest).length = [u] ++ v :: rest from h)
  obtain ⟨hv, -⟩ := data.slice_append_inj
    (show data.slice (x + 1) ([v] ++ rest).length = [v] ++ rest from hrest)
  have hu : data x = u := (List.cons.inj hu).1
  have hv : data (x + 1) = v := (List.cons.inj hv).1
  unfold get16
  rw [hu, hv]

theorem qdcount_query (c : Client) : get16 (packet (query c)) 4 = 1 := by
  have hall : (packet (query c)).slice 0 (query c).length = query c := Block.slice_put _ _ _
  have hquery : query c = (put16be c.query_id ++ put16be 0x0100) ++ (0 :: 1 ::
      (put16be 0 ++ put16be 0 ++ put16be 0 ++ encodeName c.hostname.text ++ put16be typeA
        ++ put16be classIn)) := rfl
  rw [hquery] at hall ⊢
  exact (get16_of_slice (Block.slice_append_inj _ hall).2).trans (by decide)

/-- No label of a short packet runs past the last offset. -/
theorem cleanSkip_short {data : Block} {len p : Nat} (h : len ≤ 2 ^ 15) : CleanSkip data len p :=
  fun q _ hq _ _ => by
    have := (data q).toNat_lt
    omega

/-! ## The question that is read -/

/-- The text of the labels is that of the host, up to case. -/
theorem map_lower_nameText (ls : List (List UInt8)) :
    (nameText ls).map lower = (dotted '.'.toUInt8 ls).map lower := by
  unfold nameText
  cases ls with
  | nil => rfl
  | cons l ls =>
    rw [List.map_cons, dotted_cons, dotted_cons]
    simp [List.map_flatMap, List.flatMap_map, Function.comp_def, (lower_byte _).1]

/-- The last byte of a host without a dot at its end. -/
theorem getLast_dotted (hne : ls ≠ []) (hshort : Short ls) (hdot : ∀ l ∈ ls, '.'.toUInt8 ∉ l) :
    (dotted '.'.toUInt8 ls).getLast? ≠ some '.'.toUInt8 := by
  have hlast : ∀ l ∈ ls, l.getLast? ≠ some '.'.toUInt8 := fun l hl hend =>
    hdot l hl (List.mem_of_getLast? hend)
  have hfull : ∀ l ∈ ls, l ≠ [] := fun l hl => List.ne_nil_of_length_pos (hshort l hl).1
  obtain ⟨l, ls, rfl⟩ := List.exists_cons_of_ne_nil hne
  rw [dotted_cons]
  rcases List.eq_nil_or_concat' ls with rfl | ⟨ls, l', rfl⟩
  · rw [List.flatMap_nil, List.append_nil]
    exact hlast l List.mem_cons_self
  · have hmem : l' ∈ l :: (ls ++ [l']) := by simp
    rw [List.flatMap_append, List.flatMap_singleton, ← List.append_assoc, List.append_cons,
      List.getLast?_append_of_ne_nil _ (hfull l' hmem)]
    exact hlast l' hmem

section
variable {c : Client}

/-- **The name is read as it is written**, whatever stands behind it. -/
theorem query_name (hshort : Short ls)
    (h : encodeName c.hostname.text ++ [0, 1, 0, 1] = wire ls ++ rest) :
    NameAt (packet (query c)) (query c).length 0 12 ls
      ∧ skipName (packet (query c)) (query c).length 12 = some (wire ls).length := by
  have hlen := length_query c
  have hfit := congrArg List.length h
  rw [List.length_append, List.length_append, length_encodeName] at hfit
  simp only [List.length_cons, List.length_nil] at hfit
  have hsmall : (query c).length ≤ 2 ^ 15 := by
    have := c.hostname.fits
    unfold maxName at this
    omega
  obtain ⟨hname, hextent⟩ := nameAt_wire hshort (slice_query c h).1
    (show 12 + (wire ls).length ≤ (query c).length by omega)
  refine ⟨hname, ?_⟩
  rcases skipName_spec (by omega) (cleanSkip_short hsmall)
    (show 12 ≤ (query c).length by omega) with ⟨-, hno⟩ | ⟨e, he, heq⟩
  · exact absurd ⟨_, hextent⟩ hno
  · obtain rfl := Extent.unique he hextent
    rw [heq]
    congr 1
    omega

/-- **A host without a dot at its end is asked for**, if it leaves a byte of `hostname` unused. -/
theorem asks_plain (hne : ls ≠ []) (hshort : Short ls) (hdot : ∀ l ∈ ls, '.'.toUInt8 ∉ l)
    (htext : c.hostname.text = dotted '.'.toUInt8 ls)
    (hroom : c.hostname.text.length < maxName - 1) : Asks c (query c) := by
  have hlen := length_query c
  have hencode : encodeName c.hostname.text = wire ls := by rw [htext, encodeName_plain hne hdot]
  have hwire := length_encodeName c.hostname.text
  rw [hencode] at hwire
  obtain ⟨hname, hskip⟩ := query_name hshort (congrArg (· ++ [0, 1, 0, 1]) hencode)
  obtain ⟨-, hrest⟩ := slice_query c (congrArg (· ++ [0, 1, 0, 1]) hencode)
  have hfields : (packet (query c)).slice (12 + (wire ls).length)
      (([0, 1] : List UInt8) ++ [0, 1]).length = [0, 1] ++ [0, 1] := hrest
  obtain ⟨hrtype, hrclass⟩ := Block.slice_append_inj _ hfields
  rw [show ([0, 1] : List UInt8).length = 2 from rfl] at hrclass
  have htype : get16 (packet (query c)) (12 + (wire ls).length) = typeA := by
    rw [get16_of_slice hrtype]
    decide
  have hclass : get16 (packet (query c)) (12 + (wire ls).length + 2) = classIn := by
    rw [get16_of_slice hrclass]
    decide
  have hlower := map_lower_nameText ls
  rw [← htext] at hlower
  have htlen := congrArg List.length hlower
  rw [List.length_map, List.length_map] at htlen
  unfold maxName at hroom
  have hdecode : decodeName (packet (query c)) (query c).length 12 256 = some (nameText ls) :=
    decodeName_of_decodes (by omega) ⟨0, ls, hname, by omega, rfl, by omega⟩
  have hend : 12 + (wire ls).length + 4 = (query c).length := by omega
  refine ⟨by rw [hlen]; unfold maxName; omega, ⟨_, hdecode, .inl hlower⟩,
    ⟨_, hskip, hend, htype, hclass⟩, fun src_ip src_port code => ?_⟩
  -- the text has no zero, so that all of it is compared
  have hzero : 0 ∉ nameText ls := by
    intro hz
    have hmem : (0 : UInt8) ∈ (nameText ls).map lower := List.mem_map.mpr ⟨0, hz, by decide⟩
    rw [hlower] at hmem
    obtain ⟨b, hb, hbz⟩ := List.mem_map.mp hmem
    exact c.hostname.ended ((lower_byte b).2.2.mp hbz ▸ hb)
  have hcString : cString (nameText ls) = nameText ls :=
    List.takeWhile_eq_self_iff.mpr fun b hb => by
      rw [decide_eq_true_eq]
      rintro rfl
      exact hzero hb
  have heq : nameEq (nameText ls) c.hostname.text = true :=
    (nameEq_iff hzero c.hostname.ended).mpr (.inl hlower)
  have htoNat : (UInt16.ofNat (query c).length).toNat = (query c).length := by
    rw [UInt16.toNat_ofNat']
    exact Nat.mod_eq_of_lt (by omega)
  unfold Dns.question
  dsimp only
  rw [htoNat, qdcount_query, if_neg (by decide), if_pos rfl, hdecode]
  dsimp only
  rw [hskip]
  dsimp only
  rw [if_neg (by omega), hcString, heq, htype, hclass, if_neg (by simp), hend]

/-- **Where there is a dot at the end, the zero too many is read for the type.** -/
theorem not_asks_trailing (hne : ls ≠ []) (hshort : Short ls) (hdot : ∀ l ∈ ls, '.'.toUInt8 ∉ l)
    (htext : c.hostname.text = dotted '.'.toUInt8 ls ++ ['.'.toUInt8]) : ¬ Asks c (query c) := by
  intro hasks
  have hencode : encodeName c.hostname.text ++ [0, 1, 0, 1] = wire ls ++ [0, 0, 1, 0, 1] := by
    rw [htext, encodeName_trailing hne hdot, List.append_assoc]
    rfl
  obtain ⟨n, hn, -, htype, -⟩ := hasks.question
  obtain ⟨-, hskip⟩ := query_name hshort hencode
  obtain rfl := Option.some.inj (hskip.symm.trans hn)
  rw [get16_of_slice (slice_query c hencode).2] at htype
  exact absurd htype (by decide)

end

/-- `dns_send_attempt` sends one packet, and it asks for the host of the client. -/
def SendsAsked (e : Env) (c : Client) : Prop :=
  ∃ server pkt, (sendAttempt e c).sent = c.sent ++ [(server, pkt)] ∧ Asks c pkt

theorem sendsAsked_iff (e : Env) (c : Client) : SendsAsked e c ↔ Asks c (query c) := by
  constructor
  · rintro ⟨server, pkt, hsent, hasks⟩
    rw [sendAttempt_sent] at hsent
    obtain ⟨-, rfl⟩ := Prod.mk.inj (List.cons.inj (List.append_cancel_left hsent)).1
    exact hasks
  · exact fun h => ⟨_, _, sendAttempt_sent e c, h⟩

/-- **The query asks for the host that is checked exactly if** the host has at most `126` bytes and
no dot at its end: for `dns_resolve` and for every attempt behind it. -/
theorem asks_iff (h : 0 ∉ host) (hwf : WellFormed host) {c : Client}
    (hc : c.hostname = keep host h) (e : Env) : SendsAsked e c
      ↔ host.length < maxName - 1 ∧ host.getLast? ≠ some '.'.toUInt8 := by
  obtain ⟨ls, hne, hshort, hdot, hhost⟩ := hwf
  have htext : c.hostname.text = host.take (maxName - 1) := by rw [hc]; rfl
  rw [sendsAsked_iff]
  constructor
  · intro hasks
    have hroom : host.length < maxName - 1 := by
      have hfits := hasks.fits
      rw [length_query, htext, List.length_take] at hfits
      unfold maxName at hfits ⊢
      omega
    rw [List.take_of_length_le (Nat.le_of_lt hroom)] at htext
    refine ⟨hroom, fun hlast => ?_⟩
    rcases hhost with rfl | rfl
    · exact getLast_dotted hne hshort hdot hlast
    · exact not_asks_trailing hne hshort hdot htext hasks
  · rintro ⟨hroom, hlast⟩
    rw [List.take_of_length_le (Nat.le_of_lt hroom)] at htext
    rcases hhost with rfl | rfl
    · exact asks_plain hne hshort hdot htext (by rw [htext]; exact hroom)
    · exact absurd List.getLast?_concat hlast

theorem wellFormed_a : WellFormed (bytes "a") :=
  ⟨[bytes "a"], by decide, by unfold Short; decide, by decide, .inl (by decide)⟩

/-- A lookup of `a`. -/
theorem asks_iff_a : SendsAsked ⟨0, 0⟩ (resolve ⟨0, 0⟩ 1 2 (keep (bytes "a") (by decide))) :=
  (asks_iff (by decide) wellFormed_a rfl ⟨0, 0⟩).mpr (by decide)

/-- **A lookup of `a.` is not one that is checked**: the type in its packet is zero. -/
theorem trailing_dot_not_asked : ¬ ∀ (host : List UInt8) (h : 0 ∉ host), WellFormed host →
    ∀ (e : Env) (dns_ip gateway_ip : UInt32),
      SendsAsked e (resolve e dns_ip gateway_ip (keep host h)) := by
  intro hall
  have hwf : WellFormed (bytes "a.") :=
    ⟨[bytes "a"], by decide, by unfold Short; decide, by decide, .inr (by decide)⟩
  have hasks := (sendsAsked_iff _ _).mp (hall (bytes "a.") (by decide) hwf ⟨0, 0⟩ 1 2)
  have hne : [bytes "a"] ≠ [] := by decide
  exact not_asks_trailing hne (by unfold Short; decide) (by decide) (by decide) hasks

end Dns
