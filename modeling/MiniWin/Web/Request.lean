import MiniWin.Lib.Message
import MiniWin.Net.HttpPoll
import MiniWin.Web.Address

/-!
# The request of a page

From `web_start_fetch` in `kernel/apps/web/fetch.h` over `http_get` and `https_get` to
`hr_build_request` in `kernel/httpresp.h`: what goes out for a host, a port, a path and the body of
a form.

## What is asked for

`Asks`: the other side reads one request out of the text. Its target is the path, its `Host` is the
host, with the port if that is not the one of the scheme, its fields are those that MiniWeb writes
and no other, and its body is the whole body, with the length that is written. Names are looked up
and certificates are checked for the same host.

## What goes out

`asks_iff`: that is so exactly if the host has at most 72 bytes, the path at most 319 and the body
at most 400, and no byte of the host or the path is a space or a control byte. Nothing is refused
here. A longer host is cut in its `Host` field only, where it has a smaller buffer than everywhere
else. A space in a link stays in the path, and the line of the request has one word too many:
`space_in_the_target`.
-/

namespace Web

open Net Hr

variable {l : Link} {post : Option (List UInt8)} {text : List UInt8}

/-- The port of a scheme. -/
def usualPort (https : Bool) : UInt16 := if https then 443 else 80

/-- The text of a request: `web_connect` gives the page to `http_get` or `https_get`, and
`hr_build_request` writes what these leave in the client. -/
def request (pg : Page) (post : Option (List UInt8)) : List UInt8 :=
  buildRequest post (Http.hostHeader (usualPort pg.https) pg.port pg.host)
    (pg.path.take (Http.pathMax - 1))

/-! ## The clients write it -/

/-! ## The text of a request -/

/-- The fields that every request has. -/
def browserFields : List (List UInt8 × List UInt8) :=
  [(bytes "User-Agent", bytes "Mozilla/5.0 (compatible; MiniWin/1.0; "
      ++ bytes "+https://github.com/SegFault777/MiniWin)"),
    (bytes "Accept", bytes "text/html,text/plain;q=0.9,*/*;q=0.5"),
    (bytes "Accept-Language", bytes "en-US,en;q=0.9,ko;q=0.8"),
    (bytes "Accept-Encoding", bytes "identity")]

/-- The fields of a POST. -/
def postFields (body : List UInt8) : List (List UInt8 × List UInt8) :=
  [(bytes "Content-Type", bytes "application/x-www-form-urlencoded"),
    (bytes "Content-Length", decimal body.length)]

/-- The request as a message. -/
def message (post : Option (List UInt8)) (host_header path : List UInt8) : Message where
  method := if post.isSome then bytes "POST" else bytes "GET"
  target := path
  fields := (bytes "Host", host_header) :: browserFields ++ post.elim [] postFields
    ++ [(bytes "Connection", bytes "close")]
  body := post.getD []

/-- What is between the path and the host. -/
theorem bytes_version : bytes " HTTP/1.1\r\nHost: "
    = Message.version ++ (Message.crlf ++ (bytes "Host" ++ [58, 32])) := by
  decide

/-- What is behind the host. -/
theorem bytes_browserFields :
    bytes "\r\nUser-Agent: Mozilla/5.0 (compatible; MiniWin/1.0; "
      ++ bytes "+https://github.com/SegFault777/MiniWin)"
      ++ bytes "\r\nAccept: text/html,text/plain;q=0.9,*/*;q=0.5"
      ++ bytes "\r\nAccept-Language: en-US,en;q=0.9,ko;q=0.8"
      ++ bytes "\r\nAccept-Encoding: identity"
    = (browserFields.map fun f => Message.crlf ++ Message.fieldLine f).flatten := by
  have hagent : bytes "\r\nUser-Agent: Mozilla/5.0 (compatible; MiniWin/1.0; "
      = Message.crlf ++ (bytes "User-Agent" ++ ([58, 32]
        ++ bytes "Mozilla/5.0 (compatible; MiniWin/1.0; ")) := by decide
  have haccept : bytes "\r\nAccept: text/html,text/plain;q=0.9,*/*;q=0.5" = Message.crlf
      ++ Message.fieldLine (bytes "Accept", bytes "text/html,text/plain;q=0.9,*/*;q=0.5") := by
    decide
  have hlanguage : bytes "\r\nAccept-Language: en-US,en;q=0.9,ko;q=0.8" = Message.crlf
      ++ Message.fieldLine (bytes "Accept-Language", bytes "en-US,en;q=0.9,ko;q=0.8") := by
    decide
  have hencoding : bytes "\r\nAccept-Encoding: identity" = Message.crlf
      ++ Message.fieldLine (bytes "Accept-Encoding", bytes "identity") := by
    decide
  rw [hagent, haccept, hlanguage, hencoding]
  simp only [browserFields, List.map_cons, List.map_nil, List.flatten_cons, List.flatten_nil,
    Message.fieldLine, List.append_assoc, List.append_nil]

/-- What a POST writes in front of the length. -/
theorem bytes_postFields :
    bytes "\r\nContent-Type: application/x-www-form-urlencoded\r\nContent-Length: "
    = Message.crlf ++ (bytes "Content-Type" ++ ([58, 32]
      ++ (bytes "application/x-www-form-urlencoded"
        ++ (Message.crlf ++ (bytes "Content-Length" ++ [58, 32]))))) := by
  decide

/-- The end of the head. -/
theorem bytes_connection : bytes "\r\nConnection: close\r\n\r\n"
    = Message.crlf ++ (bytes "Connection" ++ ([58, 32] ++ (bytes "close"
      ++ (Message.crlf ++ Message.crlf)))) := by
  decide

/-- The lines of fields one after the other. -/
theorem fieldsText_eq (fs : List (List UInt8 × List UInt8)) (rest : List UInt8) :
    Message.crlf ++ Message.fieldsText fs rest
      = (fs.map fun f => Message.crlf ++ Message.fieldLine f).flatten
        ++ (Message.crlf ++ (Message.crlf ++ rest)) := by
  induction fs with
  | nil => rfl
  | cons f fs ih =>
    show Message.crlf ++ (Message.fieldLine f ++ Message.crlf ++ Message.fieldsText fs rest) = _
    rw [List.append_assoc, ih, List.map_cons, List.flatten_cons]
    simp only [List.append_assoc]

/-- **`hr_build_request` writes the message**, as far as its buffer goes. -/
theorem buildRequest_eq (host_header path : List UInt8) :
    buildRequest post host_header path = (message post host_header path).text.take 1900 := by
  unfold buildRequest Message.text Message.startLine
  dsimp only
  rw [bytes_version, bytes_browserFields, bytes_postFields, bytes_connection,
    List.append_assoc _ Message.crlf, fieldsText_eq]
  congr 1
  cases post with
  | none =>
    rw [show bytes "GET " = bytes "GET" ++ [32] from by decide]
    simp [message, Message.fieldLine]
  | some body =>
    rw [show bytes "POST " = bytes "POST" ++ [32] from by decide]
    simp [message, postFields, Message.fieldLine]

/-- A number in decimal is a few digits. -/
theorem isVisible_decimal (n : ℕ) : ∀ c ∈ decimal n, isVisible c = true := by
  intro c hc
  obtain ⟨d, hd, rfl⟩ := List.mem_map.mp hc
  have hdigit : d.isDigit = true := by
    have hmem : d ∈ Nat.toDigits 10 n := by
      rwa [← Nat.toList_repr]
    exact Nat.isDigit_of_mem_toDigits (by decide) (by decide) hmem
  obtain ⟨hlo, hhi⟩ : 48 ≤ d.toNat ∧ d.toNat ≤ 57 := by
    simpa [Char.isDigit, UInt32.le_iff_toNat_le] using hdigit
  have htoNat : (UInt8.ofNat d.toNat).toNat = d.toNat := by
    rw [UInt8.toNat_ofNat']
    omega
  simp only [isVisible, decide_eq_true_eq, UInt8.lt_iff_toNat_lt, ne_eq, ← UInt8.toNat_inj, htoNat]
  show 32 < d.toNat ∧ d.toNat ≠ 127
  omega

theorem length_decimal_le {n k : ℕ} (hk : 0 < k) (hn : n < 10 ^ k) : (decimal n).length ≤ k := by
  unfold decimal bytes
  rw [List.length_map, show (toString n).toList = Nat.toDigits 10 n from Nat.toList_repr]
  exact (Nat.length_toDigits_le_iff (by decide) hk).mpr hn

/-- **A request fits its buffer** with what the clients keep of its parts. -/
theorem length_message_le {host_header path : List UInt8} (hhost : host_header.length ≤ 78)
    (hpath : path.length ≤ 319) (hbody : (post.getD []).length ≤ 400) :
    (message post host_header path).text.length ≤ 1900 := by
  have hbrowser : (browserFields.map fun f => f.1.length + f.2.length + 4).sum ≤ 400 := by decide
  have hhostName : (bytes "Host").length = 4 := by decide
  have hconnection : (bytes "Connection").length + (bytes "close").length = 15 := by decide
  rw [Message.length_text]
  simp only [message, List.map_append, List.map_cons, List.map_nil, List.sum_append, List.sum_cons,
    List.sum_nil]
  cases post with
  | none =>
    have hget : (bytes "GET").length = 3 := by decide
    simp only [Option.elim_none, List.map_nil, List.sum_nil, Option.isSome_none,
      Bool.false_eq_true, if_false]
    omega
  | some body =>
    have hpost : (bytes "POST").length = 4 := by decide
    have htype : (bytes "Content-Type").length
      + (bytes "application/x-www-form-urlencoded").length = 45 := by decide
    have hlength : (bytes "Content-Length").length = 14 := by decide
    have hlen : body.length ≤ 400 := hbody
    have hdigits : (decimal body.length).length ≤ 3 :=
      length_decimal_le (by decide) (Nat.lt_of_le_of_lt hlen (by decide))
    simp only [Option.elim_some, postFields, List.map_cons, List.map_nil, List.sum_cons,
      List.sum_nil, Option.isSome_some, if_true]
    omega

/-! ## What is asked for -/

/-- The port in a `Host`: it is written if it is not the usual one of the scheme. -/
def portText (l : Link) : List UInt8 :=
  if l.port = 0 ∨ l.port = usualPort l.https then [] else ':'.toUInt8 :: decimal l.port.toNat

/-- The names of the fields of a request. -/
def fieldNames (post : Option (List UInt8)) : List (List UInt8) :=
  [bytes "Host", bytes "User-Agent", bytes "Accept", bytes "Accept-Language",
      bytes "Accept-Encoding"]
    ++ (if post.isSome then [bytes "Content-Type", bytes "Content-Length"] else [])
    ++ [bytes "Connection"]

/-- **A message is the request for a link**, with the body of a form or without one. -/
structure Says (l : Link) (post : Option (List UInt8)) (m : Message) : Prop where
  method : m.method = if post.isSome then bytes "POST" else bytes "GET"
  target : m.target = l.path
  /-- No field is there twice, or that is not meant. -/
  names : m.fields.map (·.1) = fieldNames post
  host : m.values (bytes "Host") = [l.host ++ portText l]
  /-- The host is one word. -/
  word : ∀ c ∈ l.host, isVisible c = true
  length : m.values (bytes "Content-Length")
    = (post.map fun body => decimal body.length).toList
  body : m.body = post.getD []

/-- **A text asks for a link**: the other side reads the request for it. -/
def Asks (l : Link) (post : Option (List UInt8)) (text : List UInt8) : Prop :=
  ∃ m, Message.read text = some m ∧ Says l post m

/-- **The fetch of a link is right**: what goes out asks for it, and the host that DNS, the server
name of TLS and the check of the certificate get is that of the link. -/
def FetchRight (l : Link) (post : Option (List UInt8)) : Prop :=
  Asks l post (request (startFetch l) (post.bind setPost)) ∧ (startFetch l).host = l.host

/-- What the buffers leave of a request. -/
def cutMessage (l : Link) (post : Option (List UInt8)) : Message :=
  message (post.bind setPost) (l.host.take 72 ++ portText l) (l.path.take 319)

theorem hostHeader_startFetch (l : Link) :
    Http.hostHeader (usualPort (startFetch l).https) (startFetch l).port (startFetch l).host
      = l.host.take 72 ++ portText l := by
  unfold Http.hostHeader portText
  congr 1
  · show (l.host.take 96).take 72 = _
    rw [List.take_take]
    rfl
  · by_cases h : l.port = 0
    · rw [if_pos (Or.inl h)]
      show (if (if l.port ≠ 0 then l.port else usualPort l.https) ≠ usualPort l.https
        then _ else _) = _
      rw [if_neg (not_not.mpr h), if_neg (not_not.mpr rfl)]
    · show (if (if l.port ≠ 0 then l.port else usualPort l.https) ≠ usualPort l.https
        then ':'.toUInt8 :: decimal (if l.port ≠ 0 then l.port else usualPort l.https).toNat
        else _) = _
      rw [if_pos h]
      by_cases husual : l.port = usualPort l.https
      · rw [if_neg (not_not.mpr husual), if_pos (Or.inr husual)]
      · rw [if_pos husual, if_neg (not_or.mpr ⟨h, husual⟩)]

theorem length_portText_le (l : Link) : (portText l).length ≤ 6 := by
  unfold portText
  split
  · exact Nat.zero_le _
  · exact Nat.succ_le_succ
      (length_decimal_le (by decide) (Nat.lt_trans l.port.toNat_lt (by decide)))

/-- **What goes out is what the buffers leave.** -/
theorem request_eq (l : Link) (post : Option (List UInt8)) :
    request (startFetch l) (post.bind setPost) = (cutMessage l post).text := by
  have hhost : (l.host.take 72 ++ portText l).length ≤ 78 := by
    rw [List.length_append]
    exact Nat.add_le_add (List.length_take_le _ _) (length_portText_le l)
  have hbody : ((post.bind setPost).getD []).length ≤ 400 := by
    cases post with
    | none => exact Nat.zero_le _
    | some body => exact List.length_take_le _ _
  unfold request
  rw [hostHeader_startFetch, buildRequest_eq]
  show ((message _ _ ((l.path.take 319).take 319)).text).take 1900 = _
  rw [List.take_take]
  exact List.take_of_length_le (length_message_le hhost (List.length_take_le _ _) hbody)

/-- The parts that go out keep to their bytes if the host and the path do. -/
theorem wellFormed_cutMessage (hhost : ∀ c ∈ l.host, isVisible c = true) (hpath : l.path ≠ [])
    (htarget : ∀ c ∈ l.path, isVisible c = true) : (cutMessage l post).WellFormed := by
  have hport : ∀ c ∈ portText l, isVisible c = true := by
    intro c hc
    unfold portText at hc
    split at hc
    · cases hc
    · rcases List.mem_cons.mp hc with rfl | hc
      · decide
      · exact isVisible_decimal _ c hc
  have htext : Message.FieldOk (bytes "Host", l.host.take 72 ++ portText l) := by
    have hname : ∀ c ∈ bytes "Host", isVisible c = true ∧ c ≠ 58 := by decide +kernel
    refine ⟨List.cons_ne_nil _ _, hname, fun c hc => ?_⟩
    rcases List.mem_append.mp hc with hc | hc
    · exact isPrintable_of_isVisible (hhost c (List.mem_of_mem_take hc))
    · exact isPrintable_of_isVisible (hport c hc)
  have hfixed : ∀ f ∈ browserFields ++ [(bytes "Connection", bytes "close")],
      Message.FieldOk f := by
    decide
  have hpost : ∀ f ∈ (post.bind setPost).elim [] postFields, Message.FieldOk f := by
    cases post with
    | none => exact fun _ hf => (List.not_mem_nil hf).elim
    | some body =>
      intro f hf
      rcases List.mem_pair.mp hf with rfl | rfl
      · decide
      · have hname : ∀ c ∈ bytes "Content-Length", isVisible c = true ∧ c ≠ 58 := by
          decide +kernel
        exact ⟨List.cons_ne_nil _ _, hname, fun c hc => isPrintable_of_isVisible (isVisible_decimal _ c hc)⟩
  constructor
  · cases post <;> exact List.cons_ne_nil _ _
  · cases post with
    | none => exact List.all_eq_true.mp (by decide : (bytes "GET").all isVisible = true)
    | some _ => exact List.all_eq_true.mp (by decide : (bytes "POST").all isVisible = true)
  · exact fun h => hpath ((List.take_eq_nil_iff.mp h).resolve_left (by decide))
  · exact fun c hc => htarget c (List.mem_of_mem_take hc)
  · intro f hf
    rcases List.mem_append.mp hf with hf | hf
    · rcases List.mem_append.mp hf with hf | hf
      · rcases List.mem_cons.mp hf with rfl | hf
        · exact htext
        · exact hfixed f (List.mem_append_left _ hf)
      · exact hpost f hf
    · exact hfixed f (List.mem_append_right _ hf)

/-- The `Host` that goes out. -/
theorem values_host (l : Link) (post : Option (List UInt8)) :
    (cutMessage l post).values (bytes "Host") = [l.host.take 72 ++ portText l] := by
  cases post <;> rfl

/-- The request for a link is the one that goes out, if nothing of it is cut. -/
theorem says_cutMessage (hword : ∀ c ∈ l.host, isVisible c = true) (hhost : l.host.length ≤ 72)
    (hpath : l.path.length ≤ 319) (hbody : ∀ body ∈ post, body.length ≤ 400) :
    Says l post (cutMessage l post) := by
  cases post with
  | none =>
    refine ⟨rfl, List.take_of_length_le hpath, rfl, ?_, hword, rfl, rfl⟩
    rw [values_host, List.take_of_length_le hhost]
  | some body =>
    have hcut : body.take 400 = body := List.take_of_length_le (hbody body rfl)
    refine ⟨rfl, List.take_of_length_le hpath, rfl, ?_, hword, ?_, hcut⟩
    · rw [values_host, List.take_of_length_le hhost]
    · show [decimal (body.take 400).length] = [decimal body.length]
      rw [hcut]

theorem length_le_of_take {n : ℕ} {t : List UInt8} (h : t.take n = t) : t.length ≤ n :=
  h ▸ List.length_take_le n t

/-- The target of a right request is one word. -/
theorem FetchRight.target (h : FetchRight l post) :
    l.path ≠ [] ∧ ∀ c ∈ l.path, isVisible c = true := by
  obtain ⟨⟨m, hread, hsays⟩, -⟩ := h
  obtain ⟨hm, -⟩ := Message.read_eq_some_iff.mp hread
  exact hsays.target ▸ ⟨hm.target_ne, hm.target⟩

/-- **When the request on the wire is the one that was asked for**: exactly if the host, the path
and the body fit the smallest of their buffers and no byte of the host or the path is a space or a
control byte. Nothing is refused otherwise. -/
theorem fetchRight_iff (l : Link) (post : Option (List UInt8)) :
    FetchRight l post ↔
      (l.host.length ≤ 72 ∧ ∀ c ∈ l.host, isVisible c = true)
      ∧ (l.path ≠ [] ∧ l.path.length ≤ 319 ∧ ∀ c ∈ l.path, isVisible c = true)
      ∧ ∀ body ∈ post, body.length ≤ 400 := by
  constructor
  · intro h
    obtain ⟨hne, htarget⟩ := h.target
    obtain ⟨⟨m, hread, hsays⟩, -⟩ := h
    obtain ⟨hm, htext⟩ := Message.read_eq_some_iff.mp hread
    have hcut : m = cutMessage l post :=
      Message.text_injective hm (wellFormed_cutMessage hsays.word hne htarget)
        (htext.symm.trans (request_eq l post))
    refine ⟨⟨?_, hsays.word⟩, ⟨hne, ?_, htarget⟩, fun body hbody => ?_⟩
    · have hvalues := hsays.host
      rw [hcut, values_host] at hvalues
      exact length_le_of_take (List.append_cancel_right (List.singleton_injective hvalues))
    · have hpath := hsays.target
      rw [hcut] at hpath
      exact length_le_of_take hpath
    · obtain rfl := Option.mem_def.mp hbody
      have hall := hsays.body
      rw [hcut] at hall
      exact length_le_of_take hall
  · rintro ⟨⟨hhost, hword⟩, ⟨hne, hpath, htarget⟩, hbody⟩
    refine ⟨⟨cutMessage l post, ?_, says_cutMessage hword hhost hpath hbody⟩, ?_⟩
    · exact Message.read_eq_some_iff.mpr
        ⟨wellFormed_cutMessage hword hne htarget, request_eq l post⟩
    · exact List.take_of_length_le (Nat.le_trans hhost (by decide))

/-- **A space in a link stays in the path.** The line of the request has a word too many then. -/
theorem space_in_the_target :
    let pg : Page := ⟨false, bytes "h.org", bytes "/", 80, by decide, by decide⟩
    ∃ l, resolveRef pg (bytes "/a b") (urlbarMaxlen + 1) pathMax = some l
      ∧ ¬ FetchRight l none := by
  refine ⟨⟨false, bytes "h.org", 80, bytes "/a b"⟩, by decide, fun h => ?_⟩
  have hspace : isVisible 32 = true := h.target.2 32 (by decide)
  exact absurd hspace (by decide)

end Web
