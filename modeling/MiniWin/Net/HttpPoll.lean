import MiniWin.Net.Http
import MiniWin.Net.Tls

/-!
# The two HTTP clients

`kernel/http.h` and `kernel/https.h`: a request goes out, and every call of `http_poll` or
`https_poll` moves what has come in to the response. The clients differ in what is underneath:
`Transport` is what the loop that takes the response asks of it. `St.pieces` is what `hr_feed` was
given since the request.
-/

namespace Hr

open Net

/-- `hr_is_redirect`. -/
def isRedirect (s : Resp) : Bool :=
  (s.status = 301 ∨ s.status = 302 ∨ s.status = 303 ∨ s.status = 307 ∨ s.status = 308)
    ∧ s.location ≠ []

/-- `hr_size_fatal`. -/
def sizeFatal (s : Resp) : Bool := (s.truncated || s.too_big) && !isRedirect s

def postMax : Nat := 400

/-- `hr_set_post`: the body of the next request. -/
def setPost (body : List UInt8) : Option (List UInt8) := some (body.take postMax)

/-- A number in decimal digits. -/
def decimal (n : Nat) : List UInt8 := bytes (toString n)

/-- `hr_build_request`: a POST if there is a body for it. -/
def buildRequest (post : Option (List UInt8)) (host_header path : List UInt8) : List UInt8 :=
  let parts := [
    if post.isSome then bytes "POST " else bytes "GET ", path, bytes " HTTP/1.1\r\nHost: ",
    host_header,
    bytes "\r\nUser-Agent: Mozilla/5.0 (compatible; MiniWin/1.0; "
      ++ bytes "+https://github.com/SegFault777/MiniWin)"
      ++ bytes "\r\nAccept: text/html,text/plain;q=0.9,*/*;q=0.5"
      ++ bytes "\r\nAccept-Language: en-US,en;q=0.9,ko;q=0.8"
      ++ bytes "\r\nAccept-Encoding: identity",
    match post with
    | none => []
    | some body =>
      bytes "\r\nContent-Type: application/x-www-form-urlencoded\r\nContent-Length: "
        ++ decimal body.length,
    bytes "\r\nConnection: close\r\n\r\n", post.getD []]
  parts.flatten.take 1900

end Hr

namespace Http

open Net Hr

/-! ## A client -/

/-- `http_state_t`, and `https_state_t`. -/
inductive State where
  | idle | connecting | sending_request | awaiting_response | done | failed
  deriving DecidableEq, Repr

/-- `http_client_t`, and `https_client_t`. -/
structure Client where
  state : State := .idle
  host_header : List UInt8 := []
  path : List UInt8 := []
  request_sent : Bool := false

/-- A client with the response, the body of a POST and what is underneath. -/
structure St (σ : Type) where
  client : Client
  hr : Resp
  post : Option (List UInt8)
  link : σ
  pieces : List (List UInt8)

variable {σ ε : Type}

def St.goto (state : State) (s : St σ) : St σ := { s with client := { s.client with state := state } }

def hostHeaderMax : Nat := 80
def pathMax : Nat := 320

/-- The `Host` header: the port is in it unless it is the usual one. -/
def hostHeader (usual port : UInt16) (host : List UInt8) : List UInt8 :=
  host.take (hostHeaderMax - 8)
    ++ if port ≠ usual then ':'.toUInt8 :: decimal port.toNat else []

/-- The first half of `http_get` and `https_get`, in front of the connection. -/
def begin (usual port : UInt16) (host path : List UInt8) (s : St σ) : St σ :=
  { s with
    client := { state := .connecting
                host_header := hostHeader usual port host
                path := path.take (pathMax - 1) }
    hr := reset s.hr.buf
    pieces := [] }

/-! ## The response -/

/-- What the loop of a client asks of the transport. -/
structure Transport (ε σ : Type) where
  /-- `tcp_poll_recv`, or `tls_poll_recv_app_data`, into `tmp`. -/
  recv : ε → σ → List UInt8 × σ
  close : ε → σ → σ
  /-- Nothing will come any more, but for what waits in the queue. -/
  «over» : σ → Bool
  /-- What waits to be received. -/
  queue : σ → List UInt8
  /-- The connection was lost, and not closed by the peer. -/
  lost : σ → Bool

variable (T : Transport ε σ)

/-- The loop that takes what has come in, of at most so many rounds. -/
def drain (fuel : Nat) (e : ε) : Nat → St σ → Option (St σ)
  | 0, s => some s
  | rounds + 1, s =>
    if s.hr.complete then some s
    else
      match T.recv e s.link with
      | ([], link) => some { s with link := link }
      | (data, link) =>
        (feed fuel data s.hr).bind fun hr =>
          drain fuel e rounds { s with link := link, hr := hr, pieces := s.pieces ++ [data] }

/-- What a client does when the loop is over. A response that is bigger than the buffer is not
shown. -/
def conclude (fuel : Nat) (e : ε) (s : St σ) : Option (St σ) :=
  if sizeFatal s.hr then some ({ s with link := T.close e s.link }.goto .failed)
  else if s.hr.complete ∨ (T.over s.link ∧ T.queue s.link = []) then
    if s.hr.len = 0 ∧ T.lost s.link then some (s.goto .failed)
    else (finish fuel s.hr).map fun hr => { s with hr := hr, link := T.close e s.link }.goto .done
  else some s

/-- `case HTTP_AWAITING_RESPONSE`. -/
def await (fuel : Nat) (e : ε) (s : St σ) : Option (St σ) :=
  (drain T fuel e 8 s).bind (conclude T fuel e)

/-- `sizeof tmp`. -/
def tmpSize : UInt16 := 4096

end Http

/-! ## `http.h` -/

namespace Http

open Net Hr

/-- TCP underneath. -/
def overTcp : Transport Tcp.Env Tcp.St where
  recv e t := Tcp.pollRecv e tmpSize t
  close := Tcp.close
  «over» t := t.conn.peer_fin_seen ∨ t.conn.state = .closed
  queue t := t.conn.recv_buf
  lost t := t.conn.state = .closed ∧ t.conn.peer_fin_seen = false

/-- `http_get`. -/
def get (e : Tcp.Env) (server_ip : UInt32) (port : UInt16) (host path : List UInt8)
    (s : St Tcp.St) : St Tcp.St :=
  let s := begin 80 port host path s
  { s with link := Tcp.connect e server_ip port s.link }

/-- `http_poll`, which returns the state. -/
def poll (fuel : Nat) (e : Tcp.Env) (s : St Tcp.St) : Option (St Tcp.St) :=
  match s.client.state with
  | .connecting =>
    if s.link.conn.state = .established then some (s.goto .sending_request)
    else if s.link.conn.state = .closed then some (s.goto .failed)
    else some s
  | .sending_request =>
    if ¬ s.client.request_sent then
      let req := buildRequest s.post s.client.host_header s.client.path
      let (queued, link) := Tcp.sendData e req s.link
      some { s with link := link, client := { s.client with request_sent := queued } }
    else some (s.goto .awaiting_response)
  | .awaiting_response => await overTcp fuel e s
  | _ => some s

end Http

/-! ## `https.h` -/

namespace Https

open Net Hr Http

variable {Cert : Type} (P : Tls.Prims Cert)

/-- TLS underneath. A `close_notify` is an end, too. -/
def overTls : Transport Tls.Env (Tls.St Cert) where
  recv _ t := Tls.pollRecvAppData tmpSize t
  close e t := Tls.close P e t
  «over» t := (t.tcp.conn.peer_fin_seen ∨ t.conn.peer_close_notify ∨ t.tcp.conn.state = .closed)
    ∧ t.tcp.conn.recv_buf = [] ∧ t.rx_raw = []
  queue t := t.app_recv
  lost _ := false

/-- `https_get`. -/
def get (e : Tls.Env) (server_ip : UInt32) (port : UInt16) (host path : List UInt8)
    (s : St (Tls.St Cert)) : St (Tls.St Cert) :=
  let s := begin 443 port host path s
  { s with link := Tls.connect e server_ip port host s.link }

/-- `https_poll`, which returns the state. -/
def poll (fuel : Nat) (e : Tls.Env) (s : St (Tls.St Cert)) : Option (St (Tls.St Cert)) :=
  match s.client.state with
  | .connecting =>
    let s := { s with link := Tls.poll P e s.link }
    if s.link.conn.state = .established then some (s.goto .sending_request)
    else if s.link.conn.state = .failed then some (s.goto .failed)
    else some s
  | .sending_request =>
    let s := { s with link := Tls.poll P e s.link }
    if ¬ s.client.request_sent then
      let req := buildRequest s.post s.client.host_header s.client.path
      let (written, link) := Tls.sendAppData P e req s.link
      let s := { s with link := link }
      if written then
        some ({ s with client := { s.client with request_sent := true } }.goto .awaiting_response)
      else some s
    else some s
  | .awaiting_response =>
    let s := { s with link := Tls.poll P e s.link }
    if s.link.conn.state = .failed then some (s.goto .failed)
    else await (overTls P) fuel e s
  | _ => some s

end Https
