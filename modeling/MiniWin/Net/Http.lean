import MiniWin.Lib.Block
import MiniWin.Net.Wire

/-!
# HTTP responses

The half of `kernel/httpresp.h` that takes in a response: the buffer, the headers, the walk over
the chunk-size lines as far as the bytes allow, and the unwrapping at the end. The two loops over
chunk-size lines follow a 32-bit position that a size can carry round, so that they need not end:
each has a number of rounds it is given, and `none` says that they were not enough. The unwrapping
is `none`, too, when it would write behind the buffer.
-/

namespace Hr

open Net

/-- `HR_BUF_SIZE`. -/
def bufSize : Nat := 0x40000
def locationMax : Nat := 400
def ctypeMax : Nat := 64

/-- `hr_t`, with the buffer `HR_BUF`. -/
structure Resp where
  buf : Block
  len : Nat := 0
  truncated : Bool := false
  too_big : Bool := false
  hdr_done : Bool := false
  body_start : Nat := 0
  status : Int32 := 0
  chunked : Bool := false
  have_clen : Bool := false
  clen : UInt32 := 0
  encoded : Bool := false
  complete : Bool := false
  chunk_pos : Nat := 0
  finished : Bool := false
  body_len : Nat := 0
  location : List UInt8 := []
  content_type : List UInt8 := []

/-- `hr_reset`. The buffer is not cleared. -/
def reset (buf : Block) : Resp := { buf := buf }

/-! ## Text -/

def isBlank (c : UInt8) : Bool := c = ' '.toUInt8 ∨ c = '\t'.toUInt8
def isEol (c : UInt8) : Bool := c = '\r'.toUInt8 ∨ c = '\n'.toUInt8
def isDigit (c : UInt8) : Bool := '0'.toUInt8 ≤ c ∧ c ≤ '9'.toUInt8

/-- `hr_header_value`: the value of a header line, if it is the header of this name. -/
def headerValue : List UInt8 → List UInt8 → Option (List UInt8)
  | c :: line, n :: name => if lower c = n then headerValue line name else none
  | c :: line, [] => if c = ':'.toUInt8 then some (line.dropWhile isBlank) else none
  | [], _ => none

/-- A text without the blanks at its end. -/
def trimEnd (s : List UInt8) : List UInt8 := (s.reverse.dropWhile isBlank).reverse

/-- `hr_copy_value`, without the `0` behind the text. -/
def copyValue (dst_size : Nat) (v : List UInt8) : List UInt8 :=
  trimEnd ((v.takeWhile fun c => !isEol c).take (dst_size - 1))

/-- The members of a list with commas between them, which ends where the line does. -/
def members : List UInt8 → List (List UInt8)
  | [] => [[]]
  | c :: v =>
    if isEol c then [[]]
    else if c = ','.toUInt8 then [] :: members v
    else match members v with
      | [] => [[c]]
      | m :: ms => (c :: m) :: ms

/-- A member without the blanks around it and without its parameters. -/
def token (member : List UInt8) : List UInt8 :=
  trimEnd ((member.dropWhile isBlank).takeWhile fun c => c ≠ ';'.toUInt8)

/-- The mask of `hr_value_tokens`. -/
structure Tokens where
  has : Bool := false
  last : Bool := false
  other : Bool := false

/-- `hr_tok_eq`. -/
def tokEq (t word : List UInt8) : Bool := t.map lower = word

/-- `hr_value_tokens`. Empty members do not count. -/
def valueTokens (v word : List UInt8) (word2 : Option (List UInt8)) : Tokens :=
  (((members v).map token).filter (· ≠ [])).foldl (fun f t =>
    if tokEq t word then { f with has := true, last := true }
    else { f with last := false, other := f.other || !(word2.any (tokEq t)) }) {}

/-- The lines of a text. -/
def lines : List UInt8 → List (List UInt8)
  | [] => []
  | c :: text =>
    if c = '\n'.toUInt8 then [] :: lines text
    else match lines text with
      | [] => [[c]]
      | l :: ls => (c :: l) :: ls

/-- One header line of `hr_parse_headers`. -/
def headerLine (s : Resp) (line : List UInt8) : Resp :=
  match headerValue line (bytes "content-length") with
  | some v =>
    { s with
      have_clen := true
      clen := (v.takeWhile isDigit).foldl (fun n c => n * 10 + (c - 48).toUInt32) 0 }
  | none =>
    match headerValue line (bytes "transfer-encoding") with
    | some v =>
      let f := valueTokens v (bytes "chunked") (some (bytes "identity"))
      { s with
        chunked := s.chunked || (f.has && f.last)
        encoded := s.encoded || f.other || (f.has && !f.last) }
    | none =>
      match headerValue line (bytes "content-encoding") with
      | some v => { s with encoded := s.encoded || (valueTokens v (bytes "identity") none).other }
      | none =>
        match headerValue line (bytes "location") with
        | some v => { s with location := copyValue locationMax v }
        | none =>
          match headerValue line (bytes "content-type") with
          | some v => { s with content_type := copyValue ctypeMax v }
          | none => s

/-- `hr_parse_headers`, of the bytes up to the end of the headers. -/
def parseHeaders (head : List UInt8) (s : Resp) : Resp :=
  let p := (head.dropWhile fun c => c ≠ ' '.toUInt8 ∧ c ≠ '\n'.toUInt8).dropWhile
    fun c => c = ' '.toUInt8
  let code : Int32 := (p.takeWhile isDigit).foldl (fun n c => n * 10 + (c - 48).toUInt32.toInt32) 0
  let rest := (p.dropWhile fun c => c ≠ '\n'.toUInt8).drop 1
  (lines rest).foldl headerLine { s with status := code }

/-! ## Chunks -/

/-- `hr_hexval`. -/
def hexval (c : UInt8) : Option UInt8 :=
  if '0'.toUInt8 ≤ c ∧ c ≤ '9'.toUInt8 then some (c - '0'.toUInt8)
  else if 'a'.toUInt8 ≤ c ∧ c ≤ 'f'.toUInt8 then some (c - 'a'.toUInt8 + 10)
  else if 'A'.toUInt8 ≤ c ∧ c ≤ 'F'.toUInt8 then some (c - 'A'.toUInt8 + 10)
  else none

/-- The number a chunk-size line begins with, after `size` and whether there was `any` digit. -/
def lineSize (size : UInt32) (any : Bool) : List UInt8 → Option UInt32
  | [] => if any then some size else none
  | c :: line =>
    match hexval c with
    | none => if any then some size else none
    | some h => lineSize (size <<< 4 ||| h.toUInt32) true line

/-- What there is at a place where a chunk-size line is due. -/
inductive Line where
  /-- The line is not all here. -/
  | cut
  /-- No number, or zero. -/
  | last
  /-- A chunk of `size` bytes that begin at `data`. -/
  | chunk (data size : Nat)
  deriving DecidableEq

/-- The line at `p`, as `hr_walk_chunks` and `hr_finish` both read it. -/
def lineAt (buf : Block) (len p : Nat) : Line :=
  match (List.range' p (len - 1 - p)).find? fun i =>
      buf i = '\r'.toUInt8 ∧ buf (i + 1) = '\n'.toUInt8 with
  | none => .cut
  | some line_end =>
    match lineSize 0 false (buf.slice p (line_end - p)) with
    | none => .last
    | some size => if size = 0 then .last else .chunk (line_end + 2) size.toNat

/-- `hr_walk_chunks`. -/
def walkChunks : Nat → Resp → Option Resp
  | 0, _ => none
  | fuel + 1, s =>
    match lineAt s.buf s.len s.chunk_pos with
    | .cut => some s
    | .last => some { s with complete := true }
    | .chunk data size =>
      let next := (data + size + 2) % 2 ^ 32
      if next > s.len then some s else walkChunks fuel { s with chunk_pos := next }

/-- A 1xx, 204 or 304 has no body. -/
def noBody (status : Int32) : Bool :=
  status = 204 ∨ status = 304 ∨ (status ≥ 100 ∧ status < 200)

/-! ## `hr_feed` -/

/-- The blank line that ends the headers. -/
def blankAt (buf : Block) (i : Nat) : Bool :=
  buf i = '\r'.toUInt8 ∧ buf (i + 1) = '\n'.toUInt8
    ∧ buf (i + 2) = '\r'.toUInt8 ∧ buf (i + 3) = '\n'.toUInt8

/-- The headers end in front of `body_start`. -/
def headersEnd (body_start : Nat) (s : Resp) : Resp :=
  let s := parseHeaders (s.buf.slice 0 body_start)
    { s with hdr_done := true, body_start := body_start }
  let s := { s with chunk_pos := body_start }
  if s.have_clen ∧ ¬ s.chunked ∧ s.clen.toNat > bufSize - body_start then { s with too_big := true }
  else s

/-- The bytes are stored as far as there is room. -/
def store (data : List UInt8) (s : Resp) : Resp :=
  let take := min data.length (bufSize - s.len)
  { s with
    truncated := s.truncated || decide (take < data.length)
    buf := s.buf.put s.len (data.take take)
    len := s.len + take }

/-- The search for the end of the headers, which begins three bytes in front of the new ones. -/
def lookForEnd (old : Nat) (s : Resp) : Resp :=
  if s.hdr_done then s
  else
    match (List.range' (old - 3) (s.len - 3 - (old - 3))).find? (blankAt s.buf) with
    | none => s
    | some i => headersEnd (i + 4) s

/-- What the bytes say about the end of the response. -/
def settle (fuel : Nat) (s : Resp) : Option Resp :=
  if s.hdr_done ∧ ¬ s.complete then
    let walked :=
      if s.chunked then walkChunks fuel s
      else if s.have_clen ∧ s.len - s.body_start ≥ s.clen.toNat then some { s with complete := true }
      else some s
    walked.map fun s => if noBody s.status then { s with complete := true } else s
  else some s

/-- `hr_feed`. -/
def feed (fuel : Nat) (data : List UInt8) (s : Resp) : Option Resp :=
  settle fuel (lookForEnd s.len (store data s))

/-! ## `hr_finish` -/

/-- The unwrapping: the place behind what was written, and the buffer. -/
def unwrap (len : Nat) : Nat → Nat → Nat → Block → Option (Nat × Block)
  | 0, _, _, _ => none
  | fuel + 1, r, w, buf =>
    if r < len then
      match lineAt buf len r with
      | .cut => some (w, buf)
      | .last => some (w, buf)
      | .chunk data size =>
        let take := min size (len - data)
        if w + take > bufSize then none
        else unwrap len fuel ((data + size + 2) % 2 ^ 32) (w + take) (buf.copied w data take)
    else some (w, buf)

/-- `hr_finish`. -/
def finish (fuel : Nat) (s : Resp) : Option Resp :=
  if s.finished then some s
  else if ¬ s.hdr_done then
    some { s with body_start := 0, body_len := s.len, finished := true }
  else if s.chunked then
    (unwrap s.len fuel s.body_start s.body_start s.buf).map fun (w, buf) =>
      { s with buf := buf, body_len := w - s.body_start, finished := true }
  else
    let body_len := s.len - s.body_start
    some { s with
      body_len := if s.have_clen ∧ s.clen.toNat < body_len then s.clen.toNat else body_len
      finished := true }

end Hr
