import MiniWin.Net.HttpHead
import Mathlib.Data.List.DropRight

/-!
# Addresses

`kernel/apps/web/address.h`: what a link, or the `Location` of a redirect, means on the page that
is shown. A text is the list of the bytes in front of its NUL.

## What a link promises

The host of a link is what its authority says: what is behind the user and in front of the port.
A link without an authority stays on the host of the page. The port is the written one; a link that
writes none to the host of the page, over the scheme of the page, stays on the port of the page,
and any other goes to the port of its scheme.

All of this holds of an authority that fits into the buffer of the host. `web_resolve_ref` does
not refuse a longer one: it takes the bytes that fit for the authority and what is behind them for
the path.
-/

namespace Web

open Net Hr

/-- `WEB_URLBAR_MAXLEN`. The buffer of a host has one byte more. -/
def urlbarMaxlen : Nat := 96

/-- `WEB_PATH_MAX`. -/
def pathMax : Nat := 320

/-- `kstrcpy`. -/
def kstrcpy (src : List UInt8) (dst_sz : Nat) : List UInt8 := src.take (dst_sz - 1)

/-- `kstrcpy_append`. -/
def kstrcpyAppend (maxlen : Nat) (buf : List UInt8) (c : UInt8) : List UInt8 :=
  if buf.length < maxlen - 1 then buf ++ [c] else buf

/-- `append_str`. -/
def appendStr (out : List UInt8) (outsz : Nat) (s : List UInt8) : List UInt8 :=
  s.foldl (kstrcpyAppend outsz) out

/-- What is left of a buffer that is appended to. -/
@[simp]
theorem appendStr_eq {out : List UInt8} {outsz : Nat} (s : List UInt8)
    (h : out.length ≤ outsz - 1) : appendStr out outsz s = (out ++ s).take (outsz - 1) := by
  induction s generalizing out with
  | nil => rw [List.append_nil, List.take_of_length_le h]; rfl
  | cons c s ih =>
    show appendStr (kstrcpyAppend outsz out c) outsz s = (out ++ c :: s).take (outsz - 1)
    unfold kstrcpyAppend
    split
    · next hlt =>
      rw [ih (by rw [List.length_append, List.length_singleton]; omega), List.append_assoc]
      rfl
    · next hge =>
      have hlen : out.length = outsz - 1 := by omega
      rw [ih h, ← hlen, List.take_left, List.take_left]

/-! ## The page and the link -/

/-- The page that is shown: `web_use_https`, `web_last_host`, `web_last_path` and
`web_last_port`. -/
structure Page where
  https : Bool
  host : List UInt8
  path : List UInt8
  port : UInt16
  host_fits : host.length ≤ urlbarMaxlen
  path_fits : path.length ≤ pathMax - 1

/-- What `web_resolve_ref` gives back. -/
structure Link where
  https : Bool
  host : List UInt8
  port : UInt16
  path : List UInt8
  deriving DecidableEq, Repr

/-- `web_start_fetch`, as far as the addresses go. -/
def startFetch (l : Link) : Page where
  https := l.https
  host := kstrcpy l.host (urlbarMaxlen + 1)
  path := kstrcpy l.path pathMax
  port := if l.port ≠ 0 then l.port else if l.https then 443 else 80
  host_fits := List.length_take_le _ _
  path_fits := List.length_take_le _ _

/-- `web_is_alpha`. -/
def isAlpha (c : UInt8) : Bool :=
  ('a'.toUInt8 ≤ c ∧ c ≤ 'z'.toUInt8) ∨ ('A'.toUInt8 ≤ c ∧ c ≤ 'Z'.toUInt8)

/-- The number that the digits behind the colon make, as the loop of `web_split_port` finds it:
none as soon as a byte is no digit or the number is no port. -/
def portOf : Nat → List UInt8 → Option Nat
  | v, [] => some v
  | v, c :: t =>
    if isDigit c then
      let v := v * 10 + (c.toNat - 48)
      if v > 65535 then none else portOf v t
    else none

/-- The first loop of `web_split_port`: the user goes, up to the first `@`. -/
def dropUser (host : List UInt8) : List UInt8 :=
  match host.dropWhile (· ≠ '@'.toUInt8) with
  | [] => host
  | _ :: t => t

/-- `web_split_port`. The port begins at the last colon. -/
def splitPort (host : List UInt8) (port : UInt16) : List UInt8 × UInt16 :=
  let host := dropUser host
  let digits := host.rtakeWhile (· ≠ ':'.toUInt8)
  if ':'.toUInt8 ∉ host then (host, port)
  else match portOf 0 digits with
    | none => (host, port)
    | some v =>
      if digits = [] then (host, port)
      else ((host.rdropWhile (· ≠ ':'.toUInt8)).dropLast, UInt16.ofNat v)

/-- The scheme of a reference with an authority, and what is behind the slashes. -/
def absolute (web_use_https : Bool) (ref : List UInt8) : Option (Bool × List UInt8) :=
  if bytes "https://" <+: ref then some (true, ref.drop 8)
  else if bytes "http://" <+: ref then some (false, ref.drop 7)
  else if bytes "//" <+: ref then some (web_use_https, ref.drop 2)
  else none

/-- A reference with a scheme that is not HTTP: letters, a colon and no digit behind it. -/
def otherScheme (ref : List UInt8) : Bool :=
  match ref.dropWhile isAlpha with
  | [] => false
  | c :: t => ref.takeWhile isAlpha ≠ [] ∧ c = ':'.toUInt8 ∧ ¬ isDigit (t.headD 0)

/-- The byte ends an authority. -/
def endsAuthority (c : UInt8) : Bool :=
  c = '/'.toUInt8 ∨ c = '?'.toUInt8 ∨ c = '#'.toUInt8

/-- `tmp_path` of a reference with an authority, from what is behind it. -/
def authorityPath (rest : List UInt8) : List UInt8 :=
  if rest = [] ∨ rest.head? = some '#'.toUInt8 then kstrcpy ['/'.toUInt8] pathMax
  else if rest.head? = some '?'.toUInt8 then
    appendStr (kstrcpy ['/'.toUInt8] pathMax) pathMax rest
  else kstrcpy rest pathMax

/-- `tmp_path` of a reference without one. -/
def relativePath (web_last_path ref : List UInt8) : List UInt8 :=
  let last := kstrcpy web_last_path pathMax
  if ref.head? = some '/'.toUInt8 then kstrcpy ref pathMax
  else if ref.head? = some '?'.toUInt8 then
    appendStr (last.takeWhile (· ≠ '?'.toUInt8)) pathMax ref
  else if ref.head? = some '#'.toUInt8 ∨ ref = [] then last
  else
    appendStr ((last.takeWhile (· ≠ '?'.toUInt8)).rdropWhile (· ≠ '/'.toUInt8)) pathMax ref

/-- The port of a link that writes `port`. -/
def portOn (pg : Page) (https : Bool) (host : List UInt8) (port : UInt16) : UInt16 :=
  if port ≠ 0 then port
  else if host = pg.host ∧ https = pg.https ∧ pg.port ≠ 0 then pg.port
  else if https then 443 else 80

/-- The end of `web_resolve_ref`: the fragment goes, and a port that is not written is found. -/
def settle (pg : Page) (https : Bool) (host : List UInt8) (port : UInt16)
    (tmp_path : List UInt8) (path_sz : Nat) : Link :=
  let tmp_path := tmp_path.takeWhile (· ≠ '#'.toUInt8)
  let tmp_path := if tmp_path = [] then kstrcpy ['/'.toUInt8] pathMax else tmp_path
  { https := https, host := host, port := portOn pg https host port
    path := kstrcpy tmp_path path_sz }

/-- `web_resolve_ref`. -/
def resolveRef (pg : Page) (ref : List UInt8) (host_sz path_sz : Nat) : Option Link :=
  match absolute pg.https ref with
  | some (https, rest) =>
    let auth := (rest.takeWhile (!endsAuthority ·)).take (host_sz - 1)
    let (host, port) := splitPort auth 0
    if host = [] then none
    else some (settle pg https host port (authorityPath (rest.drop auth.length)) path_sz)
  | none =>
    if otherScheme ref then none
    else some (settle pg pg.https (kstrcpy pg.host host_sz) 0 (relativePath pg.path ref) path_sz)

end Web
