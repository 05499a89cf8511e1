import MiniWin.Net.Wire

/-!
# HTML: names and characters

The tables of `kernel/dom.h`: the tags and their classes, the attributes that are kept, and what
becomes of a character.
-/

namespace Dom

open Net

/-! ## Tags -/

/-- The tags of `RD_TAG_LIST`. -/
inductive Tag where
  | none | unknown
  | a | abbr | address | area | article | aside | audio | b | base | bdi | bdo | big
  | blockquote | body | br | button | canvas | caption | center | cite | code | col | colgroup
  | data | datalist | dd | del | details | dfn | dialog | dir | div | dl | dt | em | embed
  | fieldset | figcaption | figure | font | footer | form | frame | frameset | h1 | h2 | h3
  | h4 | h5 | h6 | head | header | hgroup | hr | html | i | iframe | img | input | ins | kbd
  | label | legend | li | link | listing | main | map | mark | marquee | math | menu | meta_
  | meter | nav | nobr | noembed | noframes | noscript | object | ol | optgroup | option
  | output | p | param | picture | plaintext | pre | progress | q | rp | rt | ruby | s | samp
  | script | search | section_ | select | slot | small | source | span | strike | strong
  | style | sub | summary | sup | svg | table | tbody | td | template | textarea | tfoot | th
  | thead | time | title | tr | track | tt | u | ul | var | video | wbr | xmp
  deriving DecidableEq

/-- `rd_tag_names`, from `TG_A` on. -/
def tagNames : List (Tag × String) := [
  (.a, "a"), (.abbr, "abbr"), (.address, "address"), (.area, "area"), (.article, "article"),
  (.aside, "aside"), (.audio, "audio"), (.b, "b"), (.base, "base"), (.bdi, "bdi"),
  (.bdo, "bdo"), (.big, "big"), (.blockquote, "blockquote"), (.body, "body"), (.br, "br"),
  (.button, "button"), (.canvas, "canvas"), (.caption, "caption"), (.center, "center"),
  (.cite, "cite"), (.code, "code"), (.col, "col"), (.colgroup, "colgroup"), (.data, "data"),
  (.datalist, "datalist"), (.dd, "dd"), (.del, "del"), (.details, "details"), (.dfn, "dfn"),
  (.dialog, "dialog"), (.dir, "dir"), (.div, "div"), (.dl, "dl"), (.dt, "dt"), (.em, "em"),
  (.embed, "embed"), (.fieldset, "fieldset"), (.figcaption, "figcaption"), (.figure, "figure"),
  (.font, "font"), (.footer, "footer"), (.form, "form"), (.frame, "frame"),
  (.frameset, "frameset"), (.h1, "h1"), (.h2, "h2"), (.h3, "h3"), (.h4, "h4"), (.h5, "h5"),
  (.h6, "h6"), (.head, "head"), (.header, "header"), (.hgroup, "hgroup"), (.hr, "hr"),
  (.html, "html"), (.i, "i"), (.iframe, "iframe"), (.img, "img"), (.input, "input"),
  (.ins, "ins"), (.kbd, "kbd"), (.label, "label"), (.legend, "legend"), (.li, "li"),
  (.link, "link"), (.listing, "listing"), (.main, "main"), (.map, "map"), (.mark, "mark"),
  (.marquee, "marquee"), (.math, "math"), (.menu, "menu"), (.meta_, "meta"), (.meter, "meter"),
  (.nav, "nav"), (.nobr, "nobr"), (.noembed, "noembed"), (.noframes, "noframes"),
  (.noscript, "noscript"), (.object, "object"), (.ol, "ol"), (.optgroup, "optgroup"),
  (.option, "option"), (.output, "output"), (.p, "p"), (.param, "param"),
  (.picture, "picture"), (.plaintext, "plaintext"), (.pre, "pre"), (.progress, "progress"),
  (.q, "q"), (.rp, "rp"), (.rt, "rt"), (.ruby, "ruby"), (.s, "s"), (.samp, "samp"),
  (.script, "script"), (.search, "search"), (.section_, "section"), (.select, "select"),
  (.slot, "slot"), (.small, "small"), (.source, "source"), (.span, "span"),
  (.strike, "strike"), (.strong, "strong"), (.style, "style"), (.sub, "sub"),
  (.summary, "summary"), (.sup, "sup"), (.svg, "svg"), (.table, "table"), (.tbody, "tbody"),
  (.td, "td"), (.template, "template"), (.textarea, "textarea"), (.tfoot, "tfoot"),
  (.th, "th"), (.thead, "thead"), (.time, "time"), (.title, "title"), (.tr, "tr"),
  (.track, "track"), (.tt, "tt"), (.u, "u"), (.ul, "ul"), (.var, "var"), (.video, "video"),
  (.wbr, "wbr"), (.xmp, "xmp")]

/-- `dom_tag_id`. -/
def tagId (name : List UInt8) : Tag :=
  if name = [] ∨ name.length > 12 then .unknown
  else ((tagNames.find? fun t => bytes t.2 = name).map Prod.fst).getD .unknown

/-- The name of a tag of the list. -/
def Tag.name (t : Tag) : List UInt8 :=
  bytes (((tagNames.find? fun x => x.1 = t).map Prod.snd).getD "?")

/-- `dom_tag_is_void`. -/
def Tag.isVoid (t : Tag) : Bool :=
  t ∈ ([.area, .base, .br, .col, .embed, .hr, .img, .input, .link, .meta_, .param, .source,
    .track, .wbr, .frame] : List Tag)

/-- `dom_tag_is_special`. -/
def Tag.isSpecial (t : Tag) : Bool :=
  t ∈ ([.address, .article, .aside, .blockquote, .body, .br, .button, .caption, .center, .col,
    .colgroup, .dd, .details, .dir, .div, .dl, .dt, .embed, .fieldset, .figcaption, .figure,
    .footer, .form, .h1, .h2, .h3, .h4, .h5, .h6, .head, .header, .hgroup, .hr, .html, .iframe,
    .img, .input, .li, .link, .listing, .main, .marquee, .menu, .meta_, .nav, .noembed,
    .noframes, .noscript, .object, .ol, .p, .param, .plaintext, .pre, .script, .search,
    .section_, .select, .source, .style, .summary, .table, .tbody, .td, .template, .textarea,
    .tfoot, .th, .thead, .title, .tr, .track, .ul, .wbr, .xmp] : List Tag)

/-- `dom_tag_is_heading`. -/
def Tag.isHeading (t : Tag) : Bool :=
  t ∈ ([.h1, .h2, .h3, .h4, .h5, .h6] : List Tag)

/-- `dom_tag_closes_p`. -/
def Tag.closesP (t : Tag) : Bool :=
  t ∈ ([.address, .article, .aside, .blockquote, .center, .details, .dialog, .dir, .div, .dl,
    .fieldset, .figcaption, .figure, .footer, .form, .h1, .h2, .h3, .h4, .h5, .h6, .header,
    .hgroup, .hr, .li, .dd, .dt, .listing, .main, .menu, .nav, .ol, .p, .plaintext, .pre,
    .search, .section_, .summary, .table, .ul, .xmp] : List Tag)

/-- `dom_tag_is_headish`. -/
def Tag.isHeadish (t : Tag) : Bool :=
  t ∈ ([.title, .meta_, .link, .style, .script, .base, .noscript, .template] : List Tag)

/-- What `dom_tag_rawness` tells: in RAWTEXT there are no character references, in RCDATA there
are. -/
inductive Rawness where
  | normal | rawtext | rcdata
  deriving DecidableEq

/-- `dom_tag_rawness`. -/
def Tag.rawness (t : Tag) : Rawness :=
  if t ∈ ([.script, .style, .xmp, .iframe, .noembed, .noframes] : List Tag) then .rawtext
  else if t ∈ ([.title, .textarea] : List Tag) then .rcdata
  else .normal

/-! ## Attributes -/

/-- The attributes of `RD_ATTR_LIST`. -/
inductive AttrId where
  | none
  | id | class_ | href | src | alt | style | type | value | name | colspan | rowspan | width
  | height | align | valign | bgcolor | color | size | cols | rows | border | cellpadding
  | cellspacing | placeholder | checked | selected | disabled | hidden | open_ | target | title
  | action | method | for_ | face | nowrap | text | link | maxlength | readonly | rel | media
  | start | background | hspace | vspace | role | lang
  deriving DecidableEq

/-- `rd_attr_names`. -/
def attrNames : List (AttrId × String) := [
  (.id, "id"), (.class_, "class"), (.href, "href"), (.src, "src"), (.alt, "alt"),
  (.style, "style"), (.type, "type"), (.value, "value"), (.name, "name"),
  (.colspan, "colspan"), (.rowspan, "rowspan"), (.width, "width"), (.height, "height"),
  (.align, "align"), (.valign, "valign"), (.bgcolor, "bgcolor"), (.color, "color"),
  (.size, "size"), (.cols, "cols"), (.rows, "rows"), (.border, "border"),
  (.cellpadding, "cellpadding"), (.cellspacing, "cellspacing"), (.placeholder, "placeholder"),
  (.checked, "checked"), (.selected, "selected"), (.disabled, "disabled"), (.hidden, "hidden"),
  (.open_, "open"), (.target, "target"), (.title, "title"), (.action, "action"),
  (.method, "method"), (.for_, "for"), (.face, "face"), (.nowrap, "nowrap"), (.text, "text"),
  (.link, "link"), (.maxlength, "maxlength"), (.readonly, "readonly"), (.rel, "rel"),
  (.media, "media"), (.start, "start"), (.background, "background"), (.hspace, "hspace"),
  (.vspace, "vspace"), (.role, "role"), (.lang, "lang")]

/-- `dom_attr_id`. -/
def attrId (name : List UInt8) : AttrId :=
  if name = [] ∨ name.length > 12 then .none
  else ((attrNames.find? fun t => bytes t.2 = name).map Prod.fst).getD .none

/-! ## Characters -/

/-- `dom_is_ws`. -/
def isWs (c : UInt8) : Bool := c ∈ ([0x20, 0x09, 0x0A, 0x0D, 0x0C] : List UInt8)
/-- `dom_is_alpha`. -/
def isAlpha (c : UInt8) : Bool :=
  ('A'.toUInt8 ≤ c ∧ c ≤ 'Z'.toUInt8) ∨ ('a'.toUInt8 ≤ c ∧ c ≤ 'z'.toUInt8)
/-- `dom_is_alnum`. -/
def isAlnum (c : UInt8) : Bool := isAlpha c ∨ ('0'.toUInt8 ≤ c ∧ c ≤ '9'.toUInt8)

/-- `dom_is_hangul`. -/
def isHangul (cp : Nat) : Bool :=
  (0xAC00 ≤ cp ∧ cp ≤ 0xD7A3) ∨ (0x1100 ≤ cp ∧ cp ≤ 0x11FF) ∨ (0x3130 ≤ cp ∧ cp ≤ 0x318F)

/-- The letters nearest to `U+00C0` to `U+00FF`. -/
def latin1 : List UInt8 :=
  bytes "AAAAAAACEEEEIIIIDNOOOOO*OUUUUYTsaaaaaaaceeeeiiiidnooooo/ouuuuyty"

/-- The other characters that something in ASCII stands for, or nothing. -/
def lookalikes : List (List Nat × String) := [
  ([0x2013, 0x2014, 0x2212, 0x2010, 0x2011, 0x2012], "-"),
  ([0x2018, 0x2019, 0x2032, 0x201A, 0x2039, 0x203A], "'"),
  ([0x201C, 0x201D, 0x2033, 0x201E], "\""),
  ([0x2022, 0x25CF, 0x25AA, 0x25E6, 0x2605, 0x2606, 0x2043], "*"), ([0x2026], "..."),
  ([0xB7, 0x2027, 0x22C5], "."), ([0xA9], "(c)"), ([0xAE], "(R)"), ([0x2122], "TM"),
  ([0xAB], "<<"), ([0xBB], ">>"), ([0x2190], "<-"), ([0x2192], "->"), ([0x2191], "^"),
  ([0x2193], "v"), ([0x2194], "<->"), ([0x25B6, 0x25BA], ">"), ([0x25C0, 0x25C4], "<"),
  ([0x25B2, 0x2303], "^"), ([0x25BC, 0x25BE, 0x2304], "v"), ([0x2713, 0x2714], "v"),
  ([0x2715, 0x2717, 0x2718], "x"), ([0x2665, 0x2764], "<3"), ([0xB0], "o"), ([0xB1], "+/-"),
  ([0xA3], "L"), ([0xA5], "Y"), ([0x20AC], "E"), ([0xA2], "c"), ([0xA7], "S"), ([0xB6], "P"),
  ([0xBD], "1/2"), ([0xBC], "1/4"), ([0xBE], "3/4"), ([0xB2], "2"), ([0xB3], "3"),
  ([0xB9], "1"), ([0xB5], "u"), ([0xA1], "!"), ([0xBF], "?"),
  ([0x2009, 0x2002, 0x2003, 0x2005, 0x2006, 0x202F], " "),
  ([0xAD, 0x200B, 0x200C, 0x200D, 0xFEFF, 0x200E, 0x200F], "")]

/-- `dom_map_cp`: the bytes a character is stored as. -/
def mapCp (cp : Nat) : List UInt8 :=
  if cp < 0x80 then [UInt8.ofNat cp]
  else if cp = 0xA0 then [0x01]
  else if isHangul cp then
    [UInt8.ofNat (0xE0 ||| cp >>> 12), UInt8.ofNat (0x80 ||| (cp >>> 6 &&& 0x3F)),
      UInt8.ofNat (0x80 ||| (cp &&& 0x3F))]
  else if cp = 0xD7 then [0x78]
  else if 0xC0 ≤ cp ∧ cp ≤ 0xFF then [latin1.getD (cp - 0xC0) 0]
  else bytes (((lookalikes.find? fun x => cp ∈ x.1).map Prod.snd).getD "?")

/-- `dom_ents`. -/
def entities : List (String × Nat) := [
  ("amp", 0x26), ("lt", 0x3C), ("gt", 0x3E), ("quot", 0x22), ("apos", 0x27), ("nbsp", 0xA0),
  ("copy", 0xA9), ("reg", 0xAE), ("trade", 0x2122), ("laquo", 0xAB), ("raquo", 0xBB),
  ("middot", 0xB7), ("hellip", 0x2026), ("mdash", 0x2014), ("ndash", 0x2013),
  ("lsquo", 0x2018), ("rsquo", 0x2019), ("ldquo", 0x201C), ("rdquo", 0x201D),
  ("sbquo", 0x201A), ("bdquo", 0x201E), ("bull", 0x2022), ("times", 0xD7), ("divide", 0xF7),
  ("deg", 0xB0), ("plusmn", 0xB1), ("larr", 0x2190), ("rarr", 0x2192), ("uarr", 0x2191),
  ("darr", 0x2193), ("harr", 0x2194), ("shy", 0xAD), ("zwnj", 0x200C), ("zwj", 0x200D),
  ("ensp", 0x2002), ("emsp", 0x2003), ("thinsp", 0x2009), ("euro", 0x20AC), ("pound", 0xA3),
  ("yen", 0xA5), ("cent", 0xA2), ("sect", 0xA7), ("para", 0xB6), ("frac12", 0xBD),
  ("frac14", 0xBC), ("frac34", 0xBE), ("sup2", 0xB2), ("sup3", 0xB3), ("sup1", 0xB9),
  ("micro", 0xB5), ("iexcl", 0xA1), ("iquest", 0xBF), ("hearts", 0x2665), ("check", 0x2713),
  ("star", 0x2606), ("starf", 0x2605), ("lsaquo", 0x2039), ("rsaquo", 0x203A),
  ("prime", 0x2032), ("Prime", 0x2033), ("minus", 0x2212), ("infin", 0x221E), ("ne", 0x2260),
  ("le", 0x2264), ("ge", 0x2265), ("asymp", 0x2248), ("permil", 0x2030), ("dagger", 0x2020),
  ("Dagger", 0x2021), ("agrave", 0xE0), ("aacute", 0xE1), ("acirc", 0xE2), ("atilde", 0xE3),
  ("auml", 0xE4), ("aring", 0xE5), ("ccedil", 0xE7), ("egrave", 0xE8), ("eacute", 0xE9),
  ("ecirc", 0xEA), ("euml", 0xEB), ("igrave", 0xEC), ("iacute", 0xED), ("icirc", 0xEE),
  ("iuml", 0xEF), ("ntilde", 0xF1), ("ograve", 0xF2), ("oacute", 0xF3), ("ocirc", 0xF4),
  ("otilde", 0xF5), ("ouml", 0xF6), ("ugrave", 0xF9), ("uacute", 0xFA), ("ucirc", 0xFB),
  ("uuml", 0xFC), ("yacute", 0xFD), ("szlig", 0xDF), ("Agrave", 0xC0), ("Aacute", 0xC1),
  ("Acirc", 0xC2), ("Atilde", 0xC3), ("Auml", 0xC4), ("Aring", 0xC5), ("Ccedil", 0xC7),
  ("Egrave", 0xC8), ("Eacute", 0xC9), ("Ecirc", 0xCA), ("Euml", 0xCB), ("Iacute", 0xCD),
  ("Ntilde", 0xD1), ("Oacute", 0xD3), ("Ouml", 0xD6), ("Uacute", 0xDA), ("Uuml", 0xDC)]

/-- The ones that may stand without a semicolon. -/
def legacy (cp : Nat) : Bool := cp ∈ ([0x26, 0x3C, 0x3E, 0x22, 0xA0, 0xA9, 0xAE] : List Nat)

/-- A digit of a numeric reference. -/
def refDigit (hex : Bool) (c : UInt8) : Option Nat :=
  if '0'.toUInt8 ≤ c ∧ c ≤ '9'.toUInt8 then some (c - '0'.toUInt8).toNat
  else if hex ∧ 'a'.toUInt8 ≤ c ∧ c ≤ 'f'.toUInt8 then some (c - 'a'.toUInt8 + 10).toNat
  else if hex ∧ 'A'.toUInt8 ≤ c ∧ c ≤ 'F'.toUInt8 then some (c - 'A'.toUInt8 + 10).toNat
  else none

/-- A semicolon, as the bytes it takes. -/
def semicolon (s : List UInt8) : Nat := if s.head? = some 0x3B then 1 else 0

/-- A numeric reference behind the `#`. -/
def numericRef (s : List UInt8) : Option (Nat × Nat) :=
  let hex := s.head? = some 0x78 ∨ s.head? = some 0x58
  let body := if hex then s.drop 1 else s
  let ds := (body.take 8).takeWhile fun c => (refDigit hex c).isSome
  let v := ds.foldl (fun v c => v * (if hex then 16 else 10) + (refDigit hex c).getD 0) 0
  if ds = [] then none
  else
    some (1 + (if hex then 1 else 0) + ds.length + semicolon (body.drop ds.length),
      if v = 0 ∨ v > 0x10FFFF ∨ (0xD800 ≤ v ∧ v ≤ 0xDFFF) then 0xFFFD else v)

/-- A named reference. -/
def namedRef (in_attr : Bool) (s : List UInt8) : Option (Nat × Nat) :=
  let name := (s.take 10).takeWhile isAlnum
  let rest := s.drop name.length
  if name = [] then none
  else
    match entities.find? fun x => bytes x.1 = name with
    | none => none
    | some (_, cp) =>
      if semicolon rest = 0 ∧ (¬ legacy cp ∨ (in_attr ∧ rest.head? = some 0x3D)) then none
      else some (name.length + semicolon rest, cp)

/-- `dom_entity`, of what is behind the `&`: the bytes that belong to the reference, and its
character. -/
def entity (in_attr : Bool) (s : List UInt8) : Option (Nat × Nat) :=
  match s with
  | [] => none
  | c :: s => if c = 0x23 then numericRef s else namedRef in_attr (c :: s)

/-- `dom_utf8`, of a byte and what is behind it: the bytes that belong to the character, and the
character. -/
def utf8 (c : UInt8) (rest : List UInt8) : Nat × Nat :=
  if c < 0x80 then (1, c.toNat)
  else
    let need :=
      if c ≥ 0xF0 ∧ c < 0xF8 then 4 else if c ≥ 0xE0 ∧ c < 0xF0 then 3
      else if c ≥ 0xC2 ∧ c < 0xE0 then 2 else 0
    let lead := (if need = 2 then c &&& 0x1F else if need = 3 then c &&& 0x0F else c &&& 0x07).toNat
    let tail := rest.take (need - 1)
    if need = 0 ∨ need > rest.length + 1 then (1, 0xFFFD)
    else if tail.any fun b => b &&& 0xC0 ≠ 0x80 then (1, 0xFFFD)
    else (need, tail.foldl (fun v b => v <<< 6 ||| (b &&& 0x3F).toNat) lead)

end Dom
