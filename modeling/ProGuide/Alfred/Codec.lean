import Mathlib.Order.Fin.Basic
import ProGuide.Lib.Base64
/-!
# Encoding and decoding texts

`encode.php` and `decode.php` of an Alfred workflow list what a query encodes to and what
it decodes to. A PHP string is a list of bytes.
-/
open ProGuide.Lib.Base64

namespace ProGuide.Alfred.Codec

abbrev Bytes := List Byte

/-- The byte of an ASCII character. -/
def byte (c : Char) : Byte := Fin.ofNat 256 c.toNat

def ascii (s : String) : Bytes := s.toList.map byte

def isDigit (b : Byte) : Bool := 48 ≤ b.val && b.val ≤ 57

def isLetter (b : Byte) : Bool := (65 ≤ b.val && b.val ≤ 90) || (97 ≤ b.val && b.val ≤ 122)

/-- `str_replace` of one byte. -/
def strReplace (search : Byte) (replace : Bytes) (s : Bytes) : Bytes :=
  s.flatMap fun b => if b = search then replace else [b]

/-! ## Base64 -/

/-- The alphabet of `base64_encode`. -/
def standard : Alphabet Byte where
  symbol v :=
    if h : v.val < 26 then ⟨65 + v, by omega⟩
    else if h : v.val < 52 then ⟨71 + v, by omega⟩
    else if h : v.val < 62 then ⟨v - 4, by omega⟩
    else if v.val = 62 then byte '+'
    else byte '/'
  value b :=
    if h : 65 ≤ b.val ∧ b.val ≤ 90 then some ⟨b - 65, by omega⟩
    else if h : 97 ≤ b.val ∧ b.val ≤ 122 then some ⟨b - 71, by omega⟩
    else if h : 48 ≤ b.val ∧ b.val ≤ 57 then some ⟨b + 4, by omega⟩
    else if b = byte '+' then some 62
    else if b = byte '/' then some 63
    else none
  pad := byte '='
  value_symbol := by decide
  value_pad := by decide

def base64Encode (s : Bytes) : Bytes := encode standard s

def base64Decode (t : Bytes) : Bytes := decode standard t

/-- What the strict decoding passes over. -/
def isBlank (b : Byte) : Bool := b = byte ' ' || b = byte '\t' || b = byte '\n' || b = byte '\r'

def base64DecodeStrict (t : Bytes) : Option Bytes := strictDecode standard isBlank t

def urlsafeB64encode (s : Bytes) : Bytes :=
  strReplace (byte '=') [] (strReplace (byte '/') [byte '_'] (strReplace (byte '+') [byte '-'] (base64Encode s)))

def urlsafeB64decode (t : Bytes) : Bytes :=
  let data := strReplace (byte '_') [byte '/'] (strReplace (byte '-') [byte '+'] t)
  let mod4 := data.length % 4
  let data := if mod4 ≠ 0 then data ++ (ascii "====").drop mod4 else data
  base64Decode data

/-! ## URLs -/

/-- What `urlencode` leaves. -/
def isUnreserved (b : Byte) : Bool := isDigit b || isLetter b || b = byte '-' || b = byte '_' || b = byte '.'

def hexDigit (n : Fin 16) : Byte := if h : n.val < 10 then ⟨48 + n, by omega⟩ else ⟨55 + n, by omega⟩

def urlencodeByte (b : Byte) : Bytes :=
  if isUnreserved b then [b]
  else if b = byte ' ' then [byte '+']
  else [byte '%', hexDigit ⟨b / 16, by omega⟩, hexDigit ⟨b % 16, by omega⟩]

def urlencode (s : Bytes) : Bytes := s.flatMap urlencodeByte

/-- The value of a hexadecimal digit, in either case. -/
def hexValue (b : Byte) : Option (Fin 16) :=
  if h : 48 ≤ b.val ∧ b.val ≤ 57 then some ⟨b - 48, by omega⟩
  else if h : 65 ≤ b.val ∧ b.val ≤ 70 then some ⟨b - 55, by omega⟩
  else if h : 97 ≤ b.val ∧ b.val ≤ 102 then some ⟨b - 87, by omega⟩
  else none

def fromHex (hi lo : Fin 16) : Byte := ⟨hi * 16 + lo, by omega⟩

/-- The byte written as `%` and two digits. -/
def escaped (p a b : Byte) : Option Byte :=
  if p = byte '%' then do
    let hi ← hexValue a
    let lo ← hexValue b
    return fromHex hi lo
  else none

def plain (b : Byte) : Byte := if b = byte '+' then byte ' ' else b

def urldecode : Bytes → Bytes
  | p :: a :: b :: s =>
    match escaped p a b with
    | some c => c :: urldecode s
    | none => plain p :: urldecode (a :: b :: s)
  | s => s.map plain

/-! ## The scripts -/

/-- What PHP itself does: whether two texts are numbers of one value, HTML entities,
converting a text to an encoding from another, and replacing the matches of a pattern in a
text, which gives `null` for a text that is not UTF-8. -/
structure Php where
  sameNumber : Bytes → Bytes → Bool
  htmlentities : Bytes → Bytes
  htmlEntityDecode : Bytes → Bytes
  mbConvertEncoding (str to_encoding from_encoding : Bytes) : Bytes
  pregReplace (pattern replacement subject : Bytes) : Option Bytes

/-- The two bytes of `\u` and four digits. -/
def unicodeEscape (b u w x y z : Byte) : Option (Byte × Byte) :=
  if b = byte '\\' ∧ (u = byte 'u' ∨ u = byte 'U') then do
    let w ← hexValue w
    let x ← hexValue x
    let y ← hexValue y
    let z ← hexValue z
    return (fromHex w x, fromHex y z)
  else none

structure Result where
  uid : Bytes
  arg : Bytes
  title : Bytes
  subtitle : Bytes
  icon : Bytes := ascii "icon.png"
  valid : Bytes := ascii "yes"
  deriving DecidableEq

/-- PHP's truth of a text. -/
def truthy (s : Bytes) : Bool := s ≠ [] && s ≠ ascii "0"

def listIf (c : Bool) (key value : Bytes) : List (Bytes × Bytes) := if c then [(key, value)] else []

namespace Php
variable (p : Php)

/-- `!=`, which compares numbers by value. -/
def differs (a b : Bytes) : Bool := !(a = b || p.sameNumber a b)

def unicodeDecode : Bytes → Bytes
  | b :: u :: w :: x :: y :: z :: s =>
    match unicodeEscape b u w x y z with
    | some (hi, lo) => p.mbConvertEncoding [hi, lo] (ascii "UTF-8") (ascii "UCS-2BE") ++ unicodeDecode s
    | none => b :: unicodeDecode (u :: w :: x :: y :: z :: s)
  | s => s

/-- Control characters. -/
def controls : Bytes := ascii "/\\p\x7bCc\x7d+/u"

/-- `null` is the empty text. -/
def forceUtf8Safe (str : Bytes) : Bytes :=
  (p.pregReplace controls (ascii "?") (p.mbConvertEncoding str (ascii "UTF-8") (ascii "UTF-8"))).getD []

def mark : Bytes := ascii " (Invalid characters replaced with ?)"

/-- One item of `prepare_output`. -/
def prepared (item : Bytes × Bytes) : Bytes × Bytes :=
  let safe := p.forceUtf8Safe item.2
  if p.differs item.2 safe then (item.1 ++ mark, safe) else item

def shown (item : Bytes × Bytes) : Result :=
  let item := p.prepared item
  { uid := item.1, arg := item.2, title := item.2, subtitle := item.1 }

/-- The results for some items, or the one that says there are none. -/
def results (items : List (Bytes × Bytes)) (uid query subtitle : Bytes) : List Result :=
  if items = [] then [{ uid, arg := query, title := ascii "Nothing useful resulted", subtitle }]
  else items.map p.shown

def encodes (query : Bytes) : List (Bytes × Bytes) :=
  listIf (p.differs (urlencode query) query) (ascii "URL Encoded") (urlencode query) ++
    (listIf (p.differs (p.htmlentities query) query) (ascii "HTML Encoded") (p.htmlentities query) ++
      (listIf (p.differs (base64Encode query) query) (ascii "base64 Encoded") (base64Encode query) ++
        listIf (p.differs (urlsafeB64encode query) query) (ascii "base64(urlsafe) Encoded") (urlsafeB64encode query)))

def encode (query : Bytes) : List Result :=
  p.results (p.encodes query) (ascii "encode") query (ascii "The encoded strings were the same as your query")

/-- What a decoded text is listed as, when there is one. -/
def listDecoded (key query : Bytes) : Option Bytes → List (Bytes × Bytes)
  | none => []
  | some s => listIf (truthy s && p.differs s query) key s

def decodes (query : Bytes) : List (Bytes × Bytes) :=
  listIf (p.differs (urldecode query) query) (ascii "URL Decoded") (urldecode query) ++
    (listIf (p.differs (p.unicodeDecode query) query) (ascii "Unicode Decoded") (p.unicodeDecode query) ++
      (listIf (p.differs (p.htmlEntityDecode query) query) (ascii "HTML Decoded") (p.htmlEntityDecode query) ++
        (p.listDecoded (ascii "base64 Decoded") query (base64DecodeStrict query) ++
          p.listDecoded (ascii "base64(urlsafe) Decoded") query (some (urlsafeB64decode query)))))

def decode (query : Bytes) : List Result :=
  p.results (p.decodes query) (ascii "decode") query (ascii "The decoded strings were the same as your query")

end Php

/-! ## What is decoded -/

/-- The symbols with `-` and `_` for the last two, and without padding. -/
def urlSymbol (v : Sextet) : Byte :=
  if v = 62 then byte '-' else if v = 63 then byte '_' else standard.symbol v

theorem strReplace_map {f g : Sextet → Byte} {a : Byte} {r : Bytes}
    (h : ∀ v, (if f v = a then r else [f v]) = [g v]) (vs : List Sextet) : strReplace a r (vs.map f) = vs.map g := by
  rw [strReplace, List.flatMap_map]
  simp only [h]
  induction vs with
  | nil => rfl
  | cons v vs ih => rw [List.flatMap_cons, ih, List.map_cons, List.singleton_append]

theorem strReplace_append (a : Byte) (r s t : Bytes) : strReplace a r (s ++ t) = strReplace a r s ++ strReplace a r t :=
  List.flatMap_append

theorem strReplace_pads {a : Byte} (h : byte '=' ≠ a) (r : Bytes) (n : Nat) :
    strReplace a r (List.replicate n (byte '=')) = List.replicate n (byte '=') := by
  induction n with
  | zero => rfl
  | succ n ih => rw [List.replicate_succ, strReplace, List.flatMap_cons, if_neg h, ← strReplace, ih, List.singleton_append]

theorem strReplace_no_pads (n : Nat) : strReplace (byte '=') [] (List.replicate n (byte '=')) = [] := by
  induction n with
  | zero => rfl
  | succ n ih => rw [List.replicate_succ, strReplace, List.flatMap_cons, if_pos rfl, ← strReplace, ih, List.nil_append]

/-- The symbols with `-` for `+`, and those with `_` for `/`. -/
def dashSymbol (v : Sextet) : Byte := if v = 62 then byte '-' else standard.symbol v

def scoreSymbol (v : Sextet) : Byte := if v = 63 then byte '_' else standard.symbol v

theorem urlsafeB64encode_eq (s : Bytes) : urlsafeB64encode s = (sextets s).map urlSymbol := by
  have hpads : standard.pad = byte '=' := rfl
  rw [urlsafeB64encode, base64Encode, encode, hpads]
  simp only [strReplace_append, strReplace_pads (show byte '=' ≠ byte '+' by decide),
    strReplace_pads (show byte '=' ≠ byte '/' by decide), strReplace_no_pads, List.append_nil]
  rw [strReplace_map (g := dashSymbol) (by decide), strReplace_map (g := urlSymbol) (by decide),
    strReplace_map (g := urlSymbol) (by decide)]

theorem urlsafeB64decode_encode (s : Bytes) : urlsafeB64decode (urlsafeB64encode s) = s := by
  have hsymbols : strReplace (byte '_') [byte '/'] (strReplace (byte '-') [byte '+'] (urlsafeB64encode s))
      = (sextets s).map standard.symbol := by
    rw [urlsafeB64encode_eq, strReplace_map (g := scoreSymbol) (by decide),
      strReplace_map (g := standard.symbol) (by decide)]
  have hpads (n : Nat) : ((ascii "====").drop n).filterMap standard.value = [] :=
    List.filterMap_eq_nil_iff.2 fun b hb => by
      have hb : b = byte '=' := List.eq_of_mem_replicate (List.mem_of_mem_drop hb : b ∈ List.replicate 4 (byte '='))
      rw [hb]
      rfl
  simp only [urlsafeB64decode, hsymbols, base64Decode]
  split
  · exact decode_of_values (by rw [List.filterMap_append, filterMap_symbol, hpads, List.append_nil])
  · exact decode_of_values (filterMap_symbol _)

theorem strictDecode_urlsafe (s : Bytes) : base64DecodeStrict (urlsafeB64encode s)
    = if byte '-' ∈ urlsafeB64encode s ∨ byte '_' ∈ urlsafeB64encode s then none else some s := by
  split
  · next h =>
    rcases h with h | h
    · exact strictDecode_foreign h (by decide) (by decide) (by decide)
    · exact strictDecode_foreign h (by decide) (by decide) (by decide)
  · next h =>
    have hsame : urlsafeB64encode s = (sextets s).map standard.symbol := by
      rw [urlsafeB64encode_eq] at h ⊢
      refine List.map_congr_left fun v hv => ?_
      have hv := List.mem_map_of_mem (f := urlSymbol) hv
      rw [urlSymbol, if_neg, if_neg]
      · rintro rfl
        exact h (Or.inr hv)
      · rintro rfl
        exact h (Or.inl hv)
    rw [hsame]
    exact (strictDecode_encode (by decide) s).2

theorem escaped_hexDigit (b : Byte) :
    escaped (byte '%') (hexDigit ⟨b / 16, by omega⟩) (hexDigit ⟨b % 16, by omega⟩) = some b := by
  have hvalue : ∀ n, hexValue (hexDigit n) = some n := by decide
  simp only [escaped, if_true, hvalue, fromHex]
  exact congrArg some (Fin.ext (by simp only []; omega))

theorem urldecode_cons {b : Byte} (hb : b ≠ byte '%') (s : Bytes) : urldecode (b :: s) = plain b :: urldecode s := by
  rcases s with _ | ⟨c, _ | ⟨d, s⟩⟩
  · rfl
  · rfl
  · rw [urldecode, escaped, if_neg hb]

theorem urldecode_urlencodeByte (b : Byte) (s : Bytes) : urldecode (urlencodeByte b ++ s) = b :: urldecode s := by
  unfold urlencodeByte
  split
  · next h =>
    have hpercent : b ≠ byte '%' := by
      rintro rfl
      exact absurd h (by decide)
    have hplus : b ≠ byte '+' := by
      rintro rfl
      exact absurd h (by decide)
    rw [List.singleton_append, urldecode_cons hpercent, plain, if_neg hplus]
  · split
    · next h =>
      rw [List.singleton_append, urldecode_cons (by decide), h]
      rfl
    · simp only [List.cons_append, List.nil_append, urldecode, escaped_hexDigit]

theorem urldecode_urlencode (s : Bytes) : urldecode (urlencode s) = s := by
  induction s with
  | nil => rfl
  | cons b s ih => rw [urlencode, List.flatMap_cons, urldecode_urlencodeByte, ← urlencode, ih]

/-! ## What is listed -/

/-- The bytes that can be shown whatever stands around them. -/
def Printable (s : Bytes) : Prop := ∀ b ∈ s, 32 < b.val ∧ b.val < 127

theorem printable_of_unreserved {b : Byte} (h : isUnreserved b = true) : 32 < b.val ∧ b.val < 127 := by
  simp only [isUnreserved, isDigit, isLetter, Bool.or_eq_true, Bool.and_eq_true, decide_eq_true_eq] at h
  rcases h with (((h | h) | rfl) | rfl) | rfl
  · omega
  · omega
  all_goals decide

theorem printable_urlencode (s : Bytes) : Printable (urlencode s) := by
  have hdigit : ∀ n, 32 < (hexDigit n).val ∧ (hexDigit n).val < 127 := by decide
  intro c hc
  obtain ⟨b, -, hc⟩ := List.mem_flatMap.1 hc
  unfold urlencodeByte at hc
  split at hc
  · next h =>
    rw [List.mem_singleton.1 hc]
    exact printable_of_unreserved h
  · split at hc
    · rw [List.mem_singleton.1 hc]
      decide
    · rcases List.mem_cons.1 hc with rfl | hc
      · decide
      · rcases List.mem_cons.1 hc with rfl | hc
        · exact hdigit _
        · rw [List.mem_singleton.1 hc]
          exact hdigit _

theorem printable_base64Encode (s : Bytes) : Printable (base64Encode s) := by
  have hsymbol : ∀ v, 32 < (standard.symbol v).val ∧ (standard.symbol v).val < 127 := by decide
  intro b hb
  rcases List.mem_append.1 hb with hb | hb
  · obtain ⟨v, -, rfl⟩ := List.mem_map.1 hb
    exact hsymbol v
  · rw [List.eq_of_mem_replicate hb]
    decide

theorem printable_urlsafeB64encode (s : Bytes) : Printable (urlsafeB64encode s) := by
  have hsymbol : ∀ v, 32 < (urlSymbol v).val ∧ (urlSymbol v).val < 127 := by decide
  intro b hb
  rw [urlsafeB64encode_eq] at hb
  obtain ⟨v, -, rfl⟩ := List.mem_map.1 hb
  exact hsymbol v

theorem mem_listIf {c : Bool} {key value : Bytes} {item : Bytes × Bytes} :
    item ∈ listIf c key value ↔ c = true ∧ item = (key, value) := by
  unfold listIf
  split <;> simp_all

namespace Php
variable {p : Php}

theorem shown_uid (item : Bytes × Bytes) : (p.shown item).uid = item.1 ∨ (p.shown item).uid = item.1 ++ mark := by
  unfold shown prepared
  dsimp only
  split
  · exact Or.inr rfl
  · exact Or.inl rfl

theorem differs_comm (hnumber : ∀ a b, p.sameNumber a b = p.sameNumber b a) (a b : Bytes) :
    p.differs a b = p.differs b a := by
  rw [differs, differs, hnumber]
  congr 2
  exact decide_eq_decide.2 eq_comm

theorem mem_results {items : List (Bytes × Bytes)} {uid query subtitle : Bytes} {r : Result}
    (hr : r ∈ p.results items uid query subtitle) : r.uid = uid ∨ ∃ item ∈ items, r = p.shown item := by
  unfold results at hr
  split at hr
  · rw [List.mem_singleton.1 hr]
    exact Or.inl rfl
  · obtain ⟨item, hitem, rfl⟩ := List.mem_map.1 hr
    exact Or.inr ⟨item, hitem, rfl⟩

theorem shown_mem_results {items : List (Bytes × Bytes)} {item : Bytes × Bytes} (hitem : item ∈ items)
    (uid query subtitle : Bytes) : p.shown item ∈ p.results items uid query subtitle := by
  rw [results, if_neg (List.ne_nil_of_mem hitem)]
  exact List.mem_map_of_mem hitem

/-- What PHP leaves of a printable text: all of it, as UTF-8 and without control characters. -/
structure Leaves (p : Php) : Prop where
  convert : ∀ t, Printable t → p.mbConvertEncoding t (ascii "UTF-8") (ascii "UTF-8") = t
  replace : ∀ t, Printable t → p.pregReplace controls (ascii "?") t = some t

theorem Leaves.forceUtf8Safe (hleaves : p.Leaves) {t : Bytes} (h : Printable t) : p.forceUtf8Safe t = t := by
  rw [Php.forceUtf8Safe, hleaves.convert t h, hleaves.replace t h, Option.getD_some]

theorem shown_of_printable (hleaves : p.Leaves) (key : Bytes) {value : Bytes} (h : Printable value) :
    p.shown (key, value) = { uid := key, arg := value, title := value, subtitle := key } := by
  simp [shown, prepared, hleaves.forceUtf8Safe h, differs]

/-- A result under a key, marked or not, shows an item of that key. -/
theorem item_of_uid {items : List (Bytes × Bytes)} {keys : List Bytes} (hkeys : ∀ item ∈ items, item.1 ∈ keys)
    {key uid : Bytes} (hmark : ∀ k ∈ uid :: keys, k ≠ key ++ mark ∧ k ++ mark ≠ key) (huid : uid ≠ key)
    {query subtitle : Bytes} {r : Result} (hr : r ∈ p.results items uid query subtitle)
    (hkey : r.uid = key ∨ r.uid = key ++ mark) : ∃ s, (key, s) ∈ items ∧ r = p.shown (key, s) := by
  rcases mem_results hr with h | ⟨⟨k, s⟩, hitem, rfl⟩
  · rw [h] at hkey
    exact absurd hkey (not_or.2 ⟨huid, (hmark uid List.mem_cons_self).1⟩)
  · have hk := hmark k (List.mem_cons_of_mem _ (hkeys _ hitem))
    have hkey : k = key := by
      rcases shown_uid (p := p) (k, s) with h | h
      · rw [h] at hkey
        exact hkey.resolve_right hk.1
      · rw [h] at hkey
        exact List.append_cancel_right (hkey.resolve_left hk.2)
    exact ⟨s, hkey ▸ hitem, hkey ▸ rfl⟩

theorem mem_listDecoded {key query : Bytes} {o : Option Bytes} {k s : Bytes} : (k, s) ∈ p.listDecoded key query o ↔
    o = some s ∧ (truthy s = true ∧ p.differs s query = true) ∧ k = key := by
  cases o with
  | none => simp [listDecoded]
  | some s' =>
    rw [listDecoded, mem_listIf, Option.some.injEq, Prod.mk.injEq, Bool.and_eq_true]
    constructor
    · rintro ⟨h, rfl, rfl⟩
      exact ⟨rfl, h, rfl⟩
    · rintro ⟨rfl, h, rfl⟩
      exact ⟨h, rfl, rfl⟩

def encodeKeys : List Bytes :=
  [ascii "URL Encoded", ascii "HTML Encoded", ascii "base64 Encoded", ascii "base64(urlsafe) Encoded"]

theorem mem_encodes {query key s : Bytes} : (key, s) ∈ p.encodes query ↔
    (p.differs (urlencode query) query = true ∧ key = ascii "URL Encoded" ∧ s = urlencode query) ∨
    (p.differs (p.htmlentities query) query = true ∧ key = ascii "HTML Encoded" ∧ s = p.htmlentities query) ∨
    (p.differs (base64Encode query) query = true ∧ key = ascii "base64 Encoded" ∧ s = base64Encode query) ∨
    (p.differs (urlsafeB64encode query) query = true ∧
      key = ascii "base64(urlsafe) Encoded" ∧ s = urlsafeB64encode query) := by
  simp only [encodes, List.mem_append, mem_listIf, Prod.mk.injEq]

theorem encodes_keys {query : Bytes} : ∀ item ∈ p.encodes query, item.1 ∈ encodeKeys := by
  rintro ⟨key, s⟩ hitem
  rcases mem_encodes.1 hitem with ⟨-, rfl, -⟩ | ⟨-, rfl, -⟩ | ⟨-, rfl, -⟩ | ⟨-, rfl, -⟩ <;> simp [encodeKeys]

def decodeKeys : List Bytes :=
  [ascii "URL Decoded", ascii "Unicode Decoded", ascii "HTML Decoded", ascii "base64 Decoded",
    ascii "base64(urlsafe) Decoded"]

theorem mem_decodes {query key s : Bytes} : (key, s) ∈ p.decodes query ↔
    (p.differs (urldecode query) query = true ∧ key = ascii "URL Decoded" ∧ s = urldecode query) ∨
    (p.differs (p.unicodeDecode query) query = true ∧ key = ascii "Unicode Decoded" ∧ s = p.unicodeDecode query) ∨
    (p.differs (p.htmlEntityDecode query) query = true ∧ key = ascii "HTML Decoded" ∧ s = p.htmlEntityDecode query) ∨
    (base64DecodeStrict query = some s ∧ (truthy s = true ∧ p.differs s query = true) ∧ key = ascii "base64 Decoded") ∨
    (urlsafeB64decode query = s ∧ (truthy s = true ∧ p.differs s query = true) ∧
      key = ascii "base64(urlsafe) Decoded") := by
  simp only [decodes, List.mem_append, mem_listIf, mem_listDecoded, Prod.mk.injEq, Option.some.injEq]

theorem decodes_keys {query : Bytes} : ∀ item ∈ p.decodes query, item.1 ∈ decodeKeys := by
  rintro ⟨key, s⟩ hitem
  rcases mem_decodes.1 hitem with ⟨-, rfl, -⟩ | ⟨-, rfl, -⟩ | ⟨-, rfl, -⟩ | ⟨-, -, rfl⟩ | ⟨-, -, rfl⟩ <;>
    simp [decodeKeys]

/-- What is shown under a key of `decode` is an item of that key. -/
theorem item_of_shown {key : Bytes} (hkey : key ∈ decodeKeys) {q v : Bytes} (h : p.shown (key, q) ∈ p.decode v) :
    ∃ s, (key, s) ∈ p.decodes v := by
  have hmark : ∀ key ∈ decodeKeys, ∀ k ∈ ascii "decode" :: decodeKeys, k ≠ key ++ mark ∧ k ++ mark ≠ key := by decide
  have huid : ∀ key ∈ decodeKeys, ascii "decode" ≠ key := by decide
  obtain ⟨s, hs, -⟩ := item_of_uid decodes_keys (hmark key hkey) (huid key hkey) h (shown_uid _)
  exact ⟨s, hs⟩

/-- A result of `encode` under one of its keys shows an item of that key. -/
theorem item_of_encoded {key : Bytes} (hkey : key ∈ encodeKeys) {q : Bytes} {r : Result} (hr : r ∈ p.encode q)
    (h : r.uid = key) : ∃ s, (key, s) ∈ p.encodes q ∧ r = p.shown (key, s) := by
  have hmark : ∀ key ∈ encodeKeys, ∀ k ∈ ascii "encode" :: encodeKeys, k ≠ key ++ mark ∧ k ++ mark ≠ key := by decide
  have huid : ∀ key ∈ encodeKeys, ascii "encode" ≠ key := by decide
  exact item_of_uid encodes_keys (hmark key hkey) (huid key hkey) hr (Or.inl h)

theorem url_mem_encodes {q s : Bytes} : (ascii "URL Encoded", s) ∈ p.encodes q ↔
    p.differs (urlencode q) q = true ∧ s = urlencode q := by
  simp +decide [mem_encodes]

theorem base64_mem_encodes {q s : Bytes} : (ascii "base64 Encoded", s) ∈ p.encodes q ↔
    p.differs (base64Encode q) q = true ∧ s = base64Encode q := by
  simp +decide [mem_encodes]

theorem urlsafe_mem_encodes {q s : Bytes} : (ascii "base64(urlsafe) Encoded", s) ∈ p.encodes q ↔
    p.differs (urlsafeB64encode q) q = true ∧ s = urlsafeB64encode q := by
  simp +decide [mem_encodes]

theorem url_mem_decodes {v s : Bytes} : (ascii "URL Decoded", s) ∈ p.decodes v ↔
    p.differs (urldecode v) v = true ∧ s = urldecode v := by
  simp +decide [mem_decodes]

theorem base64_mem_decodes {v s : Bytes} : (ascii "base64 Decoded", s) ∈ p.decodes v ↔
    base64DecodeStrict v = some s ∧ truthy s = true ∧ p.differs s v = true := by
  simp +decide [mem_decodes]

theorem urlsafe_mem_decodes {v s : Bytes} : (ascii "base64(urlsafe) Decoded", s) ∈ p.decodes v ↔
    urlsafeB64decode v = s ∧ truthy s = true ∧ p.differs s v = true := by
  simp +decide [mem_decodes]

/-- A text is listed under a key if it is what that key decodes to, and only then. -/
theorem shown_mem_decode {key : Bytes} (hkey : key ∈ decodeKeys) {q v : Bytes}
    (honly : ∀ s, (key, s) ∈ p.decodes v → s = q) : p.shown (key, q) ∈ p.decode v ↔ (key, q) ∈ p.decodes v := by
  constructor
  · intro h
    obtain ⟨s, hs⟩ := item_of_shown hkey h
    exact honly s hs ▸ hs
  · intro h
    exact shown_mem_results h _ _ _

end Php

theorem strictDecode_base64 (s : Bytes) : base64DecodeStrict (base64Encode s) = some s :=
  (strictDecode_encode (by decide) s).1

/-- What is listed as encoded is not empty. -/
theorem truthy_of_encoded {p : Php} {f : Bytes → Bytes} (hf : f [] = []) {q : Bytes}
    (h : p.differs (f q) q = true) : truthy q = true ↔ q ≠ ascii "0" := by
  have hne : q ≠ [] := by
    rintro rfl
    simp [Php.differs, hf] at h
  simp [truthy, hne]

/-- A PHP for texts without numbers, control characters or entities but `&gt;`. -/
def simplePhp : Php where
  sameNumber _ _ := false
  htmlentities s := strReplace (byte '>') (ascii "&gt;") s
  htmlEntityDecode s := s
  mbConvertEncoding str _ _ := str
  pregReplace _ _ subject := some subject

end ProGuide.Alfred.Codec
