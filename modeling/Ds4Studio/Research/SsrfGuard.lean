import Mathlib.Data.List.Infix
import Mathlib.Tactic.Linarith

/-!
The guard in front of the pages that are fetched. It tests the text of a host, which stands for a
domain or an address; the texts are those that a URL parser gives, and each address has one.
-/

namespace Ds4Studio.Research

open List Option

abbrev Text := List Char

/-! ### Hosts and their texts -/

structure Ipv4 where
  a : UInt8
  b : UInt8
  c : UInt8
  d : UInt8
deriving DecidableEq

structure Ipv6 where
  pieces : List UInt16
  length_eq : pieces.length = 8

def decimal (n : UInt8) : Text := Nat.toDigits 10 n.toNat

def Ipv4.serialize (x : Ipv4) : Text :=
  decimal x.a ++ '.' :: (decimal x.b ++ '.' :: (decimal x.c ++ '.' :: decimal x.d))

/-- A piece in as few hexadecimal digits as it needs. -/
def hexPiece (p : UInt16) : Text :=
  let n := p.toNat
  let digits := [n / 4096, n / 256 % 16, n / 16 % 16, n % 16].map Nat.digitChar
  if n < 16 then digits.drop 3 else if n < 256 then digits.drop 2
  else if n < 4096 then digits.drop 1 else digits

def zeroRun (pieces : List UInt16) : ℕ := (pieces.takeWhile (· = 0)).length

/-- The first longest run of zero pieces among those from an index on, and the best so far: where
it begins and its length. -/
def longestRun : ℕ → List UInt16 → ℕ × ℕ → ℕ × ℕ
  | _, [], best => best
  | i, p :: rest, best =>
      let run := zeroRun (p :: rest)
      longestRun (i + 1) rest (if best.2 < run then (i, run) else best)

/-- The index at which zero pieces are left out. -/
def compressed (pieces : List UInt16) : Option ℕ :=
  let run := longestRun 0 pieces (0, 1)
  if 1 < run.2 then some run.1 else none

def serializeFrom (compress : Option ℕ) : ℕ → Bool → List UInt16 → Text
  | _, _, [] => []
  | i, ignore0, p :: rest =>
      if ignore0 && p = 0 then serializeFrom compress (i + 1) true rest
      else if compress = some i then
        (if i = 0 then [':', ':'] else [':']) ++ serializeFrom compress (i + 1) true rest
      else
        hexPiece p ++ ((if i = 7 then [] else [':']) ++ serializeFrom compress (i + 1) false rest)

def Ipv6.serialize (x : Ipv6) : Text := serializeFrom (compressed x.pieces) 0 false x.pieces

/-- The last one stands for the hosts of URLs that are not fetched. -/
inductive Host where
  | domain (name : Text)
  | ipv4 (address : Ipv4)
  | ipv6 (address : Ipv6)
  | other (name : Text)

def Host.serialize : Host → Text
  | .domain name => name
  | .ipv4 address => address.serialize
  | .ipv6 address => '[' :: (address.serialize ++ [']'])
  | .other name => name

structure Url where
  protocol : Text
  host : Host

def Url.hostname (url : Url) : Text := url.host.serialize

/-! ### The guard -/

/-- `BLOCKED_HOSTNAMES` -/
def blockedHostnames : List Text :=
  ["localhost".toList, "metadata.google.internal".toList, "metadata".toList,
    "instance-data".toList]

def digitsValue (part : Text) : ℕ := part.foldl (fun n c => n * 10 + (c.toNat - 48)) 0

def isPrivateIPv4 (host : Text) : Bool :=
  match host.splitOn '.' with
  | [p, q, r, s] =>
      if [p, q, r, s].all fun o => 1 ≤ o.length && o.length ≤ 3 && o.all Char.isDigit then
        let a := digitsValue p
        let b := digitsValue q
        ([p, q, r, s].any fun o => 255 < digitsValue o) ||
          a = 10 || a = 127 || a = 0 || (a = 169 && b = 254) || (a = 172 && 16 ≤ b && b ≤ 31) ||
          (a = 192 && b = 168) || (a = 100 && 64 ≤ b && b ≤ 127)
      else false
  | _ => false

def toLowerCase (text : Text) : Text := text.map Char.toLower

/-- `replace(/^\[|\]$/g, "")` -/
def stripBrackets (host : Text) : Text :=
  let inner := if ['['].isPrefixOf host then host.drop 1 else host
  if [']'].isSuffixOf inner then inner.dropLast else inner

def isPrivateIPv6 (host : Text) : Bool :=
  let h := toLowerCase (stripBrackets host)
  h = "::1".toList || h = "::".toList || "fc".toList.isPrefixOf h || "fd".toList.isPrefixOf h ||
    "fe80".toList.isPrefixOf h || ("::ffff:".toList.isPrefixOf h && isPrivateIPv4 (h.drop 7))

/-- `{ ok, reason }` -/
structure UrlCheck where
  ok : Bool
  reason : Text

def checkHost (host : Text) : UrlCheck :=
  if host = [] then ⟨false, "empty host".toList⟩
  else if blockedHostnames.contains host then ⟨false, "blocked host: ".toList ++ host⟩
  else if ".localhost".toList.isSuffixOf host then ⟨false, "blocked host: .localhost".toList⟩
  else if isPrivateIPv4 host then ⟨false, "private IPv4: ".toList ++ host⟩
  else if (host.contains ':' || ['['].isPrefixOf host) && isPrivateIPv6 host then
    ⟨false, "private IPv6: ".toList ++ host⟩
  else ⟨true, []⟩

def isHttp (protocol : Text) : Bool := protocol = "http:".toList || protocol = "https:".toList

/-- The parser of URLs is a parameter. -/
def checkUrlSafe (parse : Text → Option Url) (rawUrl : Text) : UrlCheck :=
  match parse rawUrl with
  | none => ⟨false, "invalid URL".toList⟩
  | some url =>
      if isHttp url.protocol then checkHost (toLowerCase url.hostname)
      else ⟨false, "blocked scheme: ".toList ++ url.protocol⟩

/-! ### What is requested -/

/-- The redirects that are followed, with at most so many to come: the URLs that have been
requested, the last one first. The server answers a request, given all up to it, with the URL that
it redirects to. -/
def follow (parse : Text → Option Url) (server : List Text → Option Text) :
    ℕ → List Text → List Text
  | 0, sent => sent
  | budget + 1, sent =>
      match server sent with
      | none => sent
      | some target =>
          match parse target with
          | none => sent
          | some url =>
              if isHttp url.protocol then follow parse server budget (target :: sent) else sent

/-- The requests of `readPage`, the last one first: `fetch` follows up to twenty redirects. -/
def readPageRequests (parse : Text → Option Url) (server : List Text → Option Text)
    (url : Text) : List Text :=
  if (checkUrlSafe parse url).ok then follow parse server 20 [url] else []

/-! ### Private hosts -/

def Ipv4.number (x : Ipv4) : ℕ :=
  ((x.a.toNat * 256 + x.b.toNat) * 256 + x.c.toNat) * 256 + x.d.toNat

/-- The private blocks of addresses, each with the length of its prefix. -/
def privateBlocks : List (Ipv4 × ℕ) :=
  [(⟨0, 0, 0, 0⟩, 8), (⟨10, 0, 0, 0⟩, 8), (⟨100, 64, 0, 0⟩, 10), (⟨127, 0, 0, 0⟩, 8),
    (⟨169, 254, 0, 0⟩, 16), (⟨172, 16, 0, 0⟩, 12), (⟨192, 168, 0, 0⟩, 16)]

def Ipv4.Private (x : Ipv4) : Prop :=
  ∃ block ∈ privateBlocks, x.number / 2 ^ (32 - block.2) = block.1.number / 2 ^ (32 - block.2)

def Ipv4.mapped (x : Ipv4) : Ipv6 where
  pieces := [0, 0, 0, 0, 0, 0xffff, (x.a.toNat * 256 + x.b.toNat).toUInt16,
    (x.c.toNat * 256 + x.d.toNat).toUInt16]
  length_eq := rfl

def Ipv6.loopback : Ipv6 := ⟨[0, 0, 0, 0, 0, 0, 0, 1], rfl⟩

def Ipv6.unspecified : Ipv6 := ⟨[0, 0, 0, 0, 0, 0, 0, 0], rfl⟩

def Ipv6.first (x : Ipv6) : ℕ := (x.pieces.headD 0).toNat

/-- Loopback, unspecified, `fc00::/7`, `fe80::/10`, or a private address of the other kind. -/
def Ipv6.Private (x : Ipv6) : Prop :=
  x = .loopback ∨ x = .unspecified ∨
    x.first / 2 ^ 9 = 0xfc00 / 2 ^ 9 ∨ x.first / 2 ^ 6 = 0xfe80 / 2 ^ 6 ∨
    ∃ v : Ipv4, v.Private ∧ x = v.mapped

/-- A name that is blocked stays one with dots behind it. -/
def Host.Private : Host → Prop
  | .domain name => ∃ blocked ∈ blockedHostnames, ∃ dots, name = blocked ++ replicate dots '.'
  | .ipv4 x => x.Private
  | .ipv6 x => x.Private
  | .other _ => False

/-- The private hosts that the guard lets pass. -/
def Host.Overlooked : Host → Prop
  | .domain name =>
      ∃ blocked ∈ blockedHostnames, ∃ dots, name = blocked ++ replicate (dots + 1) '.'
  | .ipv4 _ => False
  | .ipv6 x => (x.first / 2 ^ 6 = 0xfe80 / 2 ^ 6 ∧ x.first ≠ 0xfe80) ∨
      ∃ v : Ipv4, v.Private ∧ x = v.mapped
  | .other _ => False

/-! ### Addresses of four numbers -/

theorem decimal_spec (n : UInt8) :
    '.' ∉ decimal n ∧ 1 ≤ (decimal n).length ∧ (decimal n).length ≤ 3 ∧
      (decimal n).all Char.isDigit = true ∧ digitsValue (decimal n) = n.toNat := by
  have hall : ∀ k : Fin 256, '.' ∉ Nat.toDigits 10 k ∧ 1 ≤ (Nat.toDigits 10 k).length ∧
      (Nat.toDigits 10 k).length ≤ 3 ∧ (Nat.toDigits 10 k).all Char.isDigit = true ∧
      digitsValue (Nat.toDigits 10 k) = k := by
    decide +kernel
  exact hall ⟨n.toNat, n.toNat_lt⟩

theorem map_decimal (n : UInt8) : (decimal n).map Char.toLower = decimal n := by
  have hall : ∀ k : Fin 256, (Nat.toDigits 10 k).map Char.toLower = Nat.toDigits 10 k := by
    decide +kernel
  exact hall ⟨n.toNat, n.toNat_lt⟩

theorem splitOn_serialize (x : Ipv4) :
    x.serialize.splitOn '.' = [decimal x.a, decimal x.b, decimal x.c, decimal x.d] := by
  unfold Ipv4.serialize
  rw [splitOn_append_cons_self_of_not_mem (decimal_spec x.a).1,
    splitOn_append_cons_self_of_not_mem (decimal_spec x.b).1,
    splitOn_append_cons_self_of_not_mem (decimal_spec x.c).1,
    splitOn_eq_singleton (decimal_spec x.d).1]

theorem Ipv4.Private.octets {x : Ipv4} (h : x.Private) :
    x.a.toNat = 10 ∨ x.a.toNat = 127 ∨ x.a.toNat = 0 ∨ (x.a.toNat = 169 ∧ x.b.toNat = 254) ∨
      (x.a.toNat = 172 ∧ 16 ≤ x.b.toNat ∧ x.b.toNat ≤ 31) ∨
      (x.a.toNat = 192 ∧ x.b.toNat = 168) ∨
      (x.a.toNat = 100 ∧ 64 ≤ x.b.toNat ∧ x.b.toNat ≤ 127) := by
  have hb := x.b.toNat_lt
  have hc := x.c.toNat_lt
  have hd := x.d.toNat_lt
  unfold Ipv4.Private privateBlocks at h
  simp only [exists_mem_cons_iff, not_mem_nil, false_and, exists_false, or_false] at h
  unfold Ipv4.number at h
  simp only [UInt8.reduceToNat] at h
  rcases h with h | h | h | h | h | h | h
  · exact .inr (.inr (.inl (by omega)))
  · exact .inl (by omega)
  · exact .inr (.inr (.inr (.inr (.inr (.inr ⟨by omega, by omega, by omega⟩)))))
  · exact .inr (.inl (by omega))
  · exact .inr (.inr (.inr (.inl ⟨by omega, by omega⟩)))
  · exact .inr (.inr (.inr (.inr (.inl ⟨by omega, by omega, by omega⟩))))
  · exact .inr (.inr (.inr (.inr (.inr (.inl ⟨by omega, by omega⟩)))))

theorem isPrivateIPv4_serialize {x : Ipv4} (h : x.Private) : isPrivateIPv4 x.serialize = true := by
  have hoctets := h.octets
  have hpart : ∀ n : UInt8, (1 ≤ (decimal n).length && (decimal n).length ≤ 3 &&
      (decimal n).all Char.isDigit) = true := by
    intro n
    obtain ⟨-, hlow, hhigh, hdigit, -⟩ := decimal_spec n
    simp only [hlow, hhigh, hdigit, decide_true, Bool.and_true]
  unfold isPrivateIPv4
  simp only [splitOn_serialize, all_cons, hpart, all_nil, Bool.and_true, if_true,
    (decimal_spec _).2.2.2.2]
  rcases hoctets with h | h | h | ⟨h, h'⟩ | ⟨h, h', h''⟩ | ⟨h, h'⟩ | ⟨h, h', h''⟩
  all_goals simp [*]

theorem digits_of_isPrivateIPv4 {host : Text} (h : isPrivateIPv4 host = true) :
    ∀ c ∈ host, c.isDigit = true ∨ c = '.' := by
  unfold isPrivateIPv4 at h
  split at h
  case h_1 p q r s hsplit =>
    split at h
    case isTrue hall =>
      have hjoin : ['.'].intercalate (host.splitOn '.') = host := intercalate_splitOn '.'
      rw [hsplit] at hjoin
      intro c hc
      rw [← hjoin] at hc
      have hdigit : ∀ o ∈ [p, q, r, s], ∀ c ∈ o, c.isDigit = true := by
        intro o ho c hc
        have hpart := all_eq_true.mp hall o ho
        exact all_eq_true.mp (Bool.and_eq_true_iff.mp hpart).2 c hc
      simp only [intercalate_cons_cons, intercalate_singleton, mem_append, mem_singleton] at hc
      rcases hc with (hc | hc) | (hc | hc) | (hc | hc) | hc
      · exact .inl (hdigit p (by simp) c hc)
      · exact .inr hc
      · exact .inl (hdigit q (by simp) c hc)
      · exact .inr hc
      · exact .inl (hdigit r (by simp) c hc)
      · exact .inr hc
      · exact .inl (hdigit s (by simp) c hc)
    case isFalse => exact Bool.noConfusion h
  case h_2 => exact Bool.noConfusion h

/-! ### Addresses of eight pieces -/

theorem longestRun_index (i : ℕ) (pieces : List UInt16) (best : ℕ × ℕ) :
    longestRun i pieces best = best ∨ i ≤ (longestRun i pieces best).1 := by
  induction pieces generalizing i best with
  | nil => exact .inl rfl
  | cons p rest ih =>
    rw [longestRun]
    split
    case isTrue =>
      rcases ih (i + 1) (i, zeroRun (p :: rest)) with h | h
      · rw [h]
        exact .inr (Nat.le_refl i)
      · exact .inr ((Nat.le_succ i).trans h)
    case isFalse =>
      rcases ih (i + 1) best with h | h
      · exact .inl h
      · exact .inr ((Nat.le_succ i).trans h)

variable {p : UInt16}

theorem compressed_ne_zero (hp : p ≠ 0) (rest : List UInt16) : compressed (p :: rest) ≠ some 0 := by
  have hrun : zeroRun (p :: rest) = 0 := by
    unfold zeroRun
    rw [takeWhile_cons_of_neg (by simpa using hp)]
    rfl
  have hskip : longestRun 0 (p :: rest) (0, 1) = longestRun 1 rest (0, 1) := by
    rw [longestRun]
    simp only [hrun, Nat.not_lt_zero, if_false, Nat.zero_add]
  unfold compressed
  rw [hskip]
  dsimp only
  rcases longestRun_index 1 rest (0, 1) with h | h
  · rw [h]
    exact (some_ne_none 0).symm
  · split
    case isTrue => exact fun heq => by rw [some.inj heq] at h; omega
    case isFalse => exact (some_ne_none 0).symm

theorem serializeFrom_skip (compress : Option ℕ) (i : ℕ) (rest : List UInt16) :
    serializeFrom compress i true (0 :: rest) = serializeFrom compress (i + 1) true rest := by
  rw [serializeFrom, if_pos (by decide)]

theorem serializeFrom_piece {compress : Option ℕ} {i : ℕ} {ignore0 : Bool}
    (hskip : (ignore0 && p = 0) = false) (hcompress : compress ≠ some i) (rest : List UInt16) :
    serializeFrom compress i ignore0 (p :: rest) =
      hexPiece p ++ ((if i = 7 then [] else [':']) ++
        serializeFrom compress (i + 1) false rest) := by
  rw [serializeFrom, hskip, if_neg Bool.false_ne_true, if_neg hcompress]

theorem serialize_first {x : Ipv6} (h : x.first ≠ 0) :
    ∃ p tail, x.serialize = hexPiece p ++ tail ∧ p.toNat = x.first := by
  obtain ⟨pieces, hlen⟩ := x
  cases pieces with
  | nil => exact absurd hlen (by decide)
  | cons p rest =>
    have hp : p ≠ 0 := fun hzero => h (congrArg UInt16.toNat hzero)
    refine ⟨p, ':' :: serializeFrom (compressed (p :: rest)) 1 false rest, ?_, rfl⟩
    change serializeFrom (compressed (p :: rest)) 0 false (p :: rest) = _
    rw [serializeFrom_piece rfl (compressed_ne_zero hp rest)]
    rfl

theorem hexPiece_big (h : 4096 ≤ p.toNat) :
    hexPiece p = [Nat.digitChar (p.toNat / 4096), Nat.digitChar (p.toNat / 256 % 16),
      Nat.digitChar (p.toNat / 16 % 16), Nat.digitChar (p.toNat % 16)] := by
  unfold hexPiece
  rw [if_neg (by omega), if_neg (by omega), if_neg (by omega)]
  rfl

theorem zeroRun_le (pieces : List UInt16) : zeroRun pieces ≤ pieces.length :=
  (takeWhile_sublist _).length_le

theorem zeroRun_zeros (n : ℕ) (hp : p ≠ 0) (rest : List UInt16) :
    zeroRun (replicate n 0 ++ p :: rest) = n := by
  unfold zeroRun
  rw [takeWhile_append_of_pos (by simp), takeWhile_cons_of_neg (by simpa using hp),
    append_nil, length_replicate]

theorem longestRun_keep {i : ℕ} {rest : List UInt16} {best : ℕ × ℕ}
    (h : zeroRun (p :: rest) ≤ best.2) :
    longestRun i (p :: rest) best = longestRun (i + 1) rest best := by
  rw [longestRun, if_neg (Nat.not_lt.mpr h)]

theorem compressed_mapped (p q : UInt16) : compressed [0, 0, 0, 0, 0, 0xffff, p, q] = some 0 := by
  have hrun : ∀ n, zeroRun (replicate n 0 ++ [0xffff, p, q]) = n :=
    fun n => zeroRun_zeros n (by decide) [p, q]
  have hpair := zeroRun_le [p, q]
  have hlast := zeroRun_le [q]
  rw [length_cons, length_singleton] at hpair
  rw [length_singleton] at hlast
  have hfirst : longestRun 0 [0, 0, 0, 0, 0, 0xffff, p, q] (0, 1) =
      longestRun 1 [0, 0, 0, 0, 0xffff, p, q] (0, 5) := by
    have h5 : zeroRun [0, 0, 0, 0, 0, 0xffff, p, q] = 5 := hrun 5
    rw [longestRun, h5, if_pos (by decide)]
  have hrest : longestRun 1 [0, 0, 0, 0, 0xffff, p, q] (0, 5) = (0, 5) := by
    have h4 : zeroRun [0, 0, 0, 0, 0xffff, p, q] = 4 := hrun 4
    have h3 : zeroRun [0, 0, 0, 0xffff, p, q] = 3 := hrun 3
    have h2 : zeroRun [0, 0, 0xffff, p, q] = 2 := hrun 2
    have h1 : zeroRun [0, 0xffff, p, q] = 1 := hrun 1
    have h0 : zeroRun [0xffff, p, q] = 0 := hrun 0
    rw [longestRun_keep (by rw [h4]; decide), longestRun_keep (by rw [h3]; decide),
      longestRun_keep (by rw [h2]; decide), longestRun_keep (by rw [h1]; decide),
      longestRun_keep (by rw [h0]; decide), longestRun_keep (hpair.trans (by decide)),
      longestRun_keep (hlast.trans (by decide)), longestRun]
  rw [compressed, hfirst, hrest]
  rfl

theorem serializeFrom_mapped (p q : UInt16) :
    serializeFrom (some 0) 0 false [0, 0, 0, 0, 0, 0xffff, p, q] =
      "::ffff:".toList ++ (hexPiece p ++ ':' :: hexPiece q) := by
  have hq : serializeFrom (some 0) 7 false [q] = hexPiece q := by
    rw [serializeFrom_piece rfl (by decide), serializeFrom, if_pos rfl, append_nil, append_nil]
  have hp : serializeFrom (some 0) 6 false [p, q] = hexPiece p ++ ':' :: hexPiece q := by
    rw [serializeFrom_piece rfl (by decide), hq]
    rfl
  have hmark : serializeFrom (some 0) 5 true [0xffff, p, q] =
      "ffff:".toList ++ (hexPiece p ++ ':' :: hexPiece q) := by
    rw [serializeFrom_piece (by decide) (by decide), hp]
    rfl
  rw [serializeFrom, serializeFrom_skip,
    serializeFrom_skip, serializeFrom_skip, serializeFrom_skip, hmark]
  rfl

theorem serialize_mapped (v : Ipv4) :
    ∃ p q, v.mapped.serialize = "::ffff:".toList ++ (hexPiece p ++ ':' :: hexPiece q) := by
  have hcompressed : compressed v.mapped.pieces = some 0 := compressed_mapped _ _
  refine ⟨(v.a.toNat * 256 + v.b.toNat).toUInt16, (v.c.toNat * 256 + v.d.toNat).toUInt16, ?_⟩
  unfold Ipv6.serialize
  rw [hcompressed]
  exact serializeFrom_mapped _ _

/-! ### What the guard says of a host -/

theorem checkHost_ok_iff (host : Text) :
    (checkHost host).ok = true ↔
      host ≠ [] ∧ host ∉ blockedHostnames ∧ ¬ ".localhost".toList <:+ host ∧
        isPrivateIPv4 host = false ∧
        ((host.contains ':' || ['['].isPrefixOf host) && isPrivateIPv6 host) = false := by
  unfold checkHost
  split_ifs with hnil hblocked hsuffix hv4 hv6
  · exact iff_of_false not_false fun h => h.1 hnil
  · exact iff_of_false not_false fun h => h.2.1 (contains_iff_mem.mp hblocked)
  · exact iff_of_false not_false fun h => h.2.2.1 (isSuffixOf_iff_suffix.mp hsuffix)
  · exact iff_of_false not_false fun h => Bool.false_ne_true (h.2.2.2.1.symm.trans hv4)
  · exact iff_of_false not_false fun h => Bool.false_ne_true (h.2.2.2.2.symm.trans hv6)
  · exact iff_of_true rfl ⟨hnil, mt contains_iff_mem.mpr hblocked,
      mt isSuffixOf_iff_suffix.mpr hsuffix, Bool.eq_false_iff.mpr hv4, Bool.eq_false_iff.mpr hv6⟩

theorem stripBrackets_brackets (text : Text) : stripBrackets ('[' :: (text ++ [']'])) = text := by
  have hfront : ['['].isPrefixOf ('[' :: (text ++ [']'])) = true := rfl
  have hback : [']'].isSuffixOf (text ++ [']']) = true := by
    rw [isSuffixOf_iff_suffix]
    exact suffix_append _ _
  unfold stripBrackets
  rw [hfront]
  simp only [if_true, drop_succ_cons, drop_zero, hback, dropLast_concat]

theorem checkHost_brackets (text : Text) :
    (checkHost ('[' :: (text ++ [']']))).ok = !isPrivateIPv6 ('[' :: (text ++ [']'])) := by
  have hblocked : '[' :: (text ++ [']']) ∉ blockedHostnames := by
    intro hmem
    simp [blockedHostnames] at hmem
  have hsuffix : ¬ ".localhost".toList <:+ '[' :: (text ++ [']']) := by
    rintro ⟨front, heq⟩
    have hlast := congrArg getLast? heq
    rw [← cons_append, getLast?_concat] at hlast
    simp at hlast
  have hv4 : isPrivateIPv4 ('[' :: (text ++ [']'])) = false := by
    rw [Bool.eq_false_iff]
    intro h
    exact absurd (digits_of_isPrivateIPv4 h '[' mem_cons_self) (by decide)
  have hbracket : ['['].isPrefixOf ('[' :: (text ++ [']'])) = true := rfl
  rw [Bool.eq_iff_iff, checkHost_ok_iff, hbracket, Bool.or_true, Bool.not_eq_true']
  exact ⟨fun h => h.2.2.2.2, fun h => ⟨cons_ne_nil _ _, hblocked, hsuffix, hv4, h⟩⟩

theorem digitChar_spec {n : ℕ} (h : n < 16) :
    (Nat.digitChar n).toLower.toLower = Nat.digitChar n ∧
      (Nat.digitChar n = '0' ↔ n = 0) ∧ (Nat.digitChar n = '8' ↔ n = 8) ∧
      (Nat.digitChar n = 'c' ↔ n = 12) ∧ (Nat.digitChar n = 'd' ↔ n = 13) ∧
      (Nat.digitChar n = 'e' ↔ n = 14) ∧ (Nat.digitChar n = 'f' ↔ n = 15) ∧
      Nat.digitChar n ≠ ':' := by
  have hall : ∀ k : Fin 16, (Nat.digitChar k).toLower.toLower = Nat.digitChar k ∧
      (Nat.digitChar k = '0' ↔ k.val = 0) ∧ (Nat.digitChar k = '8' ↔ k.val = 8) ∧
      (Nat.digitChar k = 'c' ↔ k.val = 12) ∧ (Nat.digitChar k = 'd' ↔ k.val = 13) ∧
      (Nat.digitChar k = 'e' ↔ k.val = 14) ∧ (Nat.digitChar k = 'f' ↔ k.val = 15) ∧
      Nat.digitChar k ≠ ':' := by
    decide
  exact hall ⟨n, h⟩

theorem isPrivateIPv6_brackets (text : Text) :
    isPrivateIPv6 (toLowerCase ('[' :: (text ++ [']']))) =
      let h := toLowerCase (toLowerCase text)
      h = "::1".toList || h = "::".toList || "fc".toList.isPrefixOf h ||
        "fd".toList.isPrefixOf h || "fe80".toList.isPrefixOf h ||
        ("::ffff:".toList.isPrefixOf h && isPrivateIPv4 (h.drop 7)) := by
  have hlower : toLowerCase ('[' :: (text ++ [']'])) = '[' :: (toLowerCase text ++ [']']) := by
    unfold toLowerCase
    rw [map_cons, map_append]
    rfl
  unfold isPrivateIPv6
  rw [hlower, stripBrackets_brackets]

theorem isPrivateIPv6_first {x : Ipv6} (h : 4096 ≤ x.first) :
    isPrivateIPv6 (toLowerCase (Host.ipv6 x).serialize) = true ↔
      x.first / 256 = 0xfc ∨ x.first / 256 = 0xfd ∨ x.first = 0xfe80 := by
  obtain ⟨p, tail, hserialize, hp⟩ := serialize_first (x := x) (by omega)
  rw [← hp] at h ⊢
  have hlt := p.toNat_lt
  obtain ⟨hl3, -, -, -, -, -, hf3, hcolon⟩ := digitChar_spec (n := p.toNat / 4096) (by omega)
  obtain ⟨hl2, -, -, hc2, hd2, he2, -, -⟩ := digitChar_spec (n := p.toNat / 256 % 16) (by omega)
  obtain ⟨hl1, -, h81, -, -, -, -, -⟩ := digitChar_spec (n := p.toNat / 16 % 16) (by omega)
  obtain ⟨hl0, h00, -, -, -, -, -, -⟩ := digitChar_spec (n := p.toNat % 16) (by omega)
  have hhost : toLowerCase (toLowerCase x.serialize) =
      Nat.digitChar (p.toNat / 4096) :: Nat.digitChar (p.toNat / 256 % 16) ::
        Nat.digitChar (p.toNat / 16 % 16) :: Nat.digitChar (p.toNat % 16) ::
          toLowerCase (toLowerCase tail) := by
    rw [hserialize, hexPiece_big h]
    simp only [toLowerCase, map_cons, cons_append, nil_append, hl3, hl2, hl1, hl0]
  unfold Host.serialize
  rw [isPrivateIPv6_brackets, hhost]
  simp [isPrefixOf, hcolon, hcolon.symm, eq_comm (a := 'f'), eq_comm (a := 'c'),
    eq_comm (a := 'd'), eq_comm (a := 'e'), eq_comm (a := '8'), eq_comm (a := '0'), hf3, hc2, hd2,
    he2, h81, h00]
  omega

theorem isPrivateIPv6_mapped (v : Ipv4) :
    isPrivateIPv6 (toLowerCase (Host.ipv6 v.mapped).serialize) = false := by
  obtain ⟨p, q, hserialize⟩ := serialize_mapped v
  have hhost : toLowerCase (toLowerCase v.mapped.serialize) =
      "::ffff:".toList ++ toLowerCase (toLowerCase (hexPiece p ++ ':' :: hexPiece q)) := by
    rw [hserialize]
    rfl
  have hrest : isPrivateIPv4 (toLowerCase (toLowerCase (hexPiece p ++ ':' :: hexPiece q))) =
      false := by
    have hmem : ':' ∈ toLowerCase (toLowerCase (hexPiece p ++ ':' :: hexPiece q)) := by
      simp only [toLowerCase, map_append, map_cons]
      exact mem_append_right _ mem_cons_self
    rw [Bool.eq_false_iff]
    intro h
    exact absurd (digits_of_isPrivateIPv4 h ':' hmem) (by decide)
  unfold Host.serialize
  rw [isPrivateIPv6_brackets, hhost]
  dsimp only
  have hdrop : ∀ text : Text, ("::ffff:".toList ++ text).drop 7 = text := fun _ => rfl
  rw [hdrop, hrest]
  simp [isPrefixOf]

/-- Of the private addresses, those are not told that the guard overlooks. -/
theorem isPrivateIPv6_iff {x : Ipv6} (h : x.Private) :
    isPrivateIPv6 (toLowerCase (Host.ipv6 x).serialize) = true ↔ ¬ (Host.ipv6 x).Overlooked := by
  by_cases hmapped : ∃ v : Ipv4, v.Private ∧ x = v.mapped
  · obtain ⟨v, hv, rfl⟩ := hmapped
    rw [isPrivateIPv6_mapped]
    exact iff_of_false Bool.false_ne_true (not_not.mpr (.inr ⟨v, hv, rfl⟩))
  have hoverlooked : (Host.ipv6 x).Overlooked ↔
      x.first / 2 ^ 6 = 0xfe80 / 2 ^ 6 ∧ x.first ≠ 0xfe80 := or_iff_left hmapped
  rw [hoverlooked]
  rcases h with rfl | rfl | h | h | h
  · exact iff_of_true (by decide) (by decide)
  · exact iff_of_true (by decide) (by decide)
  · rw [isPrivateIPv6_first (by omega)]
    omega
  · rw [isPrivateIPv6_first (by omega)]
    omega
  · exact absurd h hmapped

theorem checkHost_dots {blocked : Text} (h : blocked ∈ blockedHostnames) (dots : ℕ) :
    (checkHost (toLowerCase (blocked ++ replicate dots '.'))).ok = true ↔ dots ≠ 0 := by
  have hlower : toLowerCase (blocked ++ replicate dots '.') =
      blocked ++ replicate dots '.' := by
    have hname : ∀ name ∈ blockedHostnames, toLowerCase name = name := by decide
    rw [toLowerCase, map_append, map_replicate]
    exact congrArg (· ++ _) (hname blocked h)
  rw [hlower]
  cases dots with
  | zero =>
    refine iff_of_false (fun hok => ?_) (not_not.mpr rfl)
    rw [replicate_zero, append_nil] at hok
    exact ((checkHost_ok_iff blocked).mp hok).2.1 h
  | succ dots =>
    refine iff_of_true ((checkHost_ok_iff _).mpr ?_) (Nat.succ_ne_zero dots)
    have hlast : (blocked ++ replicate (dots + 1) '.').getLast? = some '.' := by
      rw [replicate_succ', ← append_assoc, getLast?_concat]
    have hplain : ∀ name ∈ blockedHostnames, name.getLast? ≠ some '.' ∧ ':' ∉ name ∧
        '[' ∉ name ∧ name.any (fun c => ¬ (c.isDigit = true ∨ c = '.')) = true := by decide
    obtain ⟨-, hcolon, hbracket, hany⟩ := hplain blocked h
    obtain ⟨c, hc, hother⟩ := any_eq_true.mp hany
    rw [decide_eq_true_eq] at hother
    have hdot : ∀ c ∈ replicate (dots + 1) '.', c = '.' := fun c hc => (mem_replicate.mp hc).2
    refine ⟨fun hnil => ?_, fun hmem => ?_, ?_, ?_, ?_⟩
    · rw [hnil] at hlast
      exact absurd hlast.symm (some_ne_none _)
    · exact (hplain _ hmem).1 hlast
    · rintro ⟨front, heq⟩
      rw [← heq] at hlast
      simp at hlast
    · rw [Bool.eq_false_iff]
      intro hv4
      exact hother (digits_of_isPrivateIPv4 hv4 c (mem_append_left _ hc))
    · have hnocolon : (blocked ++ replicate (dots + 1) '.').contains ':' = false := by
        rw [Bool.eq_false_iff, ne_eq, contains_iff_mem]
        intro hmem
        rcases mem_append.mp hmem with hmem | hmem
        · exact hcolon hmem
        · exact absurd (hdot _ hmem) (by decide)
      have hnobracket : ['['].isPrefixOf (blocked ++ replicate (dots + 1) '.') = false := by
        rw [Bool.eq_false_iff, ne_eq, isPrefixOf_iff_prefix]
        intro hprefix
        have hmem := hprefix.subset mem_cons_self
        rcases mem_append.mp hmem with hmem | hmem
        · exact hbracket hmem
        · exact absurd (hdot _ hmem) (by decide)
      rw [hnocolon, hnobracket]
      rfl

theorem Host.Overlooked.private {host : Host} (h : host.Overlooked) : host.Private := by
  cases host with
  | domain name =>
    obtain ⟨blocked, hblocked, dots, rfl⟩ := h
    exact ⟨blocked, hblocked, dots + 1, rfl⟩
  | ipv4 x => exact h.elim
  | ipv6 x =>
    rcases h with ⟨h, -⟩ | h
    · exact .inr (.inr (.inr (.inl h)))
    · exact .inr (.inr (.inr (.inr h)))
  | other name => exact h.elim

theorem checkHost_private {host : Host} (h : host.Private) :
    (checkHost (toLowerCase host.serialize)).ok = true ↔ host.Overlooked := by
  cases host with
  | domain name =>
    obtain ⟨blocked, hblocked, dots, rfl⟩ := h
    unfold Host.serialize
    rw [checkHost_dots hblocked]
    constructor
    · intro hdots
      obtain ⟨dots, rfl⟩ := Nat.exists_eq_succ_of_ne_zero hdots
      exact ⟨blocked, hblocked, dots, rfl⟩
    · rintro ⟨other, hother, more, heq⟩ rfl
      have hlast := congrArg getLast? heq
      have hnames : ∀ name ∈ blockedHostnames, name.getLast? ≠ some '.' := by decide
      rw [replicate_zero, append_nil, replicate_succ', ← append_assoc, getLast?_concat] at hlast
      exact hnames blocked hblocked hlast
  | ipv4 x =>
    refine iff_of_false (fun hok => ?_) id
    have hlower : toLowerCase x.serialize = x.serialize := by
      simp only [Ipv4.serialize, toLowerCase, map_append, map_cons, map_decimal]
      rfl
    unfold Host.serialize at hok
    rw [hlower] at hok
    have hv4 := ((checkHost_ok_iff _).mp hok).2.2.2.1
    rw [isPrivateIPv4_serialize h] at hv4
    exact Bool.noConfusion hv4
  | ipv6 x =>
    have hlower : toLowerCase (Host.ipv6 x).serialize =
        '[' :: (toLowerCase x.serialize ++ [']']) := by
      unfold Host.serialize toLowerCase
      rw [map_cons, map_append]
      rfl
    have hv6 := isPrivateIPv6_iff h
    rw [hlower] at hv6 ⊢
    rw [checkHost_brackets, Bool.not_eq_true', ← Bool.not_eq_true, hv6, not_not]
  | other name => exact h.elim

/-! ### Requests for private hosts -/

/-- A URL that is accepted has no private host, and every request is for a URL that is accepted. -/
def Guards (parse : Text → Option Url) (server : List Text → Option Text) (rawUrl : Text) : Prop :=
  ((checkUrlSafe parse rawUrl).ok = true → ∀ url, parse rawUrl = some url → ¬ url.host.Private) ∧
    ∀ request ∈ readPageRequests parse server rawUrl, (checkUrlSafe parse request).ok = true

/-- The URLs that the server redirects to one after the other, at most so many and up to the first
that is not one of the web. -/
def redirectChain (parse : Text → Option Url) (server : List Text → Option Text) :
    ℕ → List Text → List Text
  | 0, _ => []
  | budget + 1, sent =>
      match server sent with
      | none => []
      | some target =>
          if (parse target).any (isHttp ·.protocol) then
            target :: redirectChain parse server budget (target :: sent)
          else []

/-- The host is not one that is overlooked, and no redirect leads to a URL that is refused. -/
structure Guarded (parse : Text → Option Url) (server : List Text → Option Text) (rawUrl : Text) :
    Prop where
  host : ∀ url, parse rawUrl = some url → isHttp url.protocol = true → ¬ url.host.Overlooked
  redirects : (checkUrlSafe parse rawUrl).ok = true →
    ∀ target ∈ redirectChain parse server 20 [rawUrl], (checkUrlSafe parse target).ok = true

/-- What is requested are the redirects of the server. -/
theorem follow_eq (parse : Text → Option Url) (server : List Text → Option Text) (budget : ℕ)
    (sent : List Text) : follow parse server budget sent =
      (redirectChain parse server budget sent).reverse ++ sent := by
  induction budget generalizing sent with
  | zero => rfl
  | succ budget ih =>
    unfold follow redirectChain
    cases server sent with
    | none => rfl
    | some target =>
      cases hparse : parse target with
      | none => simp [hparse]
      | some url =>
        simp only [hparse, Option.any_some]
        split
        · rw [ih, reverse_cons, append_assoc, singleton_append]
        · rfl

theorem ok_iff_of_parse {parse : Text → Option Url} {rawUrl : Text} {url : Url}
    (h : parse rawUrl = some url) :
    (checkUrlSafe parse rawUrl).ok = true ↔
      isHttp url.protocol = true ∧ (checkHost (toLowerCase url.hostname)).ok = true := by
  unfold checkUrlSafe
  rw [h]
  dsimp only
  cases isHttp url.protocol with
  | true => simp
  | false => simp

/-- The guard and the reader keep off private hosts just where the host is none of those that the
guard overlooks and no redirect leads to a URL that it refuses. -/
theorem guards_iff (parse : Text → Option Url) (server : List Text → Option Text)
    (rawUrl : Text) : Guards parse server rawUrl ↔ Guarded parse server rawUrl := by
  have hhost : ((checkUrlSafe parse rawUrl).ok = true →
        ∀ url, parse rawUrl = some url → ¬ url.host.Private) ↔
      ∀ url, parse rawUrl = some url → isHttp url.protocol = true → ¬ url.host.Overlooked := by
    constructor
    · intro h url hurl hhttp hoverlooked
      have hprivate := hoverlooked.private
      exact h ((ok_iff_of_parse hurl).mpr ⟨hhttp, (checkHost_private hprivate).mpr hoverlooked⟩)
        url hurl hprivate
    · intro h hok url hurl hprivate
      obtain ⟨hhttp, hok⟩ := (ok_iff_of_parse hurl).mp hok
      exact h url hurl hhttp ((checkHost_private hprivate).mp hok)
  have hrequests : (∀ request ∈ readPageRequests parse server rawUrl,
        (checkUrlSafe parse request).ok = true) ↔
      ((checkUrlSafe parse rawUrl).ok = true →
        ∀ target ∈ redirectChain parse server 20 [rawUrl],
          (checkUrlSafe parse target).ok = true) := by
    unfold readPageRequests
    by_cases hok : (checkUrlSafe parse rawUrl).ok = true
    · rw [if_pos hok, follow_eq, forall_mem_append]
      simp [hok]
    · simp [hok]
  unfold Guards
  rw [hhost, hrequests]
  exact ⟨fun h => ⟨h.1, h.2⟩, fun h => ⟨h.host, h.redirects⟩⟩

/-- The parser's results for some URLs. -/
def parseSample (text : Text) : Option Url :=
  ([("http://[::ffff:127.0.0.1]/", .ipv6 (Ipv4.mapped ⟨127, 0, 0, 1⟩)),
    ("http://[fe90::1]/", .ipv6 ⟨[0xfe90, 0, 0, 0, 0, 0, 0, 1], rfl⟩),
    ("http://LOCALHOST./", .domain "localhost.".toList),
    ("http://127.1/", .ipv4 ⟨127, 0, 0, 1⟩),
    ("http://example.com/", .domain "example.com".toList)].lookup (String.ofList text)).map
      fun host => ⟨"http:".toList, host⟩

/-- A mapped address, one of `fe80::/10` and a name with a dot pass; and a page that redirects has
its private target requested. -/
theorem private_hosts_pass :
    (∀ text ∈ ["http://[::ffff:127.0.0.1]/", "http://[fe90::1]/", "http://LOCALHOST./"],
      (checkUrlSafe parseSample text.toList).ok = true ∧
        ∃ url, parseSample text.toList = some url ∧ url.host.Private) ∧
      (checkUrlSafe parseSample "http://127.1/".toList).ok = false ∧
      "http://127.1/".toList ∈ readPageRequests parseSample
        (fun sent => if sent.length = 1 then some "http://127.1/".toList else none)
        "http://example.com/".toList := by
  refine ⟨?_, by decide, by decide⟩
  intro text htext
  simp only [mem_cons, not_mem_nil, or_false] at htext
  rcases htext with rfl | rfl | rfl
  · refine ⟨by decide, _, rfl, .inr (.inr (.inr (.inr ⟨⟨127, 0, 0, 1⟩, ?_, rfl⟩)))⟩
    exact ⟨(⟨127, 0, 0, 0⟩, 8), by decide, by decide⟩
  · exact ⟨by decide, _, rfl, .inr (.inr (.inr (.inl (by decide))))⟩
  · exact ⟨by decide, _, rfl, "localhost".toList, by decide, 1, by decide⟩

end Ds4Studio.Research
