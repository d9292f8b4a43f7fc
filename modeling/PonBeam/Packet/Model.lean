import PonBeam.Lib.MachineInt
import Mathlib.Data.List.Basic
import Mathlib.Data.List.TakeWhile

/-!
# The length of a packet (`packet_parser.c`)

`packet_get_length` looks at the bytes read so far and answers with the length of the packet
they begin, with 0 if it cannot tell yet, or with -1 if they begin no packet.

A pointer into the bytes is the rest of them from there on; the length of the whole is `n`,
below `2 ^ 32`. `n`, `hlen` and `plen` are `unsigned`; what is an `int` goes through
`wrapInt`. A search with a negative `int` for its length is a search without a bound: it
has a result only if what it looks for is there.
-/

namespace PonBeam.Packet

/-- `enum PacketParseType` -/
inductive PacketParseType : Type where
  /-- `TCP_PB_RAW` -/
  | raw
  /-- `TCP_PB_1` -/
  | one
  /-- `TCP_PB_2` -/
  | two
  /-- `TCP_PB_4` -/
  | four
  /-- `TCP_PB_ASN1` -/
  | asn1
  /-- `TCP_PB_RM` -/
  | rm
  /-- `TCP_PB_CDR` -/
  | cdr
  /-- `TCP_PB_FCGI` -/
  | fcgi
  /-- `TCP_PB_LINE_LF` -/
  | lineLf
  /-- `TCP_PB_TPKT` -/
  | tpkt
  /-- `TCP_PB_HTTP` -/
  | http
  /-- `TCP_PB_HTTPH` -/
  | httph
  /-- `TCP_PB_SSL_TLS` -/
  | sslTls
  /-- `TCP_PB_HTTP_BIN` -/
  | httpBin
  /-- `TCP_PB_HTTPH_BIN` -/
  | httphBin
  deriving DecidableEq, Repr

/-! ## Reading -/

/-- `ptr[i]`, within the bytes -/
def byteAt (ptr : List UInt8) (i : ℕ) : ℕ := (ptr.getD i 0).toNat

/-- `get_int8` -/
def getInt8 (s : List UInt8) : ℕ := byteAt s 0

/-- `get_int16` -/
def getInt16 (s : List UInt8) : ℕ := byteAt s 0 * 256 + byteAt s 1

/-- `get_int24` -/
def getInt24 (s : List UInt8) : ℕ := byteAt s 0 * 65536 + byteAt s 1 * 256 + byteAt s 2

/-- `get_int32`, as an `unsigned` -/
def getInt32 (s : List UInt8) : ℕ :=
  byteAt s 0 * 16777216 + byteAt s 1 * 65536 + byteAt s 2 * 256 + byteAt s 3

/-- `get_little_int32`, as an `unsigned` -/
def getLittleInt32 (s : List UInt8) : ℕ :=
  byteAt s 3 * 16777216 + byteAt s 2 * 65536 + byteAt s 1 * 256 + byteAt s 0

/-- What `sys_memchr` finds. -/
inductive Memchr : Type where
  /-- the byte, which the rest begins with -/
  | found (rest : List UInt8)
  /-- `NULL` -/
  | null
  /-- it has left the bytes -/
  | astray

/-- `sys_memchr(ptr, c, len)`, where `len` bytes are left, or a negative number for it. -/
def sysMemchr (ptr : List UInt8) (c : UInt8) (len : ℤ) : Memchr :=
  match ptr.dropWhile fun b => b ≠ c with
  | [] => if len < 0 then .astray else .null
  | b :: rest => .found (b :: rest)

/-! ## Headers of a fixed length -/

/-- The label `remain`: the length of the packet, unless it is too long or wraps around. -/
def remain (maxPlen hlen plen : ℕ) : ℤ :=
  let tlen := wrapInt (hlen + plen)
  if (maxPlen ≠ 0 ∧ maxPlen < plen) ∨ tlen < wrapInt hlen then -1 else tlen

/-- A case with a header of `hlen` bytes, which gives `plen` or is in error. -/
def fixedHeader (ptr : List UInt8) (maxPlen hlen : ℕ) (plen : Option ℕ) : ℤ :=
  if ptr.length < hlen then 0
  else
    match plen with
    | none => -1
    | some plen => remain maxPlen hlen plen

/-- `plen` of `TCP_PB_1` -/
def plenOne (ptr : List UInt8) : Option ℕ := some (getInt8 ptr)

/-- `plen` of `TCP_PB_2` -/
def plenTwo (ptr : List UInt8) : Option ℕ := some (getInt16 ptr)

/-- `plen` of `TCP_PB_4` -/
def plenFour (ptr : List UInt8) : Option ℕ := some (getInt32 ptr)

/-- `plen` of `TCP_PB_RM`: the top bit is not part of the length. -/
def plenRm (ptr : List UInt8) : Option ℕ := some (getInt32 ptr % 2147483648)

/-- `plen` of `TCP_PB_CDR`: behind `GIOP`, in the byte order of the flags. -/
def plenCdr (ptr : List UInt8) : Option ℕ :=
  if ptr.take 4 ≠ [71, 73, 79, 80] then none
  else if byteAt ptr 6 % 2 = 1 then some (getLittleInt32 (ptr.drop 8))
  else some (getInt32 (ptr.drop 8))

/-- `plen` of `TCP_PB_FCGI`: content and padding. -/
def plenFcgi (ptr : List UInt8) : Option ℕ :=
  if byteAt ptr 0 ≠ 1 then none
  else some (byteAt ptr 4 * 256 + byteAt ptr 5 + byteAt ptr 6)

/-- `plen` of `TCP_PB_TPKT`: the length in the header counts the header. -/
def plenTpkt (ptr : List UInt8) : Option ℕ :=
  if byteAt ptr 0 = 3 then some (wrapUint (getInt16 (ptr.drop 2) - 4)) else none

/-- `plen` of `TCP_PB_SSL_TLS`: the length of a version 2 hello counts three bytes of the
header. -/
def plenSslTls (ptr : List UInt8) : Option ℕ :=
  if 128 ≤ byteAt ptr 0 ∧ byteAt ptr 2 = 1 then
    some (wrapUint ((getInt16 ptr % 32768 : ℕ) - 3))
  else some (getInt16 (ptr.drop 3))

/-! ## Lines -/

/-- `TCP_PB_LINE_LF` -/
def lineLf (ptr : List UInt8) (maxPlen truncLen : ℕ) (delimiter : UInt8) : ℤ :=
  let n := ptr.length
  match sysMemchr ptr delimiter n with
  | .found ptr2 =>
    let len := n - ptr2.length + 1
    if maxPlen < len ∧ maxPlen ≠ 0 then -1
    else if truncLen < len ∧ truncLen ≠ 0 then wrapInt truncLen
    else wrapInt len
  | _ =>
    if maxPlen < n ∧ maxPlen ≠ 0 then -1
    else if truncLen ≤ n ∧ truncLen ≠ 0 then wrapInt truncLen
    else 0

/-! ## ASN.1 -/

/-- The loop over the bytes of a long tag: the pointer and `nn` behind it. -/
def skipTag : List UInt8 → ℤ → List UInt8 × ℤ
  | [], nn => ([], nn)
  | b :: tptr, nn =>
    if nn ≠ 0 ∧ 128 ≤ b.toNat then skipTag tptr (wrapInt (nn - 1)) else (b :: tptr, nn)

/-- From the length field on: `tptr` points at it, and `nn` bytes remain. -/
def asn1Length (n maxPlen : ℕ) (tptr : List UInt8) (nn : ℤ) : ℤ :=
  let length := getInt8 tptr % 128
  if 128 ≤ getInt8 tptr then
    let tptr := tptr.drop 1
    let nn := wrapInt (nn - 1)
    let hlen := n - (tptr.length - length)
    if nn < length then 0
    else
      match length with
      | 0 => remain maxPlen hlen 0
      | 1 => remain maxPlen hlen (getInt8 tptr)
      | 2 => remain maxPlen hlen (getInt16 tptr)
      | 3 => remain maxPlen hlen (getInt24 tptr)
      | 4 => remain maxPlen hlen (getInt32 tptr)
      | _ => -1
  else remain maxPlen (n - (tptr.length - 1)) length

/-- `TCP_PB_ASN1` -/
def asn1 (ptr : List UInt8) (maxPlen : ℕ) : ℤ :=
  let n := ptr.length
  if n < 2 then 0
  else
    let nn := wrapInt (wrapInt n - 1)
    let tptr := ptr.drop 1
    if getInt8 ptr % 32 = 31 then
      let skipped := skipTag tptr nn
      if skipped.2 < 2 then 0
      else asn1Length n maxPlen (skipped.1.drop 1) (wrapInt (skipped.2 - 1))
    else asn1Length n maxPlen tptr nn

/-! ## HTTP -/

/-- The loop over the lines, for so many turns; `limit` is `max_plen`, or `trunc_len` if that
is 0. -/
def httpLoop (n limit : ℕ) (state : ℤ) : ℕ → List UInt8 → Option ℤ
  | 0, _ => none
  | turns + 1, ptr1 =>
    match sysMemchr ptr1 10 (wrapInt ptr1.length) with
    | .astray => none
    | .null => if limit ≠ 0 ∧ limit ≤ n then some (-1) else some 0
    | .found ptr2 =>
      let plen := n - ptr2.length + 1
      let next := ptr2.drop 1
      if state = 0 then
        if limit ≠ 0 ∧ limit < plen then some (-1) else some (wrapInt plen)
      else if plen < n then
        if (byteAt next 0 = 32 ∨ byteAt next 0 = 9) ∧ 2 < plen then
          httpLoop n limit state turns next
        else if limit ≠ 0 ∧ limit < plen then some (-1)
        else some (wrapInt plen)
      else if limit ≠ 0 ∧ limit < plen then some (-1)
      else some 0

/-- `TCP_PB_HTTP` and the like, once the state is set -/
def httpLength (ptr : List UInt8) (maxPlen truncLen : ℕ) (state : ℤ) : Option ℤ :=
  let n := ptr.length
  if (n = 1 ∧ byteAt ptr 0 = 10) ∨ (n = 2 ∧ byteAt ptr 0 = 13 ∧ byteAt ptr 1 = 10) then some n
  else httpLoop n (if maxPlen = 0 then truncLen else maxPlen) state (n + 1) ptr

/-! ## The switch -/

/-- `packet_get_length`: its answer, and the state behind `statep`. -/
def packetGetLength (htype : PacketParseType) (ptr : List UInt8) (maxPlen truncLen : UInt32)
    (delimiter : UInt8) (state : ℤ) : Option (ℤ × ℤ) :=
  let n := ptr.length
  let maxPlen := maxPlen.toNat
  let truncLen := truncLen.toNat
  match htype with
  | .raw => some (wrapInt n, state)
  | .one => some (fixedHeader ptr maxPlen 1 (plenOne ptr), state)
  | .two => some (fixedHeader ptr maxPlen 2 (plenTwo ptr), state)
  | .four => some (fixedHeader ptr maxPlen 4 (plenFour ptr), state)
  | .rm => some (fixedHeader ptr maxPlen 4 (plenRm ptr), state)
  | .lineLf => some (lineLf ptr maxPlen truncLen delimiter, state)
  | .asn1 => some (asn1 ptr maxPlen, state)
  | .cdr => some (fixedHeader ptr maxPlen 12 (plenCdr ptr), state)
  | .fcgi => some (fixedHeader ptr maxPlen 8 (plenFcgi ptr), state)
  | .httph | .httphBin => (httpLength ptr maxPlen truncLen 1).map fun len => (len, 1)
  | .http | .httpBin => (httpLength ptr maxPlen truncLen state).map fun len => (len, state)
  | .tpkt => some (fixedHeader ptr maxPlen 4 (plenTpkt ptr), state)
  | .sslTls => some (fixedHeader ptr maxPlen 5 (plenSslTls ptr), state)

end PonBeam.Packet
