import PonBeam.Packet.Model

/-!
# Headers of a fixed length

The bytes of a stream that are read of a header are the same however many are there, once the
header is there. `lengthHeader` says what a header stands for: its own length, and the length
of what follows it.
-/

namespace PonBeam.Packet

/-! ## Bytes of a stream -/

section Bytes

variable {s : List UInt8} {n i : ℕ}

theorem byteAt_take (h : i < n) : byteAt (s.take n) i = byteAt s i := by
  rw [byteAt, byteAt, List.getD_eq_getElem?_getD, List.getElem?_take_of_lt h,
    List.getD_eq_getElem?_getD]

theorem byteAt_drop (s : List UInt8) (n i : ℕ) : byteAt (s.drop n) i = byteAt s (n + i) := by
  rw [byteAt, byteAt, List.getD_eq_getElem?_getD, List.getElem?_drop, List.getD_eq_getElem?_getD]

theorem byteAt_lt (s : List UInt8) (i : ℕ) : byteAt s i < 256 := UInt8.toNat_lt _

theorem getInt8_lt (s : List UInt8) : getInt8 s < 256 := byteAt_lt s 0

theorem getInt16_lt (s : List UInt8) : getInt16 s < 65536 := by
  have h₀ := byteAt_lt s 0
  have h₁ := byteAt_lt s 1
  rw [getInt16]
  omega

theorem getInt32_lt (s : List UInt8) : getInt32 s < 4294967296 := by
  have h₀ := byteAt_lt s 0
  have h₁ := byteAt_lt s 1
  have h₂ := byteAt_lt s 2
  have h₃ := byteAt_lt s 3
  rw [getInt32]
  omega

theorem getLittleInt32_lt (s : List UInt8) : getLittleInt32 s < 4294967296 := by
  have h₀ := byteAt_lt s 0
  have h₁ := byteAt_lt s 1
  have h₂ := byteAt_lt s 2
  have h₃ := byteAt_lt s 3
  rw [getLittleInt32]
  omega

theorem getInt16_drop_take {k : ℕ} (h : k + 2 ≤ n) :
    getInt16 ((s.take n).drop k) = getInt16 (s.drop k) := by
  simp only [getInt16, byteAt_drop]
  rw [byteAt_take (by omega), byteAt_take (by omega)]

theorem getInt32_drop_take {k : ℕ} (h : k + 4 ≤ n) :
    getInt32 ((s.take n).drop k) = getInt32 (s.drop k) := by
  simp only [getInt32, byteAt_drop]
  rw [byteAt_take (by omega), byteAt_take (by omega), byteAt_take (by omega),
    byteAt_take (by omega)]

theorem getLittleInt32_drop_take {k : ℕ} (h : k + 4 ≤ n) :
    getLittleInt32 ((s.take n).drop k) = getLittleInt32 (s.drop k) := by
  simp only [getLittleInt32, byteAt_drop]
  rw [byteAt_take (by omega), byteAt_take (by omega), byteAt_take (by omega),
    byteAt_take (by omega)]

end Bytes

/-! ## The same header in more bytes -/

section Prefix

variable {s : List UInt8} {n : ℕ}

theorem plenOne_take (h : 1 ≤ n) : plenOne (s.take n) = plenOne s := by
  rw [plenOne, plenOne, getInt8, getInt8, byteAt_take h]

theorem plenTwo_take (h : 2 ≤ n) : plenTwo (s.take n) = plenTwo s :=
  congrArg some (getInt16_drop_take (k := 0) h)

theorem plenFour_take (h : 4 ≤ n) : plenFour (s.take n) = plenFour s :=
  congrArg some (getInt32_drop_take (k := 0) h)

theorem plenRm_take (h : 4 ≤ n) : plenRm (s.take n) = plenRm s :=
  congrArg (fun plen => some (plen % 2147483648)) (getInt32_drop_take (k := 0) h)

theorem plenCdr_take (h : 12 ≤ n) : plenCdr (s.take n) = plenCdr s := by
  rw [plenCdr, plenCdr, List.take_take, Nat.min_eq_left (by omega), byteAt_take (by omega),
    getLittleInt32_drop_take (by omega), getInt32_drop_take (by omega)]

theorem plenFcgi_take (h : 8 ≤ n) : plenFcgi (s.take n) = plenFcgi s := by
  simp only [plenFcgi]
  rw [byteAt_take (by omega), byteAt_take (by omega), byteAt_take (by omega),
    byteAt_take (by omega)]

theorem plenTpkt_take (h : 4 ≤ n) : plenTpkt (s.take n) = plenTpkt s := by
  rw [plenTpkt, plenTpkt, byteAt_take (by omega), getInt16_drop_take (by omega)]

theorem plenSslTls_take (h : 5 ≤ n) : plenSslTls (s.take n) = plenSslTls s := by
  have h₀ : getInt16 (s.take n) = getInt16 s := getInt16_drop_take (k := 0) (by omega)
  rw [plenSslTls, plenSslTls, byteAt_take (by omega), byteAt_take (by omega), h₀,
    getInt16_drop_take (by omega)]

/-- Before the header is there the answer is 0, and then it does not depend on the bytes
behind it. -/
theorem fixedHeader_take {maxPlen hlen : ℕ} {plen : List UInt8 → Option ℕ} (hn : n ≤ s.length)
    (h : hlen ≤ n → plen (s.take n) = plen s) :
    fixedHeader (s.take n) maxPlen hlen (plen (s.take n)) =
      if n < hlen then 0 else fixedHeader s maxPlen hlen (plen s) := by
  unfold fixedHeader
  rw [List.length_take, Nat.min_eq_left hn]
  split
  · rfl
  · rename_i hlt
    rw [h (Nat.not_lt.mp hlt), if_neg (by omega)]

end Prefix

/-! ## What a header says -/

/-- An accepted length is the sum, without a wrap. -/
theorem remain_pos {maxPlen hlen plen : ℕ} {payload : ℤ} (hhlen : hlen < 2147483648)
    (hplen : plen = wrapUint payload) (hlow : -hlen ≤ payload) (hhigh : payload < 4294967296)
    (h : 0 < remain maxPlen hlen plen) : remain maxPlen hlen plen = hlen + payload := by
  rw [wrapUint] at hplen
  unfold remain at h ⊢
  dsimp only at h ⊢
  split at h
  · omega
  · rename_i hnot
    rw [if_neg hnot]
    simp only [wrapInt] at h hnot ⊢
    omega

/-- A header of `hlen` bytes, and the length of what follows it. -/
def headerOf (ptr : List UInt8) (hlen : ℕ) (payload : ℤ) : Option (ℕ × ℤ) :=
  if ptr.length < hlen then none else some (hlen, payload)

/-- An accepted length is that of the header and of what follows it. -/
theorem fixedHeader_pos {ptr : List UInt8} {maxPlen hlen : ℕ} {plen : Option ℕ} {payload : ℤ}
    (hhlen : hlen < 2147483648) (hlow : -hlen ≤ payload) (hhigh : payload < 4294967296)
    (hplen : ∀ k, plen = some k → k = wrapUint payload)
    (h : 0 < fixedHeader ptr maxPlen hlen plen) :
    headerOf ptr hlen payload = some (hlen, payload) ∧
      fixedHeader ptr maxPlen hlen plen = hlen + payload := by
  unfold fixedHeader headerOf at *
  split at h
  · exact absurd h (by decide)
  · rename_i hlen'
    rw [if_neg hlen', if_neg hlen']
    cases plen with
    | none =>
      have h : (0 : ℤ) < -1 := h
      omega
    | some k => exact ⟨rfl, remain_pos hhlen (hplen k rfl) hlow hhigh h⟩

/-- What the header of a `TCP_PB_CDR` packet says. -/
def payloadCdr (ptr : List UInt8) : ℕ :=
  if byteAt ptr 6 % 2 = 1 then getLittleInt32 (ptr.drop 8) else getInt32 (ptr.drop 8)

/-- What the header of a `TCP_PB_SSL_TLS` packet says. -/
def payloadSslTls (ptr : List UInt8) : ℤ :=
  if 128 ≤ byteAt ptr 0 ∧ byteAt ptr 2 = 1 then (getInt16 ptr % 32768 : ℕ) - 3
  else getInt16 (ptr.drop 3)

theorem payloadCdr_lt (ptr : List UInt8) : payloadCdr ptr < 4294967296 := by
  rw [payloadCdr]
  split
  · exact getLittleInt32_lt _
  · exact getInt32_lt _

/-- Content and padding are never that long. -/
theorem payloadFcgi_lt (ptr : List UInt8) :
    byteAt ptr 4 * 256 + byteAt ptr 5 + byteAt ptr 6 < 4294967296 := by
  have h₄ := byteAt_lt ptr 4
  have h₅ := byteAt_lt ptr 5
  have h₆ := byteAt_lt ptr 6
  omega

theorem plenCdr_payload {ptr : List UInt8} {k : ℕ} (h : plenCdr ptr = some k) :
    k = wrapUint (payloadCdr ptr) := by
  rw [wrapUint_of_lt (payloadCdr_lt ptr), payloadCdr]
  unfold plenCdr at h
  split at h
  · cases h
  · split at h
    · rename_i hlittle
      rw [if_pos hlittle]
      exact (Option.some.inj h).symm
    · rename_i hlittle
      rw [if_neg hlittle]
      exact (Option.some.inj h).symm

theorem plenSslTls_payload {ptr : List UInt8} {k : ℕ} (h : plenSslTls ptr = some k) :
    k = wrapUint (payloadSslTls ptr) := by
  unfold plenSslTls at h
  rw [payloadSslTls]
  split at h
  · rename_i hhello
    rw [if_pos hhello]
    exact (Option.some.inj h).symm
  · rename_i hhello
    have hlt := getInt16_lt (ptr.drop 3)
    rw [if_neg hhello, wrapUint_of_lt (by omega)]
    exact (Option.some.inj h).symm

end PonBeam.Packet
