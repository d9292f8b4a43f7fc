import PonBeam.Packet.Asn1
import PonBeam.Packet.Lines

/-!
# Framing

A stream arrives in pieces, and `packet_get_length` is called on what has arrived. The law is
that the pieces do not matter: a length that has been answered stays the answer, an error does
not turn into a packet, and the length of a packet with a header is that of the header and of
what follows. The types with a header of a fixed length obey it; the others do but for one
case each.
-/

namespace PonBeam.Packet

/-- Whether the length is in a header. -/
def PacketParseType.isPrefixed : PacketParseType → Bool
  | .one | .two | .four | .asn1 | .rm | .cdr | .fcgi | .tpkt | .sslTls => true
  | _ => false

/-- The header, if all of it is there: its length, and the length of what follows. -/
def lengthHeader : PacketParseType → List UInt8 → Option (ℕ × ℤ)
  | .one, ptr => headerOf ptr 1 (getInt8 ptr)
  | .two, ptr => headerOf ptr 2 (getInt16 ptr)
  | .four, ptr => headerOf ptr 4 (getInt32 ptr)
  | .rm, ptr => headerOf ptr 4 (getInt32 ptr % 2147483648 : ℕ)
  | .cdr, ptr => headerOf ptr 12 (payloadCdr ptr)
  | .fcgi, ptr => headerOf ptr 8 (byteAt ptr 4 * 256 + byteAt ptr 5 + byteAt ptr 6 : ℕ)
  | .tpkt, ptr => headerOf ptr 4 (getInt16 (ptr.drop 2) - 4)
  | .sslTls, ptr => headerOf ptr 5 (payloadSslTls ptr)
  | .asn1, ptr => (asn1Header ptr).map fun h => (h.hlen, h.payload)
  | _, _ => none

/-- **The law**, for the first `n` and the first `m` bytes of the stream `s`. -/
structure ChunkLaw (htype : PacketParseType) (s : List UInt8) (maxPlen truncLen : UInt32)
    (delimiter : UInt8) (state : ℤ) (n m : ℕ) : Prop where
  /-- a length stays the answer -/
  more : ∀ len st, 0 < len →
    packetGetLength htype (s.take n) maxPlen truncLen delimiter state = some (len, st) →
    packetGetLength htype (s.take m) maxPlen truncLen delimiter state = some (len, st)
  /-- an error does not become a packet -/
  error : ∀ st,
    packetGetLength htype (s.take n) maxPlen truncLen delimiter state = some (-1, st) →
    ∀ len st', 0 < len →
      packetGetLength htype (s.take m) maxPlen truncLen delimiter state ≠ some (len, st')
  /-- it is the length of the header and of what follows -/
  length : htype.isPrefixed = true → ∀ len st, 0 < len →
    packetGetLength htype (s.take n) maxPlen truncLen delimiter state = some (len, st) →
    ∃ hlen payload, lengthHeader htype (s.take n) = some (hlen, payload) ∧ len = hlen + payload

/-! ## ASN.1 -/

/-- The header is accepted; one of `2 ^ 31` bytes or more is if the sum wraps to a positive
`int`. -/
def Asn1Header.Accepted (h : Asn1Header) (maxPlen : ℕ) : Prop :=
  h.longLen.getD 0 ≤ 4 ∧ (maxPlen = 0 ∨ h.payload ≤ maxPlen) ∧
    (h.hlen + h.payload < 2147483648 ∨
      (2147483648 ≤ h.hlen ∧ 4294967296 < h.hlen + h.payload ∧
        h.hlen + h.payload < 6442450944))

/-- The bytes that remain, or those of the header, are more than an `int` counts. -/
def Asn1Late (maxPlen : ℕ) (s : List UInt8) (n m : ℕ) : Prop :=
  ∃ h, asn1Header s = some h ∧ h.hlen ≤ n ∧ h.Passes n ∧ h.Accepted maxPlen ∧
    (¬h.Passes m ∨ 2147483648 ≤ h.hlen)

section Asn1

variable {s : List UInt8} {n m maxPlen : ℕ} {h : Asn1Header}

theorem asn1_take (hn : n ≤ s.length) (hlen : s.length < 4294967296) :
    asn1 (s.take n) maxPlen =
      match asn1Header s with
      | none => 0
      | some h => if h.hlen ≤ n ∧ h.Passes n then h.answer maxPlen else 0 := by
  have hlenn : (s.take n).length = n := by rw [List.length_take, Nat.min_eq_left hn]
  rw [asn1_eq (by omega), hlenn]
  cases hs : asn1Header (s.take n) with
  | none =>
    cases hh : asn1Header s with
    | none => rfl
    | some h =>
      refine (if_neg fun hseen => ?_).symm
      rw [(asn1Header_take hn).mpr ⟨hh, hseen.1⟩] at hs
      cases hs
  | some h =>
    obtain ⟨hh, hhlen⟩ := (asn1Header_take hn).mp hs
    rw [hh]
    exact if_congr ⟨fun hpass => ⟨hhlen, hpass⟩, And.right⟩ rfl rfl

theorem bigEndian_lt {l : List UInt8} (hl : l.length ≤ 4) : bigEndian l < 4294967296 := by
  match l, hl with
  | [], _ => decide
  | [b₀], _ =>
    have h₀ := b₀.toNat_lt
    simp only [bigEndian, List.foldl_cons, List.foldl_nil]
    omega
  | [b₀, b₁], _ =>
    have h₀ := b₀.toNat_lt
    have h₁ := b₁.toNat_lt
    simp only [bigEndian, List.foldl_cons, List.foldl_nil]
    omega
  | [b₀, b₁, b₂], _ =>
    have h₀ := b₀.toNat_lt
    have h₁ := b₁.toNat_lt
    have h₂ := b₂.toNat_lt
    simp only [bigEndian, List.foldl_cons, List.foldl_nil]
    omega
  | [b₀, b₁, b₂, b₃], _ =>
    have h₀ := b₀.toNat_lt
    have h₁ := b₁.toNat_lt
    have h₂ := b₂.toNat_lt
    have h₃ := b₃.toNat_lt
    simp only [bigEndian, List.foldl_cons, List.foldl_nil]
    omega

theorem payload_lt (hh : asn1Header s = some h) (hfour : h.longLen.getD 0 ≤ 4) :
    h.payload < 4294967296 := by
  unfold asn1Header at hh
  dsimp only at hh
  split at hh
  · cases hh
  · split at hh
    · rename_i hlow
      obtain rfl := Option.some.inj hh
      dsimp only
      omega
    · split at hh
      · cases hh
      · obtain rfl := Option.some.inj hh
        dsimp only [Option.getD_some] at hfour ⊢
        apply bigEndian_lt
        exact Nat.le_trans (List.length_take_le _ _) hfour

theorem answer_pos_iff (hh : asn1Header s = some h) (hlen : s.length < 4294967296) :
    0 < h.answer maxPlen ↔ h.Accepted maxPlen := by
  obtain ⟨-, -, hhlen, htag⟩ := asn1Header_some hh
  have hpos : 0 < h.hlen := by
    rw [Asn1Header.hlen]
    omega
  unfold Asn1Header.answer Asn1Header.Accepted
  by_cases hmany : 4 < h.longLen.getD 0
  · rw [if_pos hmany]
    exact iff_of_false (by decide) fun hacc => absurd hacc.1 (Nat.not_le.mpr hmany)
  · have hfour := Nat.not_lt.mp hmany
    have hpayload := payload_lt hh hfour
    rw [if_neg hmany]
    unfold remain
    dsimp only
    split
    · rename_i hbad
      refine iff_of_false (by decide) fun hacc => ?_
      simp only [wrapInt] at hbad
      omega
    · rename_i hgood
      simp only [wrapInt] at hgood ⊢
      omega

/-- An accepted length is the sum, if the header has fewer than `2 ^ 31` bytes. -/
theorem answer_eq_iff (hh : asn1Header s = some h) (hlen : s.length < 4294967296)
    (hacc : h.Accepted maxPlen) :
    h.answer maxPlen = h.hlen + h.payload ↔ h.hlen < 2147483648 := by
  have hpos := (answer_pos_iff hh hlen).mpr hacc
  obtain ⟨-, -, hhlen, -⟩ := asn1Header_some hh
  have hpayload := payload_lt hh hacc.1
  unfold Asn1Header.answer at *
  rw [if_neg (Nat.not_lt.mpr hacc.1)] at *
  unfold remain at *
  dsimp only at *
  split at hpos
  · exact absurd hpos (by decide)
  · rename_i hgood
    rw [if_neg hgood]
    simp only [wrapInt] at *
    omega

/-- **ASN.1** obeys the law but for that. -/
theorem asn1_law (hnm : n ≤ m) (hm : m ≤ s.length) (hlen : s.length < 4294967296) :
    ((0 < asn1 (s.take n) maxPlen → asn1 (s.take m) maxPlen = asn1 (s.take n) maxPlen) ∧
        (asn1 (s.take n) maxPlen = -1 → ¬0 < asn1 (s.take m) maxPlen) ∧
        (0 < asn1 (s.take n) maxPlen → ∃ h, asn1Header (s.take n) = some h ∧
          asn1 (s.take n) maxPlen = h.hlen + h.payload)) ↔
      ¬Asn1Late maxPlen s n m := by
  rw [asn1_take (hnm.trans hm) hlen, asn1_take hm hlen]
  unfold Asn1Late
  cases hh : asn1Header s with
  | none =>
    dsimp only
    refine iff_of_true ⟨fun h => absurd h (by decide), fun h => absurd h (by decide),
      fun h => absurd h (by decide)⟩ ?_
    rintro ⟨h, hnone, -⟩
    cases hnone
  | some h =>
    dsimp only
    by_cases hseen : h.hlen ≤ n ∧ h.Passes n
    · have hhn : asn1Header (s.take n) = some h := (asn1Header_take (hnm.trans hm)).mpr ⟨hh, hseen.1⟩
      rw [if_pos hseen, hhn]
      have hpos := @answer_pos_iff s maxPlen h hh hlen
      by_cases hacc : h.Accepted maxPlen
      · have heq := answer_eq_iff hh hlen hacc
        have hans := hpos.mpr hacc
        constructor
        · rintro ⟨hmore, -, hlength⟩ ⟨h', hsome, -, -, -, hlate⟩
          obtain rfl := Option.some.inj hsome
          rcases hlate with hlate | hlate
          · rw [if_neg fun hm' => hlate hm'.2] at hmore
            have hzero := hmore hans
            omega
          · obtain ⟨h', hsome, hsum⟩ := hlength hans
            obtain rfl := Option.some.inj hsome
            exact absurd (heq.mp hsum) (Nat.not_lt.mpr hlate)
        · intro hno
          have hpass : h.Passes m := by
            by_contra hpass
            exact hno ⟨h, rfl, hseen.1, hseen.2, hacc, .inl hpass⟩
          have hshort : h.hlen < 2147483648 := by
            by_contra hlong
            exact hno ⟨h, rfl, hseen.1, hseen.2, hacc, .inr (Nat.not_lt.mp hlong)⟩
          rw [if_pos ⟨hseen.1.trans hnm, hpass⟩]
          exact ⟨fun _ => rfl, fun herr => by omega, fun _ => ⟨h, rfl, heq.mpr hshort⟩⟩
      · refine iff_of_true ⟨fun hans => absurd (hpos.mp hans) hacc, fun _ => ?_,
          fun hans => absurd (hpos.mp hans) hacc⟩ ?_
        · split
          · exact mt hpos.mp hacc
          · decide
        · rintro ⟨h', hsome, -, -, hacc', -⟩
          obtain rfl := Option.some.inj hsome
          exact hacc hacc'
    · rw [if_neg hseen]
      refine iff_of_true ⟨fun h => absurd h (by decide), fun h => absurd h (by decide),
        fun h => absurd h (by decide)⟩ ?_
      rintro ⟨h', heq, hhlen, hpass, -⟩
      obtain rfl := Option.some.inj heq
      exact hseen ⟨hhlen, hpass⟩

end Asn1

/-! ## The law -/

/-- What the law fails on. -/
def Breaks (htype : PacketParseType) (s : List UInt8) (maxPlen truncLen : UInt32)
    (delimiter : UInt8) (n m : ℕ) : Prop :=
  match htype with
  | .lineLf => LineCut maxPlen.toNat truncLen.toNat (firstAt delimiter s) n m
  | .http | .httph | .httpBin | .httphBin =>
    CrnlEarly (if maxPlen.toNat = 0 then truncLen.toNat else maxPlen.toNat) s n m
  | .asn1 => Asn1Late maxPlen.toNat s n m
  | _ => False

section

variable {s : List UInt8} {maxPlen truncLen : UInt32} {delimiter : UInt8} {state : ℤ} {n m : ℕ}
  {htype : PacketParseType}

/-- A type with a header of `hlen` bytes obeys the law. -/
theorem chunkLaw_fixed {hlen : ℕ} {plen : List UInt8 → Option ℕ} {payload : List UInt8 → ℤ}
    (hget : ∀ ptr, packetGetLength htype ptr maxPlen truncLen delimiter state =
      some (fixedHeader ptr maxPlen.toNat hlen (plen ptr), state))
    (hheader : ∀ ptr, lengthHeader htype ptr = headerOf ptr hlen (payload ptr))
    (htake : ∀ n, hlen ≤ n → plen (s.take n) = plen s)
    (hpayload : ∀ ptr k, plen ptr = some k → k = wrapUint (payload ptr))
    (hbound : ∀ ptr, -hlen ≤ payload ptr ∧ payload ptr < 4294967296)
    (hhlen : hlen < 2147483648) (hnm : n ≤ m) (hm : m ≤ s.length) :
    ChunkLaw htype s maxPlen truncLen delimiter state n m := by
  have hn' := @fixedHeader_take s n maxPlen.toNat hlen plen (hnm.trans hm) (htake n)
  have hm' := @fixedHeader_take s m maxPlen.toNat hlen plen hm (htake m)
  have hsame : fixedHeader (s.take n) maxPlen.toNat hlen (plen (s.take n)) ≠ 0 →
      fixedHeader (s.take m) maxPlen.toNat hlen (plen (s.take m)) =
        fixedHeader (s.take n) maxPlen.toNat hlen (plen (s.take n)) := by
    rw [hn', hm']
    split
    · exact fun h => absurd rfl h
    · rename_i hle
      exact fun _ => if_neg (by omega)
  refine ⟨fun len st hpos h => ?_, fun st h len st' hpos h' => ?_, fun _ len st hpos h => ?_⟩
  · rw [hget] at h ⊢
    obtain ⟨rfl, rfl⟩ := Prod.mk.inj (Option.some.inj h)
    rw [hsame (by omega)]
  · rw [hget] at h h'
    obtain ⟨h, rfl⟩ := Prod.mk.inj (Option.some.inj h)
    obtain ⟨rfl, -⟩ := Prod.mk.inj (Option.some.inj h')
    rw [hsame (by omega)] at hpos
    omega
  · rw [hget] at h
    obtain ⟨rfl, rfl⟩ := Prod.mk.inj (Option.some.inj h)
    obtain ⟨hlow, hhigh⟩ := hbound (s.take n)
    obtain ⟨hsome, hsum⟩ := fixedHeader_pos hhlen hlow hhigh (hpayload _) hpos
    exact ⟨hlen, payload (s.take n), (hheader _).trans hsome, hsum⟩

/-- A type without a header, whose answers obey the law. -/
theorem chunkLaw_iff_of_answer {answer : List UInt8 → Option ℤ} {st : ℤ}
    (hget : ∀ ptr, packetGetLength htype ptr maxPlen truncLen delimiter state =
      (answer ptr).map fun len => (len, st))
    (hprefixed : htype.isPrefixed = false) :
    ChunkLaw htype s maxPlen truncLen delimiter state n m ↔
      (∀ r, 0 < r → answer (s.take n) = some r → answer (s.take m) = some r) ∧
        (answer (s.take n) = some (-1) → ∀ r, 0 < r → answer (s.take m) ≠ some r) := by
  have hiff : ∀ ptr len st', packetGetLength htype ptr maxPlen truncLen delimiter state =
      some (len, st') ↔ answer ptr = some len ∧ st = st' := by
    intro ptr len st'
    rw [hget]
    cases answer ptr with
    | none => exact iff_of_false (fun h => nomatch h) fun h => nomatch h.1
    | some r =>
      rw [Option.map_some, Option.some_inj, Option.some_inj, Prod.mk.injEq]
  constructor
  · rintro ⟨hmore, herror, -⟩
    refine ⟨fun r hr h => ?_, fun h r hr h' => ?_⟩
    · exact ((hiff _ _ _).mp (hmore r st hr ((hiff _ _ _).mpr ⟨h, rfl⟩))).1
    · exact herror st ((hiff _ _ _).mpr ⟨h, rfl⟩) r st hr ((hiff _ _ _).mpr ⟨h', rfl⟩)
  · rintro ⟨hmore, herror⟩
    refine ⟨fun len st' hpos h => ?_, fun st' h len st'' hpos h' => ?_, fun h => ?_⟩
    · obtain ⟨hans, hst⟩ := (hiff _ _ _).mp h
      exact (hiff _ _ _).mpr ⟨hmore len hpos hans, hst⟩
    · exact herror ((hiff _ _ _).mp h).1 len hpos ((hiff _ _ _).mp h').1
    · rw [hprefixed] at h
      cases h

/-- **Lines.** -/
theorem chunkLaw_lineLf (hnm : n ≤ m) (hm : m ≤ s.length) :
    ChunkLaw .lineLf s maxPlen truncLen delimiter state n m ↔
      ¬LineCut maxPlen.toNat truncLen.toNat (firstAt delimiter s) n m := by
  have hanswer := @chunkLaw_iff_of_answer s maxPlen truncLen delimiter state n m .lineLf
    (fun ptr => some (lineLf ptr maxPlen.toNat truncLen.toNat delimiter)) state (fun _ => rfl) rfl
  rw [← lineAnswer_law hnm truncLen.toNat_lt, hanswer, lineLf_take (hnm.trans hm), lineLf_take hm]
  constructor
  · rintro ⟨hmore, herror⟩
    exact ⟨fun h => Option.some.inj (hmore _ h rfl), fun h hpos =>
      herror (congrArg some h) _ hpos rfl⟩
  · rintro ⟨hmore, herror⟩
    refine ⟨fun r hr h => ?_, fun h r hr h' => ?_⟩
    · obtain rfl := Option.some.inj h
      exact congrArg some (hmore hr)
    · obtain rfl := Option.some.inj h'
      exact herror (Option.some.inj h) hr

/-- **HTTP.** -/
theorem chunkLaw_http {st : ℤ} (hget : ∀ ptr,
      packetGetLength htype ptr maxPlen truncLen delimiter state =
        (httpLength ptr maxPlen.toNat truncLen.toNat st).map fun len => (len, st))
    (hprefixed : htype.isPrefixed = false) (hnm : n ≤ m) (hm : m ≤ s.length)
    (hlen : s.length < 4294967296) :
    ChunkLaw htype s maxPlen truncLen delimiter state n m ↔
      ¬CrnlEarly (if maxPlen.toNat = 0 then truncLen.toNat else maxPlen.toNat) s n m := by
  rw [chunkLaw_iff_of_answer hget hprefixed]
  exact httpLength_law hnm hm hlen rfl

/-- **ASN.1.** -/
theorem chunkLaw_asn1 (hnm : n ≤ m) (hm : m ≤ s.length) (hlen : s.length < 4294967296) :
    ChunkLaw .asn1 s maxPlen truncLen delimiter state n m ↔ ¬Asn1Late maxPlen.toNat s n m := by
  rw [← asn1_law hnm hm hlen]
  constructor
  · rintro ⟨hmore, herror, hlength⟩
    refine ⟨fun h => ?_, fun h hpos => ?_, fun h => ?_⟩
    · exact (Prod.mk.inj (Option.some.inj (hmore _ state h rfl))).1
    · exact herror state (congrArg (fun len => some (len, state)) h) _ state hpos rfl
    · obtain ⟨hlen, payload, hheader, hsum⟩ := hlength rfl _ state h rfl
      obtain ⟨h, hh, heq⟩ := Option.map_eq_some_iff.mp hheader
      obtain ⟨rfl, rfl⟩ := Prod.mk.inj heq
      exact ⟨h, hh, hsum⟩
  · rintro ⟨hmore, herror, hlength⟩
    refine ⟨fun len st hpos h => ?_, fun st h len st' hpos h' => ?_, fun _ len st hpos h => ?_⟩
    · obtain ⟨rfl, rfl⟩ := Prod.mk.inj (Option.some.inj h)
      exact congrArg (fun len => some (len, state)) (hmore hpos)
    · obtain ⟨hans, -⟩ := Prod.mk.inj (Option.some.inj h)
      obtain ⟨rfl, -⟩ := Prod.mk.inj (Option.some.inj h')
      exact herror hans hpos
    · obtain ⟨rfl, rfl⟩ := Prod.mk.inj (Option.some.inj h)
      obtain ⟨h, hh, hsum⟩ := hlength hpos
      exact ⟨h.hlen, h.payload, congrArg (Option.map _) hh, hsum⟩

/-- **Framing** does not depend on the pieces, but where a line is cut off before it is known
to be too long, for an empty line of two bytes under the limit 1, and where an `int` does not
count the bytes of an ASN.1 packet. -/
theorem chunkLaw_iff (hraw : htype ≠ .raw) (hnm : n ≤ m) (hm : m ≤ s.length)
    (hlen : s.length < 4294967296) :
    ChunkLaw htype s maxPlen truncLen delimiter state n m ↔
      ¬Breaks htype s maxPlen truncLen delimiter n m := by
  cases htype with
  | raw => exact absurd rfl hraw
  | lineLf => exact chunkLaw_lineLf hnm hm
  | asn1 => exact chunkLaw_asn1 hnm hm hlen
  | http | httpBin => exact chunkLaw_http (fun _ => rfl) rfl hnm hm hlen
  | httph | httphBin => exact chunkLaw_http (fun _ => rfl) rfl hnm hm hlen
  | one =>
    refine iff_of_true (@chunkLaw_fixed s maxPlen truncLen delimiter state n m .one 1 plenOne
      (fun ptr => getInt8 ptr) (fun _ => rfl) (fun _ => rfl) (fun _ => plenOne_take)
      (fun ptr k h => ?_) (fun ptr => ?_) (by decide) hnm hm) id
    · have hlt := getInt8_lt ptr
      rw [wrapUint_of_lt (by omega)]
      exact (Option.some.inj h).symm
    · have hlt := getInt8_lt ptr
      exact ⟨by omega, by omega⟩
  | two =>
    refine iff_of_true (@chunkLaw_fixed s maxPlen truncLen delimiter state n m .two 2 plenTwo
      (fun ptr => getInt16 ptr) (fun _ => rfl) (fun _ => rfl) (fun _ => plenTwo_take)
      (fun ptr k h => ?_) (fun ptr => ?_) (by decide) hnm hm) id
    · have hlt := getInt16_lt ptr
      rw [wrapUint_of_lt (by omega)]
      exact (Option.some.inj h).symm
    · have hlt := getInt16_lt ptr
      exact ⟨by omega, by omega⟩
  | four =>
    refine iff_of_true (@chunkLaw_fixed s maxPlen truncLen delimiter state n m .four 4 plenFour
      (fun ptr => getInt32 ptr) (fun _ => rfl) (fun _ => rfl) (fun _ => plenFour_take)
      (fun ptr k h => ?_) (fun ptr => ?_) (by decide) hnm hm) id
    · rw [wrapUint_of_lt (getInt32_lt ptr)]
      exact (Option.some.inj h).symm
    · have hlt := getInt32_lt ptr
      exact ⟨by omega, by omega⟩
  | rm =>
    refine iff_of_true (@chunkLaw_fixed s maxPlen truncLen delimiter state n m .rm 4 plenRm
      (fun ptr => (getInt32 ptr % 2147483648 : ℕ)) (fun _ => rfl) (fun _ => rfl)
      (fun _ => plenRm_take) (fun ptr k h => ?_) (fun ptr => ?_) (by decide) hnm hm) id
    · rw [wrapUint_of_lt (by omega)]
      exact (Option.some.inj h).symm
    · exact ⟨by omega, by omega⟩
  | cdr =>
    refine iff_of_true (@chunkLaw_fixed s maxPlen truncLen delimiter state n m .cdr 12 plenCdr
      (fun ptr => payloadCdr ptr) (fun _ => rfl) (fun _ => rfl) (fun _ => plenCdr_take)
      (fun ptr k => plenCdr_payload) (fun ptr => ?_) (by decide) hnm hm) id
    have hlt := payloadCdr_lt ptr
    exact ⟨by omega, by omega⟩
  | fcgi =>
    refine iff_of_true (@chunkLaw_fixed s maxPlen truncLen delimiter state n m .fcgi 8 plenFcgi
      (fun ptr => (byteAt ptr 4 * 256 + byteAt ptr 5 + byteAt ptr 6 : ℕ)) (fun _ => rfl)
      (fun _ => rfl) (fun _ => plenFcgi_take) (fun ptr k h => ?_) (fun ptr => ?_) (by decide) hnm
      hm) id
    · have hlt := payloadFcgi_lt ptr
      rw [wrapUint_of_lt hlt]
      unfold plenFcgi at h
      split at h
      · cases h
      · exact (Option.some.inj h).symm
    · have hlt := payloadFcgi_lt ptr
      exact ⟨by omega, by omega⟩
  | tpkt =>
    refine iff_of_true (@chunkLaw_fixed s maxPlen truncLen delimiter state n m .tpkt 4 plenTpkt
      (fun ptr => getInt16 (ptr.drop 2) - 4) (fun _ => rfl) (fun _ => rfl)
      (fun _ => plenTpkt_take) (fun ptr k h => ?_) (fun ptr => ?_) (by decide) hnm hm) id
    · unfold plenTpkt at h
      split at h
      · exact (Option.some.inj h).symm
      · cases h
    · have hlt := getInt16_lt (ptr.drop 2)
      exact ⟨by omega, by omega⟩
  | sslTls =>
    refine iff_of_true (@chunkLaw_fixed s maxPlen truncLen delimiter state n m .sslTls 5 plenSslTls
      payloadSslTls (fun _ => rfl) (fun _ => rfl) (fun _ => plenSslTls_take)
      (fun ptr k => plenSslTls_payload) (fun ptr => ?_) (by decide) hnm hm) id
    have hlt := getInt16_lt (ptr.drop 3)
    unfold payloadSslTls
    split <;> exact ⟨by omega, by omega⟩

end

/-- The empty line of HTTP, under the limit 1: an error after one byte, a packet after two. -/
theorem crnl_error_then_packet :
    ¬∀ (htype : PacketParseType) (s : List UInt8) (maxPlen truncLen : UInt32) (delimiter : UInt8)
      (state : ℤ) (n m : ℕ), htype ≠ .raw → n ≤ m → m ≤ s.length → s.length < 4294967296 →
      ChunkLaw htype s maxPlen truncLen delimiter state n m := by
  intro h
  have hlaw := h .http [13, 10] 1 0 10 0 1 2 (by decide) (by decide) (by decide) (by decide)
  exact hlaw.error 0 (by decide) 2 0 (by decide) (by decide)

/-- Under the limit 2 it is a packet of two bytes, with the next byte at hand and without. -/
theorem crnl_chunkLaw : ChunkLaw .http [13, 10, 71] 2 0 10 0 2 3 := by
  refine (chunkLaw_iff (by decide) (by decide) (by decide) (by decide)).mpr ?_
  rintro ⟨hlimit, -⟩
  exact absurd hlimit (by decide)

example : packetGetLength .http [13, 10] 2 0 10 0 = some (2, 0) := by decide

end PonBeam.Packet
