import PonBeam.Packet.Header

/-!
# The header of an ASN.1 packet

A tag of one or more bytes, and a length of one byte or of a byte that says how many follow.
`asn1Header` reads it as it is written. The code counts the bytes that remain in an `int`, and
asks twice whether there are enough of them: behind the bytes of a long tag, and before those of
a long length. `Passes` is that neither question is asked of `2 ^ 31` bytes or more, which are
a negative number to the code.
-/

namespace PonBeam.Packet

/-- A header. -/
structure Asn1Header where
  /-- the bytes of the tag -/
  tagLen : ℕ
  /-- whether the tag is a long one -/
  longTag : Bool
  /-- the number of bytes of the length behind its first, if it is a long one -/
  longLen : Option ℕ
  /-- the length of what follows -/
  payload : ℕ

/-- The length of the header. -/
def Asn1Header.hlen (h : Asn1Header) : ℕ := h.tagLen + 1 + h.longLen.getD 0

/-- A number of many bytes, the first of which counts most. -/
def bigEndian (bytes : List UInt8) : ℕ := bytes.foldl (fun acc b => acc * 256 + b.toNat) 0

/-- The bytes of the tag, with the length byte if it is there. -/
def asn1TagLen (ptr : List UInt8) : ℕ :=
  if byteAt ptr 0 % 32 = 31 then ((ptr.drop 1).takeWhile fun b => 128 ≤ b.toNat).length + 2 else 1

/-- The header, if all of it is there. -/
def asn1Header (ptr : List UInt8) : Option Asn1Header :=
  let k := asn1TagLen ptr
  let longTag := decide (byteAt ptr 0 % 32 = 31)
  if ptr.length ≤ k then none
  else if byteAt ptr k < 128 then some ⟨k, longTag, none, byteAt ptr k⟩
  else if ptr.length < k + 1 + (byteAt ptr k - 128) then none
  else
    some ⟨k, longTag, some (byteAt ptr k - 128),
      bigEndian ((ptr.drop (k + 1)).take (byteAt ptr k - 128))⟩

/-- The code sees that the header is there, with `n` bytes in all. -/
def Asn1Header.Passes (h : Asn1Header) (n : ℕ) : Prop :=
  (h.longTag = true → n + 1 - h.tagLen < 2147483648) ∧
    (h.longLen.isSome = true → n - 1 - h.tagLen < 2147483648)

instance (h : Asn1Header) (n : ℕ) : Decidable (h.Passes n) := inferInstanceAs (Decidable (_ ∧ _))

/-! ## What the code makes of it -/

section

variable {ptr : List UInt8} {maxPlen n : ℕ}

theorem skipTag_eq (tptr : List UInt8) (h : tptr.length < 4294967296) :
    skipTag tptr (wrapInt tptr.length) =
      (tptr.dropWhile fun b => 128 ≤ b.toNat,
        wrapInt (tptr.dropWhile fun b => 128 ≤ b.toNat).length) := by
  induction tptr with
  | nil => rfl
  | cons b tptr ih =>
    rw [List.length_cons] at h
    have hne : wrapInt ((b :: tptr).length : ℕ) ≠ 0 := by
      rw [List.length_cons, wrapInt]
      omega
    have hpred : wrapInt (wrapInt ((b :: tptr).length : ℕ) - 1) = wrapInt tptr.length := by
      rw [wrapInt_pred, List.length_cons]
      congr 1
      omega
    rw [skipTag, List.dropWhile_cons]
    by_cases hb : 128 ≤ b.toNat
    · rw [if_pos ⟨hne, hb⟩, hpred, ih (by omega), if_pos (decide_eq_true hb)]
    · rw [if_neg fun h => hb h.2, if_neg (by simpa using hb)]

theorem exists_three {s : List UInt8} (h : 3 ≤ s.length) :
    ∃ b₀ b₁ b₂ t, s = b₀ :: b₁ :: b₂ :: t := by
  obtain ⟨b₀, s, rfl⟩ := List.exists_cons_of_length_pos (Nat.zero_lt_of_lt h)
  have htwo : 2 ≤ s.length := Nat.le_of_succ_le_succ h
  obtain ⟨b₁, s, rfl⟩ := List.exists_cons_of_length_pos (Nat.zero_lt_of_lt htwo)
  obtain ⟨b₂, s, rfl⟩ := List.exists_cons_of_length_pos (Nat.le_of_succ_le_succ htwo)
  exact ⟨b₀, b₁, b₂, s, rfl⟩

/-- Four bytes at most are read as the code reads them. -/
theorem bigEndian_take (s : List UInt8) :
    (1 ≤ s.length → bigEndian (s.take 1) = getInt8 s) ∧
      (2 ≤ s.length → bigEndian (s.take 2) = getInt16 s) ∧
      (3 ≤ s.length → bigEndian (s.take 3) = getInt24 s) ∧
      (4 ≤ s.length → bigEndian (s.take 4) = getInt32 s) := by
  refine ⟨fun h => ?_, fun h => ?_, fun h => ?_, fun h => ?_⟩
  · obtain ⟨b₀, s, rfl⟩ := List.exists_cons_of_length_pos h
    simp [bigEndian, getInt8, byteAt]
  · obtain ⟨b₀, s, rfl⟩ := List.exists_cons_of_length_pos (Nat.zero_lt_of_lt h)
    obtain ⟨b₁, s, rfl⟩ := List.exists_cons_of_length_pos (Nat.le_of_succ_le_succ h)
    simp [bigEndian, getInt16, byteAt]
  · obtain ⟨b₀, b₁, b₂, s, rfl⟩ := exists_three h
    simp only [bigEndian, getInt24, byteAt, List.take_succ_cons, List.take_zero, List.foldl_cons,
      List.foldl_nil, List.getD_cons_zero, List.getD_cons_succ]
    omega
  · obtain ⟨b₀, s, rfl⟩ := List.exists_cons_of_length_pos (Nat.zero_lt_of_lt h)
    obtain ⟨b₁, b₂, b₃, s, rfl⟩ := exists_three (Nat.le_of_succ_le_succ h)
    simp only [bigEndian, getInt32, byteAt, List.take_succ_cons, List.take_zero, List.foldl_cons,
      List.foldl_nil, List.getD_cons_zero, List.getD_cons_succ]
    omega

/-- The answer, once the header has been seen. -/
def Asn1Header.answer (h : Asn1Header) (maxPlen : ℕ) : ℤ :=
  if 4 < h.longLen.getD 0 then -1 else remain maxPlen h.hlen h.payload

theorem asn1Length_short {tptr : List UInt8} {nn : ℤ} (h : getInt8 tptr < 128) :
    asn1Length n maxPlen tptr nn = remain maxPlen (n - (tptr.length - 1)) (getInt8 tptr) := by
  unfold asn1Length
  dsimp only
  rw [if_neg (Nat.not_le.mpr h), Nat.mod_eq_of_lt h]

theorem asn1Length_long {tptr : List UInt8} {nn : ℤ} {len : ℕ} (h : getInt8 tptr = 128 + len)
    (hlen : ¬wrapInt (nn - 1) < len → len ≤ tptr.length - 1) :
    asn1Length n maxPlen tptr nn =
      if wrapInt (nn - 1) < len then 0
      else if 4 < len then -1
      else remain maxPlen (n - (tptr.length - 1 - len)) (bigEndian ((tptr.drop 1).take len)) := by
  have hmod : getInt8 tptr % 128 = len := by
    have hlt := getInt8_lt tptr
    omega
  have hdrop : (tptr.drop 1).length = tptr.length - 1 := List.length_drop
  obtain ⟨h₁, h₂, h₃, h₄⟩ := bigEndian_take (tptr.drop 1)
  unfold asn1Length
  dsimp only
  rw [if_pos (by omega), hmod, hdrop]
  split
  · rfl
  · rename_i hnn
    have hlen := hlen hnn
    split
    · rw [if_neg (by decide), List.take_zero]
      exact congrArg (remain maxPlen _) rfl
    · rw [if_neg (by decide), h₁ (by omega)]
    · rw [if_neg (by decide), h₂ (by omega)]
    · rw [if_neg (by decide), h₃ (by omega)]
    · rw [if_neg (by decide), h₄ (by omega)]
    · rename_i hne₀ hne₁ hne₂ hne₃ hne₄
      have hmany : 4 < len := by
        by_contra hle
        match len, hle with
        | 0, _ => exact hne₀ rfl
        | 1, _ => exact hne₁ rfl
        | 2, _ => exact hne₂ rfl
        | 3, _ => exact hne₃ rfl
        | 4, _ => exact hne₄ rfl
        | _ + 5, hle => exact hle (by omega)
      rw [if_pos hmany]

theorem answer_short (k payload : ℕ) (longTag : Bool) :
    Asn1Header.answer ⟨k, longTag, none, payload⟩ maxPlen = remain maxPlen (k + 1) payload :=
  if_neg (show ¬4 < 0 by decide)

theorem answer_long (k len payload : ℕ) (longTag : Bool) :
    Asn1Header.answer ⟨k, longTag, some len, payload⟩ maxPlen =
      if 4 < len then -1 else remain maxPlen (k + 1 + len) payload := rfl

/-- **From the length field on.** -/
theorem asn1Length_eq (hn : ptr.length < 4294967296) {k : ℕ} (hk : k < ptr.length)
    (longTag : Bool) :
    asn1Length ptr.length maxPlen (ptr.drop k) (wrapInt (ptr.length - k : ℕ)) =
      if byteAt ptr k < 128 then
        Asn1Header.answer ⟨k, longTag, none, byteAt ptr k⟩ maxPlen
      else if ptr.length < k + 1 + (byteAt ptr k - 128) ∨ 2147483648 ≤ ptr.length - 1 - k then 0
      else
        Asn1Header.answer ⟨k, longTag, some (byteAt ptr k - 128),
          bigEndian ((ptr.drop (k + 1)).take (byteAt ptr k - 128))⟩ maxPlen := by
  have hb : getInt8 (ptr.drop k) = byteAt ptr k := byteAt_drop ptr k 0
  have hdrop : (ptr.drop k).length = ptr.length - k := List.length_drop
  by_cases hlow : byteAt ptr k < 128
  · have hhlen : ptr.length - (ptr.length - k - 1) = k + 1 := by omega
    rw [if_pos hlow, asn1Length_short (hb ▸ hlow), hb, hdrop, hhlen, answer_short]
  · obtain ⟨len, hlen⟩ := Nat.exists_eq_add_of_le (Nat.not_lt.mp hlow)
    have hlt := byteAt_lt ptr k
    have hsub : byteAt ptr k - 128 = len := by omega
    have hwrap : wrapInt (wrapInt (ptr.length - k : ℕ) - 1) < len ↔
        ptr.length < k + 1 + len ∨ 2147483648 ≤ ptr.length - 1 - k := by
      simp only [wrapInt]
      omega
    rw [if_neg hlow, asn1Length_long (hb.trans hlen) (by omega), hsub, hdrop, List.drop_drop]
    by_cases hmore : ptr.length < k + 1 + len ∨ 2147483648 ≤ ptr.length - 1 - k
    · rw [if_pos (hwrap.mpr hmore), if_pos hmore]
    · have hhlen : ptr.length - (ptr.length - k - 1 - len) = k + 1 + len := by omega
      rw [if_neg (mt hwrap.mp hmore), if_neg hmore, hhlen, answer_long]

/-- Behind a long tag: the bytes from its last one on. -/
theorem length_dropWhile_tag (ptr : List UInt8) (h : byteAt ptr 0 % 32 = 31) :
    ((ptr.drop 1).dropWhile fun b => 128 ≤ b.toNat) = ptr.drop (asn1TagLen ptr - 1) ∧
      ((ptr.drop 1).dropWhile fun b => 128 ≤ b.toNat).length + asn1TagLen ptr =
        (ptr.length - 1) + 2 := by
  have hsplit := List.takeWhile_append_dropWhile (p := fun b : UInt8 => 128 ≤ b.toNat)
    (l := ptr.drop 1)
  have hlen := congrArg List.length hsplit
  rw [List.length_append, List.length_drop] at hlen
  have hk : asn1TagLen ptr =
      ((ptr.drop 1).takeWhile fun b => 128 ≤ b.toNat).length + 2 := if_pos h
  refine ⟨?_, by omega⟩
  obtain ⟨tag, htag⟩ : ∃ tag, tag = (ptr.drop 1).takeWhile fun b => 128 ≤ b.toNat := ⟨_, rfl⟩
  rw [← htag] at hsplit hk
  have hdrop : (ptr.drop 1).drop tag.length = (ptr.drop 1).dropWhile fun b => 128 ≤ b.toNat := by
    rw [← hsplit, List.drop_left, hsplit]
  rw [← hdrop, List.drop_drop, hk]
  congr 1
  omega

/-- The length field, of the header as it is written. -/
theorem asn1Length_header (hn : ptr.length < 4294967296) (hk : asn1TagLen ptr < ptr.length) :
    asn1Length ptr.length maxPlen (ptr.drop (asn1TagLen ptr))
        (wrapInt (ptr.length - asn1TagLen ptr : ℕ)) =
      match asn1Header ptr with
      | none => 0
      | some h =>
        if h.longLen.isSome = true → ptr.length - 1 - h.tagLen < 2147483648 then h.answer maxPlen
        else 0 := by
  rw [asn1Length_eq hn hk (decide (byteAt ptr 0 % 32 = 31))]
  unfold asn1Header
  dsimp only
  rw [if_neg (Nat.not_le.mpr hk)]
  by_cases hlow : byteAt ptr (asn1TagLen ptr) < 128
  · rw [if_pos hlow, if_pos hlow]
    exact (if_pos fun h => nomatch h).symm
  · rw [if_neg hlow, if_neg hlow]
    by_cases hmore : ptr.length < asn1TagLen ptr + 1 + (byteAt ptr (asn1TagLen ptr) - 128)
    · rw [if_pos (.inl hmore), if_pos hmore]
    · rw [if_neg hmore]
      dsimp only
      by_cases hbig : 2147483648 ≤ ptr.length - 1 - asn1TagLen ptr
      · rw [if_pos (.inr hbig), if_neg fun h => Nat.not_lt.mpr hbig (h rfl)]
      · rw [if_neg (not_or.mpr ⟨hmore, hbig⟩), if_pos fun _ => Nat.not_le.mp hbig]

/-- What a header says of itself. -/
theorem asn1Header_some {h : Asn1Header} (hh : asn1Header ptr = some h) :
    h.tagLen = asn1TagLen ptr ∧ (h.longTag = true ↔ byteAt ptr 0 % 32 = 31) ∧
      h.hlen ≤ ptr.length ∧ 1 ≤ h.tagLen := by
  have hk : 1 ≤ asn1TagLen ptr := by
    unfold asn1TagLen
    split <;> omega
  unfold asn1Header at hh
  dsimp only at hh
  split at hh
  · cases hh
  · rename_i hlen
    split at hh
    · obtain rfl := Option.some.inj hh
      exact ⟨rfl, decide_eq_true_iff, by simp only [Asn1Header.hlen, Option.getD_none]; omega, hk⟩
    · split at hh
      · cases hh
      · rename_i hmore
        obtain rfl := Option.some.inj hh
        exact ⟨rfl, decide_eq_true_iff, by simp only [Asn1Header.hlen, Option.getD_some]; omega, hk⟩

/-- **The code** reads the header as it is written, where it sees that it is there. -/
theorem asn1_eq (hn : ptr.length < 4294967296) :
    asn1 ptr maxPlen =
      match asn1Header ptr with
      | none => 0
      | some h => if h.Passes ptr.length then h.answer maxPlen else 0 := by
  have hfew : ∀ h, asn1Header ptr = some h → asn1TagLen ptr < ptr.length := by
    intro h hh
    obtain ⟨htag, -, hhlen, -⟩ := asn1Header_some hh
    rw [Asn1Header.hlen] at hhlen
    omega
  unfold asn1
  dsimp only
  split
  · rename_i hshort
    cases hh : asn1Header ptr with
    | none => rfl
    | some h =>
      have hk := hfew h hh
      obtain ⟨htag, -, -, hone⟩ := asn1Header_some hh
      omega
  · rename_i hshort
    have hnn : wrapInt (wrapInt ptr.length - 1) = wrapInt (ptr.drop 1).length := by
      rw [wrapInt_pred, List.length_drop]
      congr 1
      omega
    rw [hnn]
    by_cases htag : byteAt ptr 0 % 32 = 31
    · obtain ⟨hrest, hlen⟩ := length_dropWhile_tag ptr htag
      have hdrop : (ptr.drop 1).length = ptr.length - 1 := List.length_drop
      rw [if_pos (show getInt8 ptr % 32 = 31 from htag), skipTag_eq _ (by omega)]
      dsimp only
      obtain ⟨r, hr⟩ : ∃ r, r = ((ptr.drop 1).dropWhile fun b => 128 ≤ b.toNat).length := ⟨_, rfl⟩
      rw [← hr] at hlen ⊢
      rw [hrest, List.drop_drop]
      by_cases hsee : 2 ≤ r ∧ r < 2147483648
      · have hk₂ : 2 ≤ asn1TagLen ptr := by
          unfold asn1TagLen
          rw [if_pos htag]
          omega
        have hk : asn1TagLen ptr - 1 + 1 = asn1TagLen ptr := by omega
        have hrk : (r : ℤ) - 1 = (ptr.length - asn1TagLen ptr : ℕ) := by omega
        have hnn' : wrapInt (wrapInt r - 1) = wrapInt (ptr.length - asn1TagLen ptr : ℕ) := by
          rw [wrapInt_pred, hrk]
        have hlow : ¬wrapInt r < 2 := by
          rw [wrapInt_of_lt hsee.2]
          omega
        rw [if_neg hlow, hk, hnn', asn1Length_header hn (by omega)]
        cases hh : asn1Header ptr with
        | none => rfl
        | some h =>
          obtain ⟨htagLen, -, -, -⟩ := asn1Header_some hh
          refine if_congr ⟨fun h' => ⟨fun _ => ?_, h'⟩, And.right⟩ rfl rfl
          omega
      · have hlow : wrapInt r < 2 := by
          simp only [wrapInt]
          omega
        rw [if_pos hlow]
        cases hh : asn1Header ptr with
        | none => rfl
        | some h =>
          have hk := hfew h hh
          obtain ⟨htagLen, hlong, -, -⟩ := asn1Header_some hh
          refine (if_neg fun hpass => ?_).symm
          have hlt := hpass.1 (hlong.mpr htag)
          omega
    · have hk : asn1TagLen ptr = 1 := if_neg htag
      have hheader := @asn1Length_header ptr maxPlen hn (by omega)
      rw [hk] at hheader
      rw [if_neg (show ¬getInt8 ptr % 32 = 31 from htag), List.length_drop, hheader]
      cases hh : asn1Header ptr with
      | none => rfl
      | some h =>
        obtain ⟨-, hlong, -, -⟩ := asn1Header_some hh
        exact if_congr ⟨fun h' => ⟨fun hl => absurd (hlong.mp hl) htag, h'⟩, And.right⟩ rfl rfl

/-! ## In more bytes -/

/-- The tag is the same once it is there, with the length byte. -/
theorem asn1TagLen_take {s : List UInt8}
    (h : asn1TagLen (s.take n) < n ∨ asn1TagLen s < n) :
    asn1TagLen (s.take n) = asn1TagLen s := by
  cases n with
  | zero => exact absurd h (by omega)
  | succ n =>
    have hbyte : byteAt (s.take (n + 1)) 0 = byteAt s 0 := byteAt_take n.succ_pos
    have hdrop : (s.take (n + 1)).drop 1 = (s.drop 1).take n := List.drop_take
    by_cases htag : byteAt s 0 % 32 = 31
    · have hs : asn1TagLen s = ((s.drop 1).takeWhile fun b => 128 ≤ b.toNat).length + 2 :=
        if_pos htag
      have hsn : asn1TagLen (s.take (n + 1)) =
          min n ((s.drop 1).takeWhile fun b => 128 ≤ b.toNat).length + 2 := by
        unfold asn1TagLen
        rw [hbyte, if_pos htag, hdrop, ← List.take_takeWhile, List.length_take]
      omega
    · unfold asn1TagLen
      rw [hbyte, if_neg htag, if_neg htag]

/-- **More bytes do not change a header** that is there, and it is there as soon as there are
as many bytes as it has. -/
theorem asn1Header_take {s : List UInt8} (hn : n ≤ s.length) {h : Asn1Header} :
    asn1Header (s.take n) = some h ↔ asn1Header s = some h ∧ h.hlen ≤ n := by
  have hlen : (s.take n).length = n := by rw [List.length_take, Nat.min_eq_left hn]
  by_cases hk : asn1TagLen s < n
  · have htag := asn1TagLen_take (.inr hk)
    have hbyte : byteAt (s.take n) 0 = byteAt s 0 := byteAt_take (by omega)
    unfold asn1Header
    dsimp only
    rw [htag, hlen, hbyte, byteAt_take hk, if_neg (Nat.not_le.mpr hk),
      if_neg (show ¬s.length ≤ asn1TagLen s by omega)]
    by_cases hlow : byteAt s (asn1TagLen s) < 128
    · rw [if_pos hlow, if_pos hlow]
      constructor
      · intro hh
        obtain rfl := Option.some.inj hh
        exact ⟨rfl, hk⟩
      · exact And.left
    · rw [if_neg hlow, if_neg hlow]
      by_cases hmore : n < asn1TagLen s + 1 + (byteAt s (asn1TagLen s) - 128)
      · rw [if_pos hmore]
        refine iff_of_false (fun hh => nomatch hh) ?_
        rintro ⟨hh, hhlen⟩
        split at hh
        · cases hh
        · obtain rfl := Option.some.inj hh
          exact absurd hmore (Nat.not_lt.mpr hhlen)
      · have hsame : ((s.take n).drop (asn1TagLen s + 1)).take (byteAt s (asn1TagLen s) - 128) =
            (s.drop (asn1TagLen s + 1)).take (byteAt s (asn1TagLen s) - 128) := by
          rw [List.drop_take, List.take_take, Nat.min_eq_left (by omega)]
        have hmore' : ¬s.length < asn1TagLen s + 1 + (byteAt s (asn1TagLen s) - 128) := by omega
        rw [if_neg hmore, if_neg hmore', hsame]
        constructor
        · intro hh
          refine ⟨hh, ?_⟩
          obtain rfl := Option.some.inj hh
          exact Nat.not_lt.mp hmore
        · exact And.left
  · constructor
    · intro hh
      obtain ⟨htag, -, hhlen, -⟩ := asn1Header_some hh
      rw [Asn1Header.hlen, hlen] at hhlen
      have hsame := asn1TagLen_take (s := s) (n := n) (.inl (by omega))
      omega
    · rintro ⟨hh, hhlen⟩
      obtain ⟨htag, -, -, -⟩ := asn1Header_some hh
      rw [Asn1Header.hlen] at hhlen
      omega

end

end PonBeam.Packet
