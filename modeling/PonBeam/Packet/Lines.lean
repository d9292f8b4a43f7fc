import PonBeam.Packet.Header

/-!
# Lines and HTTP

Both look for a byte in what has been read. Where it first is in the stream (`firstAt`) does
not depend on how much has been read; only whether it has been reached does. What is answered
before it has been reached depends on how much has been read, and that is where the law of
framing is at stake.
-/

namespace PonBeam.Packet

/-- Where `c` is first, or the length. -/
def firstAt (c : UInt8) (s : List UInt8) : ℕ := (s.takeWhile fun b => b ≠ c).length

section

variable {s : List UInt8} {c : UInt8} {n m : ℕ}

theorem dropWhile_eq_drop (c : UInt8) (l : List UInt8) :
    (l.dropWhile fun b => b ≠ c) = l.drop (firstAt c l) := by
  have hsplit := List.takeWhile_append_dropWhile (p := fun b : UInt8 => decide (b ≠ c)) (l := l)
  have hdrop : ((l.takeWhile fun b => b ≠ c) ++ l.dropWhile fun b => b ≠ c).drop
      (l.takeWhile fun b => b ≠ c).length = l.dropWhile fun b => b ≠ c := List.drop_left
  rw [hsplit] at hdrop
  exact hdrop.symm

/-- The search among the first `n` bytes. -/
theorem sysMemchr_take (hn : n ≤ s.length) (len : ℤ) :
    sysMemchr (s.take n) c len =
      if firstAt c s < n then .found ((s.take n).drop (firstAt c s))
      else if len < 0 then .astray else .null := by
  have hfirst : firstAt c (s.take n) = min n (firstAt c s) := by
    rw [firstAt, ← List.take_takeWhile, List.length_take, firstAt]
  have hlen : (s.take n).length = n := by rw [List.length_take, Nat.min_eq_left hn]
  unfold sysMemchr
  rw [dropWhile_eq_drop, hfirst]
  by_cases hf : firstAt c s < n
  · rw [Nat.min_eq_right hf.le, if_pos hf]
    split
    · rename_i hnil
      have hle := List.drop_eq_nil_iff.mp hnil
      omega
    · rename_i b rest hcons
      rw [hcons]
  · rw [Nat.min_eq_left (Nat.not_lt.mp hf), if_neg hf, List.drop_eq_nil_of_le hlen.le]

/-! ## Lines -/

/-- The answer for the first `n` bytes, with the delimiter at `p`. -/
def lineAnswer (maxPlen truncLen p n : ℕ) : ℤ :=
  if p < n then
    if maxPlen < p + 1 ∧ maxPlen ≠ 0 then -1
    else if truncLen < p + 1 ∧ truncLen ≠ 0 then wrapInt truncLen
    else wrapInt (p + 1 : ℕ)
  else if maxPlen < n ∧ maxPlen ≠ 0 then -1
  else if truncLen ≤ n ∧ truncLen ≠ 0 then wrapInt truncLen
  else 0

theorem lineLf_take (hn : n ≤ s.length) (maxPlen truncLen : ℕ) :
    lineLf (s.take n) maxPlen truncLen c = lineAnswer maxPlen truncLen (firstAt c s) n := by
  have hlen : (s.take n).length = n := by rw [List.length_take, Nat.min_eq_left hn]
  unfold lineLf lineAnswer
  dsimp only
  rw [hlen, sysMemchr_take hn]
  by_cases hf : firstAt c s < n
  · have hplen : n - ((s.take n).drop (firstAt c s)).length + 1 = firstAt c s + 1 := by
      rw [List.length_drop, hlen]
      omega
    rw [if_pos hf, if_pos hf]
    dsimp only
    rw [hplen]
  · rw [if_neg hf, if_neg hf, if_neg (by omega)]

/-- A line is cut off before it is known whether it is too long. -/
def LineCut (maxPlen truncLen p n m : ℕ) : Prop :=
  0 < truncLen ∧ truncLen < 2147483648 ∧ truncLen ≤ n ∧ n ≤ maxPlen ∧ maxPlen < m ∧ maxPlen ≤ p

section

variable {maxPlen truncLen p : ℕ}

theorem lineAnswer_found (hp : p < n) (hnm : n ≤ m) :
    lineAnswer maxPlen truncLen p m = lineAnswer maxPlen truncLen p n := by
  rw [lineAnswer, lineAnswer, if_pos hp, if_pos (Nat.lt_of_lt_of_le hp hnm)]

theorem lineAnswer_full (hp : n ≤ p) (hmax : maxPlen < n ∧ maxPlen ≠ 0) (hnm : n ≤ m) :
    lineAnswer maxPlen truncLen p m = -1 := by
  unfold lineAnswer
  split
  · exact if_pos ⟨by omega, hmax.2⟩
  · exact if_pos ⟨by omega, hmax.2⟩

/-- Once the line is long enough to be cut off, it is, or it is too long by now. -/
theorem lineAnswer_cut (hp : n ≤ p) (htrunc : truncLen ≤ n ∧ truncLen ≠ 0) (hnm : n ≤ m) :
    lineAnswer maxPlen truncLen p m =
      if maxPlen ≠ 0 ∧ maxPlen < m ∧ maxPlen ≤ p then -1 else wrapInt truncLen := by
  unfold lineAnswer
  split
  · have hcut : truncLen < p + 1 ∧ truncLen ≠ 0 := ⟨by omega, htrunc.2⟩
    rw [if_pos hcut]
    refine if_congr ⟨fun h => ?_, fun h => ?_⟩ rfl rfl
    · exact ⟨h.2, by omega, by omega⟩
    · exact ⟨by omega, h.1⟩
  · have hcut : truncLen ≤ m ∧ truncLen ≠ 0 := ⟨by omega, htrunc.2⟩
    rw [if_pos hcut]
    refine if_congr ⟨fun h => ?_, fun h => ?_⟩ rfl rfl
    · exact ⟨h.2, by omega, by omega⟩
    · exact ⟨by omega, h.1⟩

theorem wrapInt_pos_iff {k : ℕ} (hk : k < 4294967296) (h : k ≠ 0) :
    0 < wrapInt k ↔ k < 2147483648 := by
  simp only [wrapInt]
  omega

/-- **Lines** obey the law but for that. -/
theorem lineAnswer_law (hnm : n ≤ m) (htrunc : truncLen < 4294967296) :
    ((0 < lineAnswer maxPlen truncLen p n →
          lineAnswer maxPlen truncLen p m = lineAnswer maxPlen truncLen p n) ∧
        (lineAnswer maxPlen truncLen p n = -1 → ¬0 < lineAnswer maxPlen truncLen p m)) ↔
      ¬LineCut maxPlen truncLen p n m := by
  by_cases hp : p < n
  · -- the delimiter has been reached
    rw [lineAnswer_found hp hnm]
    refine iff_of_true ⟨fun _ => rfl, fun h => by omega⟩ ?_
    rintro ⟨-, -, -, hmax, -, hle⟩
    omega
  · have hp := Nat.not_lt.mp hp
    by_cases hmax : maxPlen < n ∧ maxPlen ≠ 0
    · rw [lineAnswer_full hp hmax hnm, lineAnswer_full hp hmax (le_refl n)]
      refine iff_of_true ⟨fun h => rfl, fun _ => by decide⟩ ?_
      rintro ⟨-, -, -, hle, -⟩
      omega
    · by_cases hcut : truncLen ≤ n ∧ truncLen ≠ 0
      · have hnow : ¬(maxPlen ≠ 0 ∧ maxPlen < n ∧ maxPlen ≤ p) := fun h => hmax ⟨h.2.1, h.1⟩
        have hpos := wrapInt_pos_iff htrunc hcut.2
        rw [lineAnswer_cut hp hcut hnm, lineAnswer_cut hp hcut (le_refl n), if_neg hnow]
        by_cases hlate : maxPlen ≠ 0 ∧ maxPlen < m ∧ maxPlen ≤ p
        · rw [if_pos hlate]
          unfold LineCut
          constructor
          · rintro ⟨hsame, -⟩ ⟨-, hlt, -⟩
            have heq := hsame (hpos.mpr hlt)
            have hbad : (0 : ℤ) < -1 := by
              rw [heq]
              exact hpos.mpr hlt
            omega
          · intro hno
            refine ⟨fun h => absurd ?_ hno, fun _ => by decide⟩
            have hle : n ≤ maxPlen := Nat.not_lt.mp fun h => hmax ⟨h, hlate.1⟩
            exact ⟨Nat.pos_of_ne_zero hcut.2, hpos.mp h, hcut.1, hle, hlate.2⟩
        · rw [if_neg hlate]
          refine iff_of_true ⟨fun _ => rfl, fun h => by omega⟩ ?_
          rintro ⟨htrunc₀, -, hle₁, hle₂, hlt, hle⟩
          exact hlate ⟨by omega, hlt, hle⟩
      · have hmore : lineAnswer maxPlen truncLen p n = 0 := by
          rw [lineAnswer, if_neg (by omega), if_neg hmax, if_neg hcut]
        rw [hmore]
        refine iff_of_true ⟨fun h => absurd h (by decide), fun h => absurd h (by decide)⟩ ?_
        rintro ⟨hpos, -, hle, -⟩
        omega

end

/-! ## HTTP -/

/-- The end of a line at the `k`-th byte. -/
def httpEnd (limit k : ℕ) : ℤ := if limit ≠ 0 ∧ limit < k then -1 else wrapInt k

theorem some_httpEnd (limit k : ℕ) : some (httpEnd limit k) =
    if limit ≠ 0 ∧ limit < k then some (-1) else some (wrapInt k) :=
  apply_ite ..

/-- The line goes on behind its end at the `k`-th byte. -/
def GoesOn (s : List UInt8) (k : ℕ) : Prop := (byteAt s k = 32 ∨ byteAt s k = 9) ∧ 2 < k

instance (s : List UInt8) (k : ℕ) : Decidable (GoesOn s k) := inferInstanceAs (Decidable (_ ∧ _))

/-- **One turn**, from the byte `k` on, with the next end of line at `p`. -/
theorem httpLoop_take (hn : n ≤ s.length) {k p : ℕ} (hk : k ≤ n)
    (hp : p = k + firstAt 10 (s.drop k)) (limit turns : ℕ) (state : ℤ) :
    httpLoop n limit state (turns + 1) ((s.take n).drop k) =
      if p < n then
        if state = 0 then some (httpEnd limit (p + 1))
        else if p + 1 < n then
          if GoesOn s (p + 1) then httpLoop n limit state turns ((s.take n).drop (p + 1))
          else some (httpEnd limit (p + 1))
        else if limit ≠ 0 ∧ limit < p + 1 then some (-1)
        else some 0
      else if wrapInt (n - k : ℕ) < 0 then none
      else if limit ≠ 0 ∧ limit ≤ n then some (-1)
      else some 0 := by
  have hlen : (s.take n).length = n := by rw [List.length_take, Nat.min_eq_left hn]
  have hdrop : (s.take n).drop k = (s.drop k).take (n - k) := List.drop_take
  have hle : n - k ≤ (s.drop k).length := by
    rw [List.length_drop]
    omega
  rw [httpLoop, hdrop, sysMemchr_take hle, List.length_take, Nat.min_eq_left hle]
  by_cases hf : p < n
  · have hf' : firstAt 10 (s.drop k) < n - k := by omega
    have hptr : ((s.drop k).take (n - k)).drop (firstAt 10 (s.drop k)) = (s.take n).drop p := by
      rw [← hdrop, List.drop_drop, ← hp]
    have hplen : n - ((s.take n).drop p).length + 1 = p + 1 := by
      rw [List.length_drop, hlen]
      omega
    rw [if_pos hf, if_pos hf', hptr]
    dsimp only
    rw [hplen, List.drop_drop, some_httpEnd]
    by_cases hmore : p + 1 < n
    · have hbyte : byteAt ((s.take n).drop (p + 1)) 0 = byteAt s (p + 1) := by
        rw [byteAt_drop, byteAt_take hmore]
      rw [if_pos hmore, if_pos hmore, hbyte]
      rfl
    · rw [if_neg hmore, if_neg hmore]
  · have hf' : ¬firstAt 10 (s.drop k) < n - k := by omega
    rw [if_neg hf, if_neg hf']
    by_cases hneg : wrapInt (n - k : ℕ) < 0
    · rw [if_pos hneg, if_pos hneg]
    · rw [if_neg hneg, if_neg hneg]

section

variable {limit turns : ℕ} {state r : ℤ} {k : ℕ}

theorem httpEnd_pos (h : 0 < httpEnd limit k) :
    httpEnd limit k = wrapInt k ∧ (limit ≠ 0 → k ≤ limit) := by
  unfold httpEnd at *
  split at h
  · exact absurd h (by decide)
  · rename_i hlimit
    rw [if_neg hlimit]
    exact ⟨rfl, fun hne => Nat.not_lt.mp fun hlt => hlimit ⟨hne, hlt⟩⟩

/-- A packet ends behind the next end of line, and is not too long. -/
theorem httpLoop_pos (hn : n ≤ s.length) (hk : k ≤ n)
    (h : httpLoop n limit state turns ((s.take n).drop k) = some r) (hr : 0 < r) :
    k + firstAt 10 (s.drop k) < n ∧
      (limit ≠ 0 → k + firstAt 10 (s.drop k) < limit) := by
  induction turns generalizing k with
  | zero => cases h
  | succ turns ih =>
    obtain ⟨p, hp⟩ : ∃ p, p = k + firstAt 10 (s.drop k) := ⟨_, rfl⟩
    have hend : httpEnd limit (p + 1) = r → limit ≠ 0 → p < limit := by
      rintro rfl hne
      exact (httpEnd_pos hr).2 hne
    rw [httpLoop_take hn hk hp] at h
    rw [← hp]
    split at h
    · rename_i hf
      refine ⟨hf, ?_⟩
      split at h
      · exact hend (Option.some.inj h)
      · split at h
        · rename_i hmore
          split at h
          · intro hne
            have hlt := (ih (k := p + 1) hmore.le h).2 hne
            omega
          · exact hend (Option.some.inj h)
        · split at h
          · obtain rfl := Option.some.inj h
            exact absurd hr (by decide)
          · obtain rfl := Option.some.inj h
            exact absurd hr (by decide)
    · split at h
      · cases h
      · split at h
        · obtain rfl := Option.some.inj h
          exact absurd hr (by decide)
        · obtain rfl := Option.some.inj h
          exact absurd hr (by decide)

/-- **A packet that is there** is there among more bytes. -/
theorem httpLoop_more (hnm : n ≤ m) (hm : m ≤ s.length) (hk : k ≤ n)
    (h : httpLoop n limit state turns ((s.take n).drop k) = some r) (hr : 0 < r) {turns' : ℕ}
    (hturns : turns ≤ turns') :
    httpLoop m limit state turns' ((s.take m).drop k) = some r := by
  induction turns generalizing k turns' with
  | zero => cases h
  | succ turns ih =>
    obtain ⟨turns', rfl⟩ := Nat.exists_eq_succ_of_ne_zero (Nat.ne_of_gt (Nat.zero_lt_of_lt hturns))
    obtain ⟨p, hp⟩ : ∃ p, p = k + firstAt 10 (s.drop k) := ⟨_, rfl⟩
    have hf := (httpLoop_pos (hnm.trans hm) hk h hr).1
    rw [← hp] at hf
    rw [httpLoop_take (hnm.trans hm) hk hp, if_pos hf] at h
    rw [httpLoop_take hm (hk.trans hnm) hp, if_pos (hf.trans_le hnm)]
    split at h
    · rename_i hstate
      rw [if_pos hstate]
      exact h
    · rename_i hstate
      rw [if_neg hstate]
      split at h
      · rename_i hmore
        rw [if_pos (hmore.trans_le hnm)]
        split at h
        · rename_i hgoes
          rw [if_pos hgoes]
          exact ih hmore.le h (Nat.le_of_succ_le_succ hturns)
        · rename_i hgoes
          rw [if_neg hgoes]
          exact h
      · split at h
        · obtain rfl := Option.some.inj h
          exact absurd hr (by decide)
        · obtain rfl := Option.some.inj h
          exact absurd hr (by decide)

/-- **What is too long** stays too long. -/
theorem httpLoop_error (hnm : n < m) (hm : m ≤ s.length) (hlen : s.length < 4294967296)
    (hk : k ≤ n) (h : httpLoop n limit state turns ((s.take n).drop k) = some (-1)) {turns' : ℕ}
    (h' : httpLoop m limit state turns' ((s.take m).drop k) = some r) : ¬0 < r := by
  intro hr
  induction turns generalizing k turns' with
  | zero => cases h
  | succ turns ih =>
    obtain ⟨p, hp⟩ : ∃ p, p = k + firstAt 10 (s.drop k) := ⟨_, rfl⟩
    have hn : n ≤ s.length := hnm.le.trans hm
    have hpos := httpLoop_pos hm (hk.trans hnm.le) h' hr
    rw [← hp] at hpos
    -- an end of line beyond the limit
    have hend : p < n → httpEnd limit (p + 1) ≠ -1 := by
      intro hf hbad
      unfold httpEnd at hbad
      split at hbad
      · rename_i hlimit
        have hlt := hpos.2 hlimit.1
        omega
      · simp only [wrapInt] at hbad
        omega
    rw [httpLoop_take hn hk hp] at h
    split at h
    · rename_i hf
      split at h
      · exact hend hf (Option.some.inj h)
      · rename_i hstate
        split at h
        · rename_i hmore
          split at h
          · rename_i hgoes
            cases turns' with
            | zero => cases h'
            | succ turns' =>
              rw [httpLoop_take hm (hk.trans hnm.le) hp, if_pos (hf.trans hnm), if_neg hstate,
                if_pos (hmore.trans hnm), if_pos hgoes] at h'
              exact ih hmore.le h h'
          · exact hend hf (Option.some.inj h)
        · split at h
          · rename_i hlimit
            have hlt := hpos.2 hlimit.1
            omega
          · cases h
    · rename_i hf
      split at h
      · cases h
      · split at h
        · rename_i hlimit
          have hlt := hpos.2 hlimit.1
          omega
        · cases h

end

/-! ### The empty line -/

/-- `\n` is all there is, or `\r\n` is: the end of the headers, whatever the limit. -/
def EmptyLine (s : List UInt8) (n : ℕ) : Prop :=
  (n = 1 ∧ byteAt s 0 = 10) ∨ (n = 2 ∧ byteAt s 0 = 13 ∧ byteAt s 1 = 10)

instance (s : List UInt8) (n : ℕ) : Decidable (EmptyLine s n) :=
  inferInstanceAs (Decidable (_ ∨ _))

/-- `\r\n`, under the limit 1, is an empty line if it is all there is. -/
def CrnlEarly (limit : ℕ) (s : List UInt8) (n m : ℕ) : Prop :=
  limit = 1 ∧ byteAt s 0 = 13 ∧ byteAt s 1 = 10 ∧ ((n = 1 ∧ m = 2) ∨ (n = 2 ∧ 3 ≤ m))

section

variable {maxPlen truncLen limit : ℕ} {state : ℤ}

theorem httpLength_take (hn : n ≤ s.length) (hlimit : limit = if maxPlen = 0 then truncLen else maxPlen) :
    httpLength (s.take n) maxPlen truncLen state =
      if EmptyLine s n then some (n : ℤ)
      else httpLoop n limit state (n + 1) ((s.take n).drop 0) := by
  have hlen : (s.take n).length = n := by rw [List.length_take, Nat.min_eq_left hn]
  unfold httpLength
  dsimp only
  rw [hlen, ← hlimit]
  refine if_congr ?_ rfl rfl
  unfold EmptyLine
  constructor
  · rintro (⟨rfl, h₀⟩ | ⟨rfl, h₀, h₁⟩)
    · exact .inl ⟨rfl, by rwa [byteAt_take (by decide)] at h₀⟩
    · rw [byteAt_take (by decide)] at h₀ h₁
      exact .inr ⟨rfl, h₀, h₁⟩
  · rintro (⟨rfl, h₀⟩ | ⟨rfl, h₀, h₁⟩)
    · exact .inl ⟨rfl, by rwa [byteAt_take (by decide)]⟩
    · refine .inr ⟨rfl, ?_, ?_⟩ <;> rwa [byteAt_take (by decide)]

theorem firstAt_of_nl (h : byteAt s 0 = 10) : firstAt 10 s = 0 := by
  cases s with
  | nil => rfl
  | cons b s =>
    have hb : b = 10 := UInt8.toNat_inj.mp h
    rw [firstAt, hb, List.takeWhile_cons_of_neg (by decide)]
    rfl

theorem firstAt_of_crnl (h₀ : byteAt s 0 = 13) (h₁ : byteAt s 1 = 10) : firstAt 10 s = 1 := by
  cases s with
  | nil => cases h₀
  | cons b s =>
    have hb : b = 13 := UInt8.toNat_inj.mp h₀
    have hs : firstAt 10 s = 0 := firstAt_of_nl h₁
    rw [firstAt, hb, List.takeWhile_cons_of_pos (by decide), List.length_cons]
    exact congrArg (· + 1) hs

/-- The end of the first line, with more behind it. -/
theorem httpLoop_first (hm : m ≤ s.length) {p : ℕ} (hp : p = firstAt 10 s) (hlt : p + 1 < m)
    (hlow : p < 2) (turns : ℕ) :
    httpLoop m limit state (turns + 1) ((s.take m).drop 0) = some (httpEnd limit (p + 1)) := by
  have hp' : p = 0 + firstAt 10 (s.drop 0) := by rw [hp, List.drop_zero, Nat.zero_add]
  have hgoes : ¬GoesOn s (p + 1) := fun h => by
    have hlong := h.2
    omega
  rw [httpLoop_take hm m.zero_le hp', if_pos (by omega), if_pos hlt, if_neg hgoes]
  split <;> rfl

/-- The end of the first line has not been reached. -/
theorem httpLoop_short (hn : n ≤ s.length) (hlt : n ≤ firstAt 10 s) (hsmall : n < 2147483648)
    (turns : ℕ) :
    httpLoop n limit state (turns + 1) ((s.take n).drop 0) =
      some (if limit ≠ 0 ∧ limit ≤ n then -1 else 0) := by
  have hp : firstAt 10 s = 0 + firstAt 10 (s.drop 0) := by rw [List.drop_zero, Nat.zero_add]
  have hneg : ¬wrapInt (n - 0 : ℕ) < 0 := by
    rw [Nat.sub_zero, wrapInt_of_lt hsmall]
    omega
  rw [httpLoop_take hn n.zero_le hp, if_neg (by omega), if_neg hneg]
  split <;> rfl

theorem not_emptyLine (h : 3 ≤ m) : ¬EmptyLine s m := by
  rintro (⟨rfl, -⟩ | ⟨rfl, -⟩)
  · exact absurd h (by decide)
  · exact absurd h (by decide)

/-- What the law fails on. -/
theorem CrnlEarly.answers (h : CrnlEarly limit s n m) (hm : m ≤ s.length)
    (hlimit : limit = if maxPlen = 0 then truncLen else maxPlen) :
    (httpLength (s.take n) maxPlen truncLen state = some (-1) ∧
        httpLength (s.take m) maxPlen truncLen state = some 2) ∨
      (httpLength (s.take n) maxPlen truncLen state = some 2 ∧
        httpLength (s.take m) maxPlen truncLen state = some (-1)) := by
  obtain ⟨hone, h₀, h₁, hcase⟩ := h
  have hfirst := firstAt_of_crnl h₀ h₁
  have htwo : EmptyLine s 2 := .inr ⟨rfl, h₀, h₁⟩
  rcases hcase with ⟨rfl, rfl⟩ | ⟨rfl, hm₃⟩
  · have hnot : ¬EmptyLine s 1 := by
      rintro (⟨-, h⟩ | ⟨h, -⟩)
      · rw [h₀] at h
        exact absurd h (by decide)
      · exact absurd h (by decide)
    refine .inl ⟨?_, ?_⟩
    · rw [httpLength_take (by omega) hlimit, if_neg hnot,
        httpLoop_short (by omega) (by omega) (by decide), hone]
      rfl
    · rw [httpLength_take hm hlimit, if_pos htwo]
      rfl
  · refine .inr ⟨?_, ?_⟩
    · rw [httpLength_take (by omega) hlimit, if_pos htwo]
      rfl
    · rw [httpLength_take hm hlimit, if_neg (not_emptyLine hm₃),
        httpLoop_first hm hfirst.symm (by omega) (by decide), hone]
      rfl

/-- An empty line stays one when more bytes follow. -/
theorem httpLength_emptyLine (hno : ¬CrnlEarly limit s n m) (hnm : n ≤ m) (hm : m ≤ s.length)
    (hlimit : limit = if maxPlen = 0 then truncLen else maxPlen) (hempty : EmptyLine s n) :
    httpLength (s.take m) maxPlen truncLen state = some (n : ℤ) := by
  rw [httpLength_take hm hlimit]
  rcases hempty with ⟨rfl, h₀⟩ | ⟨rfl, h₀, h₁⟩
  · by_cases hm₁ : m = 1
    · rw [if_pos (.inl ⟨hm₁, h₀⟩), hm₁]
    · have hnot : ¬EmptyLine s m := by
        rintro (⟨h, -⟩ | ⟨-, h, -⟩)
        · exact hm₁ h
        · rw [h₀] at h
          exact absurd h (by decide)
      have hend : httpEnd limit 1 = wrapInt 1 := if_neg (by omega)
      rw [if_neg hnot, httpLoop_first hm (firstAt_of_nl h₀).symm (by omega) (by decide), hend]
      rfl
  · by_cases hm₂ : m = 2
    · rw [if_pos (.inr ⟨hm₂, h₀, h₁⟩), hm₂]
    · have hnot : limit ≠ 1 := fun h => hno ⟨h, h₀, h₁, .inr ⟨rfl, by omega⟩⟩
      have hend : httpEnd limit 2 = wrapInt 2 := if_neg (by omega)
      rw [if_neg (not_emptyLine (by omega)),
        httpLoop_first hm (firstAt_of_crnl h₀ h₁).symm (by omega) (by decide), hend]
      rfl

/-- Before an empty line is there, nothing is answered but under the limit 1. -/
theorem httpLoop_before_emptyLine (hno : ¬CrnlEarly limit s n m) (hnm : n ≤ m)
    (hm : m ≤ s.length) (hn : ¬EmptyLine s n) (hempty : EmptyLine s m) (turns : ℕ) :
    httpLoop n limit state (turns + 1) ((s.take n).drop 0) = some 0 := by
  have hshort : n ≤ firstAt 10 s ∧ n ≤ 1 ∧ ¬(limit ≠ 0 ∧ limit ≤ n) := by
    rcases hempty with ⟨rfl, h₀⟩ | ⟨rfl, h₀, h₁⟩
    · have hzero : n ≠ 1 := fun h => hn (.inl ⟨h, h₀⟩)
      omega
    · have htwo : n ≠ 2 := fun h => hn (.inr ⟨h, h₀, h₁⟩)
      have hfirst := firstAt_of_crnl h₀ h₁
      have hlimit : ¬(limit = 1 ∧ n = 1) := fun h => hno ⟨h.1, h₀, h₁, .inl ⟨h.2, rfl⟩⟩
      omega
  rw [httpLoop_short (hnm.trans hm) hshort.1 (by omega), if_neg hshort.2.2]

/-- **HTTP** obeys the law but for that. -/
theorem httpLength_law (hnm : n ≤ m) (hm : m ≤ s.length) (hlen : s.length < 4294967296)
    (hlimit : limit = if maxPlen = 0 then truncLen else maxPlen) :
    ((∀ r, 0 < r → httpLength (s.take n) maxPlen truncLen state = some r →
          httpLength (s.take m) maxPlen truncLen state = some r) ∧
        (httpLength (s.take n) maxPlen truncLen state = some (-1) →
          ∀ r, 0 < r → httpLength (s.take m) maxPlen truncLen state ≠ some r)) ↔
      ¬CrnlEarly limit s n m := by
  constructor
  · rintro ⟨hpos, herr⟩ hearly
    rcases hearly.answers hm hlimit with ⟨hn', hm'⟩ | ⟨hn', hm'⟩
    · exact herr hn' 2 (by decide) hm'
    · rw [hpos 2 (by decide) hn'] at hm'
      exact absurd hm' (by decide)
  · intro hno
    by_cases hempty : EmptyLine s n
    · have hn' : httpLength (s.take n) maxPlen truncLen state = some (n : ℤ) := by
        rw [httpLength_take (hnm.trans hm) hlimit, if_pos hempty]
      rw [hn', httpLength_emptyLine hno hnm hm hlimit hempty]
      refine ⟨fun r _ h => h, fun h => ?_⟩
      have h := Option.some.inj h
      omega
    · rw [httpLength_take (hnm.trans hm) hlimit, if_neg hempty, httpLength_take hm hlimit]
      by_cases hmempty : EmptyLine s m
      · rw [httpLoop_before_emptyLine hno hnm hm hempty hmempty]
        refine ⟨fun r hr h => ?_, fun h => absurd h (by decide)⟩
        obtain rfl := Option.some.inj h
        exact absurd hr (by decide)
      · rw [if_neg hmempty]
        refine ⟨fun r hr h => ?_, fun h r hr h' => ?_⟩
        · exact httpLoop_more hnm hm n.zero_le h hr (by omega)
        · rcases hnm.eq_or_lt with rfl | hlt
          · obtain rfl := Option.some.inj (h.symm.trans h')
            exact absurd hr (by decide)
          · exact httpLoop_error hlt hm hlen n.zero_le h h' hr

end

end

end PonBeam.Packet
