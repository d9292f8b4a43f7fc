import PonBeam.Receive.Runtime

/-!
# What `receive_msg` does to the mailbox

`receive_msg` takes messages out one by one until one is accepted, and does not put
the others back (`receiveMsg_spec`); `receive_msg_timeout` takes the next message
without looking at the premises. `ReceiveLossless` and `TimeoutLossless` state what a
selective receive owes its mailbox: the oldest matching message is taken, and all
others stay in their order. Each function meets its law exactly when the oldest
message it takes is one that matches, or when it takes none.
-/

namespace PonBeam.Receive

/-- `receive_msg` stops at `msg`: a premise matches it, or it is the atom `timeout`. -/
def Accepts (premises : List Premise) (msg : Term) : Prop :=
  msg = .atom "timeout" ∨ (matchAny premises msg).isSome

instance (premises : List Premise) (msg : Term) : Decidable (Accepts premises msg) :=
  inferInstanceAs (Decidable (_ ∨ _))

/-! ## The loop -/

theorem receiveMsgLoop_accept {premises : List Premise} {msg : Term} (h : Accepts premises msg)
    (mailbox : List Term) : receiveMsgLoop premises msg mailbox = .value msg mailbox := by
  unfold receiveMsgLoop
  split
  · rfl
  · rename_i hne
    obtain ⟨idx, hidx⟩ := Option.isSome_iff_exists.mp (h.resolve_left hne)
    rw [hidx]

theorem receiveMsgLoop_drop {premises : List Premise} {msg : Term} (h : ¬ Accepts premises msg)
    (mailbox : List Term) :
    receiveMsgLoop premises msg mailbox = receiveMsg (some premises) mailbox := by
  have hne : msg ≠ .atom "timeout" := fun he => h (Or.inl he)
  have hnone : matchAny premises msg = none :=
    Option.not_isSome_iff_eq_none.mp fun hs => h (Or.inr hs)
  rw [receiveMsgLoop.eq_def]
  split
  · exact absurd rfl hne
  · rw [hnone]
    cases mailbox with
    | nil => rfl
    | cons next mailbox => rfl

theorem receiveMsg_dict (dict : Dict) (mailbox : List Term) :
    receiveMsg dict mailbox = receiveMsg (some (dict.getD [])) mailbox := by
  cases mailbox <;> rfl

/-- **The loop.** Everything up to the first accepted message is gone; with none accepted,
everything is. -/
theorem receiveMsg_spec (premises : List Premise) (delivered : List Term) :
    (∃ dropped msg rest, delivered = dropped ++ msg :: rest ∧
      (∀ x ∈ dropped, ¬ Accepts premises x) ∧ Accepts premises msg ∧
      receiveMsg (some premises) delivered = .value msg rest) ∨
    (∀ x ∈ delivered, ¬ Accepts premises x) ∧
      receiveMsg (some premises) delivered = .waits [] := by
  induction delivered with
  | nil => exact Or.inr ⟨by simp, rfl⟩
  | cons m delivered ih =>
    by_cases hm : Accepts premises m
    · exact Or.inl ⟨[], m, delivered, rfl, by simp, hm, receiveMsgLoop_accept hm delivered⟩
    · have hstep : receiveMsg (some premises) (m :: delivered) =
          receiveMsg (some premises) delivered := receiveMsgLoop_drop hm delivered
      rw [hstep]
      rcases ih with ⟨dropped, msg, rest, rfl, hdrop, hacc, hrun⟩ | ⟨hall, hrun⟩
      · refine Or.inl ⟨m :: dropped, msg, rest, rfl, fun x hx => ?_, hacc, hrun⟩
        rcases List.mem_cons.mp hx with rfl | hx
        · exact hm
        · exact hdrop x hx
      · refine Or.inr ⟨fun x hx => ?_, hrun⟩
        rcases List.mem_cons.mp hx with rfl | hx
        · exact hm
        · exact hall x hx

/-! ## The laws -/

/-- A selective receive took `msg` out of `delivered`: the oldest message that matches a
premise, with everything else left in order. -/
def TakesOldest (premises : List Premise) (delivered : List Term) (msg : Term)
    (mailbox : List Term) : Prop :=
  ∃ before after, delivered = before ++ msg :: after ∧ mailbox = before ++ after ∧
    (matchAny premises msg).isSome ∧ ∀ x ∈ before, matchAny premises x = none

/-- What `receive_msg` owes the mailbox. -/
def ReceiveLossless (dict : Dict) (delivered : List Term) : Prop :=
  ∀ msg mailbox, receiveMsg dict delivered = .value msg mailbox →
    TakesOldest (dict.getD []) delivered msg mailbox

/-- What `receive_msg_timeout` owes the mailbox. -/
def TimeoutLossless (dict : Dict) (timeoutMs : Timeout) (arrivals : List (ℕ × Term)) : Prop :=
  ∀ v mailbox, receiveMsgTimeout timeoutMs arrivals = .value v mailbox →
    v = .atom "timeout" ∧ mailbox = arrivals ∨
    TakesOldest (dict.getD []) (arrivals.map Prod.snd) v (mailbox.map Prod.snd)

/-- A message taken from the front was the oldest match exactly when it matches. -/
theorem takesOldest_head {premises : List Premise} {msg : Term} {mailbox : List Term} :
    TakesOldest premises (msg :: mailbox) msg mailbox ↔ (matchAny premises msg).isSome := by
  constructor
  · rintro ⟨_, _, -, -, h, -⟩
    exact h
  · intro h
    exact ⟨[], mailbox, rfl, rfl, h, by simp⟩

/-- A receive takes one message: it cannot have dropped others. -/
theorem TakesOldest.length_eq {premises : List Premise} {delivered mailbox : List Term}
    {msg : Term} (h : TakesOldest premises delivered msg mailbox) :
    delivered.length = mailbox.length + 1 := by
  obtain ⟨before, after, rfl, rfl, -, -⟩ := h
  simp only [List.length_append, List.length_cons]
  omega

theorem receiveLossless_iff (dict : Dict) (delivered : List Term) :
    ReceiveLossless dict delivered ↔
      (∀ x ∈ delivered, ¬ Accepts (dict.getD []) x) ∨
      ∃ msg rest, delivered = msg :: rest ∧ (matchAny (dict.getD []) msg).isSome := by
  unfold ReceiveLossless
  rw [receiveMsg_dict]
  rcases receiveMsg_spec (dict.getD []) delivered with
    ⟨dropped, msg, rest, hdel, hdrop, hacc, hrun⟩ | ⟨hall, hrun⟩
  · rw [hrun]
    constructor
    · intro h
      have htake := h msg rest rfl
      have hnil : dropped = [] := by
        have hlen := htake.length_eq
        rw [hdel] at hlen
        simp only [List.length_append, List.length_cons] at hlen
        exact List.length_eq_zero_iff.mp (by omega)
      subst hnil
      obtain rfl : delivered = msg :: rest := hdel
      exact Or.inr ⟨msg, rest, rfl, takesOldest_head.mp htake⟩
    · rintro (hnone | ⟨msg', rest', heq, hmatch⟩) m mb hm
      · exact absurd hacc (hnone msg (by rw [hdel]; simp))
      · obtain ⟨rfl, rfl⟩ := Received.value.inj hm
        -- the first message is accepted, so nothing was dropped before it
        have hnil : dropped = [] := by
          cases dropped with
          | nil => rfl
          | cons d ds =>
            rw [hdel] at heq
            have hd : d = msg' := (List.cons.inj heq).1
            exact absurd (Or.inr (hd ▸ hmatch)) (hdrop d (List.mem_cons_self ..))
        subst hnil
        obtain ⟨rfl, rfl⟩ := List.cons.inj (hdel.symm.trans heq)
        rw [hdel]
        exact takesOldest_head.mpr hmatch
  · rw [hrun]
    exact ⟨fun _ => Or.inl hall, fun _ m mb hm => by cases hm⟩

theorem timeoutLossless_iff (dict : Dict) (timeoutMs : Timeout) (arrivals : List (ℕ × Term)) :
    TimeoutLossless dict timeoutMs arrivals ↔
      ∀ t msg rest, arrivals = (t, msg) :: rest → timeoutMs.covers t →
        (matchAny (dict.getD []) msg).isSome := by
  unfold TimeoutLossless
  cases arrivals with
  | nil =>
    refine ⟨(fun _ _ _ _ h => nomatch h), fun _ v mb hv => ?_⟩
    cases timeoutMs with
    | infinity => cases hv
    | ms n =>
      obtain ⟨rfl, rfl⟩ := Received.value.inj hv
      exact Or.inl ⟨rfl, rfl⟩
  | cons a rest =>
    obtain ⟨t, msg⟩ := a
    have hrun : receiveMsgTimeout timeoutMs ((t, msg) :: rest) =
        if timeoutMs.covers t then .value msg rest
        else .value (.atom "timeout") ((t, msg) :: rest) := by
      cases timeoutMs <;> rfl
    rw [hrun]
    by_cases hc : timeoutMs.covers t = true
    · rw [if_pos hc]
      constructor
      · intro h t' msg' rest' heq _
        obtain ⟨hhead, rfl⟩ := List.cons.inj heq
        obtain ⟨rfl, rfl⟩ := Prod.mk.inj hhead
        rcases h msg rest rfl with ⟨-, hlen⟩ | htake
        · exact absurd (congrArg List.length hlen) (by simp)
        · exact takesOldest_head.mp htake
      · intro h v mb hv
        obtain ⟨rfl, rfl⟩ := Received.value.inj hv
        exact Or.inr (takesOldest_head.mpr (h t msg rest rfl hc))
    · rw [if_neg hc]
      constructor
      · intro _ t' msg' rest' heq hc'
        obtain ⟨hhead, -⟩ := List.cons.inj heq
        obtain ⟨rfl, -⟩ := Prod.mk.inj hhead
        exact absurd hc' hc
      · intro _ v mb hv
        obtain ⟨rfl, rfl⟩ := Received.value.inj hv
        exact Or.inl ⟨rfl, rfl⟩

/-- **No message loss, exactly when.** `receive_msg` keeps its mailbox intact exactly when it
never returns or the oldest delivered message matches a premise; `receive_msg_timeout`
exactly when no message comes in time or the first one that does matches a premise. -/
theorem lossless_iff (dict : Dict) :
    (∀ delivered, ReceiveLossless dict delivered ↔
      (∀ x ∈ delivered, ¬ Accepts (dict.getD []) x) ∨
      ∃ msg rest, delivered = msg :: rest ∧ (matchAny (dict.getD []) msg).isSome) ∧
    (∀ timeoutMs arrivals, TimeoutLossless dict timeoutMs arrivals ↔
      ∀ t msg rest, arrivals = (t, msg) :: rest → timeoutMs.covers t →
        (matchAny (dict.getD []) msg).isSome) :=
  ⟨receiveLossless_iff dict, timeoutLossless_iff dict⟩

/-- With the premise `{5, '_'}` and the messages `{6, a}` and `{5, b}` delivered in this
order, `receive_msg` returns the second and leaves an empty mailbox: the first is lost. -/
theorem receiveMsg_loses_message :
    receiveMsg (some [(.tuple [.int 5, .atom "_"], .int 0)])
        [.tuple [.int 6, .atom "a"], .tuple [.int 5, .atom "b"]] =
      .value (.tuple [.int 5, .atom "b"]) [] ∧
    ¬ ReceiveLossless (some [(.tuple [.int 5, .atom "_"], .int 0)])
        [.tuple [.int 6, .atom "a"], .tuple [.int 5, .atom "b"]] := by
  have hrun : receiveMsg (some [(.tuple [.int 5, .atom "_"], .int 0)])
      [.tuple [.int 6, .atom "a"], .tuple [.int 5, .atom "b"]] =
        .value (.tuple [.int 5, .atom "b"]) [] := by decide
  exact ⟨hrun, fun h => absurd (h _ _ hrun).length_eq (by simp)⟩

end PonBeam.Receive
