import PonBeam.SigQueue.Order

/-!
# Selective receive (`erl_proc_sig_queue.h`, `msg_instrs.tab`, `pon_premise.c`)

The loop of a `receive`: look at the message behind the save pointer, take it out if a
clause matches, go on to the next one if not, and fetch what has arrived when the end is
reached. The save pointer is the address of the pointer at the message, so that taking a
message out writes through it wherever the message is.

`loop_rec`, `loop_rec_end` and `remove_message` call the functions of the Premises, if the
process has any. These are switched off: they answer that nothing matched and leave the
queue alone. The link that a message keeps of its way into the queue (`pon_in_link`) is
read by none of them and is left out.
-/

namespace PonBeam.SigQueue

universe u

/-- What the functions here use of an `ErtsPremise`; `T` has the terms. -/
structure Premise (T : Type u) where
  /-- `has_match` -/
  hasMatch : Bool
  /-- `matched_term`, or `THE_NON_VALUE` -/
  matchedTerm : Option T
  /-- `matched_msg`, or `NULL` -/
  matchedMsg : Option Sig

/-- `FS_SET_SAVE_INFO_*`: where the search began. -/
inductive SaveInfo : Type where
  /-- at the start of the queue -/
  | first
  /-- at a receive marker -/
  | rcvm
  /-- at the marker of the priority queue -/
  | mark
  /-- at the end of the queue -/
  | last
  deriving DecidableEq, Repr

/-- A process in a `receive`. -/
structure Receiver (T : Type u) where
  /-- its queues -/
  proc : Proc
  /-- `sig_qs.save` -/
  save : Slot
  /-- `ERTS_MQ_GET_SAVE_INFO` -/
  saveInfo : SaveInfo
  /-- `pon_premises`, `NULL` if empty -/
  premises : List (Premise T)

namespace Receiver

variable {T : Type u}

/-! ## The Premises -/

/-- `erts_pon_notify_premises`: the Premises stay as they are. -/
def notifyPremises (r : Receiver T) : Receiver T × Int :=
  if r.premises = [] then (r, 0) else (r, 0)

/-- `erts_pon_advance_to_matched`: the save pointer stays where it is. -/
def advanceToMatched (r : Receiver T) : Receiver T × Bool :=
  if r.premises = [] then (r, false) else (r, false)

/-- `erts_pon_note_message_consumed` -/
def noteMessageConsumed (r : Receiver T) (msg : Sig) : Receiver T :=
  { r with premises := r.premises.map fun prem =>
      if prem.matchedMsg = some msg then ⟨false, none, none⟩ else prem }

/-! ## The queue -/

/-- `erts_msgq_peek_msg` -/
def peekMsg (r : Receiver T) : Option Sig := r.proc.load r.save

/-- `erts_msgq_set_save_first`, without markers at the front. -/
def setSaveFirst (r : Receiver T) : Receiver T := { r with save := .first, saveInfo := .first }

/-- `erts_msgq_unlink_msg_set_save_first`, without a marker behind the message. -/
def unlinkMsgSetSaveFirst (r : Receiver T) (msg : Sig) : Receiver T :=
  let sigp := r.proc.mem.next msg
  let p := r.proc.store r.save sigp
  let p := p.updQs fun q => { q with mqLen := q.mqLen - 1 }
  let p := if sigp = none then p.updQs fun q => { q with last := r.save } else p
  let r := setSaveFirst { r with proc := p }
  if r.premises ≠ [] then r.noteMessageConsumed msg else r

/-- `erts_msgq_set_save_next`, without a marker behind the message. -/
def setSaveNext (r : Receiver T) : Receiver T :=
  match r.peekMsg with
  | none => r
  | some msg =>
    if r.premises ≠ [] ∧ r.saveInfo = .first then
      let advanced := r.advanceToMatched
      if advanced.2 then advanced.1 else { advanced.1 with save := .next msg }
    else { r with save := .next msg }

/-- `loop_rec`, up to the message. -/
def loopRec (r : Receiver T) : Receiver T × Option Sig :=
  match r.peekMsg with
  | none => (r, none)
  | some msg =>
    if r.premises ≠ [] then
      let r := r.advanceToMatched.1
      (r, r.peekMsg)
    else (r, some msg)

/-- `remove_message` -/
def removeMessage (r : Receiver T) (msg : Sig) : Receiver T :=
  let r := r.unlinkMsgSetSaveFirst msg
  if r.premises ≠ [] then r.noteMessageConsumed msg else r

/-- A message is made and sent: `erts_alloc_message` and `queue_messages`. -/
def sendMessage (r : Receiver T) (msg : Sig) : Receiver T :=
  let mem := { r.proc.mem with
    next := Function.update r.proc.mem.next msg none
    isMsg := Function.update r.proc.mem.isMsg msg true }
  let r := { r with proc := linkMessage { r.proc with mem := mem } msg }
  if r.premises ≠ [] then r.notifyPremises.1 else r

/-- The messages `msgs` have arrived when the queue is fetched. -/
def fetch (r : Receiver T) (msgs : List Sig) : Receiver T :=
  let r := msgs.foldl sendMessage r
  { r with proc := procSigFetch r.proc false }

end Receiver

/-- What comes of a `receive`. -/
inductive Outcome (T : Type u) : Type u where
  /-- a message is taken out -/
  | received (msg : Sig) (r : Receiver T)
  /-- there is none to take, and none is to come -/
  | waiting (r : Receiver T)
  /-- it is not done yet -/
  | running

/-- **The loop**, for so many turns; each time its end is reached the messages of one of
`arrivals` have arrived. -/
def receiveLoop {T : Type u} (isMatch : Sig → Bool) :
    ℕ → List (List Sig) → Receiver T → Outcome T
  | 0, _, _ => .running
  | fuel + 1, arrivals, r =>
    match r.loopRec with
    | (r, some msg) =>
      if isMatch msg then .received msg (r.removeMessage msg)
      else receiveLoop isMatch fuel arrivals r.setSaveNext
    | (r, none) =>
      match arrivals with
      | [] => .waiting r
      | msgs :: arrivals => receiveLoop isMatch fuel arrivals (r.fetch msgs)

/-! ## The Premises have no part in it -/

section

variable {T : Type u} (r : Receiver T)

/-- The same process without Premises. -/
def Receiver.bare (r : Receiver T) : Receiver T := { r with premises := [] }

/-- The same outcome without Premises. -/
def Outcome.bare : Outcome T → Outcome T
  | .received msg r => .received msg r.bare
  | .waiting r => .waiting r.bare
  | .running => .running

theorem advanceToMatched_eq : r.advanceToMatched = (r, false) := ite_self _

theorem loopRec_eq : r.loopRec = (r, r.peekMsg) := by
  unfold Receiver.loopRec
  rw [advanceToMatched_eq]
  cases hp : r.peekMsg with
  | none => rfl
  | some msg =>
    dsimp only
    split_ifs
    · exact congrArg (Prod.mk r) hp
    · rfl

theorem setSaveNext_of_peek {msg : Sig} (h : r.peekMsg = some msg) :
    r.setSaveNext = { r with save := .next msg } := by
  unfold Receiver.setSaveNext
  rw [h, advanceToMatched_eq]
  exact ite_self _

/-- `erts_msgq_unlink_msg_set_save_first` on the queues. -/
def unlinked (p : Proc) (save : Slot) (msg : Sig) : Proc :=
  let sigp := p.mem.next msg
  let p := (p.store save sigp).updQs fun q => { q with mqLen := q.mqLen - 1 }
  if sigp = none then p.updQs fun q => { q with last := save } else p

theorem removeMessage_bare (msg : Sig) :
    (r.removeMessage msg).bare = ⟨unlinked r.proc r.save msg, .first, .first, []⟩ := by
  unfold Receiver.removeMessage Receiver.unlinkMsgSetSaveFirst
  dsimp only
  split_ifs <;> simp only [unlinked, *] <;> rfl

theorem sendMessage_eq (msg : Sig) : r.sendMessage msg = { r with proc := (linkMessage { r.proc with
    mem := { r.proc.mem with
      next := Function.update r.proc.mem.next msg none
      isMsg := Function.update r.proc.mem.isMsg msg true } } msg) } := by
  unfold Receiver.sendMessage Receiver.notifyPremises
  dsimp only
  split_ifs <;> rfl

theorem sendMessages_bare (msgs : List Sig) : (msgs.foldl Receiver.sendMessage r).bare
    = msgs.foldl Receiver.sendMessage r.bare := by
  induction msgs generalizing r with
  | nil => rfl
  | cons msg msgs ih =>
    rw [List.foldl_cons, List.foldl_cons, ih, sendMessage_eq, sendMessage_eq]
    rfl

theorem fetch_bare (msgs : List Sig) : (r.fetch msgs).bare = r.bare.fetch msgs := by
  unfold Receiver.fetch
  rw [← sendMessages_bare]
  rfl

/-- One turn of the loop. -/
theorem receiveLoop_succ (isMatch : Sig → Bool) (fuel : ℕ) (arrivals : List (List Sig)) :
    receiveLoop isMatch (fuel + 1) arrivals r =
      match r.peekMsg with
      | some msg =>
        if isMatch msg then .received msg (r.removeMessage msg)
        else receiveLoop isMatch fuel arrivals { r with save := .next msg }
      | none =>
        match arrivals with
        | [] => .waiting r
        | msgs :: arrivals => receiveLoop isMatch fuel arrivals (r.fetch msgs) := by
  rw [receiveLoop, loopRec_eq]
  cases hp : r.peekMsg with
  | none => rfl
  | some msg =>
    dsimp only
    rw [setSaveNext_of_peek r hp]

/-- **The Premises have no part in it.** -/
theorem receiveLoop_bare (isMatch : Sig → Bool) (fuel : ℕ) (arrivals : List (List Sig)) :
    (receiveLoop isMatch fuel arrivals r).bare
      = (receiveLoop isMatch fuel arrivals r.bare).bare := by
  induction fuel generalizing arrivals r with
  | zero => rfl
  | succ fuel ih =>
    have hpeek : r.bare.peekMsg = r.peekMsg := by
      unfold Receiver.peekMsg
      rfl
    rw [receiveLoop_succ, receiveLoop_succ, hpeek]
    cases r.peekMsg with
    | some msg =>
      dsimp only
      split_ifs
      · refine congrArg (Outcome.received msg) ?_
        rw [removeMessage_bare, removeMessage_bare]
        rfl
      · exact ih _ arrivals
    | none =>
      cases arrivals with
      | nil => rfl
      | cons msgs arrivals =>
        dsimp only
        rw [ih, fetch_bare]

end

/-! ## The queue during a scan -/

/-- The scan has passed `I` and has `J` before it; nothing is in the other queues. -/
structure Scanning {T : Type u} (r : Receiver T) (I J : List Sig) : Prop where
  /-- the queues -/
  rep : Rep r.proc (I ++ J) [] []
  /-- the save pointer -/
  save : r.save = endSlot .first I

section

variable {T : Type u} {r : Receiver T} {I J : List Sig} {msg : Sig}

/-- The end of `I` points where `J` starts. -/
theorem load_endSlot {p : Proc} (h : Seg p.mem.next p.qs.first (I ++ J) none) :
    p.load (endSlot .first I) = J.head? := by
  obtain ⟨m, hI, hJ⟩ := Seg.append_iff.mp h
  have hm : p.load (endSlot .first I) = m := by
    rcases List.eq_nil_or_concat I with rfl | ⟨l, y, rfl⟩
    · exact hI
    · rw [List.concat_eq_append] at hI ⊢
      obtain ⟨n, -, rfl, hy⟩ := Seg.append_iff.mp hI
      have hend : endSlot .first (l ++ [y]) = .next y := by
        rw [endSlot_append]
        rfl
      rw [hend]
      exact hy
  rw [hm, hJ.head_eq]

theorem Scanning.peekMsg (h : Scanning r I J) : r.peekMsg = J.head? := by
  unfold Receiver.peekMsg
  rw [h.save]
  exact load_endSlot h.rep.innerLinks

/-- On to the next message. -/
theorem Scanning.next (h : Scanning r I (msg :: J)) :
    Scanning { r with save := .next msg } (I ++ [msg]) J := by
  refine ⟨?_, ?_⟩
  · rw [List.append_assoc]
    exact h.rep
  · rw [endSlot_append]
    rfl

/-- The pointer at the message is overwritten with the one behind it. -/
theorem seg_unlink {p : Proc} (h : Seg p.mem.next p.qs.first (I ++ msg :: J) none)
    (hnd : (I ++ msg :: J).Nodup) :
    Seg (p.store (endSlot .first I) (p.mem.next msg)).mem.next
      ((p.store (endSlot .first I) (p.mem.next msg)).load .first) (I ++ J) none := by
  refine h.unlink hnd (fun y hy => ?_) ?_ fun z _ hz => store_next_of_ne .first trivial hz
  · rcases endSlot_cases .first I with ⟨rfl, -⟩ | ⟨z, hz, he⟩
    · cases hy
    · rw [he]
      obtain rfl := Option.some.inj (hz.symm.trans hy)
      exact Function.update_self ..
  · rcases endSlot_cases .first I with ⟨rfl, he⟩ | ⟨z, hz, he⟩
    · rw [he, if_pos rfl]
      rfl
    · have hne : I ≠ [] := by
        rintro rfl
        cases hz
      rw [he, if_neg hne]
      rfl

/-- The last pointer moves only if the message was the last one. -/
theorem endSlot_unlink (I : List Sig) (msg : Sig) (J : List Sig) :
    (if J.head? = none then endSlot .first I else endSlot .first (I ++ msg :: J))
      = endSlot .first (I ++ J) := by
  cases J with
  | nil =>
    rw [List.append_nil]
    exact if_pos rfl
  | cons y J =>
    have hne : (y :: J).head? ≠ none := Option.some_ne_none y
    rw [if_neg hne, endSlot_append, endSlot_append, endSlot_cons, endSlot_cons, endSlot_cons]

theorem unlinked_eq (p : Proc) (save : Slot) (msg : Sig) :
    unlinked p save msg =
      ⟨(p.store save (p.mem.next msg)).mem,
        { (p.store save (p.mem.next msg)).qs with
          mqLen := (p.store save (p.mem.next msg)).qs.mqLen - 1
          last := if p.mem.next msg = none then save
            else (p.store save (p.mem.next msg)).qs.last },
        (p.store save (p.mem.next msg)).inq⟩ := by
  unfold unlinked
  dsimp only
  split_ifs <;> rfl

/-- **The message behind the save pointer is taken out.** -/
theorem Rep.unlink {p : Proc} (h : Rep p (I ++ msg :: J) [] []) :
    Rep (unlinked p (endSlot .first I) msg) (I ++ J) [] [] := by
  have hsub : List.Sublist (I ++ J) (I ++ msg :: J) :=
    List.Sublist.append_left (List.sublist_cons_self msg J) I
  have hnd : (I ++ msg :: J).Nodup := by simpa using h.nodup
  have hnext : p.mem.next msg = J.head? := by
    obtain ⟨m, -, -, hJ⟩ := Seg.append_iff.mp h.innerLinks
    exact hJ.head_eq
  have hlinks := seg_unlink h.innerLinks hnd
  have hinq := store_first_inq (p := p) (l := I) (v := p.mem.next msg)
  have hqs := store_first_qs (p := p) (l := I) (v := p.mem.next msg)
  have hisMsg := store_isMsg p (endSlot .first I) (p.mem.next msg)
  rw [unlinked_eq]
  generalize p.store (endSlot .first I) (p.mem.next msg) = q at hlinks hinq hqs hisMsg ⊢
  have hsame : SameOn [] p.mem q.mem := fun x hx => absurd hx List.not_mem_nil
  refine ⟨?nodup, hlinks, ?last, fun x hx => ?msgs, ?len, ?middle, ?inq⟩
  case nodup =>
    rw [List.append_nil, List.append_nil]
    exact hnd.sublist hsub
  case last =>
    rw [← endSlot_unlink I msg J, ← hnext, ← h.innerLast, hqs]
  case msgs =>
    rw [hisMsg]
    exact h.innerMsgs x (hsub.subset hx)
  case len =>
    rw [hqs]
    dsimp only
    rw [h.mqLen, List.length_append, List.length_append, List.length_cons]
    omega
  case middle =>
    rw [hqs]
    exact h.middle.congr hsame
  case inq =>
    rw [hinq]
    exact h.inq.congr hsame

/-- A new message is sent. -/
theorem Rep.sendMessage {Q : List Sig} (h : Rep r.proc I [] Q) (hmsg : msg ∉ I ++ Q)
    (hmsgs : ∀ x ∈ Q, r.proc.mem.isMsg x = true) :
    Rep (r.sendMessage msg).proc I [] (Q ++ [msg]) ∧
      ∀ x ∈ Q ++ [msg], (r.sendMessage msg).proc.mem.isMsg x = true := by
  rw [sendMessage_eq]
  dsimp only
  set m : SigMem := { r.proc.mem with
    next := Function.update r.proc.mem.next msg none
    isMsg := Function.update r.proc.mem.isMsg msg true } with hm
  have hself : m.isMsg msg = true := Function.update_self ..
  have hsame : SameOn (I ++ [] ++ Q) r.proc.mem m := by
    intro x hx
    rw [List.append_nil] at hx
    have hne : x ≠ msg := ne_of_mem_of_not_mem hx hmsg
    exact ⟨Function.update_of_ne hne .., Function.update_of_ne hne .., rfl, rfl⟩
  have hrep : Rep { r.proc with mem := m } I [] Q :=
    h.with_inq h.nodup rfl (fun x hx => hsame x (List.mem_append_left _ hx))
      (h.inq.congr fun x hx => hsame x (List.mem_append_right _ hx))
  have hchain : ValidChain m msg (.next msg) none 1 [msg] := by
    refine ⟨⟨rfl, Function.update_self ..⟩, fun x hx => ?_, Shape.msgs (c := [msg]) fun x hx => ?_⟩
    · obtain rfl : msg = x := Option.some.inj hx
      rfl
    · rw [List.mem_singleton.mp hx]
      exact hself
  have hnd : (I ++ [] ++ (Q ++ [msg])).Nodup := by
    rw [← List.append_assoc]
    refine List.nodup_append.mpr ⟨h.nodup, List.nodup_singleton msg, fun x hx y hy => ?_⟩
    rw [List.mem_singleton.mp hy]
    rw [List.append_nil] at hx
    exact ne_of_mem_of_not_mem hx hmsg
  rw [linkMessage_eq (p := { r.proc with mem := m }) hself]
  refine ⟨hrep.enqueue_msgs hchain hnd hself, fun x hx => ?_⟩
  rw [enqueueSignals_msg (p := { r.proc with mem := m }) hself]
  change (Proc.store _ _ _).mem.isMsg x = true
  rw [store_isMsg]
  rcases List.mem_append.mp hx with hx | hx
  · exact (hsame x (List.mem_append_right _ hx)).2.1.trans (hmsgs x hx)
  · rw [List.mem_singleton.mp hx]
    exact hself

/-- New messages are sent, one after the other. -/
theorem Rep.sendMessages {Q : List Sig} (msgs : List Sig) (h : Rep r.proc I [] Q)
    (hmsgs : ∀ x ∈ Q, r.proc.mem.isMsg x = true) (hnd : (I ++ (Q ++ msgs)).Nodup) :
    Rep (msgs.foldl Receiver.sendMessage r).proc I [] (Q ++ msgs) ∧
      (∀ x ∈ Q ++ msgs, (msgs.foldl Receiver.sendMessage r).proc.mem.isMsg x = true) ∧
      (msgs.foldl Receiver.sendMessage r).save = r.save := by
  induction msgs generalizing r Q with
  | nil =>
    rw [List.append_nil]
    exact ⟨h, hmsgs, rfl⟩
  | cons msg msgs ih =>
    have hsplit : Q ++ msg :: msgs = Q ++ [msg] ++ msgs := by simp
    rw [hsplit] at hnd ⊢
    have hmsg : msg ∉ I ++ Q := by
      intro hin
      rw [← List.append_assoc, ← List.append_assoc] at hnd
      have hfirst := (List.nodup_append.mp hnd).1
      exact (List.nodup_append.mp hfirst).2.2 msg hin msg (List.mem_singleton_self msg) rfl
    obtain ⟨hrep, hall⟩ := h.sendMessage hmsg hmsgs
    obtain ⟨hrep', hall', hsave⟩ := ih hrep hall hnd
    refine ⟨hrep', hall', hsave.trans ?_⟩
    rw [sendMessage_eq]

/-- **New messages are sent and fetched.** -/
theorem Scanning.fetch {msgs : List Sig} (h : Scanning r I []) (hnd : (I ++ msgs).Nodup) :
    Scanning (r.fetch msgs) I msgs := by
  have hrep := h.rep
  rw [List.append_nil] at hrep
  obtain ⟨hsent, hall, hsave⟩ := hrep.sendMessages msgs
    (fun x hx => absurd hx List.not_mem_nil) hnd
  rw [List.nil_append] at hsent hall
  unfold Receiver.fetch
  generalize msgs.foldl Receiver.sendMessage r = r' at hsent hall hsave
  refine ⟨?_, hsave.trans h.save⟩
  cases msgs with
  | nil =>
    have hnone : r'.proc.inq.first = none := hsent.inq.links
    have hsame : procSigFetch r'.proc false = r'.proc := by simp only [procSigFetch, hnone]
    rw [List.append_nil]
    change Rep (procSigFetch r'.proc false) I [] []
    rw [hsame]
    exact hsent
  | cons msg msgs =>
    have hfirst : r'.proc.inq.first = some msg := hsent.inq.links.1
    have hnm : r'.proc.inq.nmsigs.next = none := by
      rw [hsent.inq.nmNext, nmSlots_of_msgs hall]
      rfl
    exact (hsent.fetch_inner hfirst hnm hsent.middle.links).1

/-- The message the scan is at is removed, and the save pointer is at the start again. -/
theorem Scanning.remove (h : Scanning r I (msg :: J)) :
    Scanning (r.removeMessage msg) [] (I ++ J) := by
  have hbare := removeMessage_bare r msg
  have hproc : (r.removeMessage msg).proc = unlinked r.proc r.save msg :=
    congrArg Receiver.proc hbare
  refine ⟨?_, congrArg Receiver.save hbare⟩
  rw [hproc, h.save]
  exact h.rep.unlink

/-! ## The loop -/

variable {isMatch : Sig → Bool} {arrivals : List (List Sig)}

/-- Messages that do not match are passed over. -/
theorem Scanning.pass {pre : List Sig} (h : Scanning r I (pre ++ J))
    (hpre : ∀ x ∈ pre, isMatch x = false) :
    ∃ r', Scanning r' (I ++ pre) J ∧ ∀ fuel arrivals,
      receiveLoop isMatch (pre.length + fuel) arrivals r
        = receiveLoop isMatch fuel arrivals r' := by
  induction pre generalizing r I with
  | nil =>
    rw [List.append_nil]
    refine ⟨r, h, fun fuel arrivals => ?_⟩
    rw [List.length_nil, Nat.zero_add]
  | cons msg pre ih =>
    obtain ⟨r', hr', hloop⟩ := ih h.next fun x hx => hpre x (List.mem_cons_of_mem msg hx)
    rw [List.append_assoc] at hr'
    refine ⟨r', hr', fun fuel arrivals => ?_⟩
    have hfuel : (msg :: pre).length + fuel = pre.length + fuel + 1 := by
      rw [List.length_cons]
      omega
    have hpeek : r.peekMsg = some msg := h.peekMsg
    rw [hfuel, receiveLoop_succ, hpeek, ← hloop]
    dsimp only
    rw [if_neg (Bool.eq_false_iff.mp (hpre msg (List.mem_cons_self ..)))]

/-- A match among the messages before the scan is taken out. -/
theorem Scanning.take (h : Scanning r I J) (hnd : (I ++ J).Nodup) (hfind : J.find? isMatch = some msg)
    (arrivals : List (List Sig)) :
    ∃ n r', (∀ fuel, n ≤ fuel → receiveLoop isMatch fuel arrivals r = .received msg r') ∧
      Scanning r' [] ((I ++ J).erase msg) := by
  obtain ⟨hmatch, pre, post, rfl, hpre⟩ := List.find?_eq_some_iff_append.mp hfind
  obtain ⟨r', hr', hloop⟩ := h.pass fun x hx => by simpa using hpre x hx
  refine ⟨pre.length + 1, r'.removeMessage msg, fun fuel hfuel => ?_, ?_⟩
  · obtain ⟨k, rfl⟩ := Nat.exists_eq_add_of_le hfuel
    have hpeek : r'.peekMsg = some msg := hr'.peekMsg
    rw [Nat.add_assoc, hloop, Nat.add_comm 1 k, receiveLoop_succ, hpeek]
    exact if_pos hmatch
  · have hout : msg ∉ I ++ pre := fun hm => by
      rw [← List.append_assoc] at hnd
      exact (List.nodup_append.mp hnd).2.2 msg hm msg (List.mem_cons_self ..) rfl
    rw [← List.append_assoc, List.erase_append_right _ hout, List.erase_cons_head]
    exact hr'.remove

/-- Without a match among them the loop reaches the end. -/
theorem Scanning.reachEnd (h : Scanning r I J) (hnone : ∀ x ∈ J, isMatch x = false) :
    ∃ r', Scanning r' (I ++ J) [] ∧ ∀ fuel arrivals,
      receiveLoop isMatch (J.length + (fuel + 1)) arrivals r =
        match arrivals with
        | [] => .waiting r'
        | msgs :: arrivals => receiveLoop isMatch fuel arrivals (r'.fetch msgs) := by
  have h' : Scanning r I (J ++ []) := by rwa [List.append_nil]
  obtain ⟨r', hr', hloop⟩ := h'.pass hnone
  refine ⟨r', hr', fun fuel arrivals => ?_⟩
  have hpeek : r'.peekMsg = none := hr'.peekMsg
  rw [hloop, receiveLoop_succ, hpeek]

/-- **The oldest match is taken out**, once the scan has come to it. -/
theorem Scanning.received (h : Scanning r I J) (hnd : (I ++ J ++ arrivals.flatten).Nodup)
    (hfind : (J ++ arrivals.flatten).find? isMatch = some msg) :
    ∃ k n r', (∀ fuel, n ≤ fuel → receiveLoop isMatch fuel arrivals r = .received msg r') ∧
      (∀ j < k, ∀ x ∈ J ++ (arrivals.take j).flatten, isMatch x = false) ∧
      msg ∈ J ++ (arrivals.take k).flatten ∧
      Scanning r' [] ((I ++ J ++ (arrivals.take k).flatten).erase msg) := by
  induction arrivals generalizing r I J with
  | nil =>
    rw [List.flatten_nil, List.append_nil] at hfind hnd
    obtain ⟨n, r', hloop, hr'⟩ := h.take hnd hfind []
    refine ⟨0, n, r', hloop, fun j hj => absurd hj (Nat.not_lt_zero j), ?_, ?_⟩
    · simpa using List.mem_of_find?_eq_some hfind
    · simpa using hr'
  | cons msgs arrivals ih =>
    cases hJ : J.find? isMatch with
    | some m =>
      have hm : m = msg := by
        rw [List.find?_append, hJ] at hfind
        exact Option.some.inj hfind
      subst hm
      obtain ⟨n, r', hloop, hr'⟩ := h.take (List.nodup_append.mp hnd).1 hJ (msgs :: arrivals)
      refine ⟨0, n, r', hloop, fun j hj => absurd hj (Nat.not_lt_zero j), ?_, ?_⟩
      · simpa using List.mem_of_find?_eq_some hJ
      · simpa using hr'
    | none =>
      have hnone : ∀ x ∈ J, isMatch x = false := fun x hx => by
        simpa using List.find?_eq_none.mp hJ x hx
      obtain ⟨r₁, hr₁, hend⟩ := h.reachEnd hnone
      rw [List.flatten_cons, ← List.append_assoc] at hnd
      have hfetch := hr₁.fetch (List.nodup_append.mp hnd).1
      have hfind' : (msgs ++ arrivals.flatten).find? isMatch = some msg := by
        rw [List.find?_append, hJ] at hfind
        exact hfind
      obtain ⟨k, n, r', hloop, hbefore, hmem, hr'⟩ := ih hfetch hnd hfind'
      refine ⟨k + 1, J.length + (n + 1), r', fun fuel hfuel => ?_, fun j hj x hx => ?_, ?_, ?_⟩
      · obtain ⟨d, rfl⟩ := Nat.exists_eq_add_of_le hfuel
        have hsum : J.length + (n + 1) + d = J.length + (n + d + 1) := by omega
        rw [hsum, hend]
        exact hloop (n + d) (Nat.le_add_right n d)
      · cases j with
        | zero => exact hnone x (by simpa using hx)
        | succ j =>
          rcases List.mem_append.mp hx with hx | hx
          · exact hnone x hx
          · exact hbefore j (Nat.lt_of_succ_lt_succ hj) x (by simpa using hx)
      · exact List.mem_append_right J (by simpa using hmem)
      · simpa [List.append_assoc] using hr'

/-- **Without a match nothing is taken out.** -/
theorem Scanning.waiting (h : Scanning r I J) (hnd : (I ++ J ++ arrivals.flatten).Nodup)
    (hfind : (J ++ arrivals.flatten).find? isMatch = none) :
    ∃ n r', (∀ fuel, n ≤ fuel → receiveLoop isMatch fuel arrivals r = .waiting r') ∧
      Scanning r' (I ++ J ++ arrivals.flatten) [] := by
  induction arrivals generalizing r I J with
  | nil =>
    have hnone : ∀ x ∈ J, isMatch x = false := fun x hx => by
      simpa using List.find?_eq_none.mp hfind x (List.mem_append_left _ hx)
    obtain ⟨r', hr', hend⟩ := h.reachEnd hnone
    refine ⟨J.length + 1, r', fun fuel hfuel => ?_, ?_⟩
    · obtain ⟨d, rfl⟩ := Nat.exists_eq_add_of_le hfuel
      have hsum : J.length + 1 + d = J.length + (d + 1) := by omega
      rw [hsum, hend]
    · rw [List.flatten_nil, List.append_nil]
      exact hr'
  | cons msgs arrivals ih =>
    have hnone : ∀ x ∈ J, isMatch x = false := fun x hx => by
      simpa using List.find?_eq_none.mp hfind x (List.mem_append_left _ hx)
    obtain ⟨r₁, hr₁, hend⟩ := h.reachEnd hnone
    rw [List.flatten_cons, ← List.append_assoc] at hnd
    have hfetch := hr₁.fetch (List.nodup_append.mp hnd).1
    have hfind' : (msgs ++ arrivals.flatten).find? isMatch = none := by
      rw [List.find?_append, Option.or_eq_none_iff] at hfind
      exact hfind.2
    obtain ⟨n, r', hloop, hr'⟩ := ih hfetch hnd hfind'
    refine ⟨J.length + (n + 1), r', fun fuel hfuel => ?_, ?_⟩
    · obtain ⟨d, rfl⟩ := Nat.exists_eq_add_of_le hfuel
      have hsum : J.length + (n + 1) + d = J.length + (n + d + 1) := by omega
      rw [hsum, hend]
      exact hloop (n + d) (Nat.le_add_right n d)
    · rw [List.flatten_cons, ← List.append_assoc]
      exact hr'

end

/-- The inner queue holds `l`, and the save pointer is at its start. -/
structure InnerQueue {T : Type u} (r : Receiver T) (l : List Sig) : Prop where
  /-- the messages, in order -/
  links : Seg r.proc.mem.next r.proc.qs.first l none
  /-- `mq_len` -/
  mqLen : r.proc.qs.mqLen = l.length
  /-- `last` is the `next` field of the last message, or `first` -/
  last : r.proc.qs.last = endSlot .first l
  /-- `save` -/
  save : r.save = .first

/-- A process that starts a `receive` with `l` in its inner queue. -/
structure Starting {T : Type u} (r : Receiver T) (l : List Sig) : Prop extends InnerQueue r l where
  /-- messages only -/
  msgs : ∀ x ∈ l, r.proc.mem.isMsg x = true
  /-- the middle queue is empty -/
  cont : r.proc.qs.cont = none ∧ r.proc.qs.contLast = .cont ∧ r.proc.qs.nmsigs = ⟨none, none⟩ ∧
    r.proc.qs.mlenoffs = 0
  /-- so is the in-queue -/
  inq : r.proc.inq = .empty

theorem Starting.scanning {T : Type u} {r : Receiver T} {l : List Sig} (h : Starting r l)
    (hnd : l.Nodup) : Scanning r [] l := by
  obtain ⟨hcont, hlast, hnm, hoffs⟩ := h.cont
  refine ⟨⟨by simpa using hnd, h.links, h.last, h.msgs, h.mqLen, ?_, ?_⟩, h.save⟩
  · rw [hcont, hlast, hnm, hoffs]
    exact queueRep_nil _ _
  · rw [h.inq]
    exact queueRep_nil _ _

theorem Scanning.innerQueue {T : Type u} {r : Receiver T} {l : List Sig} (h : Scanning r [] l) :
    InnerQueue r l :=
  ⟨h.rep.innerLinks, h.rep.mqLen, h.rep.innerLast, h.save⟩

/-- **Selective receive.** The loop takes out the oldest message that matches, in the order of
arrival: it fetches only while nothing in the queue matches, and all other messages stay where they
are. If no message matches it takes nothing out. It does the same without Premises. -/
theorem receive_takes_oldest {T : Type u} (isMatch : Sig → Bool) (r : Receiver T)
    (queue : List Sig) (arrivals : List (List Sig)) (h : Starting r queue)
    (hnd : (queue ++ arrivals.flatten).Nodup) :
    (∀ msg, (queue ++ arrivals.flatten).find? isMatch = some msg →
      ∃ k n r', (∀ fuel, n ≤ fuel → receiveLoop isMatch fuel arrivals r = .received msg r') ∧
        (∀ j < k, ∀ x ∈ queue ++ (arrivals.take j).flatten, isMatch x = false) ∧
        msg ∈ queue ++ (arrivals.take k).flatten ∧
        InnerQueue r' ((queue ++ (arrivals.take k).flatten).erase msg) ∧
        r'.proc.qs.mqLen = r.proc.qs.mqLen + (arrivals.take k).flatten.length - 1) ∧
    ((queue ++ arrivals.flatten).find? isMatch = none →
      ∃ n r', (∀ fuel, n ≤ fuel → receiveLoop isMatch fuel arrivals r = .waiting r') ∧
        Seg r'.proc.mem.next r'.proc.qs.first (queue ++ arrivals.flatten) none) ∧
    ∀ fuel (premises : List (Premise T)),
      (receiveLoop isMatch fuel arrivals { r with premises := premises }).bare
        = (receiveLoop isMatch fuel arrivals { r with premises := [] }).bare := by
  have hscan := h.scanning (List.nodup_append.mp hnd).1
  refine ⟨fun msg hfind => ?_, fun hfind => ?_, fun fuel premises => ?_⟩
  · obtain ⟨k, n, r', hloop, hbefore, hmem, hr'⟩ := hscan.received hnd hfind
    have hinner : InnerQueue r' ((queue ++ (arrivals.take k).flatten).erase msg) := hr'.innerQueue
    refine ⟨k, n, r', hloop, hbefore, hmem, hinner, ?_⟩
    have hpos := List.length_pos_of_mem hmem
    rw [hinner.mqLen, h.mqLen, List.length_erase_of_mem hmem]
    rw [List.length_append] at hpos ⊢
    omega
  · obtain ⟨n, r', hloop, hr'⟩ := hscan.waiting hnd hfind
    refine ⟨n, r', hloop, ?_⟩
    simpa using hr'.rep.innerLinks
  · exact receiveLoop_bare _ isMatch fuel arrivals

/-- Message 0 waits in the queue of a process with a Premise. -/
def oneWaiting : Receiver ℕ :=
  ⟨⟨⟨fun _ => none, fun _ => true, fun _ => none, fun _ => 0⟩,
      ⟨some 0, .next 0, 1, none, .cont, ⟨none, none⟩, 0⟩, .empty⟩, .first, .first,
    [⟨true, some 7, some 2⟩]⟩

/-- Messages 1 and 2 arrive while it waits for message 2. -/
theorem oneWaiting_takes_oldest :
    ∃ k n r', (∀ fuel, n ≤ fuel →
        receiveLoop (fun x => x == 2) fuel [[1, 2]] oneWaiting = .received 2 r') ∧
      InnerQueue r' (([0] ++ ([[1, 2]].take k).flatten).erase 2) := by
  have hstart : Starting oneWaiting [0] :=
    ⟨⟨⟨rfl, rfl⟩, rfl, rfl, rfl⟩, fun _ _ => rfl, ⟨rfl, rfl, rfl, rfl⟩, rfl⟩
  obtain ⟨k, n, r', hloop, -, -, hr', -⟩ :=
    (receive_takes_oldest (fun x => x == 2) oneWaiting [0] [[1, 2]] hstart (by decide)).1 2 rfl
  exact ⟨k, n, r', hloop, hr'⟩

end PonBeam.SigQueue
