import Dynomite.Msg

/-! # The send engine: one `msg_send_chain` batch

`msg_send_chain` gathers the unread bytes of the outbound queue into at most
`DN_IOV_MAX` iovec entries and at most `SSIZE_MAX` bytes, issues one `sendv`,
and walks the in-flight messages again to move their read markers past the
bytes `sendv` accepted, handing every message that ran off the end of its chain
(or that has `mlen = 0` when nothing was accepted) to `send_done`.

The outbound queue is a list of messages in queue order; `send_next` yields it
front to back, and `send_done` (modelled from the spec) takes a message off the
queue.  `sendv` is the environment: it is given the iovec and returns `n`, with
`DN_EAGAIN` for a would-block.  The main result of this module, `sentMsgs_chains`,
says that the postprocess marks exactly the first `max(n, 0)` unread bytes of the
in-flight messages as sent: `consumeMbufs` is that specification. -/

set_option autoImplicit false

namespace Dynomite

/-! ## The source functions -/

/-- The preprocess loop over one message's mbufs: while the vector has room and
`nsend < limit`, every nonempty mbuf contributes `[pos, pos + mlen)`, with
`mlen` cut so that `nsend` stays within `limit`. -/
def gatherMbufs (cfg : Config) : List Mbuf → List (List UInt8) → Nat → List (List UInt8) × Nat
  | [], iov, nsend => (iov, nsend)
  | b :: bs, iov, nsend =>
    if iov.length < dnIovMax cfg ∧ nsend < cfg.ssizeMax then
      if mbufEmpty b then gatherMbufs cfg bs iov nsend
      else
        let mlen := if nsend + mbufLength b > cfg.ssizeMax then cfg.ssizeMax - nsend
          else mbufLength b
        gatherMbufs cfg bs (iov ++ [b.unread.take mlen]) (nsend + mlen)
    else (iov, nsend)

/-- The outer preprocess loop: the message and then what `send_next` yields go
on the in-flight queue `send_msgq`, until the vector is full, the byte cap is
reached or the outbound queue runs out. -/
def gatherMsgs (cfg : Config) :
    List Msg → List Msg → List (List UInt8) → Nat → List Msg × List (List UInt8) × Nat
  | [], sendq, iov, nsend => (sendq, iov, nsend)
  | m :: rest, sendq, iov, nsend =>
    let g := gatherMbufs cfg m.mhdr iov nsend
    if dnIovMax cfg ≤ g.1.length ∨ cfg.ssizeMax ≤ g.2 then (sendq ++ [m], g.1, g.2)
    else gatherMsgs cfg rest (sendq ++ [m]) g.1 g.2

/-- The postprocess walk over one sent message's mbufs with `nsent` bytes
still to account for: the mbufs after the walk, the bytes left, and whether the
walk ran off the end of the chain (`mbuf == NULL`). -/
def sentMbufs : List Mbuf → Nat → List Mbuf × Nat × Bool
  | [], nsent => ([], nsent, true)
  | b :: bs, nsent =>
    if mbufEmpty b then
      let r := sentMbufs bs nsent
      (b :: r.1, r.2.1, r.2.2)
    else if nsent < mbufLength b then (b.advance nsent :: bs, 0, false)
    else
      let r := sentMbufs bs (nsent - mbufLength b)
      (b.advance (mbufLength b) :: r.1, r.2.1, r.2.2)

/-- The postprocess loop over `send_msgq`: each message with its mbufs
adjusted, and whether it was handed to `send_done`. -/
def sentMsgs : List Msg → Nat → List (Msg × Bool)
  | [], _ => []
  | m :: ms, nsent =>
    if nsent = 0 then (m, m.mlen == 0) :: sentMsgs ms nsent
    else
      let r := sentMbufs m.mhdr nsent
      ({ m with mhdr := r.1 }, r.2.2) :: sentMsgs ms r.2.1

def dnEagain : Int := -2

/-- What one `msg_send_chain` call does. -/
structure SendOut where
  start : List Msg
  n : Int
  sendq : List Msg
  iov : List (List UInt8)
  nsend : Nat
  nsent : Nat
  sent : List (Msg × Bool)
  queue : List Msg
  done : List Msg
  status : RStatus

/-- `msg_send_chain` on the outbound queue `q`, with `n` the value `sendv`
returned for the gathered vector. -/
def msgSendChain (cfg : Config) (q : List Msg) (n : Int) : SendOut :=
  let g := gatherMsgs cfg q [] [] 0
  let nsent := if n > 0 then n.toNat else 0
  let post := sentMsgs g.1 nsent
  { start := q, n := n, sendq := g.1, iov := g.2.1, nsend := g.2.2, nsent := nsent, sent := post
    queue := (post.filter fun p => !p.2).map Prod.fst ++ q.drop g.1.length
    done := (post.filter fun p => p.2).map Prod.fst
    status := if n > 0 then .ok else if n = dnEagain then .ok else .error }

/-- `conn_sendv` of `dyn_connection.c`, outside this file, clears `send_ready`
after a short write, a write of 0 bytes, `EAGAIN` and an error: the flag stays
set only when `writev` took the whole vector. -/
def sendReadyAfter (o : SendOut) : Bool := decide (0 < o.n ∧ o.nsend ≤ o.n.toNat)

/-- `msg_send`: batches while `send_ready` stays set and `send_next` finds a
message; `ns` are the successive `sendv` results.  Returns the queue, the
status and the batches in call order. -/
def msgSend (cfg : Config) : List Msg → List Int → List Msg × RStatus × List SendOut
  | q, [] => (q, .ok, [])
  | [], _ :: _ => ([], .ok, [])
  | m :: q, n :: ns =>
    let o := msgSendChain cfg (m :: q) n
    if o.status ≠ .ok then (o.queue, o.status, [o])
    else if sendReadyAfter o then
      let r := msgSend cfg o.queue ns
      (r.1, r.2.1, o :: r.2.2)
    else (o.queue, .ok, [o])

/-! ## What the postprocess is meant to do -/

namespace Msg

/-- The bytes of the message not yet sent. -/
def unread (m : Msg) : List UInt8 := chainUnread m.mhdr

end Msg

/-- The unsent bytes of a queue, in queue order. -/
def queueUnread (q : List Msg) : List UInt8 := (q.map Msg.unread).flatten

@[simp] theorem queueUnread_nil : queueUnread [] = [] := rfl

@[simp] theorem queueUnread_cons (m : Msg) (q : List Msg) :
    queueUnread (m :: q) = m.unread ++ queueUnread q := rfl

@[simp] theorem queueUnread_append (q q' : List Msg) :
    queueUnread (q ++ q') = queueUnread q ++ queueUnread q' := by simp [queueUnread]

def consumeMbufs : List Mbuf → Nat → List Mbuf
  | [], _ => []
  | b :: bs, k => b.advance k :: consumeMbufs bs (k - mbufLength b)

def newlySent (h h' : List Mbuf) : List UInt8 :=
  (List.zipWith (fun b b' => b'.consumed.drop b.consumed.length) h h').flatten

def posAdvance (h h' : List Mbuf) : Nat :=
  (List.zipWith (fun b b' => b'.consumed.length - b.consumed.length) h h').sum

theorem Mbuf.advance_zero (b : Mbuf) : b.advance 0 = b := by simp [Mbuf.advance]

theorem Mbuf.advance_of_le (b : Mbuf) {k : Nat} (hk : mbufLength b ≤ k) :
    b.advance k = b.advance (mbufLength b) := by
  simp only [Mbuf.advance, mbufLength] at *
  rw [List.take_of_length_le hk, List.take_of_length_le (le_refl _), List.drop_of_length_le hk,
    List.drop_length]

theorem Mbuf.advance_of_empty (b : Mbuf) (k : Nat) (h : mbufEmpty b = true) : b.advance k = b := by
  obtain ⟨consumed, unread, readFlip⟩ := b
  simp only [mbufEmpty, List.isEmpty_iff] at h
  subst h
  simp [Mbuf.advance]

@[simp] theorem consumeMbufs_nil (k : Nat) : consumeMbufs [] k = [] := rfl

theorem consumeMbufs_zero (h : List Mbuf) : consumeMbufs h 0 = h := by
  induction h with
  | nil => rfl
  | cons b bs ih => simp [consumeMbufs, Mbuf.advance_zero, ih]

theorem consumeMbufs_append (h h' : List Mbuf) (k : Nat) :
    consumeMbufs (h ++ h') k = consumeMbufs h k ++ consumeMbufs h' (k - (chainUnread h).length) := by
  induction h generalizing k with
  | nil => simp
  | cons b bs ih =>
    rw [List.cons_append, consumeMbufs, ih, consumeMbufs, chainUnread_cons, List.length_append,
      mbufLength, Nat.sub_sub, List.cons_append]

theorem chainUnread_consumeMbufs (h : List Mbuf) (k : Nat) :
    chainUnread (consumeMbufs h k) = (chainUnread h).drop k := by
  induction h generalizing k with
  | nil => simp
  | cons b bs ih =>
    simp [consumeMbufs, ih, List.drop_append_eq_append_drop, mbufLength]

theorem consumeMbufs_data (h : List Mbuf) (k : Nat) :
    (consumeMbufs h k).map Mbuf.data = h.map Mbuf.data := by
  induction h generalizing k with
  | nil => rfl
  | cons b bs ih => simp [consumeMbufs, ih]

theorem newlySent_consumeMbufs (h : List Mbuf) (k : Nat) :
    newlySent h (consumeMbufs h k) = (chainUnread h).take k := by
  induction h generalizing k with
  | nil => simp [newlySent]
  | cons b bs ih =>
    simp only [newlySent, consumeMbufs, List.zipWith_cons_cons, List.flatten_cons] at ih ⊢
    rw [ih, chainUnread_cons, List.take_append_eq_append_take]
    simp [Mbuf.advance, mbufLength]

theorem posAdvance_consumeMbufs (h : List Mbuf) (k : Nat) :
    posAdvance h (consumeMbufs h k) = min k (chainUnread h).length := by
  induction h generalizing k with
  | nil => simp [posAdvance]
  | cons b bs ih =>
    simp only [posAdvance, consumeMbufs, List.zipWith_cons_cons, List.sum_cons] at ih ⊢
    rw [ih]
    simp only [Mbuf.advance, List.length_append, List.length_take, chainUnread_cons, mbufLength]
    omega

/-! ## The postprocess meets it -/

@[simp] theorem Msg.unread_consume (m : Msg) (k : Nat) :
    ({ m with mhdr := consumeMbufs m.mhdr k } : Msg).unread = m.unread.drop k :=
  chainUnread_consumeMbufs _ _

/-- Whether the postprocess hands a message to `send_done` when `k` accepted
bytes are left at its turn. -/
def sendDoneAt (m : Msg) (k : Nat) : Bool :=
  if k = 0 then m.mlen == 0 else decide (m.unread.length ≤ k)

theorem sendDoneAt_unread {m : Msg} {k : Nat} (hzero : m.mlen = 0 → m.unread = [])
    (h : sendDoneAt m k = true) : m.unread.drop k = [] := by
  unfold sendDoneAt at h
  split at h
  · rename_i hk
    rw [hk, List.drop_zero]
    exact hzero (by simpa using h)
  · exact List.drop_eq_nil_of_le (by simpa using h)

theorem sendDoneAt_iff {m : Msg} (k : Nat) (hp : m.unread = [] ↔ m.mlen = 0) :
    sendDoneAt m k = true ↔ m.mlen = 0 ∨ m.unread.length ≤ k := by
  unfold sendDoneAt
  split
  · rename_i hk
    rw [hk, beq_iff_eq, ← hp, ← List.length_eq_zero]
    omega
  · rw [decide_eq_true_iff, ← hp, ← List.length_eq_zero]
    omega

theorem sentMbufs_eq (h : List Mbuf) (k : Nat) :
    sentMbufs h k = (consumeMbufs h k, k - (chainUnread h).length,
      decide ((chainUnread h).length ≤ k)) := by
  induction h generalizing k with
  | nil => simp [sentMbufs]
  | cons b bs ih =>
    by_cases hempty : mbufEmpty b = true
    · have hnil : b.unread = [] := by simpa [mbufEmpty] using hempty
      simp [sentMbufs, hempty, ih, consumeMbufs, Mbuf.advance_of_empty b k hempty, hnil, mbufLength]
    · by_cases hlt : k < mbufLength b
      · simp only [sentMbufs, hempty, hlt, if_true, if_false, Bool.false_eq_true]
        simp only [mbufLength] at hlt
        simp only [consumeMbufs, mbufLength, Nat.sub_eq_zero_of_le (Nat.le_of_lt hlt),
          consumeMbufs_zero, chainUnread_cons, List.length_append, Prod.mk.injEq, true_and]
        exact ⟨by omega, by simp; omega⟩
      · simp only [sentMbufs, hempty, hlt, if_false, Bool.false_eq_true]
        rw [ih, consumeMbufs, Mbuf.advance_of_le b (Nat.le_of_not_lt hlt)]
        simp only [mbufLength] at hlt
        simp only [chainUnread_cons, List.length_append, mbufLength, Nat.sub_sub, Prod.mk.injEq,
          true_and, decide_eq_decide]
        omega

theorem chainUnread_flatten (ms : List Msg) :
    chainUnread (ms.map Msg.mhdr).flatten = queueUnread ms := by
  induction ms with
  | nil => rfl
  | cons m ms ih => rw [List.map_cons, List.flatten_cons, chainUnread_append, ih]; rfl

theorem sentMsgs_cons (m : Msg) (ms : List Msg) (k : Nat) :
    sentMsgs (m :: ms) k =
      ({ m with mhdr := consumeMbufs m.mhdr k }, sendDoneAt m k) ::
        sentMsgs ms (k - m.unread.length) := by
  rw [sentMsgs]
  split
  · rename_i hk
    subst hk
    simp [consumeMbufs_zero, sendDoneAt]
  · rename_i hk
    simp [sentMbufs_eq, sendDoneAt, hk, Msg.unread]

theorem sentMsgs_chains (ms : List Msg) (k : Nat) :
    ((sentMsgs ms k).map fun p => p.1.mhdr).flatten = consumeMbufs (ms.map Msg.mhdr).flatten k := by
  induction ms generalizing k with
  | nil => rfl
  | cons m ms ih =>
    rw [sentMsgs_cons, List.map_cons, List.flatten_cons, ih, List.map_cons, List.flatten_cons,
      consumeMbufs_append]
    rfl

theorem sentMsgs_mem {ms : List Msg} {k : Nat} {p : Msg × Bool} (hp : p ∈ sentMsgs ms k) :
    ∃ m ∈ ms, ∃ k', p = ({ m with mhdr := consumeMbufs m.mhdr k' }, sendDoneAt m k') := by
  induction ms generalizing k with
  | nil => simp [sentMsgs] at hp
  | cons m₁ ms ih =>
    rw [sentMsgs_cons, List.mem_cons] at hp
    rcases hp with rfl | hp
    · exact ⟨m₁, List.mem_cons_self _ _, k, rfl⟩
    · obtain ⟨m₀, hm₀, k₀, rfl⟩ := ih hp
      exact ⟨m₀, List.mem_cons_of_mem _ hm₀, k₀, rfl⟩

theorem sentMsgs_ids (ms : List Msg) (k : Nat) :
    (sentMsgs ms k).map (fun p => p.1.id) = ms.map Msg.id := by
  induction ms generalizing k with
  | nil => rfl
  | cons m ms ih => simp [sentMsgs_cons, ih]

@[simp] theorem sentMsgs_length (ms : List Msg) (k : Nat) : (sentMsgs ms k).length = ms.length := by
  induction ms generalizing k with
  | nil => rfl
  | cons m ms ih => simp [sentMsgs_cons, ih]

/-! ## The gather loop takes a prefix of the unsent bytes -/

/-- The vector is full or the byte cap is reached. -/
def Cut (cfg : Config) (iov : List (List UInt8)) (nsend : Nat) : Prop :=
  dnIovMax cfg ≤ iov.length ∨ cfg.ssizeMax ≤ nsend

theorem gatherMbufs_spec (cfg : Config) (h : List Mbuf) (iov : List (List UInt8)) (nsend : Nat) :
    ∃ new d, (gatherMbufs cfg h iov nsend).1 = iov ++ new ∧
      (gatherMbufs cfg h iov nsend).2 = nsend + d ∧ new.flatten = (chainUnread h).take d ∧
      d ≤ (chainUnread h).length ∧
      (d = (chainUnread h).length ∨
        Cut cfg (gatherMbufs cfg h iov nsend).1 (gatherMbufs cfg h iov nsend).2) ∧
      (cfg.ssizeMax ≤ nsend → d = 0) ∧
      (iov.length ≤ dnIovMax cfg → (gatherMbufs cfg h iov nsend).1.length ≤ dnIovMax cfg) ∧
      (nsend ≤ cfg.ssizeMax → (gatherMbufs cfg h iov nsend).2 ≤ cfg.ssizeMax) := by
  induction h generalizing iov nsend with
  | nil => exact ⟨[], 0, by simp [gatherMbufs]⟩
  | cons b bs ih =>
    by_cases hroom : iov.length < dnIovMax cfg ∧ nsend < cfg.ssizeMax
    · by_cases hempty : mbufEmpty b = true
      · have hnil : b.unread = [] := by simpa [mbufEmpty] using hempty
        simp only [gatherMbufs, if_pos hroom, if_pos hempty, chainUnread_cons, hnil, List.nil_append]
        exact ih iov nsend
      · have hpos : 0 < b.unread.length := by
          rw [← Nat.ne_zero_iff_zero_lt, Ne, ← mbufLength, ← mbufEmpty_iff]; exact hempty
        by_cases hcap : nsend + mbufLength b > cfg.ssizeMax
        · simp only [gatherMbufs, if_pos hroom, if_neg hempty, if_pos hcap]
          obtain ⟨new, d, h1, h2, h3, -, -, h6, h7, h8⟩ :=
            ih (iov ++ [b.unread.take (cfg.ssizeMax - nsend)]) (nsend + (cfg.ssizeMax - nsend))
          simp only [mbufLength] at hcap
          have hd : d = 0 := h6 (by omega)
          subst hd
          refine ⟨[b.unread.take (cfg.ssizeMax - nsend)] ++ new, cfg.ssizeMax - nsend,
            by simp [h1], by simp [h2], ?_, by simp; omega, Or.inr (Or.inr (by rw [h2]; omega)),
            fun h => by omega, fun _ => h7 (by simp; omega), fun _ => h8 (by omega)⟩
          simp only [List.take_zero, List.flatten_eq_nil_iff] at h3
          simp only [List.flatten_append, List.flatten_singleton, chainUnread_cons]
          rw [List.take_append_of_le_length (by omega), List.flatten_eq_nil_iff.2 h3]
          simp
        · simp only [gatherMbufs, if_pos hroom, if_neg hempty, if_neg hcap]
          obtain ⟨new, d, h1, h2, h3, h4, h5, -, h7, h8⟩ :=
            ih (iov ++ [b.unread.take (mbufLength b)]) (nsend + mbufLength b)
          simp only [mbufLength] at hcap h1 h2 h3 h4 h5 h7 h8 ⊢
          refine ⟨[b.unread.take b.unread.length] ++ new, b.unread.length + d, by rw [h1]; simp,
            by rw [h2]; omega, ?_, ?_, ?_, fun h => by omega, fun _ => h7 (by simp; omega),
            fun _ => h8 (by omega)⟩
          · rw [List.flatten_append, List.flatten_singleton, h3, chainUnread_cons,
              List.take_append_eq_append_take, List.take_of_length_le (by omega)]
            simp
          · simp only [chainUnread_cons, List.length_append]; omega
          · rcases h5 with h5 | h5
            · left; simp only [chainUnread_cons, List.length_append]; omega
            · exact Or.inr h5
    · simp only [gatherMbufs, if_neg hroom]
      refine ⟨[], 0, by simp, by simp, by simp, by simp, Or.inr ?_, fun _ => rfl, id, id⟩
      simp only [Cut]
      omega

theorem gatherMsgs_spec (cfg : Config) (q sendq : List Msg) (iov : List (List UInt8)) (nsend : Nat) :
    ∃ k new d, (gatherMsgs cfg q sendq iov nsend).1 = sendq ++ q.take k ∧
      (gatherMsgs cfg q sendq iov nsend).2.1 = iov ++ new ∧
      (gatherMsgs cfg q sendq iov nsend).2.2 = nsend + d ∧
      new.flatten = (queueUnread q).take d ∧ d ≤ (queueUnread (q.take k)).length ∧
      (iov.length ≤ dnIovMax cfg → (gatherMsgs cfg q sendq iov nsend).2.1.length ≤ dnIovMax cfg) ∧
      (nsend ≤ cfg.ssizeMax → (gatherMsgs cfg q sendq iov nsend).2.2 ≤ cfg.ssizeMax) := by
  induction q generalizing sendq iov nsend with
  | nil => exact ⟨0, [], 0, by simp [gatherMsgs]⟩
  | cons m rest ih =>
    obtain ⟨new, d, h1, h2, h3, h4, h5, -, h7, h8⟩ := gatherMbufs_spec cfg m.mhdr iov nsend
    by_cases hcut : Cut cfg (gatherMbufs cfg m.mhdr iov nsend).1 (gatherMbufs cfg m.mhdr iov nsend).2
    · simp only [Cut] at hcut
      simp only [gatherMsgs, if_pos hcut]
      refine ⟨1, new, d, by simp, h1, h2, ?_, by simpa [Msg.unread] using h4, h7, h8⟩
      rw [h3, queueUnread_cons, Msg.unread, List.take_append_of_le_length h4]
    · simp only [Cut] at hcut
      simp only [gatherMsgs, if_neg hcut]
      have hd : d = (chainUnread m.mhdr).length := h5.resolve_right (by simpa only [Cut] using hcut)
      obtain ⟨k, new', d', g1, g2, g3, g4, g5, g7, g8⟩ :=
        ih (sendq ++ [m]) (gatherMbufs cfg m.mhdr iov nsend).1 (gatherMbufs cfg m.mhdr iov nsend).2
      refine ⟨k + 1, new ++ new', d + d', by rw [g1]; simp, by rw [g2, h1, List.append_assoc],
        by rw [g3, h2, Nat.add_assoc], ?_, ?_, fun h => g7 (h7 h), fun h => g8 (h8 h)⟩
      · rw [List.flatten_append, h3, g4, hd, List.take_length, queueUnread_cons, Msg.unread,
          List.take_append_eq_append_take, List.take_of_length_le (Nat.le_add_right _ _),
          Nat.add_sub_cancel_left]
      · simp only [List.take_succ_cons, queueUnread_cons, List.length_append, Msg.unread]; omega

end Dynomite
