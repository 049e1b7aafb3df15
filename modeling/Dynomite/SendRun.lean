import Dynomite.Send

/-! # The send engine over whole runs

A run is a sequence of `msg_send_chain` calls on the outbound queue, one per
`sendv` result (`sendRun`); `msg_send` makes the first calls of such a run
(`msgSend_eq_sendRun`), so a run of `msg_send` calls is one too
(`msgSendRun_eq_sendRun`).  `BatchSound` is what every call does to the bytes
when `sendv` accepts at most what it is offered (`SendvFits`): at most
`DN_IOV_MAX` entries, at most `SSIZE_MAX` bytes, a gathered vector that is the
front of the in-flight messages' unread bytes, and read markers moved past
exactly the first `max(n, 0)` of them.  When no message with `mlen = 0` holds
an unsent byte, the bytes `sendv` accepted over the run, followed by what the
queue still holds, are the bytes the queue held at the start.

On `send_done`, `send_done_per_batch` states what the code does: no message is
handed over twice and the queue keeps its order, whatever `sendv` returns; a
message with `mlen ≠ 0` completes only after every message queued before it,
but a message with `mlen = 0` completes as soon as its batch is postprocessed,
even when nothing was written. -/

set_option autoImplicit false

namespace Dynomite

/-- Successive `msg_send_chain` calls, one per `sendv` result. -/
def sendRun (cfg : Config) : List Msg → List Int → List SendOut
  | _, [] => []
  | q, n :: ns => msgSendChain cfg q n :: sendRun cfg (msgSendChain cfg q n).queue ns

def sendRunQueue (cfg : Config) : List Msg → List Int → List Msg
  | q, [] => q
  | q, n :: ns => sendRunQueue cfg (msgSendChain cfg q n).queue ns

/-- `sendv` accepts at most the bytes it is offered, at every call. -/
def SendvFits (cfg : Config) : List Msg → List Int → Prop
  | _, [] => True
  | q, n :: ns => n ≤ (msgSendChain cfg q n).nsend ∧ SendvFits cfg (msgSendChain cfg q n).queue ns

def accepted (os : List SendOut) : List UInt8 := (os.map fun o => o.iov.flatten.take o.nsent).flatten

/-- A message with `mlen = 0` has no unread byte (the spec's `mlen` invariant
gives it). -/
def ZeroLenEmpty (q : List Msg) : Prop := ∀ m ∈ q, m.mlen = 0 → m.unread = []

def SendOut.before (o : SendOut) : List Mbuf := (o.sendq.map Msg.mhdr).flatten
def SendOut.after (o : SendOut) : List Mbuf := ((o.sent.map fun p => p.1.mhdr)).flatten

structure BatchSound (cfg : Config) (o : SendOut) : Prop where
  iov_le : o.iov.length ≤ dnIovMax cfg
  nsend_le : o.nsend ≤ cfg.ssizeMax
  gathered : o.iov.flatten = (queueUnread o.sendq).take o.nsend
  nsent_eq : (o.nsent : Int) = max o.n 0
  advance : posAdvance o.before o.after = o.nsent
  marked : newlySent o.before o.after = o.iov.flatten.take o.nsent
  unsent : chainUnread o.after = (chainUnread o.before).drop o.nsent
  same_bytes : o.after.map Mbuf.data = o.before.map Mbuf.data

/-! ## `msg_send` -/

theorem msgSend_eq_sendRun (cfg : Config) (q : List Msg) (ns : List Int) :
    ∃ j, (msgSend cfg q ns).2.2 = sendRun cfg q (ns.take j) ∧
      (msgSend cfg q ns).1 = sendRunQueue cfg q (ns.take j) := by
  induction ns generalizing q with
  | nil => exact ⟨0, by cases q <;> rfl, by cases q <;> rfl⟩
  | cons n ns ih =>
    cases q with
    | nil => exact ⟨0, rfl, rfl⟩
    | cons m q =>
      simp only [msgSend]
      split
      · exact ⟨1, rfl, rfl⟩
      · split
        · obtain ⟨j, h1, h2⟩ := ih (msgSendChain cfg (m :: q) n).queue
          exact ⟨j + 1, by rw [h1]; rfl, h2⟩
        · exact ⟨1, rfl, rfl⟩

theorem SendvFits.take {cfg : Config} {q : List Msg} {ns : List Int} (h : SendvFits cfg q ns) (j : Nat) :
    SendvFits cfg q (ns.take j) := by
  induction ns generalizing q j with
  | nil => simp [SendvFits]
  | cons n ns ih =>
    cases j with
    | zero => trivial
    | succ j => exact ⟨h.1, ih h.2 j⟩

theorem sendRun_append (cfg : Config) (q : List Msg) (ms ns : List Int) :
    sendRun cfg q (ms ++ ns) = sendRun cfg q ms ++ sendRun cfg (sendRunQueue cfg q ms) ns ∧
      sendRunQueue cfg q (ms ++ ns) = sendRunQueue cfg (sendRunQueue cfg q ms) ns := by
  induction ms generalizing q with
  | nil => exact ⟨rfl, rfl⟩
  | cons n ms ih =>
    obtain ⟨h1, h2⟩ := ih (msgSendChain cfg q n).queue
    exact ⟨by rw [List.cons_append, sendRun, h1]; rfl, h2⟩

/-- Successive `msg_send` calls on one queue, each given the `sendv` results of
its own `msg_send_chain` calls. -/
def msgSendRun (cfg : Config) : List Msg → List (List Int) → List Msg × List SendOut
  | q, [] => (q, [])
  | q, ns :: nss => ((msgSendRun cfg (msgSend cfg q ns).1 nss).1,
      (msgSend cfg q ns).2.2 ++ (msgSendRun cfg (msgSend cfg q ns).1 nss).2)

theorem msgSendRun_eq_sendRun (cfg : Config) (q : List Msg) (nss : List (List Int)) :
    ∃ ms, (msgSendRun cfg q nss).2 = sendRun cfg q ms ∧ (msgSendRun cfg q nss).1 = sendRunQueue cfg q ms := by
  induction nss generalizing q with
  | nil => exact ⟨[], rfl, rfl⟩
  | cons ns nss ih =>
    obtain ⟨j, h1, h2⟩ := msgSend_eq_sendRun cfg q ns
    obtain ⟨ms, h3, h4⟩ := ih (msgSend cfg q ns).1
    refine ⟨ns.take j ++ ms, ?_, ?_⟩
    · rw [(sendRun_append cfg q _ ms).1, ← h1, ← h2, ← h3]
      rfl
    · rw [(sendRun_append cfg q _ ms).2, ← h2, ← h4]
      rfl

section Batch

variable (cfg : Config) (q : List Msg) (n : Int)

theorem msgSendChain_sendq : ∃ k, (msgSendChain cfg q n).sendq = q.take k ∧
    (msgSendChain cfg q n).iov.flatten = (queueUnread q).take (msgSendChain cfg q n).nsend ∧
    (msgSendChain cfg q n).nsend ≤ (queueUnread (q.take k)).length ∧
    (msgSendChain cfg q n).iov.length ≤ dnIovMax cfg ∧
    (msgSendChain cfg q n).nsend ≤ cfg.ssizeMax := by
  obtain ⟨k, new, d, h1, h2, h3, h4, h5, h7, h8⟩ := gatherMsgs_spec cfg q [] [] 0
  refine ⟨k, by simpa using h1, ?_, ?_, h7 (Nat.zero_le _), h8 (Nat.zero_le _)⟩
  · show (gatherMsgs cfg q [] [] 0).2.1.flatten = (queueUnread q).take (gatherMsgs cfg q [] [] 0).2.2
    rw [h2, h3]; simpa using h4
  · show (gatherMsgs cfg q [] [] 0).2.2 ≤ _
    rw [h3]; simpa using h5

theorem msgSendChain_nsent_le (hfit : n ≤ (msgSendChain cfg q n).nsend) :
    (msgSendChain cfg q n).nsent ≤ (msgSendChain cfg q n).nsend := by
  show (if n > 0 then n.toNat else 0) ≤ _
  split <;> omega

theorem msgSendChain_after :
    (msgSendChain cfg q n).after = consumeMbufs (msgSendChain cfg q n).before (msgSendChain cfg q n).nsent :=
  sentMsgs_chains _ _

theorem batchSound (hfit : n ≤ (msgSendChain cfg q n).nsend) : BatchSound cfg (msgSendChain cfg q n) := by
  obtain ⟨k, hsendq, hiov, hfits, hlen, hcap⟩ := msgSendChain_sendq cfg q n
  have hle := msgSendChain_nsent_le cfg q n hfit
  have hunread : chainUnread (msgSendChain cfg q n).before = queueUnread (q.take k) := by
    rw [SendOut.before, hsendq, chainUnread_flatten]
  have hq : queueUnread q = queueUnread (q.take k) ++ queueUnread (q.drop k) := by
    rw [← queueUnread_append, List.take_append_drop]
  have hprefix : (queueUnread q).take (msgSendChain cfg q n).nsent =
      (queueUnread (q.take k)).take (msgSendChain cfg q n).nsent := by
    rw [hq, List.take_append_of_le_length (by omega)]
  refine ⟨hlen, hcap, ?_, ?_, ?_, ?_, ?_, ?_⟩
  · rw [hiov, hsendq, hq, List.take_append_of_le_length hfits]
  · show ((if n > 0 then n.toNat else 0 : Nat) : Int) = max n 0
    split <;> omega
  · rw [msgSendChain_after, posAdvance_consumeMbufs, hunread]; omega
  · rw [msgSendChain_after, newlySent_consumeMbufs, hunread, hiov, List.take_take,
      Nat.min_eq_left hle, hprefix]
  · rw [msgSendChain_after, chainUnread_consumeMbufs]
  · rw [msgSendChain_after, consumeMbufs_data]

end Batch

/-! ## Bytes over a run -/

section Batch

variable (cfg : Config) (q : List Msg) (n : Int)

theorem msgSendChain_queue :
    (msgSendChain cfg q n).sendq ++ q.drop (msgSendChain cfg q n).sendq.length = q ∧
    (msgSendChain cfg q n).queue =
      ((msgSendChain cfg q n).sent.filter fun p => !p.2).map Prod.fst ++
        q.drop (msgSendChain cfg q n).sendq.length := by
  obtain ⟨k, hsendq, -⟩ := msgSendChain_sendq cfg q n
  exact ⟨List.prefix_iff_eq_append.1 (hsendq ▸ List.take_prefix k q), rfl⟩

theorem msgSendChain_sendq_subset {m : Msg} (hm : m ∈ (msgSendChain cfg q n).sendq) : m ∈ q := by
  rw [← (msgSendChain_queue cfg q n).1]
  exact List.mem_append_left _ hm

theorem msgSendChain_queue_mem {m : Msg} (hm : m ∈ (msgSendChain cfg q n).queue) :
    m ∈ q ∨ ∃ m₀ ∈ q, ∃ k, sendDoneAt m₀ k = false ∧ m = { m₀ with mhdr := consumeMbufs m₀.mhdr k } := by
  rw [(msgSendChain_queue cfg q n).2, List.mem_append] at hm
  rcases hm with hm | hm
  · obtain ⟨p, hp, rfl⟩ := List.mem_map.1 hm
    obtain ⟨hp, hd⟩ := List.mem_filter.1 hp
    obtain ⟨m₀, hm₀, k, rfl⟩ := sentMsgs_mem hp
    exact Or.inr ⟨m₀, msgSendChain_sendq_subset cfg q n hm₀, k, by simpa using hd, rfl⟩
  · exact Or.inl (List.mem_of_mem_drop hm)

theorem msgSendChain_done_unread (hzero : ZeroLenEmpty q) :
    ∀ p ∈ (msgSendChain cfg q n).sent, p.2 = true → p.1.unread = [] := by
  intro p hp hd
  obtain ⟨m, hm, k, rfl⟩ := sentMsgs_mem hp
  exact (Msg.unread_consume m k).trans
    (sendDoneAt_unread (hzero m (msgSendChain_sendq_subset cfg q n hm)) hd)

theorem zeroLenEmpty_queue (hzero : ZeroLenEmpty q) : ZeroLenEmpty (msgSendChain cfg q n).queue := by
  intro m hm hlen
  rcases msgSendChain_queue_mem cfg q n hm with hm | ⟨m₀, hm₀, k, -, rfl⟩
  · exact hzero m hm hlen
  · rw [Msg.unread_consume, hzero m₀ hm₀ hlen, List.drop_nil]

end Batch

theorem queueUnread_undone (post : List (Msg × Bool)) (hdone : ∀ p ∈ post, p.2 = true → p.1.unread = []) :
    queueUnread ((post.filter fun p => !p.2).map Prod.fst) = queueUnread (post.map Prod.fst) := by
  induction post with
  | nil => rfl
  | cons p ps ih =>
    have ih := ih fun p' hp' => hdone p' (List.mem_cons_of_mem _ hp')
    cases hp : p.2
    · simp [hp, ih]
    · simp [hp, ih, hdone p (List.mem_cons_self _ _) hp]

theorem SendOut.queueUnread_sent (o : SendOut) : queueUnread (o.sent.map Prod.fst) = chainUnread o.after := by
  rw [SendOut.after, ← chainUnread_flatten, List.map_map]
  rfl

/-- One batch: the bytes `sendv` accepted, then what the queue still holds, are
what the queue held. -/
theorem msgSendChain_bytes (cfg : Config) (q : List Msg) (n : Int)
    (hfit : n ≤ (msgSendChain cfg q n).nsend) (hzero : ZeroLenEmpty q) :
    (msgSendChain cfg q n).iov.flatten.take (msgSendChain cfg q n).nsent ++
      queueUnread (msgSendChain cfg q n).queue = queueUnread q := by
  obtain ⟨k, hsendq, hiov, hfits, -, -⟩ := msgSendChain_sendq cfg q n
  obtain ⟨hsplit, hqueue⟩ := msgSendChain_queue cfg q n
  have hle := msgSendChain_nsent_le cfg q n hfit
  have hfits' : (msgSendChain cfg q n).nsent ≤ (queueUnread (msgSendChain cfg q n).sendq).length := by
    rw [hsendq]; omega
  have hq : queueUnread q = queueUnread (msgSendChain cfg q n).sendq ++
      queueUnread (q.drop (msgSendChain cfg q n).sendq.length) := by
    rw [← queueUnread_append, hsplit]
  rw [hqueue, queueUnread_append, queueUnread_undone _ (msgSendChain_done_unread cfg q n hzero),
    SendOut.queueUnread_sent, msgSendChain_after, chainUnread_consumeMbufs, SendOut.before,
    chainUnread_flatten, hiov, List.take_take, Nat.min_eq_left hle, hq,
    List.take_append_of_le_length hfits', ← List.append_assoc, List.take_append_drop]

theorem sendRun_sound (cfg : Config) (q : List Msg) (ns : List Int) (hfit : SendvFits cfg q ns) :
    ∀ o ∈ sendRun cfg q ns, BatchSound cfg o := by
  induction ns generalizing q with
  | nil => simp [sendRun]
  | cons n ns ih =>
    intro o ho
    rcases List.mem_cons.1 ho with rfl | ho
    · exact batchSound cfg q n hfit.1
    · exact ih _ hfit.2 o ho

theorem sendRun_bytes (cfg : Config) (q : List Msg) (ns : List Int) (hfit : SendvFits cfg q ns)
    (hzero : ZeroLenEmpty q) : accepted (sendRun cfg q ns) ++ queueUnread (sendRunQueue cfg q ns) = queueUnread q := by
  induction ns generalizing q with
  | nil => simp [sendRun, sendRunQueue, accepted]
  | cons n ns ih =>
    have h := ih _ hfit.2 (zeroLenEmpty_queue cfg q n hzero)
    simp only [sendRun, sendRunQueue, accepted, List.map_cons, List.flatten_cons, List.append_assoc] at h ⊢
    rw [h, msgSendChain_bytes cfg q n hfit.1 hzero]

/-- What a run of calls `os`, leaving the queue `rest`, does to the bytes of the
queue `q`: every call is `BatchSound`, and when no message with `mlen = 0`
holds an unsent byte, the bytes `sendv` accepted followed by the bytes still
queued are the bytes `q` held. -/
def SendBytesLaws (cfg : Config) (q : List Msg) (os : List SendOut) (rest : List Msg) : Prop :=
  (∀ o ∈ os, BatchSound cfg o) ∧ (ZeroLenEmpty q → accepted os ++ queueUnread rest = queueUnread q)

/-- Whole runs of `msg_send_chain`, and the calls one `msg_send` makes: every
batch is `BatchSound` whenever `sendv` accepts at most what it is offered, and
if moreover no message with `mlen = 0` holds an unsent byte, the accepted bytes
followed by what the queue still holds are the bytes the queue held at the
start, so the accepted bytes are a prefix of them in queue order. -/
theorem send_run_bytes_in_order (cfg : Config) (q : List Msg) (ns : List Int) (hfit : SendvFits cfg q ns) :
    SendBytesLaws cfg q (sendRun cfg q ns) (sendRunQueue cfg q ns) ∧
      SendBytesLaws cfg q (msgSend cfg q ns).2.2 (msgSend cfg q ns).1 := by
  obtain ⟨j, h1, h2⟩ := msgSend_eq_sendRun cfg q ns
  rw [h1, h2]
  exact ⟨⟨sendRun_sound cfg q ns hfit, sendRun_bytes cfg q ns hfit⟩,
    ⟨sendRun_sound cfg q _ (hfit.take j), sendRun_bytes cfg q _ (hfit.take j)⟩⟩

def pendingMsg : Msg := { Msg.fresh 1 with mhdr := [mbufCopy mbufGet [42]], mlen := 1 }

def emptyMsg : Msg := Msg.fresh 2

theorem send_run_bytes_in_order_eagain_then_one :
    SendvFits smallConfig [pendingMsg, emptyMsg] [dnEagain, 1] ∧ ZeroLenEmpty [pendingMsg, emptyMsg] ∧
    SendBytesLaws smallConfig [pendingMsg, emptyMsg] (sendRun smallConfig [pendingMsg, emptyMsg] [dnEagain, 1])
        (sendRunQueue smallConfig [pendingMsg, emptyMsg] [dnEagain, 1]) ∧
      SendBytesLaws smallConfig [pendingMsg, emptyMsg] (msgSend smallConfig [pendingMsg, emptyMsg] [dnEagain, 1]).2.2
        (msgSend smallConfig [pendingMsg, emptyMsg] [dnEagain, 1]).1 := by
  have hfit : SendvFits smallConfig [pendingMsg, emptyMsg] [dnEagain, 1] := by simp only [SendvFits]; decide
  exact ⟨hfit, by unfold ZeroLenEmpty; decide, send_run_bytes_in_order _ _ _ hfit⟩

def strayMsg : Msg := { Msg.fresh 3 with mhdr := [mbufCopy mbufGet [7]] }

/-- Without `ZeroLenEmpty` a byte is skipped: the first call gathers both
messages, `sendv` would block, and the postprocess hands the message with
`mlen = 0` to `send_done` with its byte unsent; the second call sends the other
message's byte. -/
theorem send_run_skips_stray_byte :
    SendvFits smallConfig [strayMsg, pendingMsg] [dnEagain, 1] ∧
    accepted (sendRun smallConfig [strayMsg, pendingMsg] [dnEagain, 1]) = [42] ∧
    sendRunQueue smallConfig [strayMsg, pendingMsg] [dnEagain, 1] = [] ∧
    queueUnread [strayMsg, pendingMsg] = [7, 42] := by
  refine ⟨by simp only [SendvFits]; decide, by decide, by decide, by decide⟩

/-! ## Handing messages to `send_done` -/

/-- A queued message holds an unsent byte exactly when its `mlen` is not 0, as
a message does when it is queued. -/
def Pending (q : List Msg) : Prop := ∀ m ∈ q, m.unread = [] ↔ m.mlen = 0

theorem queueUnread_take_succ {ms : List Msg} {i : Nat} {m : Msg} (hm : ms[i]? = some m) :
    (queueUnread (ms.take (i + 1))).length = (queueUnread (ms.take i)).length + m.unread.length := by
  rw [List.take_succ, hm, Option.toList_some, queueUnread_append, queueUnread_cons, queueUnread_nil,
    List.append_nil, List.length_append]

theorem queueUnread_take_le (ms : List Msg) {i j : Nat} (h : i ≤ j) :
    (queueUnread (ms.take i)).length ≤ (queueUnread (ms.take j)).length := by
  obtain ⟨t, ht⟩ := List.take_prefix_take_left ms h
  rw [← ht, queueUnread_append, List.length_append]
  omega

theorem sentMsgs_flag (ms : List Msg) (k : Nat) (hp : Pending ms) (i : Nat) (m : Msg) (d : Bool)
    (hm : ms[i]? = some m) (hd : ((sentMsgs ms k).map Prod.snd)[i]? = some d) :
    d = true ↔ m.mlen = 0 ∨ (queueUnread (ms.take i)).length + m.unread.length ≤ k := by
  induction ms generalizing k i with
  | nil => simp at hm
  | cons m₁ ms ih =>
    rw [sentMsgs_cons, List.map_cons] at hd
    cases i with
    | zero =>
      simp only [List.getElem?_cons_zero, Option.some.injEq] at hm hd
      subst hm hd
      rw [List.take_zero, queueUnread_nil, List.length_nil, Nat.zero_add]
      exact sendDoneAt_iff k (hp _ (List.mem_cons_self _ _))
    | succ i =>
      simp only [List.getElem?_cons_succ] at hm hd
      rw [ih _ (fun m' hm' => hp m' (List.mem_cons_of_mem _ hm')) i hm hd, List.take_succ_cons,
        queueUnread_cons, List.length_append]
      by_cases h0 : m.mlen = 0
      · simp [h0]
      · have hne : m.unread ≠ [] := fun h => h0 ((hp m (List.mem_cons_of_mem _ (List.getElem?_mem hm))).1 h)
        have := List.length_pos.2 hne
        simp only [h0, false_or]
        omega

theorem sentMsgs_in_order (ms : List Msg) (k : Nat) (hp : Pending ms) {i j : Nat} {mi mj : Msg}
    (hij : i < j) (hmi : ms[i]? = some mi) (hmj : ms[j]? = some mj)
    (hi : ((sentMsgs ms k).map Prod.snd)[i]? = some false)
    (hj : ((sentMsgs ms k).map Prod.snd)[j]? = some true) : mj.mlen = 0 := by
  have hfi := sentMsgs_flag ms k hp i mi false hmi hi
  simp only [Bool.false_eq_true, false_iff, not_or, not_le] at hfi
  have hmono := queueUnread_take_le ms (Nat.succ_le_of_lt hij)
  rw [queueUnread_take_succ hmi] at hmono
  rcases (sentMsgs_flag ms k hp j mj true hmj hj).1 rfl with h | h
  · exact h
  · exact absurd h (by omega)

structure BatchQueue (o : SendOut) : Prop where
  front : o.sendq <+: o.start
  keeps_order : (o.queue.map Msg.id).Sublist (o.start.map Msg.id)

structure BatchDone (o : SendOut) : Prop where
  done_iff : ∀ (i : Nat) (m : Msg) (d : Bool), o.sendq[i]? = some m → (o.sent.map Prod.snd)[i]? = some d →
    (d = true ↔ m.mlen = 0 ∨ (queueUnread (o.sendq.take i)).length + m.unread.length ≤ o.nsent)
  in_order : ∀ (i j : Nat) (mi mj : Msg), i < j → o.sendq[i]? = some mi → o.sendq[j]? = some mj →
    (o.sent.map Prod.snd)[i]? = some false → (o.sent.map Prod.snd)[j]? = some true → mj.mlen = 0

section Batch

variable (cfg : Config) (q : List Msg) (n : Int)

theorem msgSendChain_sent_ids :
    (msgSendChain cfg q n).sent.map (fun p => p.1.id) = (msgSendChain cfg q n).sendq.map Msg.id :=
  sentMsgs_ids _ _

theorem msgSendChain_done :
    (msgSendChain cfg q n).done = ((msgSendChain cfg q n).sent.filter fun p => p.2).map Prod.fst :=
  rfl

theorem pending_queue (hq : Pending q) : Pending (msgSendChain cfg q n).queue := by
  intro m hm
  rcases msgSendChain_queue_mem cfg q n hm with hm | ⟨m₀, hm₀, k, hd, rfl⟩
  · exact hq m hm
  · have hnot := mt (sendDoneAt_iff k (hq m₀ hm₀)).2 (by simp [hd])
    rw [not_or, not_le] at hnot
    refine iff_of_false ?_ hnot.1
    rw [Msg.unread_consume, ← List.length_eq_zero, List.length_drop]
    omega

theorem batchQueue : BatchQueue (msgSendChain cfg q n) := by
  obtain ⟨hsplit, hqueue⟩ := msgSendChain_queue cfg q n
  refine ⟨⟨_, hsplit⟩, ?_⟩
  show ((msgSendChain cfg q n).queue.map Msg.id).Sublist (q.map Msg.id)
  conv_rhs => rw [← hsplit]
  rw [hqueue, List.map_append, List.map_append, List.map_map, ← msgSendChain_sent_ids]
  exact ((List.filter_sublist _).map _).append_right _

theorem msgSendChain_done_unsent (hzero : ZeroLenEmpty q) : ∀ m ∈ (msgSendChain cfg q n).done, m.unread = [] := by
  intro m hm
  rw [msgSendChain_done] at hm
  obtain ⟨p, hp, rfl⟩ := List.mem_map.1 hm
  obtain ⟨hp, hd⟩ := List.mem_filter.1 hp
  exact msgSendChain_done_unread cfg q n hzero p hp hd

theorem batchDone (hq : Pending q) : BatchDone (msgSendChain cfg q n) := by
  have hps : Pending (msgSendChain cfg q n).sendq := fun m hm =>
    hq m (msgSendChain_sendq_subset cfg q n hm)
  exact ⟨fun i m d => sentMsgs_flag _ _ hps i m d, fun i j mi mj hij => sentMsgs_in_order _ _ hps hij⟩

theorem msgSendChain_ids :
    ((msgSendChain cfg q n).done.map Msg.id ++ (msgSendChain cfg q n).queue.map Msg.id).Perm
      (q.map Msg.id) := by
  obtain ⟨hsplit, hqueue⟩ := msgSendChain_queue cfg q n
  conv_rhs => rw [← hsplit]
  rw [hqueue, List.map_append, List.map_append, ← List.append_assoc, ← msgSendChain_sent_ids]
  refine List.Perm.append_right _ ?_
  rw [msgSendChain_done, List.map_map, List.map_map, ← List.map_append]
  exact (List.filter_append_perm _ _).map _

end Batch

/-- What a run of calls `os`, leaving the queue `rest`, does with `send_done`
on the queue `q`: the messages handed over, then those still queued, are the
queued messages, so none is handed over twice; every call is `BatchQueue`; a
message handed over holds no unsent byte when no message with `mlen = 0` holds
one; and every call is `BatchDone` when a message holds an unsent byte exactly
when its `mlen` is not 0. -/
def SendDoneLaws (q : List Msg) (os : List SendOut) (rest : List Msg) : Prop :=
  ((os.map fun o => o.done.map Msg.id).flatten ++ rest.map Msg.id).Perm (q.map Msg.id) ∧
    (∀ o ∈ os, BatchQueue o) ∧ (ZeroLenEmpty q → ∀ o ∈ os, ∀ m ∈ o.done, m.unread = []) ∧
    (Pending q → ∀ o ∈ os, BatchDone o)

theorem sendRun_doneLaws (cfg : Config) (q : List Msg) (ns : List Int) :
    SendDoneLaws q (sendRun cfg q ns) (sendRunQueue cfg q ns) := by
  induction ns generalizing q with
  | nil => exact ⟨List.Perm.refl _, by simp [sendRun], by simp [sendRun], by simp [sendRun]⟩
  | cons n ns ih =>
    obtain ⟨hperm, hqueue, hunsent, hdone⟩ := ih (msgSendChain cfg q n).queue
    refine ⟨?_, ?_, fun hzero => ?_, fun hq => ?_⟩
    · simp only [sendRun, sendRunQueue, List.map_cons, List.flatten_cons, List.append_assoc]
      exact (hperm.append_left _).trans (msgSendChain_ids cfg q n)
    · exact List.forall_mem_cons.2 ⟨batchQueue cfg q n, hqueue⟩
    · exact List.forall_mem_cons.2 ⟨msgSendChain_done_unsent cfg q n hzero,
        hunsent (zeroLenEmpty_queue cfg q n hzero)⟩
    · exact List.forall_mem_cons.2 ⟨batchDone cfg q n hq, hdone (pending_queue cfg q n hq)⟩

/-- Over a run of `msg_send_chain` calls, and over a run of `msg_send` calls,
with any `sendv` results, the laws of `SendDoneLaws` hold.  A message with
`mlen = 0` is handed over in the first call whose batch reaches it, so it can
pass earlier messages that still hold unsent bytes. -/
theorem send_done_per_batch (cfg : Config) (q : List Msg) (ns : List Int) (nss : List (List Int)) :
    SendDoneLaws q (sendRun cfg q ns) (sendRunQueue cfg q ns) ∧
      SendDoneLaws q (msgSendRun cfg q nss).2 (msgSendRun cfg q nss).1 := by
  obtain ⟨ms, h1, h2⟩ := msgSendRun_eq_sendRun cfg q nss
  rw [h1, h2]
  exact ⟨sendRun_doneLaws cfg q ns, sendRun_doneLaws cfg q ms⟩

theorem send_done_per_batch_eagain_then_one :
    Pending [pendingMsg, emptyMsg] ∧
    SendDoneLaws [pendingMsg, emptyMsg] (sendRun smallConfig [pendingMsg, emptyMsg] [dnEagain, 1])
        (sendRunQueue smallConfig [pendingMsg, emptyMsg] [dnEagain, 1]) ∧
      SendDoneLaws [pendingMsg, emptyMsg] (msgSendRun smallConfig [pendingMsg, emptyMsg] [[dnEagain], [1]]).2
        (msgSendRun smallConfig [pendingMsg, emptyMsg] [[dnEagain], [1]]).1 :=
  ⟨by unfold Pending; decide, send_done_per_batch _ _ _ _⟩

theorem send_done_passes_unsent :
    (msgSendChain smallConfig [pendingMsg, emptyMsg] dnEagain).nsend = 1 ∧
    (msgSendChain smallConfig [pendingMsg, emptyMsg] dnEagain).done.map Msg.id = [2] ∧
    (msgSendChain smallConfig [pendingMsg, emptyMsg] dnEagain).queue.map Msg.id = [1] ∧
    (msgSendChain smallConfig [pendingMsg, emptyMsg] dnEagain).queue.map Msg.unread = [[42]] := by
  decide

end Dynomite
