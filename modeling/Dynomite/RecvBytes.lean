import Dynomite.RecvInv

/-! # No received byte is lost, duplicated or reordered

On a plaintext connection, the bytes `conn_recv` read so far are, in order,
the bytes of the messages handed to `recv_done`, in hand-off order, followed
by the bytes of the current message (`recv_run_conserves_bytes`).  The read
appends to the tail, `msg_parsed` cuts the chain in two at the parser's
position and hands the front over, and `msg_repair` re-segments the chain
without changing its bytes, wherever in the tail the parser stops.  The law
holds after every step that returned `DN_OK`; `msg_fragment` is left out
(it writes synthesized bytes into the new message). -/

set_option autoImplicit false

namespace Dynomite

/-- The bytes a read brought in. -/
def RecvEvent.received : RecvEvent → List UInt8
  | .recv _ _ _ data => data
  | _ => []

/-- The bytes a hand-off passed upstream. -/
def RecvEvent.handed : RecvEvent → List UInt8
  | .recvDone _ _ _ data _ => data
  | _ => []

@[simp] theorem RecvEvent.received_recv (msg last size : Nat) (data : List UInt8) :
    (RecvEvent.recv msg last size data).received = data := rfl
@[simp] theorem RecvEvent.received_decrypt (input : List UInt8) :
    (RecvEvent.decrypt input).received = [] := rfl
@[simp] theorem RecvEvent.received_parse (msg cursor : Nat) :
    (RecvEvent.parse msg cursor).received = [] := rfl
@[simp] theorem RecvEvent.received_recvDone (msg : Nat) (id fragId : UInt64) (data : List UInt8)
    (next : Option Nat) : (RecvEvent.recvDone msg id fragId data next).received = [] := rfl
@[simp] theorem RecvEvent.handed_recv (msg last size : Nat) (data : List UInt8) :
    (RecvEvent.recv msg last size data).handed = [] := rfl
@[simp] theorem RecvEvent.handed_decrypt (input : List UInt8) :
    (RecvEvent.decrypt input).handed = [] := rfl
@[simp] theorem RecvEvent.handed_parse (msg cursor : Nat) :
    (RecvEvent.parse msg cursor).handed = [] := rfl
@[simp] theorem RecvEvent.handed_recvDone (msg : Nat) (id fragId : UInt64) (data : List UInt8)
    (next : Option Nat) : (RecvEvent.recvDone msg id fragId data next).handed = data := rfl

def receivedBytes (log : List RecvEvent) : List UInt8 := (log.map RecvEvent.received).flatten

def handedBytes (log : List RecvEvent) : List UInt8 := (log.map RecvEvent.handed).flatten

@[simp] theorem receivedBytes_snoc (log : List RecvEvent) (e : RecvEvent) :
    receivedBytes (log ++ [e]) = receivedBytes log ++ e.received := by
  simp [receivedBytes]

@[simp] theorem handedBytes_snoc (log : List RecvEvent) (e : RecvEvent) :
    handedBytes (log ++ [e]) = handedBytes log ++ e.handed := by
  simp [handedBytes]

/-- The bytes of the current message. -/
def currentBytes (s : RecvSys) : List UInt8 :=
  match s.conn.rmsg with
  | some i => chainBytes (s.msg i).mhdr
  | none => []

/-- The state of a plaintext connection after steps that returned `DN_OK`. -/
structure Conserved (cfg : Config) (s : RecvSys) : Prop where
  engine : EngineInv cfg s
  plain : ∀ i, s.conn.rmsg = some i → (s.msg i).dmsg = none
  bytes : handedBytes s.log ++ currentBytes s = receivedBytes s.log

/-- Upstream releases only live messages other than the current one, and no
parse result is `MSG_PARSE_FRAGMENT`. -/
def RecvOp.PlainOk (s : RecvSys) (op : RecvOp) : Prop :=
  op.PutsOk s ∧ ∀ io, op = .call io → ∀ p ∈ io.parses, p.result ≠ .fragment

section Steps

variable {cfg : Config} {s s' : RecvSys} {i : Nat}

/-- A write to the current message that keeps its bytes and its envelope. -/
theorem Conserved.setMsg (h : Conserved cfg s) (hcur : s.conn.rmsg = some i) (m : Msg)
    (hm : chainBytes m.mhdr = chainBytes (s.msg i).mhdr) (hd : m.dmsg = (s.msg i).dmsg) :
    Conserved cfg (s.setMsg i m) := by
  refine ⟨h.engine.setMsg (h.engine.live i hcur) m, fun k hk => ?_, ?_⟩
  · rw [RecvSys.setMsg_conn, hcur] at hk
    cases hk
    simpa [hd] using h.plain i hcur
  · simpa [currentBytes, hcur, hm] using h.bytes

theorem Conserved.handOff (h : Conserved cfg s) (hcur : s.conn.rmsg = some i) :
    Conserved cfg (recvDone s i none) := by
  refine ⟨h.engine.handOff i (by simp), by simp, ?_⟩
  have := h.bytes
  simp only [currentBytes, hcur] at this
  simpa [currentBytes] using this

theorem Conserved.invoke (h : Conserved cfg s) (hcur : s.conn.rmsg = some i) (io : ParseIO) :
    Conserved cfg (invokeParser s i io) := by
  have he : Conserved cfg (s.emit (.parse i (cursor (s.msg i)))) :=
    ⟨h.engine.emit _, h.plain, by simpa [currentBytes] using h.bytes⟩
  exact he.setMsg hcur _ rfl rfl

theorem Conserved.parsed (h : Conserved cfg s) (hcur : s.conn.rmsg = some i) {io : ParseIO}
    (hok : msgParsed cfg s i io = (s', .ok)) : Conserved cfg s' := by
  have heng := h.engine.parsed hcur io
  rw [hok] at heng
  rcases msgParsed_ok hok with ⟨-, rfl⟩ | ⟨hd, nbuf, c, j, hsplit, hget, rfl⟩
  · exact h.handOff hcur
  · obtain ⟨moved, hdata, -, hbytes⟩ := mbufSplit_bytes hsplit
    have hji : j ≠ i := msgGet_ne_live hget (h.engine.live i hcur)
    obtain ⟨-, hmsgs, -, -⟩ := msgGet_some hget
    have hcj : c.msgs j = msgGot (s.setMsg i { s.msg i with mhdr := hd }).core s.conn (s.msg i).request
        s.conn.redis := by
      rw [hmsgs, Function.update_same]
    have hci : c.msgs i = { s.msg i with mhdr := hd } := by
      rw [hmsgs, Function.update_noteq (Ne.symm hji)]
      exact RecvSys.setMsg_msg_self _ _ _
    refine ⟨heng, fun k hk => ?_, ?_⟩
    · simp only [recvDone_rmsg, Option.some.injEq] at hk
      subst hk
      rw [recvDone_msg, moveSplit_msg_right _ (Ne.symm hji)]
      show (c.msgs j).dmsg = none
      rw [hcj]
      rfl
    · have hb := h.bytes
      simp only [currentBytes, hcur] at hb
      simp only [currentBytes, recvDone_rmsg, recvDone_msg, recvDone_log, handedBytes_snoc,
        RecvEvent.handed_recvDone, moveSplit_msg_left _ (Ne.symm hji), moveSplit_msg_right _ (Ne.symm hji),
        moveSplit_log, RecvSys.setMsg_log, receivedBytes_snoc, RecvEvent.received_recvDone,
        List.append_nil]
      show handedBytes s.log ++ chainBytes (c.msgs i).mhdr ++ chainBytes ((c.msgs j).mhdr ++ [nbuf]) =
        receivedBytes s.log
      rw [hci, hcj, ← hb]
      simp [msgGot, Msg.fresh, ← hbytes, hdata]

theorem Conserved.repair (h : Conserved cfg s) (hcur : s.conn.rmsg = some i) {mbufOk : Bool}
    (hok : msgRepair s i mbufOk = (s', .ok)) : Conserved cfg s' := by
  obtain ⟨hd, nbuf, hsplit, rfl⟩ := msgRepair_ok hok
  obtain ⟨moved, hdata, -, hbytes⟩ := mbufSplit_bytes hsplit
  exact h.setMsg hcur _ (by simp [hdata, ← hbytes]) rfl

theorem Conserved.parse (h : Conserved cfg s) (hcur : s.conn.rmsg = some i) {io : ParseIO}
    (hfrag : io.result ≠ .fragment) (hok : msgParse cfg s i io = (s', .ok)) : Conserved cfg s' := by
  rcases msgParse_ok hok with ⟨-, rfl⟩ | ⟨-, ⟨-, hp⟩ | ⟨hres, -⟩ | ⟨-, hp⟩ | ⟨-, rfl⟩⟩
  · exact h.handOff hcur
  · exact (h.invoke hcur io).parsed hcur hp
  · exact absurd hres hfrag
  · exact (h.invoke hcur io).repair hcur hp
  · exact h.invoke hcur io

theorem Conserved.attach (h : Conserved cfg s) (hcur : s.conn.rmsg = some i) :
    Conserved cfg (attachTail cfg s i) := by
  unfold attachTail
  split
  · exact h.setMsg hcur _ (by simp) rfl
  · exact h

theorem Conserved.read (h : Conserved cfg s) (hcur : s.conn.rmsg = some i) (size : Nat)
    (data : List UInt8) : Conserved cfg (recvData s i size data) := by
  refine ⟨h.engine.read hcur size data, fun k hk => ?_, ?_⟩
  · have hki : k = i := by rw [← Option.some.inj (hk.symm.trans hcur)]
    subst hki
    simpa [recvData] using h.plain k hcur
  · have hb := h.bytes
    simp only [currentBytes, hcur] at hb
    simp only [recvData, currentBytes, RecvSys.setMsg_conn, RecvSys.emit_conn, hcur,
      RecvSys.setMsg_msg_self, RecvSys.setMsg_log, RecvSys.emit_log, receivedBytes_snoc,
      handedBytes_snoc, RecvEvent.received_recv, RecvEvent.handed_recv, List.append_nil]
    rw [chainBytes_dropLast] at hb
    rw [chainBytes_setLast, mbufCopy_data, ← hb]
    simp only [List.append_assoc]

theorem Conserved.emit (h : Conserved cfg s) (e : RecvEvent) (he : e.received = [])
    (hh : e.handed = []) : Conserved cfg (s.emit e) :=
  ⟨h.engine.emit e, h.plain, by simpa [currentBytes, he, hh] using h.bytes⟩

theorem Conserved.ready (h : Conserved cfg s) (b : Bool) :
    Conserved cfg { s with conn := { s.conn with recvReady := b } } :=
  ⟨h.engine.ready b, h.plain, h.bytes⟩

/-- On a plaintext message the ciphertext step does nothing. -/
theorem Conserved.decrypt (h : Conserved cfg s) (hcur : s.conn.rmsg = some i)
    {decrypt : List UInt8 → List UInt8} {n : Nat} {ok : Bool}
    (hd : decryptStep cfg decrypt s i n ok = some s') : Conserved cfg s' := by
  unfold decryptStep at hd
  dsimp only at hd
  rw [h.plain i hcur] at hd
  cases hd
  exact h

theorem Conserved.next (h : Conserved cfg s) (alloc allocOk : Bool) :
    Conserved cfg (recvNext cfg s alloc allocOk).1 := by
  unfold recvNext
  split
  · exact h
  · rename_i hnone
    have hb := h.bytes
    simp only [currentBytes, hnone, List.append_nil] at hb
    split
    · split
      · rename_i c j hget
        obtain ⟨h₂, hj⟩ := h.engine.get hget
        obtain ⟨-, hmsgs, -, -⟩ := msgGet_some hget
        refine ⟨⟨h₂.pool, fun k hk => by cases hk; exact (hj j rfl).1⟩, fun k hk => ?_, ?_⟩
        · cases hk
          simp [RecvSys.msg, hmsgs, msgGot, Msg.fresh]
        · simp [currentBytes, RecvSys.msg, hmsgs, msgGot, Msg.fresh, hb]
      · rename_i c hget
        exact ⟨(h.engine.get hget).1, by simp [hnone], by simpa [currentBytes, hnone] using hb⟩
    · exact h

end Steps

/-- Every plaintext operation that returns `DN_OK` keeps the law. -/
theorem Conserved.op {cfg : Config} {decrypt : List UInt8 → List UInt8} {s : RecvSys}
    (h : Conserved cfg s) {op : RecvOp} (hop : op.PlainOk s) {r : RecvSys × RStatus}
    (hr : recvOp cfg decrypt s op = some r) (hst : r.2 = .ok) : Conserved cfg r.1 := by
  cases op with
  | call io =>
    have hn := h.next true io.allocOk
    have hcur := (h.engine.next true io.allocOk).2
    dsimp only [recvOp] at hr
    split at hr
    · rename_i s₁ i hnext
      rw [hnext] at hn hcur
      exact msgRecvChain_inv (Conserved cfg) (·.result ≠ .fragment) (· = .ok) rfl
        (fun _ b h => h.ready b) (fun _ _ h hc => h.attach hc)
        (fun _ _ _ h _ => h.emit _ rfl rfl) (fun _ _ size data h hc => h.read hc size data)
        (fun _ _ _ _ _ h hc hd => h.decrypt hc hd)
        (fun _ _ _ _ _ h hc hq hp hok => h.parse hc hq (hok ▸ hp))
        (hop.2 io rfl) hn (hcur i rfl) hr hst
    · rename_i s₁ hnext
      cases hr
      rw [hnext] at hn
      exact hn
  | put i =>
    cases hr
    have hfar : ∀ k, s.conn.rmsg = some k → (msgPut s.core i).msgs k = s.msg k := fun k hk => by
      simp [msgPut, RecvSys.msg, Core.set, Function.update_noteq
        (show k ≠ i from fun e => hop.1.2 (e ▸ hk))]
    refine ⟨@EngineInv.op cfg decrypt s h.engine _ hop.1 _ rfl, fun k hk => ?_, ?_⟩
    · simpa [RecvSys.msg, hfar k hk] using h.plain k hk
    · have hb := h.bytes
      revert hb
      simp only [currentBytes]
      split
      · rename_i k hk
        simp [RecvSys.msg, hfar k hk]
      · simp

/-- Conservation of received bytes: on a plaintext connection, from a pool
with no current message, after any run in which every call returned `DN_OK`,
upstream releases only live messages other than the current one and no parse
is `MSG_PARSE_FRAGMENT`, the bytes handed to `recv_done` followed by the bytes
of the current message are exactly the bytes `conn_recv` returned, in order. -/
theorem recv_run_conserves_bytes (cfg : Config) (decrypt : List UInt8 → List UInt8) (c : Core)
    (conn : Conn) (request : Bool) (ops : List RecvOp) (s' : RecvSys) (sts : List RStatus)
    (hpool : PoolInv cfg c) (hconn : conn.rmsg = none)
    (hops : RecvRunAllowed cfg decrypt RecvOp.PlainOk ops ⟨c, conn, request, []⟩)
    (hrun : recvRun cfg decrypt ops ⟨c, conn, request, []⟩ = some (s', sts))
    (hok : ∀ st ∈ sts, st = .ok) :
    handedBytes s'.log ++ currentBytes s' = receivedBytes s'.log := by
  have h₀ : Conserved cfg ⟨c, conn, request, []⟩ :=
    ⟨⟨hpool, by simp [hconn]⟩, by simp [hconn], by simp [currentBytes, hconn, handedBytes, receivedBytes]⟩
  exact (recvRun_inv (Conserved cfg) RecvOp.PlainOk (· = .ok)
    (fun _ _ _ h hop hr hst => h.op hop hr hst) h₀ hops hrun hok).bytes

/-- One read of `1 2 3`: the parser ends a request after two bytes, and asks
for more on the third. -/
def splitCall : ChainIO :=
  ⟨true, true, .bytes [1, 2, 3], true, true,
    [⟨.ok, 2, [], none, 0, true, true⟩, ⟨.again, 0, [], none, 0, true, true⟩]⟩

theorem recv_run_conserves_bytes_split :
    ∃ s', recvRun smallConfig id [.call splitCall] ⟨msgInit Core.boot, clientConn, true, []⟩ =
        some (s', [.ok]) ∧ handedBytes s'.log = [1, 2] ∧ currentBytes s' = [3] ∧
      handedBytes s'.log ++ currentBytes s' = receivedBytes s'.log := by
  refine ⟨_, rfl, by decide, by decide, ?_⟩
  refine recv_run_conserves_bytes smallConfig id _ clientConn true [.call splitCall] _ [.ok]
    poolInv_msgInit_boot rfl ?_ rfl (by simp)
  simp [RecvRunAllowed, RecvOp.PlainOk, RecvOp.PutsOk, splitCall]

end Dynomite
