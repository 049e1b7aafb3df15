import Dynomite.RecvBytes
import Dynomite.Cipher
import Dynomite.Split

/-! # `mlen` tracks the chain on runs without fragments

The spec's first law of a message, `mlen == Σ (last − start)` over its chain,
is kept by every write of the receive engine but two: `msg_fragment`, which
counts the pre-copied bytes on the wrong side (`Dynomite.Split`), and a split
whose `msg_get` fails, which drops the moved bytes.  The read adds what it
read, the ciphertext swap trades the tail's length for the plaintext buffer's,
`msg_parsed` moves exactly the bytes it cuts off, and `msg_repair` and a fresh
tail move none.  So on every run without `MSG_PARSE_FRAGMENT` whose calls all
return `DN_OK`, from a state where the law holds, it holds of every live
message at the end (`recv_run_mlen_eq_length`).  `msg_get` installs no
envelope (the dnode parser, outside this file, does), so the ciphertext path
is taken by a current message that already carries one: the start may hold
such a message, mid-payload. -/

set_option autoImplicit false

namespace Dynomite

/-! ## Lengths modulo `2^32` -/

theorem nat_toUInt32_add (a b : Nat) : (a + b).toUInt32 = a.toUInt32 + b.toUInt32 := by
  rw [u32_eq_iff, u32_toNat_add, nat_toUInt32_toNat, nat_toUInt32_toNat, nat_toUInt32_toNat]
  omega

theorem nat_toUInt32_add_sub (a b : Nat) : (a + b).toUInt32 - b.toUInt32 = a.toUInt32 := by
  rw [u32_eq_iff, u32_toNat_sub_wrap, nat_toUInt32_toNat, nat_toUInt32_toNat, nat_toUInt32_toNat]
  omega

theorem nat_toUInt32_swap (a t r : Nat) : (a + t).toUInt32 - t.toUInt32 + r.toUInt32 = (a + r).toUInt32 := by
  rw [nat_toUInt32_add_sub, nat_toUInt32_add]

@[simp] theorem msgLength_fresh (id : UInt64) : msgLength (Msg.fresh id) = 0 := rfl

/-! ## The invariant -/

/-- The engine invariant, and every live message's `mlen` is its `msg_length`. -/
structure LengthInv (cfg : Config) (s : RecvSys) : Prop where
  engine : EngineInv cfg s
  mlen : ∀ k, Live s.core k → (s.msg k).mlen = msgLength (s.msg k)

section Steps

variable {cfg : Config} {s s' : RecvSys} {i : Nat}

theorem LengthInv.setMsg (h : LengthInv cfg s) (hi : Live s.core i) (m : Msg) (hm : m.mlen = msgLength m) :
    LengthInv cfg (s.setMsg i m) := by
  refine ⟨h.engine.setMsg hi m, fun k hk => ?_⟩
  by_cases hki : k = i
  · rw [hki, RecvSys.setMsg_msg_self]
    exact hm
  · rw [RecvSys.setMsg_msg_ne _ _ hki]
    exact h.mlen k hk

/-- A write to a live message that keeps its bytes and its `mlen`. -/
theorem LengthInv.setMsg_same (h : LengthInv cfg s) (hi : Live s.core i) (m : Msg)
    (hl : m.mlen = (s.msg i).mlen) (hb : chainBytes m.mhdr = chainBytes (s.msg i).mhdr) :
    LengthInv cfg (s.setMsg i m) :=
  h.setMsg hi m (by rw [hl, h.mlen i hi, msgLength_eq, msgLength_eq, hb])

theorem LengthInv.emit (h : LengthInv cfg s) (e : RecvEvent) : LengthInv cfg (s.emit e) :=
  ⟨h.engine.emit e, h.mlen⟩

theorem LengthInv.handOff (h : LengthInv cfg s) (i : Nat) {next : Option Nat}
    (hnext : ∀ j, next = some j → Live s.core j) : LengthInv cfg (recvDone s i next) :=
  ⟨h.engine.handOff i hnext, h.mlen⟩

theorem LengthInv.invoke (h : LengthInv cfg s) (hcur : s.conn.rmsg = some i) (io : ParseIO) :
    LengthInv cfg (invokeParser s i io) :=
  (h.emit _).setMsg_same (h.engine.live i hcur) _ rfl rfl

/-- After a successful `msg_get` the law holds of every live object, the
fresh one included. -/
theorem LengthInv.mlen_get {conn : Conn} {request redis allocOk : Bool} {c : Core} {r : Option Nat}
    (h : LengthInv cfg s) (hget : msgGet cfg s.core conn request redis allocOk = (c, r)) :
    ∀ k, Live c k → (c.msgs k).mlen = msgLength (c.msgs k) := by
  intro k hk
  cases r with
  | none =>
    obtain ⟨hmsgs, -, -, hn, hf⟩ := msgGet_none hget
    rw [hmsgs]
    exact h.mlen k (by unfold Live at hk ⊢; rwa [hn, hf] at hk)
  | some j =>
    obtain ⟨-, hmsgs, -, -⟩ := msgGet_some hget
    by_cases hkj : k = j
    · rw [hkj, hmsgs, Function.update_same]
      rfl
    · rw [hmsgs, Function.update_noteq hkj]
      exact h.mlen k ((msgGet_live hget hkj).1 hk)

/-- `msg_parsed` hands the front of the chain over with what is left of
`mlen`, and the new message gets the moved bytes and their count. -/
theorem LengthInv.parsed (h : LengthInv cfg s) (hcur : s.conn.rmsg = some i) {io : ParseIO}
    (hok : msgParsed cfg s i io = (s', .ok)) : LengthInv cfg s' := by
  have heng := h.engine.parsed hcur io
  rw [hok] at heng
  have hi := h.engine.live i hcur
  rcases msgParsed_ok hok with ⟨-, rfl⟩ | ⟨hd, nbuf, c, j, hsplit, hget, rfl⟩
  · exact h.handOff i (by simp)
  · obtain ⟨moved, hdata, hcons, hbytes⟩ := mbufSplit_bytes hsplit
    have hji : j ≠ i := msgGet_ne_live hget hi
    obtain ⟨-, hmsgs, -, -⟩ := msgGet_some hget
    have hunread : nbuf.unread = moved := by simpa [Mbuf.data, hcons] using hdata
    have hmlen := h.mlen i hi
    rw [msgLength_eq, ← hbytes, List.length_append] at hmlen
    have hci : c.msgs i = { s.msg i with mhdr := hd } := by
      rw [hmsgs, Function.update_noteq (Ne.symm hji)]
      exact RecvSys.setMsg_msg_self _ _ _
    refine ⟨heng, fun k hk => ?_⟩
    have hk' : Live c k := hk
    rw [recvDone_msg]
    by_cases hkj : k = j
    · rw [hkj, moveSplit_msg_right _ (Ne.symm hji)]
      show (mbufLength nbuf).toUInt32 = msgLength { c.msgs j with mhdr := (c.msgs j).mhdr ++ [nbuf] }
      rw [msgLength_eq, hmsgs, Function.update_same]
      simp [msgGot, Msg.fresh, mbufLength, hunread, hdata]
    · by_cases hki : k = i
      · rw [hki, moveSplit_msg_left _ (Ne.symm hji)]
        show (c.msgs i).mlen - (mbufLength nbuf).toUInt32 = msgLength (c.msgs i)
        rw [hci, msgLength_eq]
        show (s.msg i).mlen - (mbufLength nbuf).toUInt32 = (chainBytes hd).length.toUInt32
        rw [hmlen, mbufLength, hunread, nat_toUInt32_add_sub]
      · have hother : (moveSplit { s.setMsg i { s.msg i with mhdr := hd } with core := c } i j nbuf).msg k =
            s.msg k := by
          simp only [moveSplit, RecvSys.setMsg_msg_ne _ _ hki, RecvSys.setMsg_msg_ne _ _ hkj]
          show c.msgs k = s.msg k
          rw [hmsgs, Function.update_noteq hkj]
          exact RecvSys.setMsg_msg_ne _ _ hki
        rw [hother]
        exact h.mlen k ((msgGet_live hget hkj).1 hk')

theorem LengthInv.repair (h : LengthInv cfg s) (hcur : s.conn.rmsg = some i) {mbufOk : Bool}
    (hok : msgRepair s i mbufOk = (s', .ok)) : LengthInv cfg s' := by
  obtain ⟨hd, nbuf, hsplit, rfl⟩ := msgRepair_ok hok
  obtain ⟨moved, hdata, -, hbytes⟩ := mbufSplit_bytes hsplit
  exact h.setMsg_same (h.engine.live i hcur) _ rfl (by simp [hdata, ← hbytes])

theorem LengthInv.parse (h : LengthInv cfg s) (hcur : s.conn.rmsg = some i) {io : ParseIO}
    (hfrag : io.result ≠ .fragment) (hok : msgParse cfg s i io = (s', .ok)) : LengthInv cfg s' := by
  rcases msgParse_ok hok with ⟨-, rfl⟩ | ⟨-, ⟨-, hp⟩ | ⟨hres, -⟩ | ⟨-, hp⟩ | ⟨-, rfl⟩⟩
  · exact h.handOff i (by simp)
  · exact (h.invoke hcur io).parsed hcur hp
  · exact absurd hres hfrag
  · exact (h.invoke hcur io).repair hcur hp
  · exact h.invoke hcur io

theorem LengthInv.attach (h : LengthInv cfg s) (hcur : s.conn.rmsg = some i) :
    LengthInv cfg (attachTail cfg s i) := by
  unfold attachTail
  split
  · exact h.setMsg_same (h.engine.live i hcur) _ rfl (by simp)
  · exact h

/-- The read adds to `mlen` what it appends to the tail. -/
theorem LengthInv.read (h : LengthInv cfg s) (hcur : s.conn.rmsg = some i) (size : Nat)
    (data : List UInt8) : LengthInv cfg (recvData s i size data) := by
  have hi := h.engine.live i hcur
  refine (h.emit _).setMsg hi _ ?_
  show (s.msg i).mlen + data.length.toUInt32 =
    msgLength { s.msg i with mhdr := setLast (s.msg i).mhdr (mbufCopy (lastMbuf (s.msg i).mhdr) data) }
  rw [h.mlen i hi, msgLength_eq, msgLength_eq, chainBytes_dropLast (s.msg i).mhdr]
  simp [chainBytes_setLast, nat_toUInt32_add, ← Nat.add_assoc]

/-- The ciphertext swap trades the tail's length for the plaintext buffer's. -/
theorem LengthInv.decrypt (h : LengthInv cfg s) (hcur : s.conn.rmsg = some i)
    {decrypt : List UInt8 → List UInt8} {n : Nat} {ok : Bool}
    (hd : decryptStep cfg decrypt s i n ok = some s') : LengthInv cfg s' := by
  have hi := h.engine.live i hcur
  unfold decryptStep at hd
  dsimp only at hd
  split at hd
  · cases hd
    exact h
  · obtain ⟨s₁, hs₁, rfl⟩ := Option.map_eq_some'.1 hd
    have h₁ : LengthInv cfg s₁ ∧ s₁.conn = s.conn := by
      split at hs₁
      · split at hs₁
        · cases hs₁
          refine ⟨(h.emit _).setMsg hi _ ?_, rfl⟩
          show (s.msg i).mlen - (lastMbuf (s.msg i).mhdr).len.toUInt32 + _ = msgLength { s.msg i with
            mhdr := (s.msg i).mhdr.dropLast ++ [_], pos := 0, mlen := _ }
          rw [h.mlen i hi, msgLength_eq, msgLength_eq, chainBytes_dropLast (s.msg i).mhdr]
          simp only [chainBytes_append, chainBytes_cons, chainBytes_nil, List.append_nil, List.length_append,
            Mbuf.len_eq, nat_toUInt32_swap]
        · cases hs₁
      · cases hs₁
        exact ⟨h, rfl⟩
    exact h₁.1.setMsg_same (h₁.1.engine.live i (h₁.2 ▸ hcur)) _ rfl rfl

theorem LengthInv.next (h : LengthInv cfg s) (alloc allocOk : Bool) :
    LengthInv cfg (recvNext cfg s alloc allocOk).1 := by
  refine ⟨(h.engine.next alloc allocOk).1, ?_⟩
  unfold recvNext
  split
  · exact h.mlen
  · split
    · split
      · rename_i c j hget
        exact h.mlen_get hget
      · rename_i c hget
        exact h.mlen_get hget
    · exact h.mlen

end Steps

/-- Every operation without `MSG_PARSE_FRAGMENT` that returns `DN_OK` keeps the law. -/
theorem LengthInv.op {cfg : Config} {decrypt : List UInt8 → List UInt8} {s : RecvSys}
    (h : LengthInv cfg s) {op : RecvOp} (hop : op.PlainOk s) {r : RecvSys × RStatus}
    (hr : recvOp cfg decrypt s op = some r) (hst : r.2 = .ok) : LengthInv cfg r.1 := by
  cases op with
  | call io =>
    have hn := h.next true io.allocOk
    have hcur := (h.engine.next true io.allocOk).2
    dsimp only [recvOp] at hr
    split at hr
    · rename_i s₁ i hnext
      rw [hnext] at hn hcur
      exact msgRecvChain_inv (LengthInv cfg) (·.result ≠ .fragment) (· = .ok) rfl
        (fun _ _ h => ⟨h.engine.ready _, h.mlen⟩) (fun _ _ h hc => h.attach hc)
        (fun _ _ _ h _ => h.emit _) (fun _ _ size data h hc => h.read hc size data)
        (fun _ _ _ _ _ h hc hd => h.decrypt hc hd)
        (fun _ _ _ _ _ h hc hq hp hok => h.parse hc hq (hok ▸ hp))
        (hop.2 io rfl) hn (hcur i rfl) hr hst
    · rename_i s₁ hnext
      cases hr
      rw [hnext] at hn
      exact hn
  | put i =>
    cases hr
    refine ⟨@EngineInv.op cfg decrypt s h.engine _ hop.1 _ rfl, fun k hk => ?_⟩
    have hki : k ≠ i := fun e => hk.2 (e ▸ List.mem_cons_self _ _)
    have hold := h.mlen k ⟨hk.1, fun hm => hk.2 (List.mem_cons_of_mem _ hm)⟩
    simpa [RecvSys.msg, msgPut, Core.set, Function.update_noteq hki] using hold

/-- From any state whose pool is sound, whose current message, if any, is live,
and whose live messages obey the law, after any run in which every call
returned `DN_OK`, upstream releases only live messages other than the current
one and no parse is `MSG_PARSE_FRAGMENT`: every live message's `mlen` is its
`msg_length`.  The start may hold a current message on the ciphertext path. -/
theorem recv_run_mlen_eq_length (cfg : Config) (decrypt : List UInt8 → List UInt8) (s : RecvSys)
    (ops : List RecvOp) (s' : RecvSys) (sts : List RStatus) (h : EngineInv cfg s)
    (hlen : ∀ k, Live s.core k → (s.msg k).mlen = msgLength (s.msg k))
    (hops : RecvRunAllowed cfg decrypt RecvOp.PlainOk ops s)
    (hrun : recvRun cfg decrypt ops s = some (s', sts)) (hok : ∀ st ∈ sts, st = .ok) :
    ∀ k, Live s'.core k → (s'.msg k).mlen = msgLength (s'.msg k) :=
  (recvRun_inv (LengthInv cfg) RecvOp.PlainOk (· = .ok) (fun _ _ _ h hop hr hst => h.op hop hr hst)
    ⟨h, hlen⟩ hops hrun hok).mlen

/-- A ciphertext payload of 10 bytes read as 4, then 6: the swap keeps `mlen`
at the chain's length, 10. -/
theorem recv_run_mlen_eq_length_cipher :
    ∃ s', recvRun smallConfig flipDecrypt
        [.call (readCall (.bytes [0, 1, 2, 3])), .call (readCall (.bytes [4, 5, 6, 7, 8, 9]))]
        (cipherSys 10) = some (s', [.ok, .ok]) ∧ (s'.msg 0).dmsg = some ⟨1, 0⟩ ∧ (s'.msg 0).mlen = 10 ∧
      ∀ k, Live s'.core k → (s'.msg k).mlen = msgLength (s'.msg k) := by
  refine ⟨_, rfl, rfl, rfl, ?_⟩
  have hlive : ∀ k, Live (cipherSys 10).core k → k = 0 := fun k hk => by
    have : k < 1 := hk.1
    omega
  refine recv_run_mlen_eq_length smallConfig flipDecrypt (cipherSys 10)
    [.call (readCall (.bytes [0, 1, 2, 3])), .call (readCall (.bytes [4, 5, 6, 7, 8, 9]))] _ [.ok, .ok]
    ⟨⟨rfl, List.nodup_nil, nofun, nofun, by decide, by decide⟩, by rintro i ⟨⟩; decide⟩
    (fun k hk => by rw [hlive k hk]; rfl) ?_ rfl (by simp)
  simp [RecvRunAllowed, RecvOp.PlainOk, RecvOp.PutsOk, readCall]

end Dynomite
