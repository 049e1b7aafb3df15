import Dynomite.Cipher

/-! # Where the parser resumes

The parser starts at `msg->pos`, whose byte offset in the chain is `cursor`.
`msg_repair` keeps the cursor at the first unparsed byte: the moved part
becomes the tail and `pos` its start (`msgRepair_cursor`).  But when
`msg_recv_chain` finds the tail full it appends a fresh mbuf and sets `pos` to
its start, which puts the cursor past every byte of the chain, parsed or not
(`attachTail_cursor`).  A repair at the start of a full tail leaves a full tail,
so the next call skips all of it (`repair_full_tail_skips`,
`recv_repair_full_tail_skips`). -/

set_option autoImplicit false

namespace Dynomite

section Cursor

variable {cfg : Config} {s s' : RecvSys} {i : Nat}

/-- A fresh tail puts the cursor at the end of the chain. -/
theorem attachTail_cursor (h : needsMbuf cfg (s.msg i) = true) :
    cursor ((attachTail cfg s i).msg i) = (chainBytes (s.msg i).mhdr).length := by
  simp [attachTail, h, cursor, mbufGet]

/-- `msg_repair` at a `pos` inside the tail keeps the cursor on the same byte,
now the start of the tail, which holds the rest of the old tail. -/
theorem msgRepair_cursor {mbufOk : Bool}
    (hlo : (lastMbuf (s.msg i).mhdr).consumed.length ≤ (s.msg i).pos)
    (hhi : (s.msg i).pos ≤ (lastMbuf (s.msg i).mhdr).len) (h : msgRepair s i mbufOk = (s', .ok)) :
    cursor (s'.msg i) = cursor (s.msg i) ∧ (s'.msg i).pos = 0 ∧
      (lastMbuf (s'.msg i).mhdr).data =
        (lastMbuf (s.msg i).mhdr).unread.drop ((s.msg i).pos - (lastMbuf (s.msg i).mhdr).consumed.length) := by
  obtain ⟨hd, nbuf, hsplit, rfl⟩ := msgRepair_ok h
  unfold mbufSplit at hsplit
  split at hsplit
  · simp only [Option.some.injEq, Prod.mk.injEq] at hsplit
    obtain ⟨rfl, rfl⟩ := hsplit
    simp only [Mbuf.len_eq, Mbuf.data, List.length_append] at hhi
    refine ⟨?_, by simp [mbufCopy, mbufGet], by simp [mbufCopy, mbufGet, Mbuf.data]⟩
    simp only [cursor, RecvSys.setMsg_msg_self, List.dropLast_concat, chainBytes_setLast, Mbuf.data,
      List.length_append, List.length_take, mbufCopy, mbufGet, List.length_nil, add_zero]
    omega
  · cases hsplit

/-- A repair at the start of a full tail leaves a full tail, and the fresh mbuf
the next call appends puts the cursor a whole mbuf past the byte where the
parser stopped. -/
theorem repair_full_tail_skips {mbufOk : Bool} (hcons : (lastMbuf (s.msg i).mhdr).consumed = [])
    (hpos : (s.msg i).pos = 0) (hfull : (lastMbuf (s.msg i).mhdr).len = cfg.mbufCap)
    (h : msgRepair s i mbufOk = (s', .ok)) :
    needsMbuf cfg (s'.msg i) = true ∧
      cursor ((attachTail cfg s' i).msg i) = cursor (s.msg i) + cfg.mbufCap := by
  have hlo : (lastMbuf (s.msg i).mhdr).consumed.length ≤ (s.msg i).pos := by simp [hcons]
  obtain ⟨hcur, hpos', htail⟩ := msgRepair_cursor hlo (by omega) h
  have hlen : (lastMbuf (s'.msg i).mhdr).data.length = cfg.mbufCap := by
    rw [htail, hpos, hcons, ← hfull]
    simp [Mbuf.data, hcons]
  have hneed : needsMbuf cfg (s'.msg i) = true := by simp [needsMbuf, mbufFull, hlen]
  have hc : (chainBytes (s'.msg i).mhdr.dropLast).length = cursor (s.msg i) := by
    rw [← hcur, cursor, hpos', Nat.add_zero]
  refine ⟨hneed, ?_⟩
  rw [attachTail_cursor hneed, chainBytes_dropLast, List.length_append, hlen, hc]

end Cursor

/-- Sixteen bytes that fill a tail mbuf. -/
def fullRead : List UInt8 := ascii ("get abcdefghijkl")

/-- A read that fills the tail; the parser asks for a repair where it started. -/
def repairCall : ChainIO :=
  ⟨true, true, .bytes fullRead, true, true, [⟨.repair, 0, [], none, 0, true, true⟩]⟩

/-- The next read brings one byte, which the parser takes before it asks for
more. -/
def moreCall : ChainIO :=
  ⟨true, true, .bytes (ascii ("m")), true, true, [⟨.again, 1, [], none, 0, true, true⟩]⟩

/-- The parser returns `MSG_PARSE_REPAIR` at the start of a full tail, having
consumed nothing; the next call's parse starts at byte 16. -/
theorem recv_repair_full_tail_skips :
    ∃ s', recvRun smallConfig id [.call repairCall, .call moreCall]
        ⟨msgInit Core.boot, clientConn, true, []⟩ = some (s', [.ok, .ok]) ∧
      s'.log = [.recv 0 0 16 fullRead, .parse 0 0, .recv 0 0 16 (ascii ("m")), .parse 0 16] :=
  ⟨_, rfl, by decide⟩

end Dynomite
