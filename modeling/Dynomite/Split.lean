import Dynomite.RecvInv

/-! # Lengths across a split, and what a failed split leaves

`msg_parsed` and `msg_fragment` move the unparsed part of a message into a
new one and move `mlen` with it: `nmsg->mlen = mbuf_length(nbuf)`, then
`msg->mlen -= nmsg->mlen`.  For `msg_parsed` that is exactly the moved bytes.
For `msg_fragment` the new mbuf also holds what `pre_splitcopy` wrote, so the
message gives up more than it lost, and the `post_splitcopy` patch is never
counted: from `mlen = msg_length`, `mlen` falls short of the kept chain by the
bytes `pre_splitcopy` wrote (`msgFragment_mlen`), and a short kept part makes
the `uint32` subtraction wrap.

On a failure after the split, the moved bytes are released with the new mbuf
(`mbuf_put(nbuf)`): the message keeps only the part before `pos`
(`msgParsed_enomem`, `msgFragment_enomem`).  `msg_clone` writes the target's
fields before its loop and keeps the mbufs it cloned before an `mbuf_get`
failure (`msgClone_enomem`).  Only `msg_repair`, whose one allocation comes
first, fails without a trace.  A clone that succeeds copies only the unread
bytes `[pos, last)` of each mbuf from `mbuf_start` on, but takes the source's
`mlen` (`msgClone_ok`). -/

set_option autoImplicit false

namespace Dynomite

theorem u32_toNat_sub_wrap (a b : UInt32) : (a - b).toNat = (2 ^ 32 - b.toNat + a.toNat) % 2 ^ 32 :=
  rfl

theorem msgLength_eq (m : Msg) : msgLength m = (chainBytes m.mhdr).length.toUInt32 := by
  have hlen : Mbuf.len = fun b => b.data.length := funext Mbuf.len_eq
  simp [msgLength, chainBytes, List.length_flatten, Function.comp_def, hlen]

section Fragment

variable {cfg : Config} {s s' : RecvSys} {i : Nat} {io : ParseIO}

/-- The message `msg_fragment` keeps: the chain before `pos` with the
`post_splitcopy` patch, and `mlen` less the new mbuf's length. -/
theorem msgFragment_kept (hi : Live s.core i) (hok : msgFragment cfg s i io = (s', .ok)) :
    ∃ hd nbuf patch, mbufSplit (s.msg i).mhdr (s.msg i).pos io.precopy io.mbufOk = some (hd, nbuf) ∧
      io.postcopy = some patch ∧ (s'.msg i).mhdr = postSplitcopy hd patch ∧
      (s'.msg i).mlen = (s.msg i).mlen - (mbufLength nbuf).toUInt32 := by
  obtain ⟨hd, nbuf, patch, c, j, hsplit, hpatch, hget, rfl⟩ := msgFragment_ok hok
  have hji : j ≠ i := msgGet_ne_live hget hi
  obtain ⟨-, hmsgs, -, -⟩ := msgGet_some hget
  have hu := (linkFragment_frame (moveSplit
    { s.setMsg i { s.msg i with mhdr := postSplitcopy hd patch } with core := c } i j nbuf) i j).unfrag i
  rw [moveSplit_msg_left _ (Ne.symm hji)] at hu
  have hci : c.msgs i = { s.msg i with mhdr := postSplitcopy hd patch } := by
    rw [hmsgs, Function.update_noteq (Ne.symm hji)]
    exact RecvSys.setMsg_msg_self _ _ _
  refine ⟨hd, nbuf, patch, hsplit, hpatch, ?_, ?_⟩
  · simpa [RecvSys.msg, hci] using congrArg Msg.mhdr hu
  · simpa [RecvSys.msg, hci] using congrArg Msg.mlen hu

/-- From `mlen = msg_length`, after `msg_fragment` the message's `mlen` falls
short of the chain it kept by exactly the bytes `pre_splitcopy` wrote, and the
`post_splitcopy` patch changes the chain but not `mlen`. -/
theorem msgFragment_mlen (hi : Live s.core i) (hexact : (s.msg i).mlen = msgLength (s.msg i))
    (hok : msgFragment cfg s i io = (s', .ok)) :
    ∃ hd patch, io.postcopy = some patch ∧ (s'.msg i).mhdr = postSplitcopy hd patch ∧
      (s'.msg i).mlen + io.precopy.length.toUInt32 = (chainBytes hd).length.toUInt32 := by
  obtain ⟨hd, nbuf, patch, hsplit, hpatch, hmhdr, hmlen⟩ := msgFragment_kept hi hok
  obtain ⟨moved, hdata, hcons, hbytes⟩ := mbufSplit_bytes hsplit
  have hlen : mbufLength nbuf = io.precopy.length + moved.length := by
    have := congrArg List.length hdata
    simp only [Mbuf.data, hcons, List.nil_append, List.length_append] at this
    exact this
  have hL := congrArg List.length hbytes
  rw [List.length_append] at hL
  refine ⟨hd, patch, hpatch, hmhdr, ?_⟩
  rw [hmlen, hexact, msgLength_eq, hlen, u32_eq_iff, u32_toNat_add, u32_toNat_sub_wrap]
  simp only [nat_toUInt32_toNat]
  omega

end Fragment

/-- A memcache `get a b\r\n` read at once: the parser cuts it after `get a `,
`pre_splitcopy` writes `get ` into the new mbuf, `post_splitcopy` writes
nothing, and the parser wants more of the rest. -/
def mgetCall : ChainIO :=
  ⟨true, true, .bytes (ascii ("get a b\r\n")), true, true,
    [⟨.fragment, 6, ascii ("get "), some ⟨0, [], []⟩, 0, true, true⟩, ⟨.again, 0, [], none, 0, true, true⟩]⟩

/-- The kept `get a ` has 6 bytes, but `mlen` is `9 - 7 = 2`: the new message
took the 4 pre-copied bytes out of it too. -/
theorem recv_fragment_mlen_short :
    ∃ s', recvRun smallConfig id [.call mgetCall] ⟨msgInit Core.boot, clientConn, true, []⟩ =
        some (s', [.ok]) ∧
      chainBytes (s'.msg 0).mhdr = ascii ("get a ") ∧ (s'.msg 0).mlen = 2 ∧ msgLength (s'.msg 0) = 6 ∧
      chainBytes (s'.msg 1).mhdr = ascii ("get b\r\n") ∧ (s'.msg 1).mlen = 7 :=
  ⟨_, rfl, by decide, by decide, by decide, by decide, by decide⟩

/-! ## What a failure leaves -/

section Failure

variable {cfg : Config} {s s' : RecvSys} {i : Nat} {io : ParseIO}

theorem msgParsed_enomem (h : msgParsed cfg s i io = (s', .enomem)) :
    s' = s ∨ ∃ hd nbuf c, mbufSplit (s.msg i).mhdr (s.msg i).pos [] io.mbufOk = some (hd, nbuf) ∧
      msgGet cfg (s.setMsg i { s.msg i with mhdr := hd }).core s.conn (s.msg i).request
        s.conn.redis io.allocOk = (c, none) ∧
      s' = { s.setMsg i { s.msg i with mhdr := hd } with core := c } := by
  unfold msgParsed at h
  dsimp only at h
  split at h
  · cases h
  · split at h
    · exact Or.inl (Prod.mk.inj h).1.symm
    · rename_i hd nbuf hsplit
      split at h
      · rename_i c hget
        exact Or.inr ⟨hd, nbuf, c, hsplit, hget, (Prod.mk.inj h).1.symm⟩
      · cases h

theorem msgFragment_enomem (h : msgFragment cfg s i io = (s', .enomem)) :
    s' = s ∨ ∃ hd nbuf, mbufSplit (s.msg i).mhdr (s.msg i).pos io.precopy io.mbufOk = some (hd, nbuf) ∧
      ((io.postcopy = none ∧ s' = s.setMsg i { s.msg i with mhdr := hd }) ∨
       ∃ patch c, io.postcopy = some patch ∧
         msgGet cfg (s.setMsg i { s.msg i with mhdr := postSplitcopy hd patch }).core s.conn
           (s.msg i).request (s.msg i).redis io.allocOk = (c, none) ∧
         s' = { s.setMsg i { s.msg i with mhdr := postSplitcopy hd patch } with core := c }) := by
  unfold msgFragment at h
  dsimp only at h
  split at h
  · exact Or.inl (Prod.mk.inj h).1.symm
  · rename_i hd nbuf hsplit
    right
    refine ⟨hd, nbuf, hsplit, ?_⟩
    split at h
    · exact Or.inl ⟨‹_›, (Prod.mk.inj h).1.symm⟩
    · rename_i patch hpatch
      have hset : (s.setMsg i { s.msg i with mhdr := hd }).setMsg i
          { (s.setMsg i { s.msg i with mhdr := hd }).msg i with
            mhdr := postSplitcopy ((s.setMsg i { s.msg i with mhdr := hd }).msg i).mhdr patch } =
          s.setMsg i { s.msg i with mhdr := postSplitcopy hd patch } := by
        simp only [RecvSys.setMsg_msg_self]
        simp only [RecvSys.setMsg, Core.set, Function.update_idem]
      rw [hset] at h
      split at h
      · rename_i c hget
        exact Or.inr ⟨patch, c, hpatch, hget, (Prod.mk.inj h).1.symm⟩
      · cases h

theorem msgRepair_enomem {mbufOk : Bool} (h : msgRepair s i mbufOk = (s', .enomem)) : s' = s := by
  unfold msgRepair at h
  dsimp only at h
  split at h
  · exact (Prod.mk.inj h).1.symm
  · cases h

/-- The clone loop appends one copy per source mbuf until an `mbuf_get`
fails, and keeps what it appended. -/
theorem cloneMbufs_prefix {mbufOk : Nat → Bool} {j : Nat} {bs : List Mbuf} {t t' : Msg} {st : RStatus}
    (h : cloneMbufs mbufOk j bs t = (t', st)) :
    ∃ k ≤ bs.length, t' = { t with mhdr := t.mhdr ++ (bs.take k).map fun b => mbufCopy mbufGet b.unread } ∧
      (st = .ok ↔ k = bs.length) := by
  induction bs generalizing j t with
  | nil =>
    simp only [cloneMbufs, Prod.mk.injEq] at h
    obtain ⟨rfl, rfl⟩ := h
    exact ⟨0, le_refl _, by simp, by simp⟩
  | cons b bs ih =>
    by_cases hok : mbufOk j = true
    · simp only [cloneMbufs, hok, if_true] at h
      obtain ⟨k, hk, rfl, h2⟩ := ih h
      exact ⟨k + 1, by simp; omega, by simp, by simp [h2]⟩
    · simp only [cloneMbufs, hok, Prod.mk.injEq] at h
      obtain ⟨rfl, rfl⟩ := h
      exact ⟨0, Nat.zero_le _, by simp, by simp⟩

theorem msgClone_enomem {src target : Msg} {mbufStart : Nat} {mbufOk : Nat → Bool} {t' : Msg}
    (h : msgClone src mbufStart target mbufOk = (t', .enomem)) :
    ∃ k < (src.mhdr.drop mbufStart).length, t'.mlen = src.mlen ∧ t'.pos = src.pos ∧
      t'.mhdr = target.mhdr ++ ((src.mhdr.drop mbufStart).take k).map fun b => mbufCopy mbufGet b.unread := by
  unfold msgClone at h
  obtain ⟨k, hk, rfl, h2⟩ := cloneMbufs_prefix h
  exact ⟨k, lt_of_le_of_ne hk (fun e => by cases h2.2 e), rfl, rfl, rfl⟩

end Failure

/-- Two pipelined requests `get a\r\nget b\r\n` in one read: the parser ends
the first after 7 bytes and `msg_get`'s allocation fails. -/
def pipelineCall : ChainIO :=
  ⟨true, true, .bytes (ascii ("get a\r\nget b\r\n")), true, true,
    [⟨.ok, 7, [], none, 0, true, false⟩]⟩

/-- After the failed `msg_parsed` the message holds only `get a\r\n`; the
second request, read and never handed over, is gone, and `mlen` still counts
it. -/
theorem recv_parsed_enomem_drops_tail :
    ∃ s', recvRun smallConfig id [.call pipelineCall] ⟨msgInit Core.boot, clientConn, true, []⟩ =
        some (s', [.enomem]) ∧
      chainBytes (s'.msg 0).mhdr = ascii ("get a\r\n") ∧ (s'.msg 0).mlen = 14 ∧ s'.conn.rmsg = some 0 :=
  ⟨_, rfl, by decide, by decide, by decide⟩


/-! ## A successful clone -/

/-- A successful `msg_clone` appends to the target, after its own mbufs, one
fresh mbuf per source mbuf from `mbuf_start` on, each holding that mbuf's
`[pos, last)` in chain order, and copies the source's `mlen` and `pos`,
whatever it copied. -/
theorem msgClone_ok (src target : Msg) (mbufStart : Nat) (mbufOk : Nat → Bool) (t' : Msg)
    (h : msgClone src mbufStart target mbufOk = (t', .ok)) :
    t'.mhdr = target.mhdr ++ (src.mhdr.drop mbufStart).map (fun b => mbufCopy mbufGet b.unread) ∧
      chainBytes t'.mhdr = chainBytes target.mhdr ++ chainUnread (src.mhdr.drop mbufStart) ∧
      t'.mhdr.length = target.mhdr.length + (src.mhdr.length - mbufStart) ∧
      t'.mlen = src.mlen ∧ t'.pos = src.pos := by
  unfold msgClone at h
  obtain ⟨k, -, rfl, h2⟩ := cloneMbufs_prefix h
  obtain rfl := h2.1 rfl
  rw [List.take_of_length_le (le_refl _)]
  refine ⟨rfl, ?_, by simp, rfl, rfl⟩
  simp [chainBytes, chainUnread, Function.comp_def]

theorem msgClone_ok_read :
    ∃ t', msgClone { Msg.fresh 1 with mhdr := [⟨ascii ("ab"), ascii ("cd"), false⟩], mlen := 4 } 0
        (Msg.fresh 2) (fun _ => true) = (t', .ok) ∧
      chainBytes t'.mhdr = ascii ("cd") ∧ t'.mlen = 4 := by
  refine ⟨_, rfl, ?_⟩
  have h := msgClone_ok { Msg.fresh 1 with mhdr := [⟨ascii ("ab"), ascii ("cd"), false⟩], mlen := 4 }
    (Msg.fresh 2) 0 (fun _ => true) _ rfl
  exact ⟨h.2.1, h.2.2.2.1⟩

end Dynomite
