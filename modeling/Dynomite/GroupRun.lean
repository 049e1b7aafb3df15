import Dynomite.RecvInv
import Dynomite.GroupLaws

/-! # The receive engine moves the fragment-group view by its steps

`RecvSys.groupView` projects a receive system onto what the group laws of
`Dynomite.GroupLaws` read.  Each write of the engine moves that view by a step
of `Dynomite.Groups` or leaves it alone: `recv_done` is `handOff`
(`groupView_recvDone`), the bookkeeping of `msg_fragment` is `linkFragment`
(`groupView_linkFragment`), a successful `msg_get` is a `GetStep`
(`getStep_of_msgGet`), `msg_put` is `put`, and the reads, the decryption, the
parser's result, the splits and the repairs change no fragment field.

So one `msg_parse` is at most one `ParseStep` (`parse_view`), `recv_next` is
a `NextStep` (`next_view`), and a `msg_recv_chain` call is a `NextStep`
followed by `ParseStep`s (`call_view`). -/

set_option autoImplicit false

namespace Dynomite

/-- The id and `frag_id` of a hand-off to `recv_done`. -/
def RecvEvent.handoff : RecvEvent → Option (UInt64 × UInt64)
  | .recvDone _ id fragId _ _ => some (id, fragId)
  | _ => none

/-- What the group laws read of a receive system. -/
def RecvSys.groupView (s : RecvSys) : GroupView :=
  ⟨s.core.nmsgs, s.core.freeMsgq, s.core.msgId, s.core.fragId, s.conn.rmsg, fun k => (s.msg k).frag,
    s.log.filterMap RecvEvent.handoff⟩

/-! ## Each write of the engine as a step of the view -/

section View

variable (s : RecvSys)

@[simp] theorem groupView_msgs (k : Nat) : s.groupView.msgs k = (s.msg k).frag := rfl

theorem groupView_setMsg (i : Nat) (m : Msg) : (s.setMsg i m).groupView = s.groupView.setFrag i m.frag :=
  congrArg (fun f => { s.groupView with msgs := f }) (Function.comp_update Msg.frag s.core.msgs i m)

/-- A write that keeps the fragment fields keeps the view. -/
theorem groupView_setMsg_frag {i : Nat} {m : Msg} (hm : m.frag = (s.msg i).frag) :
    (s.setMsg i m).groupView = s.groupView := by
  rw [groupView_setMsg, hm]
  exact congrArg (fun f => { s.groupView with msgs := f }) (Function.update_eq_self i _)

theorem groupView_emit {e : RecvEvent} (he : e.handoff = none) : (s.emit e).groupView = s.groupView := by
  simp [RecvSys.groupView, he]

theorem groupView_recvDone (i : Nat) (next : Option Nat) :
    (recvDone s i next).groupView = s.groupView.handOff i next := by
  simp only [RecvSys.groupView, GroupView.handOff, recvDone, List.filterMap_append]
  rfl

theorem groupView_moveSplit (i j : Nat) (nbuf : Mbuf) : (moveSplit s i j nbuf).groupView = s.groupView := by
  unfold moveSplit
  dsimp only
  rw [groupView_setMsg_frag, groupView_setMsg_frag] <;> rfl

theorem groupView_openGroup (i : Nat) : (openGroup s i).groupView = s.groupView.openGroup i := by
  unfold openGroup GroupView.openGroup
  by_cases h0 : (s.msg i).fragId = 0
  · have h0' : (s.groupView.msgs i).fragId = 0 := h0
    rw [if_pos h0, if_pos h0']
    exact groupView_setMsg _ _ _
  · have h0' : ¬ (s.groupView.msgs i).fragId = 0 := h0
    rw [if_neg h0, if_neg h0']

theorem groupView_linkFragment {i j : Nat} (hji : j ≠ i) :
    (linkFragment s i j).groupView = s.groupView.linkFragment i j := by
  unfold linkFragment GroupView.linkFragment
  rw [← groupView_openGroup]
  generalize openGroup s i = t
  simp only [RecvSys.setMsg_msg_self, RecvSys.setMsg_msg_ne _ _ hji, RecvSys.setMsg_msg_ne _ _ (Ne.symm hji),
    GroupView.setFrag_msgs, if_true, if_neg hji, if_neg (Ne.symm hji), groupView_msgs, Msg.frag_fragOwner]
  split
  · rename_i o ho
    simp only [ho, groupView_setMsg, GroupView.setFrag]
    congr 1
    funext k
    by_cases hkj : k = j <;> by_cases hki : k = i <;> by_cases hko : k = o <;>
      simp_all [Function.update_apply, GroupView.setFrag, RecvSys.groupView, Msg.frag]
  · rename_i ho
    simp only [ho, groupView_setMsg, GroupView.setFrag]
    rfl

theorem groupView_msgPut (i : Nat) : { s with core := msgPut s.core i }.groupView = s.groupView.put i :=
  congrArg (fun f => { s.groupView.put i with msgs := f })
    ((Function.comp_update Msg.frag s.core.msgs i { s.core.msgs i with dmsg := none, mhdr := [] }).trans
      (Function.update_eq_self i _))

theorem groupView_attachTail (cfg : Config) (i : Nat) : (attachTail cfg s i).groupView = s.groupView := by
  unfold attachTail
  split
  · exact groupView_setMsg_frag _ rfl
  · rfl

theorem groupView_recvData (i size : Nat) (data : List UInt8) :
    (recvData s i size data).groupView = s.groupView := by
  unfold recvData
  dsimp only
  rw [groupView_setMsg_frag, groupView_emit] <;> rfl

theorem groupView_decryptStep {cfg : Config} {decrypt : List UInt8 → List UInt8} {s' : RecvSys}
    {i n : Nat} {ok : Bool} (hd : decryptStep cfg decrypt s i n ok = some s') : s'.groupView = s.groupView := by
  unfold decryptStep at hd
  dsimp only at hd
  split at hd
  · cases hd
    rfl
  · obtain ⟨s₁, hs₁, rfl⟩ := Option.map_eq_some'.1 hd
    have h₁ : s₁.groupView = s.groupView := by
      split at hs₁
      · split at hs₁
        · cases hs₁
          rw [groupView_setMsg_frag, groupView_emit] <;> rfl
        · cases hs₁
      · cases hs₁
        rfl
    rw [groupView_setMsg_frag, h₁]
    rfl

end View

section Get

variable {cfg : Config} {s : RecvSys} {conn : Conn} {request redis allocOk : Bool} {c : Core}

/-- A successful `_msg_get`, which `msg_get` and `msg_get_error` call, is a
`GetStep` of the view. -/
theorem getStep_of_rawGet (h : PoolInv cfg s.core) {force : Bool} {j : Nat}
    (hget : _msgGet cfg s.core force allocOk = (c, some j)) :
    s.groupView.GetStep { s with core := c }.groupView j := by
  obtain ⟨hpool, hlive⟩ := h.rawGet force allocOk
  rw [hget] at hpool hlive
  obtain ⟨hdead, hframe⟩ := _msgGet_got (by rw [hget] : (_msgGet cfg s.core force allocOk).2 = some j)
  rw [hget] at hframe
  obtain ⟨-, hmsgs, hid, hfrag⟩ := _msgGet_some hget
  refine ⟨hdead, hlive j rfl, fun k hk => (hframe k hk).1, ?_, ?_, hid, hfrag, rfl, rfl⟩
  · have : c.nmsgs ≤ c.allocMsgCount.toNat := hpool.nmsgs_le
    have := u32_toNat_lt c.allocMsgCount
    show c.nmsgs < 2 ^ 32
    omega
  · show Msg.frag ∘ c.msgs = _
    rw [hmsgs]
    exact Function.comp_update Msg.frag s.core.msgs j _

theorem getStep_of_msgGet (h : EngineInv cfg s) {j : Nat}
    (hget : msgGet cfg s.core conn request redis allocOk = (c, some j)) :
    s.groupView.GetStep { s with core := c }.groupView j := by
  unfold msgGet at hget
  split at hget
  · cases hget
  · rename_i c₁ i hraw
    simp only [Prod.mk.injEq, Option.some.injEq] at hget
    obtain ⟨rfl, rfl⟩ := hget
    show s.groupView.GetStep (({ s with core := c₁ } : RecvSys).setMsg i _).groupView i
    rw [groupView_setMsg_frag _ (by rfl)]
    exact getStep_of_rawGet h.pool hraw

theorem groupView_rawGetNone {force : Bool} (hget : _msgGet cfg s.core force allocOk = (c, none)) :
    { s with core := c }.groupView = s.groupView := by
  obtain ⟨hmsgs, hid, hfrag, hn, hfree⟩ := _msgGet_none hget
  simp only [RecvSys.groupView, RecvSys.msg, hmsgs, hid, hfrag, hn, hfree]

/-- A failed `msg_get` leaves the view alone. -/
theorem groupView_getNone (hget : msgGet cfg s.core conn request redis allocOk = (c, none)) :
    { s with core := c }.groupView = s.groupView := by
  obtain ⟨hmsgs, hid, hfrag, hn, hfree⟩ := msgGet_none hget
  simp only [RecvSys.groupView, RecvSys.msg, hmsgs, hid, hfrag, hn, hfree]

end Get

theorem engineInv_msgInit_boot {cfg : Config} {conn : Conn} (hconn : conn.rmsg = none) (request : Bool) :
    EngineInv cfg ⟨msgInit Core.boot, conn, request, []⟩ :=
  ⟨poolInv_msgInit_boot, by simp [hconn]⟩

theorem groupView_msgInit_boot (conn : Conn) (request : Bool) :
    (⟨msgInit Core.boot, conn, request, []⟩ : RecvSys).groupView.nmsgs = 0 ∧
      (⟨msgInit Core.boot, conn, request, []⟩ : RecvSys).groupView.msgId = 0 ∧
      (⟨msgInit Core.boot, conn, request, []⟩ : RecvSys).groupView.fragId = 0 ∧
      (⟨msgInit Core.boot, conn, request, []⟩ : RecvSys).groupView.handoffs = [] :=
  ⟨rfl, rfl, rfl, rfl⟩

/-! ## Each call as steps of the view -/

section Engine

open Relation

variable {cfg : Config} {s : RecvSys}

theorem parsed_view (h : EngineInv cfg s) {i : Nat} (hcur : s.conn.rmsg = some i) (io : ParseIO) :
    ReflTransGen GroupView.ParseStep s.groupView (msgParsed cfg s i io).1.groupView := by
  have hi := h.live i hcur
  unfold msgParsed
  dsimp only
  split
  · rw [groupView_recvDone]
    exact .single (.handOffNone hcur)
  · split
    · exact .refl
    · rename_i hd nbuf _
      have h₁ := h.setMsg hi { s.msg i with mhdr := hd }
      have hv₁ : (s.setMsg i { s.msg i with mhdr := hd }).groupView = s.groupView :=
        groupView_setMsg_frag _ rfl
      split
      · rename_i c hget
        rw [groupView_getNone hget, hv₁]
      · rename_i c j hget
        have hs := getStep_of_msgGet h₁ hget
        rw [hv₁] at hs
        rw [groupView_recvDone, groupView_moveSplit]
        exact .single (.parsed hcur hi hs)

theorem fragment_view (h : EngineInv cfg s) {i : Nat} (hcur : s.conn.rmsg = some i) (io : ParseIO) :
    ReflTransGen GroupView.ParseStep s.groupView (msgFragment cfg s i io).1.groupView := by
  have hi := h.live i hcur
  unfold msgFragment
  dsimp only
  split
  · exact .refl
  · rename_i hd nbuf _
    have h₁ := h.setMsg hi { s.msg i with mhdr := hd }
    have hv₁ : (s.setMsg i { s.msg i with mhdr := hd }).groupView = s.groupView :=
      groupView_setMsg_frag _ rfl
    split
    · rw [hv₁]
    · rename_i patch _
      have h₂ := h₁.setMsg hi { (s.setMsg i { s.msg i with mhdr := hd }).msg i with
        mhdr := postSplitcopy ((s.setMsg i { s.msg i with mhdr := hd }).msg i).mhdr patch }
      have hv₂ : ((s.setMsg i { s.msg i with mhdr := hd }).setMsg i
          { (s.setMsg i { s.msg i with mhdr := hd }).msg i with
            mhdr := postSplitcopy ((s.setMsg i { s.msg i with mhdr := hd }).msg i).mhdr patch }).groupView =
          s.groupView := by
        rw [groupView_setMsg_frag, hv₁]
        rfl
      split
      · rename_i c hget
        rw [groupView_getNone hget, hv₂]
      · rename_i c j hget
        have hs := getStep_of_msgGet h₂ hget
        rw [hv₂] at hs
        rw [groupView_recvDone, groupView_linkFragment _ (hs.ne_of_live hi).symm, groupView_moveSplit]
        exact .single (.fragment hcur hi hs)

theorem invokeParser_view (i : Nat) (io : ParseIO) : (invokeParser s i io).groupView = s.groupView := by
  unfold invokeParser
  rw [groupView_setMsg_frag, groupView_emit] <;> rfl

theorem parse_view (h : EngineInv cfg s) {i : Nat} (hcur : s.conn.rmsg = some i) (io : ParseIO) :
    ReflTransGen GroupView.ParseStep s.groupView (msgParse cfg s i io).1.groupView := by
  unfold msgParse
  split
  · rw [groupView_recvDone]
    exact .single (.handOffNone hcur)
  · dsimp only
    have h₁ := h.invoke (h.live i hcur) io
    have hcur₁ : (invokeParser s i io).conn.rmsg = some i := hcur
    rw [← invokeParser_view i io]
    split
    · exact parsed_view h₁ hcur₁ io
    · exact fragment_view h₁ hcur₁ io
    · unfold msgRepair
      dsimp only
      split
      · exact .refl
      · rw [groupView_setMsg_frag _ (by rfl)]
    · exact .refl
    · split <;> exact .refl

theorem next_view (h : EngineInv cfg s) (alloc allocOk : Bool) :
    GroupView.NextStep s.groupView (recvNext cfg s alloc allocOk).1.groupView := by
  unfold recvNext
  split
  · exact .stay _
  · rename_i hnone
    split
    · split
      · rename_i c j hget
        exact .next hnone (getStep_of_msgGet h hget)
      · rename_i c hget
        rw [groupView_getNone hget]
        exact .stay _
    · exact .stay _

/-- A `msg_recv_chain` call on the message `recv_next(true)` hands out:
`recv_next`, then one step per `msg_parse`, whatever the status. -/
theorem call_view {decrypt : List UInt8 → List UInt8} (h : EngineInv cfg s) (io : ChainIO)
    {r : RecvSys × RStatus} (hr : recvOp cfg decrypt s (.call io) = some r) :
    ∃ u, GroupView.NextStep s.groupView u ∧ ReflTransGen GroupView.ParseStep u r.1.groupView := by
  obtain ⟨hn, hcur⟩ := h.next true io.allocOk
  have hv := next_view h true io.allocOk
  dsimp only [recvOp] at hr
  split at hr
  · rename_i s₁ i hnext
    rw [hnext] at hn hcur hv
    refine ⟨_, hv, (msgRecvChain_inv
      (fun t => EngineInv cfg t ∧ ReflTransGen GroupView.ParseStep s₁.groupView t.groupView)
      (fun _ => True) (fun _ => True) trivial
      (fun _ b h => ⟨h.1.ready b, h.2⟩)
      (fun _ _ h hc => ⟨h.1.attach hc, by rw [groupView_attachTail]; exact h.2⟩)
      (fun _ _ _ h _ => ⟨h.1.emit _, by rw [groupView_emit _ (by rfl)]; exact h.2⟩)
      (fun _ _ size data h hc => ⟨h.1.read hc size data, by rw [groupView_recvData]; exact h.2⟩)
      (fun _ _ _ _ _ h hc hd => ⟨h.1.decrypt hc hd, by rw [groupView_decryptStep _ hd]; exact h.2⟩)
      (fun t _ _ io _ h hc _ hp _ => ?_) (fun _ _ => trivial) ⟨hn, .refl⟩ (hcur i rfl) hr trivial).2⟩
    have := h.2.trans (parse_view h.1 hc io)
    rw [hp] at this
    exact ⟨by simpa [hp] using h.1.parse hc io, this⟩
  · rename_i s₁ hnext
    cases hr
    rw [hnext] at hv
    exact ⟨_, hv, .refl⟩

end Engine

end Dynomite
