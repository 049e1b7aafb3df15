import Dynomite.Recv

/-! # The receive engine keeps the pool sound

`EngineInv` is the pool invariant of `Dynomite.Pool` together with: the
connection's current message is a live object.  Every operation of a receive
run keeps it, whatever status it returns (`EngineInv.recvOp`), so `msg_get`
never hands out the current message and every write of the engine lands on a
live object, or changes no chain and no envelope (the fragment owner's count).

`FragFrame` says what the fragment bookkeeping leaves alone: everything but
the fragment fields and the `frag_id` counter. -/

set_option autoImplicit false

namespace Dynomite

/-! ## What the fragment bookkeeping leaves alone -/

/-- A message with its fragment fields cleared. -/
def Msg.unfrag (m : Msg) : Msg :=
  { m with fragId := 0, firstFragment := false, lastFragment := false, nfrag := 0, fragOwner := none }

@[simp] theorem Msg.unfrag_mhdr (m : Msg) : m.unfrag.mhdr = m.mhdr := rfl
@[simp] theorem Msg.unfrag_dmsg (m : Msg) : m.unfrag.dmsg = m.dmsg := rfl
@[simp] theorem Msg.unfrag_id (m : Msg) : m.unfrag.id = m.id := rfl
@[simp] theorem Msg.unfrag_mlen (m : Msg) : m.unfrag.mlen = m.mlen := rfl
@[simp] theorem Msg.unfrag_pos (m : Msg) : m.unfrag.pos = m.pos := rfl

/-- `s'` differs from `s` at most in fragment fields and the `frag_id` counter. -/
structure FragFrame (s s' : RecvSys) : Prop where
  conn : s'.conn = s.conn
  log : s'.log = s.log
  request : s'.request = s.request
  nmsgs : s'.core.nmsgs = s.core.nmsgs
  freeMsgq : s'.core.freeMsgq = s.core.freeMsgq
  nfreeMsgq : s'.core.nfreeMsgq = s.core.nfreeMsgq
  msgId : s'.core.msgId = s.core.msgId
  allocMsgCount : s'.core.allocMsgCount = s.core.allocMsgCount
  unfrag : ∀ k, (s'.msg k).unfrag = (s.msg k).unfrag

theorem FragFrame.refl (s : RecvSys) : FragFrame s s :=
  ⟨rfl, rfl, rfl, rfl, rfl, rfl, rfl, rfl, fun _ => rfl⟩

theorem FragFrame.trans {s₁ s₂ s₃ : RecvSys} (h₁ : FragFrame s₁ s₂) (h₂ : FragFrame s₂ s₃) :
    FragFrame s₁ s₃ :=
  ⟨h₂.conn.trans h₁.conn, h₂.log.trans h₁.log, h₂.request.trans h₁.request,
    h₂.nmsgs.trans h₁.nmsgs, h₂.freeMsgq.trans h₁.freeMsgq, h₂.nfreeMsgq.trans h₁.nfreeMsgq,
    h₂.msgId.trans h₁.msgId, h₂.allocMsgCount.trans h₁.allocMsgCount,
    fun k => (h₂.unfrag k).trans (h₁.unfrag k)⟩

theorem FragFrame.setMsg (s : RecvSys) (i : Nat) (m : Msg) (hm : m.unfrag = (s.msg i).unfrag) :
    FragFrame s (s.setMsg i m) := by
  refine ⟨rfl, rfl, rfl, rfl, rfl, rfl, rfl, rfl, fun k => ?_⟩
  by_cases hk : k = i
  · subst hk
    simpa using hm
  · simp [hk]

theorem FragFrame.fragId (s : RecvSys) (f : UInt64) :
    FragFrame s { s with core := { s.core with fragId := f } } :=
  ⟨rfl, rfl, rfl, rfl, rfl, rfl, rfl, rfl, fun _ => rfl⟩

theorem openGroup_frame (s : RecvSys) (i : Nat) : FragFrame s (openGroup s i) := by
  unfold openGroup
  split
  · exact (FragFrame.fragId _ _).trans (FragFrame.setMsg _ _ _ rfl)
  · exact FragFrame.refl _

theorem FragFrame.setMsg_right {s s' : RecvSys} (h : FragFrame s s') (i : Nat) (m : Msg)
    (hm : m.unfrag = (s'.msg i).unfrag) : FragFrame s (s'.setMsg i m) :=
  h.trans (FragFrame.setMsg s' i m hm)

/-- Each write of `linkFragment` touches fragment fields only. -/
theorem linkFragment_frame (s : RecvSys) (i j : Nat) : FragFrame s (linkFragment s i j) := by
  unfold linkFragment
  dsimp only
  split
  on_goal 1 => refine FragFrame.setMsg_right ?_ _ _ rfl
  all_goals
    refine FragFrame.setMsg_right ?_ _ _ rfl
    refine FragFrame.setMsg_right ?_ _ _ rfl
    refine FragFrame.setMsg_right ?_ _ _ rfl
    exact openGroup_frame s i

theorem FragFrame.live {s s' : RecvSys} (hf : FragFrame s s') (k : Nat) :
    Live s'.core k ↔ Live s.core k := by
  unfold Live
  rw [hf.nmsgs, hf.freeMsgq]

/-! ## The engine invariant -/

structure EngineInv (cfg : Config) (s : RecvSys) : Prop where
  pool : PoolInv cfg s.core
  live : ∀ i, s.conn.rmsg = some i → Live s.core i

section Engine

variable {cfg : Config} {s s' : RecvSys}

theorem EngineInv.setMsg (h : EngineInv cfg s) {i : Nat} (hi : Live s.core i) (m : Msg) :
    EngineInv cfg (s.setMsg i m) :=
  ⟨h.pool.set hi m, fun k hk => (live_set m).2 (h.live k hk)⟩

theorem EngineInv.ofFrame (h : EngineInv cfg s) (hf : FragFrame s s') : EngineInv cfg s' := by
  obtain ⟨⟨h1, h2, h3, h4, h5, h6⟩, hlive⟩ := h
  have hmsg : ∀ k, (s'.core.msgs k).mhdr = (s.core.msgs k).mhdr ∧
      (s'.core.msgs k).dmsg = (s.core.msgs k).dmsg := fun k =>
    ⟨(congrArg Msg.mhdr (hf.unfrag k) :), (congrArg Msg.dmsg (hf.unfrag k) :)⟩
  refine ⟨⟨?_, ?_, ?_, ?_, ?_, ?_⟩, ?_⟩
  · rw [hf.nfreeMsgq, hf.freeMsgq]; exact h1
  · rw [hf.freeMsgq]; exact h2
  · rw [hf.freeMsgq, hf.nmsgs]; exact h3
  · intro k hk
    rw [hf.freeMsgq] at hk
    rw [(hmsg k).1, (hmsg k).2]
    exact h4 k hk
  · rw [hf.nmsgs, hf.allocMsgCount]; exact h5
  · rw [hf.allocMsgCount]; exact h6
  · intro k hk
    rw [hf.conn] at hk
    exact (hf.live k).2 (hlive k hk)

theorem EngineInv.emit (h : EngineInv cfg s) (e : RecvEvent) : EngineInv cfg (s.emit e) :=
  ⟨h.pool, h.live⟩

theorem EngineInv.ready (h : EngineInv cfg s) (b : Bool) :
    EngineInv cfg { s with conn := { s.conn with recvReady := b } } :=
  ⟨h.pool, h.live⟩

theorem EngineInv.handOff (h : EngineInv cfg s) (i : Nat) {next : Option Nat}
    (hnext : ∀ j, next = some j → Live s.core j) : EngineInv cfg (recvDone s i next) :=
  ⟨h.pool, hnext⟩

/-- After `msg_get` the invariant holds again, and a handed-out object is live
and is not the current message. -/
theorem EngineInv.get (h : EngineInv cfg s) {conn : Conn} {request redis allocOk : Bool}
    {c : Core} {r : Option Nat} (hget : msgGet cfg s.core conn request redis allocOk = (c, r)) :
    EngineInv cfg { s with core := c } ∧
      ∀ j, r = some j → Live c j ∧ ∀ i, s.conn.rmsg = some i → j ≠ i := by
  have hpool := h.pool.get conn request redis allocOk
  rw [hget] at hpool
  cases r with
  | none =>
    obtain ⟨-, -, -, hn, hf⟩ := msgGet_none hget
    refine ⟨⟨hpool.1, fun i hi => ?_⟩, by simp⟩
    unfold Live
    rw [hn, hf]
    exact h.live i hi
  | some j =>
    have hne : ∀ i, s.conn.rmsg = some i → j ≠ i := fun i hi => msgGet_ne_live hget (h.live i hi)
    refine ⟨⟨hpool.1, fun i hi => (msgGet_live hget (hne i hi).symm).2 (h.live i hi)⟩, ?_⟩
    rintro j' ⟨⟩
    exact ⟨hpool.2 j rfl, hne⟩

theorem EngineInv.move (h : EngineInv cfg s) {i j : Nat} (hi : Live s.core i) (hj : Live s.core j)
    (nbuf : Mbuf) : EngineInv cfg (moveSplit s i j nbuf) :=
  (h.setMsg hj _).setMsg hi _

theorem EngineInv.invoke (h : EngineInv cfg s) {i : Nat} (hi : Live s.core i) (io : ParseIO) :
    EngineInv cfg (invokeParser s i io) :=
  (h.emit _).setMsg hi _

theorem EngineInv.parsed (h : EngineInv cfg s) {i : Nat} (hcur : s.conn.rmsg = some i)
    (io : ParseIO) : EngineInv cfg (msgParsed cfg s i io).1 := by
  have hi := h.live i hcur
  unfold msgParsed
  dsimp only
  split
  · exact h.handOff i (by simp)
  · split
    · exact h
    · rename_i hd nbuf _
      have h₁ := h.setMsg hi { s.msg i with mhdr := hd }
      split
      · rename_i c hget
        exact (h₁.get hget).1
      · rename_i c j hget
        obtain ⟨h₂, hj⟩ := h₁.get hget
        obtain ⟨hjl, hne⟩ := hj j rfl
        have hi₂ : Live c i := (msgGet_live hget (hne i hcur).symm).2 hi
        refine (h₂.move hi₂ hjl nbuf).handOff i ?_
        rintro k ⟨⟩
        exact hjl

theorem EngineInv.fragment (h : EngineInv cfg s) {i : Nat} (hcur : s.conn.rmsg = some i)
    (io : ParseIO) : EngineInv cfg (msgFragment cfg s i io).1 := by
  have hi := h.live i hcur
  unfold msgFragment
  dsimp only
  split
  · exact h
  · rename_i hd nbuf _
    have h₁ := h.setMsg hi { s.msg i with mhdr := hd }
    split
    · exact h₁
    · rename_i patch _
      have h₂ := h₁.setMsg hi { (s.setMsg i { s.msg i with mhdr := hd }).msg i with
        mhdr := postSplitcopy ((s.setMsg i { s.msg i with mhdr := hd }).msg i).mhdr patch }
      split
      · rename_i c hget
        exact (h₂.get hget).1
      · rename_i c j hget
        obtain ⟨h₃, hj⟩ := h₂.get hget
        obtain ⟨hjl, hne⟩ := hj j rfl
        have hi₃ : Live c i := (msgGet_live hget (hne i hcur).symm).2 hi
        refine ((h₃.move hi₃ hjl nbuf).ofFrame (linkFragment_frame _ i j)).handOff i ?_
        rintro k ⟨⟩
        exact (FragFrame.live (linkFragment_frame _ i j) j).2 hjl

theorem EngineInv.repair (h : EngineInv cfg s) {i : Nat} (hcur : s.conn.rmsg = some i)
    (mbufOk : Bool) : EngineInv cfg (msgRepair s i mbufOk).1 := by
  unfold msgRepair
  dsimp only
  split
  · exact h
  · exact h.setMsg (h.live i hcur) _

theorem EngineInv.parse (h : EngineInv cfg s) {i : Nat} (hcur : s.conn.rmsg = some i)
    (io : ParseIO) : EngineInv cfg (msgParse cfg s i io).1 := by
  have hi := h.live i hcur
  unfold msgParse
  split
  · exact h.handOff i (by simp)
  · dsimp only
    have h₁ := h.invoke hi io
    have hcur₁ : (invokeParser s i io).conn.rmsg = some i := hcur
    split
    · exact h₁.parsed hcur₁ io
    · exact h₁.fragment hcur₁ io
    · exact h₁.repair hcur₁ _
    · exact h₁
    · split
      · exact ⟨h₁.pool, h₁.live⟩
      · exact h₁

theorem EngineInv.attach (h : EngineInv cfg s) {i : Nat} (hcur : s.conn.rmsg = some i) :
    EngineInv cfg (attachTail cfg s i) := by
  unfold attachTail
  split
  · exact h.setMsg (h.live i hcur) _
  · exact h

theorem EngineInv.read (h : EngineInv cfg s) {i : Nat} (hcur : s.conn.rmsg = some i)
    (size : Nat) (data : List UInt8) : EngineInv cfg (recvData s i size data) :=
  (h.emit _).setMsg (h.live i hcur) _

theorem EngineInv.decrypt (h : EngineInv cfg s) {i : Nat} (hcur : s.conn.rmsg = some i)
    {decrypt : List UInt8 → List UInt8} {n : Nat} {ok : Bool}
    (hd : decryptStep cfg decrypt s i n ok = some s') : EngineInv cfg s' := by
  have hi := h.live i hcur
  unfold decryptStep at hd
  dsimp only at hd
  split at hd
  · cases hd
    exact h
  · obtain ⟨s₁, hs₁, rfl⟩ := Option.map_eq_some'.1 hd
    have h₁ : EngineInv cfg s₁ ∧ s₁.conn = s.conn := by
      split at hs₁
      · split at hs₁
        · cases hs₁
          exact ⟨(h.emit _).setMsg hi _, rfl⟩
        · cases hs₁
      · cases hs₁
        exact ⟨h, rfl⟩
    exact h₁.1.setMsg (h₁.1.live i (h₁.2 ▸ hcur)) _

/-- `recv_next` keeps the invariant, and what it hands out is then current. -/
theorem EngineInv.next (h : EngineInv cfg s) (alloc allocOk : Bool) :
    EngineInv cfg (recvNext cfg s alloc allocOk).1 ∧
      ∀ i, (recvNext cfg s alloc allocOk).2 = some i → (recvNext cfg s alloc allocOk).1.conn.rmsg = some i := by
  unfold recvNext
  split
  · rename_i i hi
    exact ⟨h, fun k hk => by cases hk; exact hi⟩
  · split
    · split
      · rename_i c j hget
        obtain ⟨h₂, hj⟩ := h.get hget
        exact ⟨⟨h₂.pool, fun k hk => by cases hk; exact (hj j rfl).1⟩, fun k hk => by cases hk; rfl⟩
      · rename_i c hget
        exact ⟨(h.get hget).1, fun k hk => by cases hk⟩
    · exact ⟨h, fun k hk => by cases hk⟩

end Engine

/-- Upstream releases only live messages other than the current one. -/
def RecvOp.PutsOk (s : RecvSys) : RecvOp → Prop
  | .call _ => True
  | .put i => Live s.core i ∧ s.conn.rmsg ≠ some i

/-- Every operation keeps the invariant, whatever its status. -/
theorem EngineInv.op {cfg : Config} {decrypt : List UInt8 → List UInt8} {s : RecvSys}
    (h : EngineInv cfg s) {op : RecvOp} (hop : op.PutsOk s) {r : RecvSys × RStatus}
    (hr : recvOp cfg decrypt s op = some r) : EngineInv cfg r.1 := by
  cases op with
  | call io =>
    obtain ⟨hn, hcur⟩ := h.next true io.allocOk
    dsimp only [recvOp] at hr
    split at hr
    · rename_i s₁ i hnext
      rw [hnext] at hn hcur
      exact msgRecvChain_inv (EngineInv cfg) (fun _ => True) (fun _ => True) trivial
        (fun _ b h => h.ready b) (fun _ _ h hc => h.attach hc) (fun _ _ _ h _ => h.emit _)
        (fun _ _ size data h hc => h.read hc size data) (fun _ _ _ _ _ h hc hd => h.decrypt hc hd)
        (fun _ _ _ io _ h hc _ hp _ => by simpa [hp] using h.parse hc io)
        (fun _ _ => trivial) hn (hcur i rfl) hr trivial
    · rename_i s₁ hnext
      cases hr
      rw [hnext] at hn
      exact hn
  | put i =>
    cases hr
    refine ⟨h.pool.put hop.1, fun k hk => ⟨(h.live k hk).1, ?_⟩⟩
    simp only [msgPut, List.mem_cons, not_or]
    exact ⟨fun e => hop.2 (e ▸ hk), (h.live k hk).2⟩

/-- The invariant over every run in which upstream releases only messages
other than the current one. -/
theorem EngineInv.run {cfg : Config} {decrypt : List UInt8 → List UInt8} {ops : List RecvOp}
    {s s' : RecvSys} {sts : List RStatus} (h : EngineInv cfg s)
    (hops : RecvRunAllowed cfg decrypt RecvOp.PutsOk ops s)
    (hrun : recvRun cfg decrypt ops s = some (s', sts)) : EngineInv cfg s' :=
  recvRun_inv (EngineInv cfg) RecvOp.PutsOk (fun _ => True)
    (fun _ _ _ h hop hr _ => h.op hop hr) h hops hrun fun _ _ => trivial

end Dynomite
