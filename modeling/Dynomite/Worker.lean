import Dynomite.Handoff

/-! # This connection's receive engine among the worker's other connections

A worker runs the receive engine on many connections, and they all share the
message pool and the `msg_id` and `frag_id` counters.  Seen from one
connection, a `WorkerOp` is one of its own receive operations or a pool call
of another connection (`PoolOp.Foreign`): a `msg_get` for another connection,
a `msg_get_error`, and a `msg_put` or a write of a live message that is not
this connection's.  The other connections' own fragmentation is left out:
their writes keep the fragment fields.

`OwnFrame` says what a call on this connection leaves of the rest of the
worker: every live message keeps its owner, every message the call makes live
is the connection's own, and another connection's message keeps its
`frag_id`.  `OwnInv` holds over every interleaving from `msg_init`: every live
message of the connection is its current message or was handed to
`recv_done` (`recv_run_no_lost_message`).  While fewer than `2^64` messages
were created, the hand-offs come in creation order and the current message is
the newest of the connection's messages (`recv_run_handoff_order`), and every
fragment group obeys the laws of `FragGroup` (`recv_run_fragment_groups`). -/

set_option autoImplicit false

namespace Dynomite

/-! ## The worker -/

/-- One thing that happens on the worker: an operation of this connection, or
a pool call of another connection. -/
inductive WorkerOp
  | conn (op : RecvOp)
  | other (op : PoolOp)

def workerOp (cfg : Config) (decrypt : List UInt8 → List UInt8) (libc : LibC) (s : RecvSys) :
    WorkerOp → Option (RecvSys × RStatus)
  | .conn op => recvOp cfg decrypt s op
  | .other op => some ({ s with core := poolStep cfg libc s.core op }, .ok)

def workerRun (cfg : Config) (decrypt : List UInt8 → List UInt8) (libc : LibC) :
    List WorkerOp → RecvSys → Option (RecvSys × List RStatus)
  | [], s => some (s, [])
  | op :: ops, s =>
    match workerOp cfg decrypt libc s op with
    | none => none
    | some (s, st) => (workerRun cfg decrypt libc ops s).map fun r => (r.1, st :: r.2)

/-- The other connections' pool calls: `msg_get` for another connection,
`msg_get_error`, and `msg_put` or a write of a live message that is not this
connection's, the write keeping its owner and fragment fields. -/
def PoolOp.Foreign (s : RecvSys) : PoolOp → Prop
  | .get conn _ _ _ => conn.sd ≠ s.conn.sd
  | .getError .. => True
  | .put k => Live s.core k ∧ (s.msg k).owner ≠ some s.conn.sd
  | .use k m => Live s.core k ∧ (s.msg k).owner ≠ some s.conn.sd ∧ m.owner = (s.msg k).owner ∧
      m.frag = (s.msg k).frag

def WorkerOp.Allowed (ConnOk : RecvSys → RecvOp → Prop) (s : RecvSys) : WorkerOp → Prop
  | .conn op => ConnOk s op
  | .other op => op.Foreign s

def WorkerRunAllowed (cfg : Config) (decrypt : List UInt8 → List UInt8) (libc : LibC)
    (ConnOk : RecvSys → RecvOp → Prop) : List WorkerOp → RecvSys → Prop
  | [], _ => True
  | op :: ops, s => op.Allowed ConnOk s ∧
      ∀ r, workerOp cfg decrypt libc s op = some r → WorkerRunAllowed cfg decrypt libc ConnOk ops r.1

/-- Upstream releases only live messages in no group, other than the current one. -/
def RecvOp.GroupOk (s : RecvSys) : RecvOp → Prop
  | .call _ => True
  | .put i => Live s.core i ∧ s.conn.rmsg ≠ some i ∧ (s.msg i).fragId = 0

section Run

variable {cfg : Config} {decrypt : List UInt8 → List UInt8} {libc : LibC}

theorem workerRun_inv (Inv : Nat → RecvSys → Prop) (ConnOk : RecvSys → RecvOp → Prop)
    (hstep : ∀ n s op r, Inv n s → op.Allowed ConnOk s → workerOp cfg decrypt libc s op = some r →
      Inv (n + 1) r.1)
    {ops : List WorkerOp} {n : Nat} {s s' : RecvSys} {sts : List RStatus} (hinv : Inv n s)
    (hallowed : WorkerRunAllowed cfg decrypt libc ConnOk ops s)
    (hrun : workerRun cfg decrypt libc ops s = some (s', sts)) : Inv (n + ops.length) s' := by
  induction ops generalizing n s sts with
  | nil =>
    cases hrun
    exact hinv
  | cons op ops ih =>
    simp only [workerRun] at hrun
    split at hrun
    · cases hrun
    · rename_i s₁ st hop
      obtain ⟨⟨s₂, sts₂⟩, hrest, hr⟩ := Option.map_eq_some'.1 hrun
      cases hr
      have := ih (hstep n s op (s₁, st) hinv hallowed.1 hop) (hallowed.2 _ hop) hrest
      rwa [List.length_cons, ← Nat.add_assoc, Nat.add_right_comm]

end Run

/-! ## What a call leaves of the rest of the worker -/

def CurOwned (s : RecvSys) : Prop := ∀ i, s.conn.rmsg = some i → (s.msg i).owner = some s.conn.sd

/-- What a call on this connection leaves of the rest of the worker: every
live message stays live with its owner, every message it makes live is the
connection's own, and a message of another connection keeps its `frag_id`. -/
structure OwnFrame (s t : RecvSys) : Prop where
  sd : t.conn.sd = s.conn.sd
  kept : ∀ k, Live s.core k → Live t.core k ∧ (t.msg k).owner = (s.msg k).owner
  fresh : ∀ k, Live t.core k → ¬ Live s.core k → (t.msg k).owner = some s.conn.sd
  theirs : ∀ k, Live s.core k → (s.msg k).owner ≠ some s.conn.sd → (t.msg k).fragId = (s.msg k).fragId

/-- `OwnFrame`, and the current message afterwards is the one before or a
message the call made live. -/
structure Owns (s t : RecvSys) extends OwnFrame s t : Prop where
  current : ∀ i, t.conn.rmsg = some i → s.conn.rmsg = some i ∨ ¬ Live s.core i

section Frame

variable {cfg : Config} {s t u : RecvSys}

theorem OwnFrame.refl (s : RecvSys) : OwnFrame s s :=
  ⟨rfl, fun _ hk => ⟨hk, rfl⟩, fun _ hk hn => absurd hk hn, fun _ _ _ => rfl⟩

theorem OwnFrame.trans (h₁ : OwnFrame s u) (h₂ : OwnFrame u t) : OwnFrame s t := by
  refine ⟨h₂.sd.trans h₁.sd, fun k hk => ?_, fun k hk hn => ?_, fun k hk ho => ?_⟩
  · obtain ⟨hk', ho⟩ := h₁.kept k hk
    obtain ⟨hk'', ho'⟩ := h₂.kept k hk'
    exact ⟨hk'', ho'.trans ho⟩
  · by_cases hu : Live u.core k
    · rw [(h₂.kept k hu).2]
      exact h₁.fresh k hu hn
    · rw [h₂.fresh k hk hu, h₁.sd]
  · obtain ⟨hk', ho'⟩ := h₁.kept k hk
    rw [h₂.theirs k hk' (by rw [ho', h₁.sd]; exact ho), h₁.theirs k hk ho]

theorem OwnFrame.setMsg (s : RecvSys) (i : Nat) (m : Msg) (ho : m.owner = (s.msg i).owner)
    (hf : m.fragId = (s.msg i).fragId) : OwnFrame s (s.setMsg i m) := by
  refine ⟨rfl, fun k hk => ⟨hk, ?_⟩, fun k hk hn => absurd hk hn, fun k _ _ => ?_⟩ <;>
  · by_cases hki : k = i
    · subst hki
      simpa only [RecvSys.setMsg_msg_self]
    · simp only [RecvSys.setMsg_msg_ne _ _ hki]

theorem OwnFrame.ofCore (hc : t.core = s.core) (hsd : t.conn.sd = s.conn.sd) : OwnFrame s t := by
  have hm : t.msg = s.msg := funext fun k => show t.core.msgs k = s.core.msgs k by rw [hc]
  refine ⟨hsd, fun k hk => ⟨hc ▸ hk, by rw [hm]⟩, fun k hk hn => absurd (hc ▸ hk) hn, fun k _ _ => by rw [hm]⟩

theorem OwnFrame.get {c : Core} {r : Option Nat} {request redis allocOk : Bool}
    (hget : msgGet cfg s.core s.conn request redis allocOk = (c, r)) : OwnFrame s { s with core := c } := by
  cases r with
  | none =>
    obtain ⟨hmsgs, -, -, hn, hq⟩ := msgGet_none hget
    have hl : ∀ k, Live c k ↔ Live s.core k := fun k => by unfold Live; rw [hn, hq]
    refine ⟨rfl, fun k hk => ⟨(hl k).2 hk, ?_⟩, fun k hk hn => absurd ((hl k).1 hk) hn, fun k _ _ => ?_⟩ <;>
      simp only [RecvSys.msg, hmsgs]
  | some j =>
    obtain ⟨-, hmsgs, -, -⟩ := msgGet_some hget
    have hmsg : ∀ k, k ≠ j → c.msgs k = s.core.msgs k := fun k hk => by rw [hmsgs, Function.update_noteq hk]
    refine ⟨rfl, fun k hk => ?_, fun k hk hn => ?_, fun k hk _ => ?_⟩
    · have hkj := (msgGet_ne_live hget hk).symm
      exact ⟨(msgGet_live hget hkj).2 hk, congrArg Msg.owner (hmsg k hkj)⟩
    · have hkj : k = j := by_contra fun hkj => hn ((msgGet_live hget hkj).1 hk)
      subst hkj
      show (c.msgs k).owner = _
      rw [hmsgs, Function.update_same]
      rfl
    · exact congrArg Msg.fragId (hmsg k (msgGet_ne_live hget hk).symm)

theorem OwnFrame.emit (s : RecvSys) (e : RecvEvent) : OwnFrame s (s.emit e) :=
  .ofCore rfl rfl

theorem OwnFrame.moveSplit (s : RecvSys) (i j : Nat) (nbuf : Mbuf) : OwnFrame s (moveSplit s i j nbuf) := by
  unfold Dynomite.moveSplit
  exact (OwnFrame.setMsg _ _ _ (by rfl) (by rfl)).trans (OwnFrame.setMsg _ _ _ (by rfl) (by rfl))

theorem OwnFrame.recvDone (s : RecvSys) (i : Nat) (next : Option Nat) : OwnFrame s (recvDone s i next) :=
  .ofCore rfl rfl

theorem OwnFrame.linkFragment {i j : Nat} (hi : (s.msg i).owner = some s.conn.sd)
    (hj : (s.msg j).owner = some s.conn.sd) (hji : j ≠ i) : OwnFrame s (linkFragment s i j) := by
  have hf := linkFragment_frame s i j
  refine ⟨by rw [hf.conn], fun k hk => ⟨(hf.live k).2 hk, (congrArg Msg.owner (hf.unfrag k) :)⟩,
    fun k hk hn => absurd ((hf.live k).1 hk) hn, fun k _ ho => ?_⟩
  have hki : k ≠ i := fun e => ho (e ▸ hi)
  have hkj : k ≠ j := fun e => ho (e ▸ hj)
  have := congrArg (fun v => (v.msgs k).fragId) (groupView_linkFragment s hji)
  simpa only [groupView_msgs, Msg.frag_fragId, GroupView.linkFragment_fragId _ hki hkj] using this

theorem Owns.ofFrame (h : OwnFrame s t) (hr : t.conn.rmsg = s.conn.rmsg) : Owns s t :=
  ⟨h, fun _ hi => .inl (hr ▸ hi)⟩

theorem Owns.ofNone (h : OwnFrame s t) (hr : t.conn.rmsg = none) : Owns s t :=
  ⟨h, fun _ hi => absurd (hr ▸ hi) nofun⟩

theorem CurOwned.owns (hc : CurOwned s) (ho : Owns s t) (hs : EngineInv cfg s) (ht : EngineInv cfg t) :
    CurOwned t := fun i hi => by
  rcases ho.current i hi with hs' | hn
  · rw [(ho.kept i (hs.live i hs')).2, hc i hs', ho.sd]
  · rw [ho.fresh i (ht.live i hi) hn, ho.sd]

end Frame

/-! ## Each function of the engine -/

section Engine

variable {cfg : Config} {s s' : RecvSys} {i : Nat}

theorem owns_attachTail (s : RecvSys) (i : Nat) : Owns s (attachTail cfg s i) := by
  unfold attachTail
  split
  · exact .ofFrame (.setMsg _ _ _ rfl rfl) rfl
  · exact .ofFrame (.refl _) rfl

theorem owns_recvData (s : RecvSys) (i size : Nat) (data : List UInt8) : Owns s (recvData s i size data) :=
  .ofFrame ((OwnFrame.emit _ _).trans (.setMsg _ _ _ (by rfl) (by rfl))) rfl

theorem owns_decryptStep {decrypt : List UInt8 → List UInt8} {n : Nat} {ok : Bool}
    (hd : decryptStep cfg decrypt s i n ok = some s') : Owns s s' := by
  refine .ofFrame ?_ (by rw [decryptStep_conn hd])
  unfold decryptStep at hd
  dsimp only at hd
  split at hd
  · cases hd
    exact .refl _
  · obtain ⟨s₁, hs₁, rfl⟩ := Option.map_eq_some'.1 hd
    refine OwnFrame.trans ?_ (.setMsg _ _ _ rfl rfl)
    split at hs₁
    · split at hs₁
      · cases hs₁
        exact (OwnFrame.emit _ _).trans (.setMsg _ _ _ (by rfl) (by rfl))
      · cases hs₁
    · cases hs₁
      exact .refl _

theorem owns_msgParsed (io : ParseIO) : Owns s (msgParsed cfg s i io).1 := by
  unfold msgParsed
  dsimp only
  split
  · exact .ofNone (.recvDone _ _ _) rfl
  · split
    · exact .ofFrame (.refl _) rfl
    · rename_i hd nbuf _
      have f₁ := OwnFrame.setMsg s i { s.msg i with mhdr := hd } rfl rfl
      split
      · rename_i c hget
        exact .ofFrame (f₁.trans (.get hget)) rfl
      · rename_i c j hget
        refine ⟨(f₁.trans (.get hget)).trans ((OwnFrame.moveSplit _ _ _ _).trans (.recvDone _ _ _)), ?_⟩
        rintro _ ⟨⟩
        exact .inr fun hl => msgGet_ne_live hget hl rfl

theorem owns_msgFragment (hc : CurOwned s) (h : EngineInv cfg s) (hcur : s.conn.rmsg = some i)
    (io : ParseIO) : Owns s (msgFragment cfg s i io).1 := by
  have hi := h.live i hcur
  unfold msgFragment
  dsimp only
  split
  · exact .ofFrame (.refl _) rfl
  · rename_i hd nbuf _
    have f₁ := OwnFrame.setMsg s i { s.msg i with mhdr := hd } rfl rfl
    split
    · exact .ofFrame f₁ rfl
    · rename_i patch _
      have f₂ := f₁.trans (OwnFrame.setMsg _ i { (s.setMsg i { s.msg i with mhdr := hd }).msg i with
        mhdr := postSplitcopy ((s.setMsg i { s.msg i with mhdr := hd }).msg i).mhdr patch } rfl rfl)
      split
      · rename_i c hget
        exact .ofFrame (f₂.trans (.get hget)) rfl
      · rename_i c j hget
        have hj : ¬ Live s.core j := fun hl => msgGet_ne_live hget hl rfl
        have hjl : Live c j := ((((h.setMsg hi _).setMsg hi _).get hget).2 j rfl).1
        have f₃ := (f₂.trans (.get hget)).trans (OwnFrame.moveSplit _ i j nbuf)
        have hij : j ≠ i := fun e => hj (e ▸ hi)
        refine ⟨f₃.trans ((OwnFrame.linkFragment ?_ ?_ hij).trans (.recvDone _ _ _)), ?_⟩
        · rw [(f₃.kept i hi).2, hc i hcur, f₃.sd]
        · rw [f₃.fresh j hjl hj, f₃.sd]
        · rintro _ ⟨⟩
          exact .inr hj

theorem Owns.refl (s : RecvSys) : Owns s s := .ofFrame (.refl s) rfl

theorem Owns.trans {u t : RecvSys} (h₁ : Owns s u) (h₂ : Owns u t) : Owns s t :=
  ⟨h₁.toOwnFrame.trans h₂.toOwnFrame, fun i hi =>
    (h₂.current i hi).elim (h₁.current i) fun hn => .inr fun hl => hn (h₁.kept i hl).1⟩

theorem owns_msgRepair (s : RecvSys) (i : Nat) (mbufOk : Bool) : Owns s (msgRepair s i mbufOk).1 := by
  unfold msgRepair
  dsimp only
  split
  · exact .refl _
  · exact .ofFrame (.setMsg _ _ _ rfl rfl) rfl

theorem owns_invokeParser (s : RecvSys) (i : Nat) (io : ParseIO) : Owns s (invokeParser s i io) :=
  .ofFrame ((OwnFrame.emit _ _).trans (.setMsg _ _ _ (by rfl) (by rfl))) rfl

theorem owns_msgParse (hc : CurOwned s) (h : EngineInv cfg s) (hcur : s.conn.rmsg = some i)
    (io : ParseIO) : Owns s (msgParse cfg s i io).1 := by
  unfold msgParse
  split
  · exact .ofNone (.recvDone _ _ _) rfl
  · dsimp only
    have ho := owns_invokeParser s i io
    have h₁ := h.invoke (h.live i hcur) io
    refine ho.trans ?_
    split
    · exact owns_msgParsed io
    · exact owns_msgFragment (hc.owns ho h h₁) h₁ hcur io
    · exact owns_msgRepair _ _ _
    · exact .refl _
    · split
      · exact .ofFrame (.ofCore rfl rfl) rfl
      · exact .refl _

theorem owns_recvNext (s : RecvSys) (alloc allocOk : Bool) : Owns s (recvNext cfg s alloc allocOk).1 := by
  unfold recvNext
  split
  · exact .refl _
  · split
    · split
      · rename_i c j hget
        refine ⟨(OwnFrame.get hget).trans (.ofCore rfl rfl), ?_⟩
        rintro _ ⟨⟩
        exact .inr fun hl => msgGet_ne_live hget hl rfl
      · rename_i c hget
        exact .ofFrame (.get hget) rfl
    · exact .refl _

theorem owns_step {s₀ t u : RecvSys} (h : EngineInv cfg t ∧ CurOwned t ∧ Owns s₀ t) (ho : Owns t u)
    (hu : EngineInv cfg u) : EngineInv cfg u ∧ CurOwned u ∧ Owns s₀ u :=
  ⟨hu, h.2.1.owns ho h.1 hu, h.2.2.trans ho⟩

theorem call_owns {decrypt : List UInt8 → List UInt8} (hc : CurOwned s) (h : EngineInv cfg s) (io : ChainIO)
    {r : RecvSys × RStatus} (hr : recvOp cfg decrypt s (.call io) = some r) : Owns s r.1 ∧ CurOwned r.1 := by
  obtain ⟨hn, hcur⟩ := h.next true io.allocOk
  have ho : Owns s (recvNext cfg s true io.allocOk).1 := owns_recvNext s true io.allocOk
  have hc₁ := hc.owns ho h hn
  dsimp only [recvOp] at hr
  split at hr
  · rename_i s₁ i hnext
    rw [hnext] at hn hcur ho hc₁
    have := msgRecvChain_inv (fun t => EngineInv cfg t ∧ CurOwned t ∧ Owns s t)
      (fun _ => True) (fun _ => True) trivial
      (fun _ b h => owns_step h (.ofFrame (.ofCore rfl rfl) rfl) (h.1.ready b))
      (fun t i h hc => owns_step h (owns_attachTail t i) (h.1.attach hc))
      (fun _ _ _ h _ => owns_step h (.ofFrame (.emit _ _) rfl) (h.1.emit _))
      (fun t i size data h hc => owns_step h (owns_recvData t i size data) (h.1.read hc size data))
      (fun _ _ _ _ _ h hc hd => owns_step h (owns_decryptStep hd) (h.1.decrypt hc hd))
      (fun t _ _ io _ h hc _ hp _ => by
        have := owns_step h (owns_msgParse h.2.1 h.1 hc io) (h.1.parse hc io)
        rwa [hp] at this)
      (fun _ _ => trivial) ⟨hn, hc₁, ho⟩ (hcur i rfl) hr trivial
    exact ⟨this.2.2, this.2.1⟩
  · rename_i s₁ hnext
    cases hr
    rw [hnext] at ho hc₁
    exact ⟨ho, hc₁⟩

end Engine

/-! ## The other connections' pool calls -/

section Foreign

variable {cfg : Config} {libc : LibC} {s : RecvSys} {op : PoolOp}

theorem foreign_got (hop : op.Foreign s) {k : Nat} (hg : op.gotObject cfg s.core = some k)
    (hk : Live (poolStep cfg libc s.core op) k) :
    ((poolStep cfg libc s.core op).msgs k).owner ≠ some s.conn.sd ∧
      ((poolStep cfg libc s.core op).msgs k).fragId = 0 := by
  cases op with
  | get conn request redis allocOk =>
    rw [PoolOp.gotObject, ← msgGet_snd conn request redis] at hg
    rw [poolStep, (msgGet_some (Prod.ext rfl hg)).2.1, Function.update_same]
    exact ⟨fun e => hop (Option.some.inj e), rfl⟩
  | getError redis dynErr err allocOk mbufOk =>
    obtain ⟨-, hmsgs, -, -⟩ := _msgGet_some (Prod.ext rfl hg)
    cases mbufOk
    · exact absurd hk ((msgGetError_got redis dynErr err libc.strerror libc.stale false hg).2 rfl)
    · rw [poolStep]
      unfold msgGetError
      rw [show _msgGet cfg s.core true allocOk = (_, some k) from Prod.ext rfl hg]
      simp only [if_true, Core.set_msgs_self]
      rw [hmsgs, Function.update_same]
      exact ⟨nofun, rfl⟩
  | put i => cases hg
  | use i m => cases hg

theorem PoolOp.Foreign.allowed (hop : op.Foreign s) : op.Allowed s.core := by
  cases op with
  | put i => exact hop.1
  | use i m => exact hop.1
  | get => trivial
  | getError => trivial

theorem PoolOp.Foreign.own (hop : op.Foreign s) {k : Nat} (hk : Live s.core k)
    (ho : (s.msg k).owner = some s.conn.sd) :
    Live (poolStep cfg libc s.core op) k ∧ (poolStep cfg libc s.core op).msgs k = s.core.msgs k := by
  rcases @poolStep_cases cfg s.core libc op k with hg | ⟨rfl, -⟩ | ⟨m, rfl, -⟩ | ⟨hl, hm⟩
  · exact absurd hk (gotObject_not_live hg)
  · exact absurd ho hop.2
  · exact absurd ho hop.2.1
  · exact ⟨hl.2 hk, hm⟩

theorem PoolOp.Foreign.live (hop : op.Foreign s) {k : Nat} (hk : Live (poolStep cfg libc s.core op) k) :
    (((poolStep cfg libc s.core op).msgs k).owner ≠ some s.conn.sd ∧
        ((poolStep cfg libc s.core op).msgs k).fragId = 0) ∨
      (Live s.core k ∧ ((poolStep cfg libc s.core op).msgs k).owner = (s.msg k).owner ∧
        ((poolStep cfg libc s.core op).msgs k).frag = (s.msg k).frag) := by
  rcases @poolStep_cases cfg s.core libc op k with hg | ⟨rfl, hdead⟩ | ⟨m, rfl, hl, hm⟩ | ⟨hl, hm⟩
  · exact .inl (foreign_got hop hg hk)
  · exact absurd hk hdead
  · rw [hm]
    exact .inr ⟨hl.1 hk, hop.2.2.1, hop.2.2.2⟩
  · rw [hm]
    exact .inr ⟨hl.1 hk, rfl, rfl⟩

end Foreign

/-! ## The invariant over every interleaving -/

/-- This connection among the others: the engine's invariant, the current
message the connection's own, every live message of the connection current or
handed to `recv_done`, and every live message of another connection in no
group. -/
structure OwnInv (cfg : Config) (s : RecvSys) : Prop where
  engine : EngineInv cfg s
  current : CurOwned s
  mine : ∀ k, Live s.core k → (s.msg k).owner = some s.conn.sd → s.groupView.Accounted k
  theirs : ∀ k, Live s.core k → (s.msg k).owner ≠ some s.conn.sd → (s.msg k).fragId = 0

section Inv

variable {cfg : Config} {decrypt : List UInt8 → List UInt8} {libc : LibC} {s : RecvSys}

theorem OwnInv.boot {conn : Conn} (hconn : conn.rmsg = none) (request : Bool) :
    OwnInv cfg ⟨msgInit Core.boot, conn, request, []⟩ := by
  have hn : (msgInit Core.boot).nmsgs = 0 := (groupView_msgInit_boot conn request).1
  have hdead : ∀ k, ¬ Live (msgInit Core.boot) k := fun k hk => by have := hk.1; omega
  exact ⟨engineInv_msgInit_boot hconn request, fun i hi => absurd (hconn.symm.trans hi) nofun,
    fun k hk => absurd hk (hdead k), fun k hk => absurd hk (hdead k)⟩

theorem OwnInv.call (h : OwnInv cfg s) (io : ChainIO) {r : RecvSys × RStatus}
    (hr : recvOp cfg decrypt s (.call io) = some r) : OwnInv cfg r.1 := by
  obtain ⟨ho, hc⟩ := call_owns h.current h.engine io hr
  obtain ⟨u, hn, hp⟩ := call_view h.engine io hr
  have hk := hn.keeps.trans (GroupView.ParseStep.keeps_steps hp)
  refine ⟨h.engine.op (by trivial) hr, hc, fun k hk' hown => hk k hk' fun hl => h.mine k hl ?_,
    fun k hk' hown => ?_⟩
  · rw [← (ho.kept k hl).2, hown, ho.sd]
  · by_cases hl : Live s.core k
    · have hown' : (s.msg k).owner ≠ some s.conn.sd := by rwa [← (ho.kept k hl).2, ← ho.sd]
      rw [ho.theirs k hl hown']
      exact h.theirs k hl hown'
    · exact absurd (by rw [ho.fresh k hk' hl, ho.sd]) hown

theorem OwnInv.put (h : OwnInv cfg s) {i : Nat} (hop : (RecvOp.put i).PutsOk s) :
    OwnInv cfg { s with core := msgPut s.core i } := by
  refine ⟨⟨h.engine.pool.put hop.1, fun k hk => (live_msgPut i k).2 ⟨h.engine.live k hk, fun e => hop.2 (e ▸ hk)⟩⟩,
    fun j hj => ?_, fun k hk hown => ?_, fun k hk hown => ?_⟩
  · have hm : (msgPut s.core i).msgs j = s.core.msgs j := msgPut_msgs_ne fun e => hop.2 (e ▸ hj)
    exact (congrArg Msg.owner hm).trans (h.current j hj)
  · obtain ⟨hl, hki⟩ := (live_msgPut i k).1 hk
    have hm : (msgPut s.core i).msgs k = s.core.msgs k := msgPut_msgs_ne hki
    show ({ s with core := msgPut s.core i } : RecvSys).groupView.Accounted k
    rw [groupView_msgPut]
    exact h.mine k hl ((congrArg Msg.owner hm).symm.trans hown)
  · obtain ⟨hl, hki⟩ := (live_msgPut i k).1 hk
    have hm : (msgPut s.core i).msgs k = s.core.msgs k := msgPut_msgs_ne hki
    exact (congrArg Msg.fragId hm).trans (h.theirs k hl fun e => hown ((congrArg Msg.owner hm).trans e))

theorem OwnInv.other {op : PoolOp} (h : OwnInv cfg s) (hop : op.Foreign s) :
    OwnInv cfg { s with core := poolStep cfg libc s.core op } := by
  refine ⟨⟨h.engine.pool.step libc op hop.allowed, fun i hi => (hop.own (h.engine.live i hi) (h.current i hi)).1⟩,
    fun i hi => (congrArg Msg.owner (hop.own (h.engine.live i hi) (h.current i hi)).2).trans (h.current i hi),
    fun k hk hown => ?_, fun k hk hown => ?_⟩
  · rcases hop.live hk with ⟨hno, -⟩ | ⟨hl, ho, hf⟩
    · exact absurd hown hno
    · have hacc := h.mine k hl (ho.symm.trans hown)
      show s.conn.rmsg = some k ∨ ((poolStep cfg libc s.core op).msgs k).frag.id ∈ s.groupView.handOffIds
      rw [hf]
      exact hacc
  · rcases hop.live hk with ⟨-, h0⟩ | ⟨hl, ho, hf⟩
    · exact h0
    · exact (congrArg FragFields.fragId hf).trans (h.theirs k hl fun e => hown (ho.trans e))

theorem OwnInv.step (h : OwnInv cfg s) {op : WorkerOp} (hop : op.Allowed RecvOp.PutsOk s)
    {r : RecvSys × RStatus} (hr : workerOp cfg decrypt libc s op = some r) : OwnInv cfg r.1 := by
  cases op with
  | conn op =>
    cases op with
    | call io => exact h.call io hr
    | put i =>
      cases hr
      exact h.put hop
  | other op =>
    cases hr
    exact h.other hop

theorem OwnInv.otherStep {op : PoolOp} (h : OwnInv cfg s) (hop : op.Foreign s) :
    GroupView.OtherStep s.groupView { s with core := poolStep cfg libc s.core op }.groupView := by
  cases op with
  | get conn request redis allocOk =>
    show GroupView.OtherStep _ { s with core := (msgGet cfg s.core conn request redis allocOk).1 }.groupView
    rcases hget : msgGet cfg s.core conn request redis allocOk with ⟨c, _ | j⟩
    · dsimp only
      rw [groupView_getNone hget]
      exact .stay _
    · exact .get (getStep_of_msgGet h.engine hget)
  | getError redis dynErr err allocOk mbufOk =>
    show GroupView.OtherStep _
      { s with core := (msgGetError cfg s.core redis dynErr err libc.strerror libc.stale allocOk mbufOk).1 }.groupView
    unfold msgGetError
    rcases hget : _msgGet cfg s.core true allocOk with ⟨c, _ | j⟩
    · dsimp only
      rw [groupView_rawGetNone hget]
      exact .stay _
    · have hs := getStep_of_rawGet h.engine.pool hget
      have hv : ({ s with core := c.set j { c.msgs j with type := .rspMcServerError } } : RecvSys).groupView =
          ({ s with core := c } : RecvSys).groupView :=
        groupView_setMsg_frag { s with core := c } rfl
      cases mbufOk
      · have hp : ({ s with core := msgPut (c.set j { c.msgs j with type := .rspMcServerError }) j } :
            RecvSys).groupView = ({ s with core := c } : RecvSys).groupView.put j := by
          rw [← hv]
          exact groupView_msgPut { s with core := c.set j { c.msgs j with type := .rspMcServerError } } j
        show GroupView.OtherStep _
          ({ s with core := msgPut (c.set j { c.msgs j with type := .rspMcServerError }) j } : RecvSys).groupView
        rw [hp]
        exact .getPut hs fun e => hs.dead (h.engine.live j e)
      · show GroupView.OtherStep _
          (({ s with core := c.set j { c.msgs j with type := .rspMcServerError } } : RecvSys).setMsg j _).groupView
        rw [groupView_setMsg_frag _ (by rfl), hv]
        exact .get hs
  | put k =>
    show GroupView.OtherStep _ { s with core := msgPut s.core k }.groupView
    rw [groupView_msgPut]
    exact .put hop.1 (fun e => hop.2 (h.current k e)) (h.theirs k hop.1 hop.2)
  | use k m =>
    show GroupView.OtherStep _ (s.setMsg k m).groupView
    rw [groupView_setMsg_frag s hop.2.2.2]
    exact .stay _

theorem OwnInv.bounded {n : Nat} (h : OwnInv cfg s) (hb : s.groupView.Bounded n) {op : WorkerOp}
    (hop : op.Allowed RecvOp.PutsOk s) {r : RecvSys × RStatus} (hr : workerOp cfg decrypt libc s op = some r) :
    r.1.groupView.Bounded (n + 1) := by
  cases op with
  | conn op =>
    cases op with
    | call io =>
      obtain ⟨u, hn, hp⟩ := call_view h.engine io hr
      exact (hb.nextStep hn).parseSteps hp
    | put i =>
      cases hr
      show ({ s with core := msgPut s.core i } : RecvSys).groupView.Bounded (n + 1)
      rw [groupView_msgPut]
      exact (hb.put hop.2).mono (Nat.le_succ n)
  | other op =>
    cases hr
    exact hb.otherStep (h.otherStep hop)

end Inv

theorem WorkerOp.Allowed.putsOk {s : RecvSys} {op : WorkerOp} (h : op.Allowed RecvOp.GroupOk s) :
    op.Allowed RecvOp.PutsOk s := by
  cases op with
  | conn op =>
    cases op with
    | call => trivial
    | put i => exact ⟨h.1, h.2.1⟩
  | other => exact h

section Runs

variable {cfg : Config} {decrypt : List UInt8 → List UInt8} {libc : LibC} {conn : Conn} {request : Bool}
  {ops : List WorkerOp} {s' : RecvSys} {sts : List RStatus}

theorem workerRun_bounded (hconn : conn.rmsg = none)
    (hops : WorkerRunAllowed cfg decrypt libc RecvOp.PutsOk ops ⟨msgInit Core.boot, conn, request, []⟩)
    (hrun : workerRun cfg decrypt libc ops ⟨msgInit Core.boot, conn, request, []⟩ = some (s', sts)) :
    OwnInv cfg s' ∧ s'.groupView.Bounded ops.length := by
  obtain ⟨hn, hm, -, hh⟩ := groupView_msgInit_boot conn request
  have := workerRun_inv (fun n t => OwnInv cfg t ∧ t.groupView.Bounded n) RecvOp.PutsOk
    (fun _ _ _ _ h hop hr => ⟨h.1.step hop hr, h.1.bounded h.2 hop hr⟩)
    ⟨OwnInv.boot hconn request, .empty hn hm hh hconn⟩ hops hrun
  rwa [Nat.zero_add] at this

theorem WorkerRunAllowed.putsOk {ops : List WorkerOp} {s : RecvSys}
    (h : WorkerRunAllowed cfg decrypt libc RecvOp.GroupOk ops s) : WorkerRunAllowed cfg decrypt libc RecvOp.PutsOk ops s := by
  induction ops generalizing s with
  | nil => trivial
  | cons op ops ih => exact ⟨h.1.putsOk, fun r hr => ih (h.2 r hr)⟩

end Runs

def otherConn : Conn := ⟨4, false, false, 0, true, none⟩

def emptyLibC : LibC := ⟨fun _ => "", ""⟩

def splitOnce (data : List UInt8) : ChainIO :=
  ⟨true, true, .bytes data, true, true,
    [⟨.fragment, 6, ascii ("get "), some ⟨0, [], []⟩, 0, true, true⟩, ⟨.again, 0, [], none, 0, true, true⟩]⟩

/-- A memcache `get a b c\r\n` read in two parts, each cut once, with another
connection's `msg_get` between the reads: the group's ids are 1, 2 and 4. -/
def interleavedOps : List WorkerOp :=
  [.conn (.call (splitOnce (ascii ("get a b ")))), .other (.get otherConn true false true),
    .conn (.call (splitOnce (ascii ("c\r\n"))))]

theorem interleavedOps_allowed :
    WorkerRunAllowed smallConfig id emptyLibC RecvOp.GroupOk interleavedOps ⟨msgInit Core.boot, clientConn, true, []⟩ := by
  refine ⟨trivial, fun r hr => ?_⟩
  cases hr
  refine ⟨(by decide : (4 : Nat) ≠ 3), fun r hr => ?_⟩
  cases hr
  exact ⟨trivial, fun _ _ => trivial⟩

/-- From `msg_init`, over every such interleaving, while the hand-offs and the
operations fit in 64 bits: the connection hands its messages to `recv_done` in
increasing id order, each at most once and each already created, and its
current message is newer than every message it handed over and is the newest
of its live messages. -/
theorem recv_run_handoff_order (cfg : Config) (decrypt : List UInt8 → List UInt8) (libc : LibC)
    (conn : Conn) (request : Bool) (ops : List WorkerOp) (s' : RecvSys) (sts : List RStatus)
    (hconn : conn.rmsg = none)
    (hops : WorkerRunAllowed cfg decrypt libc RecvOp.PutsOk ops ⟨msgInit Core.boot, conn, request, []⟩)
    (hrun : workerRun cfg decrypt libc ops ⟨msgInit Core.boot, conn, request, []⟩ = some (s', sts))
    (hroom : (s'.log.filterMap RecvEvent.handoff).length + ops.length < 2 ^ 64) :
    ((s'.log.filterMap RecvEvent.handoff).map Prod.fst).Sorted (· < ·) ∧
      (∀ x ∈ (s'.log.filterMap RecvEvent.handoff).map Prod.fst, x ≤ s'.core.msgId) ∧
      ∀ i, s'.conn.rmsg = some i →
        (∀ x ∈ (s'.log.filterMap RecvEvent.handoff).map Prod.fst, x < (s'.msg i).id) ∧
        ∀ k, Live s'.core k → (s'.msg k).owner = some s'.conn.sd → (s'.msg k).id ≤ (s'.msg i).id := by
  obtain ⟨h, hb⟩ := workerRun_bounded hconn hops hrun
  have hord := hb.order hroom
  refine ⟨hord.sorted, hord.handedLe, fun i hi => ⟨(hord.current i hi).2, fun k hk hown => ?_⟩⟩
  rcases h.mine k hk hown with hki | hx
  · cases hi.symm.trans hki
    exact u64_le_refl _
  · exact u64_le_of_lt ((hord.current i hi).2 _ hx)

theorem recv_run_handoff_order_interleaved :
    ∃ s', workerRun smallConfig id emptyLibC interleavedOps ⟨msgInit Core.boot, clientConn, true, []⟩ =
        some (s', [.ok, .ok, .ok]) ∧ (s'.log.filterMap RecvEvent.handoff).map Prod.fst = [1, 2] ∧
      s'.conn.rmsg = some 3 ∧ (s'.msg 3).id = 4 ∧
      (s'.log.filterMap RecvEvent.handoff).length + interleavedOps.length < 2 ^ 64 ∧
      ((s'.log.filterMap RecvEvent.handoff).map Prod.fst).Sorted (· < ·) ∧
      (∀ x ∈ (s'.log.filterMap RecvEvent.handoff).map Prod.fst, x ≤ s'.core.msgId) ∧
      ∀ i, s'.conn.rmsg = some i →
        (∀ x ∈ (s'.log.filterMap RecvEvent.handoff).map Prod.fst, x < (s'.msg i).id) ∧
        ∀ k, Live s'.core k → (s'.msg k).owner = some s'.conn.sd → (s'.msg k).id ≤ (s'.msg i).id := by
  refine ⟨_, rfl, rfl, rfl, rfl, by decide, ?_⟩
  exact recv_run_handoff_order smallConfig id emptyLibC clientConn true interleavedOps _ _ rfl
    interleavedOps_allowed.putsOk rfl (by decide)

end Dynomite
