import Dynomite.Msg

/-! # The message pool over whole runs

A run of the pool is any sequence of `msg_get` (either mode), `msg_get_error`
and `msg_put` calls, each `msg_put` on a live message, interleaved with
arbitrary changes the owners make to live messages.  `PoolInv` is what holds of
every state such a run reaches from `msg_init`: the free-queue counter matches
the queue, free-listed objects hold no mbufs and no envelope (so `msg_deinit`'s
assertions pass), and objects, counter and cap are ordered
`nmsgs ≤ alloc_msg_count ≤ MAX_ALLOC_MSGS`.

`_msg_get` raises `alloc_msg_count` before it calls `dn_alloc`, and nothing
lowers it: over every run the counter is the number of objects obtained plus
the number of `dn_alloc` calls that returned NULL (`pool_run_alloc_count`), so
each failed allocation permanently takes one object from what the pool can
still allocate. -/

set_option autoImplicit false

namespace Dynomite

/-- A message object in use: obtained from `dn_alloc` and not on the free queue. -/
def Live (c : Core) (i : Nat) : Prop := i < c.nmsgs ∧ i ∉ c.freeMsgq

instance (c : Core) (i : Nat) : Decidable (Live c i) := inferInstanceAs (Decidable (_ ∧ _))

/-- One call the rest of the system makes on the pool. -/
inductive PoolOp
  | get (conn : Conn) (request redis allocOk : Bool)
  | getError (redis : Bool) (dynErr : DynError) (err : Nat) (allocOk mbufOk : Bool)
  | put (i : Nat)
  | use (i : Nat) (m : Msg)

/-- The C library's `strerror` table and the unset `source` slot. -/
structure LibC where
  strerror : Nat → String
  stale : String

def poolStep (cfg : Config) (libc : LibC) (c : Core) : PoolOp → Core
  | .get conn request redis allocOk => (msgGet cfg c conn request redis allocOk).1
  | .getError redis dynErr err allocOk mbufOk =>
    (msgGetError cfg c redis dynErr err libc.strerror libc.stale allocOk mbufOk).1
  | .put i => msgPut c i
  | .use i m => c.set i m

/-- `msg_put` and the owners' changes apply to live messages only. -/
def PoolOp.Allowed (c : Core) : PoolOp → Prop
  | .put i => Live c i
  | .use i _ => Live c i
  | _ => True

def poolRun (cfg : Config) (libc : LibC) : Core → List PoolOp → Core
  | c, [] => c
  | c, op :: ops => poolRun cfg libc (poolStep cfg libc c op) ops

def PoolRunAllowed (cfg : Config) (libc : LibC) : Core → List PoolOp → Prop
  | _, [] => True
  | c, op :: ops => op.Allowed c ∧ PoolRunAllowed cfg libc (poolStep cfg libc c op) ops

structure PoolInv (cfg : Config) (c : Core) : Prop where
  nfree_eq : c.nfreeMsgq.toNat = c.freeMsgq.length
  free_nodup : c.freeMsgq.Nodup
  free_lt : ∀ i ∈ c.freeMsgq, i < c.nmsgs
  free_empty : ∀ i ∈ c.freeMsgq, (c.msgs i).mhdr = [] ∧ (c.msgs i).dmsg = none
  nmsgs_le : c.nmsgs ≤ c.allocMsgCount.toNat
  count_le : c.allocMsgCount ≤ cfg.maxAllocMsgs

section Inv

variable {cfg : Config} {c : Core}

theorem poolInv_msgInit_boot : PoolInv cfg (msgInit Core.boot) :=
  ⟨rfl, List.nodup_nil, by simp [msgInit], by simp [msgInit], le_refl _,
    (u32_le_iff _ _).2 (Nat.zero_le _)⟩

theorem free_length_lt (hinv : PoolInv cfg c) {i : Nat} (hlive : Live c i) :
    c.freeMsgq.length < c.nmsgs := by
  have hsub : c.freeMsgq.toFinset ⊆ (Finset.range c.nmsgs).erase i := by
    intro j hj
    rw [List.mem_toFinset] at hj
    exact Finset.mem_erase.2 ⟨fun e => hlive.2 (e ▸ hj), Finset.mem_range.2 (hinv.free_lt j hj)⟩
  have hcard := Finset.card_le_card hsub
  rw [List.toFinset_card_of_nodup hinv.free_nodup,
    Finset.card_erase_of_mem (Finset.mem_range.2 hlive.1), Finset.card_range] at hcard
  have := hlive.1
  omega

theorem PoolInv.set (hinv : PoolInv cfg c) {i : Nat} (hlive : Live c i) (m : Msg) :
    PoolInv cfg (c.set i m) := by
  refine ⟨hinv.nfree_eq, hinv.free_nodup, hinv.free_lt, fun j hj => ?_, hinv.nmsgs_le,
    hinv.count_le⟩
  have hji : j ≠ i := fun e => hlive.2 (e ▸ hj)
  simpa [hji] using hinv.free_empty j hj

theorem live_set {i j : Nat} (m : Msg) : Live (c.set i m) j ↔ Live c j := Iff.rfl

theorem PoolInv.put (hinv : PoolInv cfg c) {i : Nat} (hlive : Live c i) :
    PoolInv cfg (msgPut c i) := by
  have hlen := free_length_lt hinv hlive
  have hmax := (u32_le_iff _ _).1 hinv.count_le
  have hbound := u32_toNat_lt cfg.maxAllocMsgs
  have hnm := hinv.nmsgs_le
  refine ⟨?_, List.nodup_cons.2 ⟨hlive.2, hinv.free_nodup⟩, ?_, ?_, hinv.nmsgs_le, hinv.count_le⟩
  · simp only [msgPut, List.length_cons, u32_toNat_add, u32_toNat_one, Core.set_nfreeMsgq]
    rw [hinv.nfree_eq]
    omega
  · intro j hj
    rcases List.mem_cons.1 hj with rfl | hj
    · exact hlive.1
    · exact hinv.free_lt j hj
  · intro j hj
    rcases List.mem_cons.1 hj with rfl | hj
    · simp [msgPut]
    · have hji : j ≠ i := fun e => hlive.2 (e ▸ hj)
      simpa [msgPut, hji] using hinv.free_empty j hj

theorem PoolInv.initAt (hinv : PoolInv cfg c) {i : Nat} (hi : i ∉ c.freeMsgq) :
    PoolInv cfg (msgInitAt c i).1 := by
  refine ⟨hinv.nfree_eq, hinv.free_nodup, hinv.free_lt, fun j hj => ?_, hinv.nmsgs_le,
    hinv.count_le⟩
  have hji : j ≠ i := fun e => hi (e ▸ hj)
  simpa [msgInitAt, hji] using hinv.free_empty j hj

/-- What `_msg_get` can do: reuse the head of the free queue; stop before
`dn_alloc` at `ALLOWED_ALLOC_MSGS` when not forced, or at `MAX_ALLOC_MSGS`; or
raise `alloc_msg_count`, which stays within `MAX_ALLOC_MSGS`, and call
`dn_alloc`, with a new object when it succeeds. -/
theorem _msgGet_cases (cfg : Config) (c : Core) (force allocOk : Bool) :
    (∃ i rest, c.freeMsgq = i :: rest ∧
      _msgGet cfg c force allocOk = msgInitAt { c with nfreeMsgq := c.nfreeMsgq - 1, freeMsgq := rest } i) ∨
    (c.freeMsgq = [] ∧
      (cfg.allowedAllocMsgs ≤ c.allocMsgCount ∧ force = false ∨ cfg.maxAllocMsgs ≤ c.allocMsgCount) ∧
      _msgGet cfg c force allocOk = (c, none)) ∨
    (c.freeMsgq = [] ∧ (cfg.allowedAllocMsgs ≤ c.allocMsgCount → force = true) ∧
      c.allocMsgCount < cfg.maxAllocMsgs ∧ (c.allocMsgCount + 1).toNat = c.allocMsgCount.toNat + 1 ∧
      _msgGet cfg c force allocOk = if allocOk then
        msgInitAt { c with allocMsgCount := c.allocMsgCount + 1, nmsgs := c.nmsgs + 1 } c.nmsgs
      else ({ c with allocMsgCount := c.allocMsgCount + 1 }, none)) := by
  unfold _msgGet
  split
  · exact Or.inl ⟨_, _, ‹_›, rfl⟩
  · rename_i hq
    by_cases hallow : cfg.allowedAllocMsgs ≤ c.allocMsgCount ∧ !force
    · exact Or.inr (Or.inl ⟨hq, Or.inl (by simpa using hallow), if_pos hallow⟩)
    rw [if_neg hallow]
    by_cases hmax : cfg.maxAllocMsgs ≤ c.allocMsgCount
    · exact Or.inr (Or.inl ⟨hq, Or.inr hmax, if_pos hmax⟩)
    have hlt := UInt32.not_le.1 hmax
    have hsucc := u32_toNat_succ c.allocMsgCount
      (by have := (u32_lt_iff _ _).1 hlt; have := u32_toNat_lt cfg.maxAllocMsgs; omega)
    exact Or.inr (Or.inr ⟨hq, fun h => by simpa [h] using hallow, hlt, hsucc, if_neg hmax⟩)

/-- `_msg_get` keeps the invariant and hands out a live object. -/
theorem PoolInv.rawGet (hinv : PoolInv cfg c) (force allocOk : Bool) :
    PoolInv cfg (_msgGet cfg c force allocOk).1 ∧
      ∀ i, (_msgGet cfg c force allocOk).2 = some i → Live (_msgGet cfg c force allocOk).1 i := by
  rcases _msgGet_cases cfg c force allocOk with ⟨i, rest, hq, he⟩ | ⟨-, -, he⟩ | ⟨hq, -, hcap, hsucc, he⟩ <;>
    rw [he]
  · have hnd := hinv.free_nodup
    rw [hq] at hnd
    have hlen := hinv.nfree_eq
    rw [hq, List.length_cons] at hlen
    have hinv' : PoolInv cfg { c with nfreeMsgq := c.nfreeMsgq - 1, freeMsgq := rest } := by
      refine ⟨?_, (List.nodup_cons.1 hnd).2, fun j hj => hinv.free_lt j (by rw [hq]; simp [hj]),
        fun j hj => hinv.free_empty j (by rw [hq]; simp [hj]), hinv.nmsgs_le, hinv.count_le⟩
      show (c.nfreeMsgq - 1).toNat = rest.length
      rw [u32_toNat_sub _ _ (by rw [u32_toNat_one]; omega), u32_toNat_one]
      omega
    refine ⟨hinv'.initAt (List.nodup_cons.1 hnd).1, ?_⟩
    rintro j ⟨⟩
    exact ⟨hinv.free_lt i (by rw [hq]; simp), (List.nodup_cons.1 hnd).1⟩
  · exact ⟨hinv, by simp⟩
  · have hcap' : c.allocMsgCount + 1 ≤ cfg.maxAllocMsgs :=
      (u32_le_iff _ _).2 (by rw [hsucc]; exact (u32_lt_iff _ _).1 hcap)
    have hnm := hinv.nmsgs_le
    cases allocOk
    · exact ⟨⟨hinv.nfree_eq, hinv.free_nodup, hinv.free_lt, hinv.free_empty,
        by simp only [Bool.false_eq_true, if_false, hsucc]; omega, hcap'⟩, by simp⟩
    · have hinv' : PoolInv cfg { c with allocMsgCount := c.allocMsgCount + 1, nmsgs := c.nmsgs + 1 } :=
        ⟨hinv.nfree_eq, hinv.free_nodup, fun j hj => Nat.lt_succ_of_lt (hinv.free_lt j hj),
          hinv.free_empty, by simp only [hsucc]; omega, hcap'⟩
      refine ⟨hinv'.initAt (by simp [hq]), ?_⟩
      rintro j ⟨⟩
      exact ⟨Nat.lt_succ_self _, by simp [msgInitAt, hq]⟩

theorem PoolInv.get (hinv : PoolInv cfg c) (conn : Conn) (request redis allocOk : Bool) :
    PoolInv cfg (msgGet cfg c conn request redis allocOk).1 ∧
      ∀ i, (msgGet cfg c conn request redis allocOk).2 = some i →
        Live (msgGet cfg c conn request redis allocOk).1 i := by
  obtain ⟨hinv', hlive⟩ := hinv.rawGet conn.dynMode allocOk
  unfold msgGet
  split
  · rename_i c' hget
    rw [hget] at hinv'
    exact ⟨hinv', by simp⟩
  · rename_i c' i hget
    rw [hget] at hinv' hlive
    have hi := hlive i rfl
    exact ⟨hinv'.set hi _, by rintro j ⟨⟩; exact hi⟩

theorem PoolInv.getError (hinv : PoolInv cfg c) (redis : Bool) (dynErr : DynError) (err : Nat)
    (libc : LibC) (allocOk mbufOk : Bool) :
    PoolInv cfg (msgGetError cfg c redis dynErr err libc.strerror libc.stale allocOk mbufOk).1 := by
  obtain ⟨hinv', hlive⟩ := hinv.rawGet true allocOk
  unfold msgGetError
  split
  · rename_i c' hget
    rw [hget] at hinv'
    exact hinv'
  · rename_i c' i hget
    rw [hget] at hinv' hlive
    have hi := hlive i rfl
    have hinv'' := hinv'.set hi { c'.msgs i with type := .rspMcServerError }
    split
    · exact hinv''.set hi _
    · exact hinv''.put hi

theorem PoolInv.step (hinv : PoolInv cfg c) (libc : LibC) (op : PoolOp)
    (hop : op.Allowed c) : PoolInv cfg (poolStep cfg libc c op) := by
  cases op with
  | get conn request redis allocOk => exact (hinv.get conn request redis allocOk).1
  | getError redis dynErr err allocOk mbufOk => exact hinv.getError redis dynErr err libc allocOk mbufOk
  | put i => exact hinv.put hop
  | use i m => exact hinv.set hop m

theorem PoolInv.run (libc : LibC) (ops : List PoolOp) (hinv : PoolInv cfg c)
    (hops : PoolRunAllowed cfg libc c ops) : PoolInv cfg (poolRun cfg libc c ops) := by
  induction ops generalizing c with
  | nil => exact hinv
  | cons op ops ih => exact ih (hinv.step libc op hops.1) hops.2

/-- `msg_deinit` passes every assertion on a state satisfying the invariant. -/
theorem PoolInv.msgDeinit_isSome (hinv : PoolInv cfg c) : (msgDeinit c).isSome := by
  suffices h : ∀ (l : List Nat) (n : UInt32), n.toNat = l.length →
      (∀ i ∈ l, (c.msgs i).mhdr = []) → (msgDeinit.go c l n).isSome from
    h _ _ hinv.nfree_eq fun i hi => (hinv.free_empty i hi).1
  intro l
  induction l with
  | nil =>
    intro n hn _
    have : n = 0 := (u32_eq_iff _ _).2 (by simpa using hn)
    simp [msgDeinit.go, this]
  | cons i rest ih =>
    intro n hn hempty
    have hpos : 0 < n := (u32_lt_iff _ _).2 (by simp at hn; simp; omega)
    rw [msgDeinit.go, if_pos ⟨hpos, hempty i (List.mem_cons_self _ _)⟩]
    refine ih _ ?_ fun j hj => hempty j (List.mem_cons_of_mem _ hj)
    rw [u32_toNat_sub _ _ (by simp at hn ⊢; omega), u32_toNat_one]
    simp at hn
    omega

end Inv

/-! ## What `msg_get` hands out -/

/-- The object `msg_get` hands out: every field at its default under the next
id, then the connection's owner, the direction, the dialect, its parser and
its callbacks. -/
def msgGot (c : Core) (conn : Conn) (request redis : Bool) : Msg :=
  let d : Dialect := if redis then .redis else .memcache
  { Msg.fresh (c.msgId + 1) with
    owner := some conn.sd, request := request, redis := redis,
    parser := some (msgParser request redis conn.dynMode),
    preSplitcopy := some d, postSplitcopy := some d,
    preCoalesce := some d, postCoalesce := some d }

theorem _msgGet_none {cfg : Config} {c c' : Core} {force allocOk : Bool}
    (h : _msgGet cfg c force allocOk = (c', none)) :
    c'.msgs = c.msgs ∧ c'.msgId = c.msgId ∧ c'.fragId = c.fragId ∧ c'.nmsgs = c.nmsgs ∧
      c'.freeMsgq = c.freeMsgq := by
  rcases _msgGet_cases cfg c force allocOk with ⟨i, rest, -, he⟩ | ⟨-, -, he⟩ | ⟨-, -, -, -, he⟩ <;>
    rw [he] at h
  · cases h
  · cases h
    exact ⟨rfl, rfl, rfl, rfl, rfl⟩
  · cases allocOk <;> cases h
    exact ⟨rfl, rfl, rfl, rfl, rfl⟩

theorem _msgGet_some {cfg : Config} {c c' : Core} {force allocOk : Bool} {j : Nat}
    (h : _msgGet cfg c force allocOk = (c', some j)) :
    ((c.freeMsgq = j :: c'.freeMsgq ∧ c'.nmsgs = c.nmsgs) ∨
      (j = c.nmsgs ∧ c'.nmsgs = c.nmsgs + 1 ∧ c'.freeMsgq = c.freeMsgq)) ∧
    c'.msgs = Function.update c.msgs j (Msg.fresh (c.msgId + 1)) ∧
    c'.msgId = c.msgId + 1 ∧ c'.fragId = c.fragId := by
  rcases _msgGet_cases cfg c force allocOk with ⟨i, rest, hq, he⟩ | ⟨-, -, he⟩ | ⟨-, -, -, -, he⟩ <;>
    rw [he] at h
  · cases h
    exact ⟨Or.inl ⟨hq, rfl⟩, rfl, rfl, rfl⟩
  · cases h
  · cases allocOk <;> cases h
    exact ⟨Or.inr ⟨rfl, rfl, rfl⟩, rfl, rfl, rfl⟩

theorem msgGet_none {cfg : Config} {c c' : Core} {conn : Conn} {request redis allocOk : Bool}
    (h : msgGet cfg c conn request redis allocOk = (c', none)) :
    c'.msgs = c.msgs ∧ c'.msgId = c.msgId ∧ c'.fragId = c.fragId ∧ c'.nmsgs = c.nmsgs ∧
      c'.freeMsgq = c.freeMsgq := by
  unfold msgGet at h
  split at h
  · rename_i c₁ hget
    cases h
    exact _msgGet_none hget
  · cases h

theorem msgGet_some {cfg : Config} {c c' : Core} {conn : Conn} {request redis allocOk : Bool}
    {j : Nat} (h : msgGet cfg c conn request redis allocOk = (c', some j)) :
    ((c.freeMsgq = j :: c'.freeMsgq ∧ c'.nmsgs = c.nmsgs) ∨
      (j = c.nmsgs ∧ c'.nmsgs = c.nmsgs + 1 ∧ c'.freeMsgq = c.freeMsgq)) ∧
    c'.msgs = Function.update c.msgs j (msgGot c conn request redis) ∧
    c'.msgId = c.msgId + 1 ∧ c'.fragId = c.fragId := by
  unfold msgGet at h
  split at h
  · cases h
  · rename_i c₁ i hget
    simp only [Prod.mk.injEq, Option.some.injEq] at h
    obtain ⟨rfl, rfl⟩ := h
    obtain ⟨hplace, hmsgs, hid, hfrag⟩ := _msgGet_some hget
    refine ⟨hplace, ?_, hid, hfrag⟩
    simp only [Core.set, hmsgs, Function.update_idem, Function.update_same]
    rfl

theorem msgGet_ne_live {cfg : Config} {c c' : Core} {conn : Conn} {request redis allocOk : Bool}
    {i j : Nat} (h : msgGet cfg c conn request redis allocOk = (c', some j)) (hi : Live c i) :
    j ≠ i := by
  rintro rfl
  rcases (msgGet_some h).1 with ⟨hfree, -⟩ | ⟨rfl, -⟩
  · exact hi.2 (by rw [hfree]; exact List.mem_cons_self _ _)
  · exact Nat.lt_irrefl _ hi.1

theorem msgGet_live {cfg : Config} {c c' : Core} {conn : Conn} {request redis allocOk : Bool}
    {i j : Nat} (h : msgGet cfg c conn request redis allocOk = (c', some j)) (hij : i ≠ j) :
    Live c' i ↔ Live c i := by
  unfold Live
  rcases (msgGet_some h).1 with ⟨hfree, hn⟩ | ⟨rfl, hn, hfree⟩
  · rw [hfree, hn, List.mem_cons]
    exact and_congr_right fun _ => by simp [hij]
  · rw [hn, hfree]
    exact and_congr_left fun _ => by omega

theorem _msgGet_unforced (cfg : Config) (c : Core) (allocOk : Bool) :
    ((_msgGet cfg c false allocOk).1.nmsgs ≠ c.nmsgs → c.allocMsgCount < cfg.allowedAllocMsgs) ∧
    (cfg.allowedAllocMsgs ≤ c.allocMsgCount →
      ∀ i, (_msgGet cfg c false allocOk).2 = some i → i ∈ c.freeMsgq) := by
  rcases _msgGet_cases cfg c false allocOk with ⟨i, rest, hq, he⟩ | ⟨-, -, he⟩ | ⟨-, hallow, -, -, he⟩ <;>
    rw [he]
  · simp [msgInitAt, hq]
  · simp
  · have hlt : c.allocMsgCount < cfg.allowedAllocMsgs := UInt32.not_le.1 fun h => by cases hallow h
    exact ⟨fun _ => hlt, fun h => absurd h (UInt32.not_le.2 hlt)⟩

/-- The pool over every run from `msg_init`: the free-queue counter is the
queue's length, free-listed objects hold neither mbufs nor an envelope and
`msg_deinit`'s assertions pass, `alloc_msg_count` stays within
`MAX_ALLOC_MSGS` and so does the number of objects in existence, and a
non-dyn-mode `msg_get` creates an object only below `ALLOWED_ALLOC_MSGS`. -/
theorem pool_run_within_caps (cfg : Config) (libc : LibC) (ops : List PoolOp)
    (hops : PoolRunAllowed cfg libc (msgInit Core.boot) ops) :
    let c := poolRun cfg libc (msgInit Core.boot) ops
    c.nfreeMsgq.toNat = c.freeMsgq.length ∧
    (∀ i ∈ c.freeMsgq, (c.msgs i).mhdr = [] ∧ (c.msgs i).dmsg = none) ∧
    (msgDeinit c).isSome ∧
    c.allocMsgCount ≤ cfg.maxAllocMsgs ∧
    c.nmsgs ≤ cfg.maxAllocMsgs.toNat ∧
    (∀ (conn : Conn) (request redis allocOk : Bool), conn.dynMode = false →
      ((msgGet cfg c conn request redis allocOk).1.nmsgs ≠ c.nmsgs →
        c.allocMsgCount < cfg.allowedAllocMsgs) ∧
      (cfg.allowedAllocMsgs ≤ c.allocMsgCount →
        ∀ i, (msgGet cfg c conn request redis allocOk).2 = some i → i ∈ c.freeMsgq)) := by
  intro c
  have hinv : PoolInv cfg c := poolInv_msgInit_boot.run libc ops hops
  refine ⟨hinv.nfree_eq, hinv.free_empty, hinv.msgDeinit_isSome, hinv.count_le,
    le_trans hinv.nmsgs_le ((u32_le_iff _ _).1 hinv.count_le), ?_⟩
  intro conn request redis allocOk hmode
  have h := _msgGet_unforced cfg c allocOk
  rw [← hmode] at h
  unfold msgGet
  split <;> rename_i c' r hget <;> rw [hget] at h <;> simpa using h

def clientConn : Conn := ⟨3, false, false, 0, true, none⟩

theorem pool_run_within_caps_get_put :
    PoolRunAllowed smallConfig ⟨fun _ => "", ""⟩ (msgInit Core.boot)
      [.get clientConn true false true, .put 0, .get clientConn true false true] ∧
    let c := poolRun smallConfig ⟨fun _ => "", ""⟩ (msgInit Core.boot)
      [.get clientConn true false true, .put 0, .get clientConn true false true]
    c.nfreeMsgq.toNat = c.freeMsgq.length ∧
    (∀ i ∈ c.freeMsgq, (c.msgs i).mhdr = [] ∧ (c.msgs i).dmsg = none) ∧
    (msgDeinit c).isSome ∧
    c.allocMsgCount ≤ smallConfig.maxAllocMsgs ∧
    c.nmsgs ≤ smallConfig.maxAllocMsgs.toNat ∧
    (∀ (conn : Conn) (request redis allocOk : Bool), conn.dynMode = false →
      ((msgGet smallConfig c conn request redis allocOk).1.nmsgs ≠ c.nmsgs →
        c.allocMsgCount < smallConfig.allowedAllocMsgs) ∧
      (smallConfig.allowedAllocMsgs ≤ c.allocMsgCount →
        ∀ i, (msgGet smallConfig c conn request redis allocOk).2 = some i → i ∈ c.freeMsgq)) := by
  have hops : PoolRunAllowed smallConfig ⟨fun _ => "", ""⟩ (msgInit Core.boot)
      [.get clientConn true false true, .put 0, .get clientConn true false true] := by
    refine ⟨trivial, ?_, trivial, trivial⟩
    simp [PoolOp.Allowed, Live, poolStep, msgGet, _msgGet, msgInit, Core.boot, smallConfig,
      clientConn, msgInitAt]
  exact ⟨hops, pool_run_within_caps _ _ _ hops⟩

/-! ## What `alloc_msg_count` counts -/

/-- Whether `_msg_get(force_alloc)` gets as far as `dn_alloc`: the free queue is
empty and neither cap stops it. -/
def reachesAlloc (cfg : Config) (c : Core) (force : Bool) : Bool :=
  c.freeMsgq.isEmpty && !(decide (cfg.allowedAllocMsgs ≤ c.allocMsgCount) && !force) &&
    decide (c.allocMsgCount < cfg.maxAllocMsgs)

def PoolOp.allocFails (cfg : Config) (c : Core) : PoolOp → Bool
  | .get conn _ _ allocOk => reachesAlloc cfg c conn.dynMode && !allocOk
  | .getError _ _ _ allocOk _ => reachesAlloc cfg c true && !allocOk
  | _ => false

def allocFailures (cfg : Config) (libc : LibC) : Core → List PoolOp → Nat
  | _, [] => 0
  | c, op :: ops =>
    (if op.allocFails cfg c then 1 else 0) + allocFailures cfg libc (poolStep cfg libc c op) ops

section Count

variable {cfg : Config} {c : Core}

@[simp] theorem msgInitAt_allocMsgCount (c : Core) (i : Nat) :
    (msgInitAt c i).1.allocMsgCount = c.allocMsgCount := rfl

@[simp] theorem msgInitAt_nmsgs (c : Core) (i : Nat) : (msgInitAt c i).1.nmsgs = c.nmsgs := rfl

/-- `_msg_get` raises `alloc_msg_count` exactly when it calls `dn_alloc`, and
gains an object exactly when that call succeeds. -/
theorem _msgGet_count (force allocOk : Bool) :
    (_msgGet cfg c force allocOk).1.allocMsgCount.toNat =
        c.allocMsgCount.toNat + (if reachesAlloc cfg c force then 1 else 0) ∧
      (_msgGet cfg c force allocOk).1.nmsgs =
        c.nmsgs + (if reachesAlloc cfg c force && allocOk then 1 else 0) := by
  rcases _msgGet_cases cfg c force allocOk with ⟨i, rest, hq, he⟩ | ⟨-, hstop, he⟩ | ⟨hq, hallow, hlt, hsucc, he⟩ <;>
    rw [he]
  · simp [reachesAlloc, hq]
  · have hr : reachesAlloc cfg c force = false := by
      rcases hstop with ⟨h1, rfl⟩ | h
      · simp [reachesAlloc, h1]
      · simp [reachesAlloc, UInt32.not_lt.2 h]
    simp [hr]
  · have hr : reachesAlloc cfg c force = true := by
      by_cases h : cfg.allowedAllocMsgs ≤ c.allocMsgCount <;> simp [reachesAlloc, hq, hlt, h, hallow]
    cases allocOk <;> simp [hr, hsucc]

theorem msgGet_counts (conn : Conn) (request redis allocOk : Bool) :
    (msgGet cfg c conn request redis allocOk).1.allocMsgCount =
        (_msgGet cfg c conn.dynMode allocOk).1.allocMsgCount ∧
      (msgGet cfg c conn request redis allocOk).1.nmsgs = (_msgGet cfg c conn.dynMode allocOk).1.nmsgs ∧
      (msgGet cfg c conn request redis allocOk).1.msgId = (_msgGet cfg c conn.dynMode allocOk).1.msgId := by
  unfold msgGet
  split <;> rename_i hget <;> simp [hget]

theorem msgGetError_counts (redis : Bool) (dynErr : DynError) (err : Nat) (strerror : Nat → String)
    (stale : String) (allocOk mbufOk : Bool) :
    (msgGetError cfg c redis dynErr err strerror stale allocOk mbufOk).1.allocMsgCount =
        (_msgGet cfg c true allocOk).1.allocMsgCount ∧
      (msgGetError cfg c redis dynErr err strerror stale allocOk mbufOk).1.nmsgs =
        (_msgGet cfg c true allocOk).1.nmsgs ∧
      (msgGetError cfg c redis dynErr err strerror stale allocOk mbufOk).1.msgId =
        (_msgGet cfg c true allocOk).1.msgId := by
  unfold msgGetError
  split <;> rename_i hget
  · simp [hget]
  · split <;> simp [hget, msgPut]

theorem poolStep_count (libc : LibC) (op : PoolOp) :
    (poolStep cfg libc c op).allocMsgCount.toNat + c.nmsgs =
      c.allocMsgCount.toNat + (poolStep cfg libc c op).nmsgs + (if op.allocFails cfg c then 1 else 0) := by
  cases op with
  | get conn request redis allocOk =>
    obtain ⟨h1, h2, -⟩ := @msgGet_counts cfg c conn request redis allocOk
    obtain ⟨h3, h4⟩ := @_msgGet_count cfg c conn.dynMode allocOk
    simp only [poolStep, PoolOp.allocFails, h1, h2, h3, h4]
    by_cases hr : reachesAlloc cfg c conn.dynMode <;> cases allocOk <;> simp [hr] <;> omega
  | getError redis dynErr err allocOk mbufOk =>
    obtain ⟨h1, h2, -⟩ := @msgGetError_counts cfg c redis dynErr err libc.strerror libc.stale
      allocOk mbufOk
    obtain ⟨h3, h4⟩ := @_msgGet_count cfg c true allocOk
    simp only [poolStep, PoolOp.allocFails, h1, h2, h3, h4]
    by_cases hr : reachesAlloc cfg c true <;> cases allocOk <;> simp [hr] <;> omega
  | put i => simp [poolStep, PoolOp.allocFails, msgPut]
  | use i m => simp [poolStep, PoolOp.allocFails]

theorem allocFailures_count (libc : LibC) (c : Core) (ops : List PoolOp) :
    (poolRun cfg libc c ops).allocMsgCount.toNat + c.nmsgs =
      c.allocMsgCount.toNat + (poolRun cfg libc c ops).nmsgs + allocFailures cfg libc c ops := by
  induction ops generalizing c with
  | nil => simp [poolRun, allocFailures]
  | cons op ops ih =>
    have hstep := @poolStep_count cfg c libc op
    have hrest := ih (poolStep cfg libc c op)
    simp only [poolRun, allocFailures]
    omega

end Count

/-- Over every run from `msg_init`, `alloc_msg_count` is the number of objects
obtained from `dn_alloc` plus the number of `dn_alloc` calls that returned NULL:
the count is raised before the allocation is tried and never lowered. -/
theorem pool_run_alloc_count (cfg : Config) (libc : LibC) (ops : List PoolOp) :
    (poolRun cfg libc (msgInit Core.boot) ops).allocMsgCount.toNat =
      (poolRun cfg libc (msgInit Core.boot) ops).nmsgs + allocFailures cfg libc (msgInit Core.boot) ops := by
  have h := @allocFailures_count cfg libc (msgInit Core.boot) ops
  simp only [msgInit, Core.boot] at h
  simpa using h

/-- Four client `msg_get` calls whose `dn_alloc` fails, from `msg_init` with
`ALLOWED_ALLOC_MSGS = 4`: no object exists, yet `alloc_msg_count` is 4 and a
fifth `msg_get`, whose `dn_alloc` would succeed, returns NULL.  A
`msg_get_error` whose `mbuf_get` fails returns NULL after raising `msg_id` and
putting its object on the free queue. -/
theorem pool_failed_alloc_keeps_count :
    ∃ c, poolRun smallConfig ⟨fun _ => "", ""⟩ (msgInit Core.boot)
        (List.replicate 4 (.get clientConn true false false)) = c ∧
      c.nmsgs = 0 ∧ c.allocMsgCount = 4 ∧ c.freeMsgq = [] ∧
      msgGet smallConfig c clientConn true false true = (c, none) ∧
    ∃ c', msgGetError smallConfig (msgInit Core.boot) false .peerConnectionRefuse 0 (fun _ => "") ""
        true false = (c', none) ∧
      c'.allocMsgCount = 1 ∧ c'.msgId = 1 ∧ c'.freeMsgq = [0] ∧ c'.nfreeMsgq = 1 :=
  ⟨_, rfl, rfl, rfl, rfl, rfl, _, rfl, rfl, rfl, rfl, rfl⟩

/-! ## What a pool call leaves alone -/

def PoolOp.gotObject (cfg : Config) (c : Core) : PoolOp → Option Nat
  | .get conn _ _ allocOk => (_msgGet cfg c conn.dynMode allocOk).2
  | .getError _ _ _ allocOk _ => (_msgGet cfg c true allocOk).2
  | _ => none

def PoolOp.target : PoolOp → Option Nat
  | .put i => some i
  | .use i _ => some i
  | _ => none

section Frame

variable {cfg : Config} {c : Core}

theorem live_msgPut (i x : Nat) : Live (msgPut c i) x ↔ Live c x ∧ x ≠ i := by
  simp only [Live, msgPut, List.mem_cons, not_or, Core.set_nmsgs]
  tauto

theorem msgPut_msgs_ne {i x : Nat} (hx : x ≠ i) : (msgPut c i).msgs x = c.msgs x :=
  Core.set_msgs_ne _ _ hx

theorem _msgGet_got {force allocOk : Bool} {j : Nat} (h : (_msgGet cfg c force allocOk).2 = some j) :
    ¬ Live c j ∧ ∀ x, x ≠ j →
      (Live (_msgGet cfg c force allocOk).1 x ↔ Live c x) ∧ (_msgGet cfg c force allocOk).1.msgs x = c.msgs x := by
  obtain ⟨hplace, hmsgs, -, -⟩ := _msgGet_some (Prod.ext rfl h : _msgGet cfg c force allocOk = (_, some j))
  refine ⟨fun hj => ?_, fun x hx => ⟨?_, by rw [hmsgs, Function.update_noteq hx]⟩⟩
  · rcases hplace with ⟨hq, -⟩ | ⟨rfl, -, -⟩
    · exact hj.2 (by rw [hq]; exact List.mem_cons_self _ _)
    · exact Nat.lt_irrefl _ hj.1
  · unfold Live
    rcases hplace with ⟨hq, hn⟩ | ⟨rfl, hn, hq⟩
    · rw [hn, hq, List.mem_cons]
      exact and_congr_right fun _ => by simp [hx]
    · rw [hn, hq]
      exact and_congr_left fun _ => by omega

theorem _msgGet_got_none {force allocOk : Bool} (h : (_msgGet cfg c force allocOk).2 = none) (x : Nat) :
    (Live (_msgGet cfg c force allocOk).1 x ↔ Live c x) ∧ (_msgGet cfg c force allocOk).1.msgs x = c.msgs x := by
  obtain ⟨hmsgs, -, -, hn, hq⟩ := _msgGet_none (Prod.ext rfl h : _msgGet cfg c force allocOk = (_, none))
  exact ⟨by unfold Live; rw [hn, hq], by rw [hmsgs]⟩

/-- A pool call changes only the object `_msg_get` hands out and the one it
writes for its caller, in content and in liveness. -/
theorem poolStep_frame (libc : LibC) (op : PoolOp) {x : Nat} (hg : op.gotObject cfg c ≠ some x)
    (ht : op.target ≠ some x) :
    (Live (poolStep cfg libc c op) x ↔ Live c x) ∧ (poolStep cfg libc c op).msgs x = c.msgs x := by
  cases op with
  | get conn request redis allocOk =>
    simp only [PoolOp.gotObject] at hg
    simp only [poolStep, msgGet]
    rcases h : (_msgGet cfg c conn.dynMode allocOk) with ⟨c', _ | j⟩ <;> rw [h] at hg
    · exact _msgGet_got_none (by rw [h]) x |>.imp (by rw [h]; exact id) (by rw [h]; exact id)
    · have hx : x ≠ j := fun e => hg (by rw [e])
      obtain ⟨-, hframe⟩ := _msgGet_got (by rw [h] : (_msgGet cfg c conn.dynMode allocOk).2 = some j)
      rw [h] at hframe
      exact ⟨(hframe x hx).1, by rw [Core.set_msgs_ne _ _ hx]; exact (hframe x hx).2⟩
  | getError redis dynErr err allocOk mbufOk =>
    simp only [PoolOp.gotObject] at hg
    simp only [poolStep, msgGetError]
    rcases h : (_msgGet cfg c true allocOk) with ⟨c', _ | j⟩ <;> rw [h] at hg
    · exact _msgGet_got_none (by rw [h]) x |>.imp (by rw [h]; exact id) (by rw [h]; exact id)
    · have hx : x ≠ j := fun e => hg (by rw [e])
      obtain ⟨-, hframe⟩ := _msgGet_got (by rw [h] : (_msgGet cfg c true allocOk).2 = some j)
      rw [h] at hframe
      cases mbufOk
      · simp only [Bool.false_eq_true, if_false]
        rw [live_msgPut, msgPut_msgs_ne hx, Core.set_msgs_ne _ _ hx]
        exact ⟨(and_iff_left hx).trans (hframe x hx).1, (hframe x hx).2⟩
      · simp only [if_true]
        rw [Core.set_msgs_ne _ _ hx, Core.set_msgs_ne _ _ hx]
        exact hframe x hx
  | put i =>
    have hx : x ≠ i := fun e => ht (by rw [e]; rfl)
    exact ⟨(live_msgPut i x).trans (and_iff_left hx), msgPut_msgs_ne hx⟩
  | use i m =>
    have hx : x ≠ i := fun e => ht (by rw [e]; rfl)
    exact ⟨live_set m, Core.set_msgs_ne _ _ hx⟩

/-- What a pool call does to one object: `_msg_get` hands it out, `msg_put`
frees it, an owner writes it, or it keeps its liveness and content. -/
theorem poolStep_cases (libc : LibC) (op : PoolOp) (x : Nat) :
    op.gotObject cfg c = some x ∨ (op = .put x ∧ ¬ Live (poolStep cfg libc c op) x) ∨
      (∃ m, op = .use x m ∧ (Live (poolStep cfg libc c op) x ↔ Live c x) ∧
        (poolStep cfg libc c op).msgs x = m) ∨
      ((Live (poolStep cfg libc c op) x ↔ Live c x) ∧ (poolStep cfg libc c op).msgs x = c.msgs x) := by
  by_cases hg : op.gotObject cfg c = some x
  · exact .inl hg
  refine .inr ?_
  cases op with
  | put i =>
    by_cases hi : i = x
    · subst hi
      exact .inl ⟨rfl, fun h => ((live_msgPut i i).1 h).2 rfl⟩
    · exact .inr (.inr (poolStep_frame libc _ hg (by simp [PoolOp.target, hi])))
  | use i m =>
    by_cases hi : i = x
    · subst hi
      exact .inr (.inl ⟨m, rfl, live_set m, Core.set_msgs_self _ _ _⟩)
    · exact .inr (.inr (poolStep_frame libc _ hg (by simp [PoolOp.target, hi])))
  | get => exact .inr (.inr (poolStep_frame libc _ hg nofun))
  | getError => exact .inr (.inr (poolStep_frame libc _ hg nofun))

theorem gotObject_not_live {op : PoolOp} {j : Nat} (h : op.gotObject cfg c = some j) : ¬ Live c j := by
  cases op with
  | get conn request redis allocOk => exact (_msgGet_got h).1
  | getError redis dynErr err allocOk mbufOk => exact (_msgGet_got h).1
  | put i => cases h
  | use i m => cases h

end Frame

/-! ## Message ids

`_msg_get` writes `msg->id = ++msg_id` into every object it hands out, and no
other function of the file writes `msg->id`.  So while `msg_id` has not
wrapped, the live messages carry distinct ids: an id names one message. -/

def PoolOp.KeepsId (c : Core) : PoolOp → Prop
  | .use i m => m.id = (c.msgs i).id
  | _ => True

def PoolRunKeepsIds (cfg : Config) (libc : LibC) : Core → List PoolOp → Prop
  | _, [] => True
  | c, op :: ops => op.Allowed c ∧ op.KeepsId c ∧ PoolRunKeepsIds cfg libc (poolStep cfg libc c op) ops

def gotCount (cfg : Config) (libc : LibC) : Core → List PoolOp → Nat
  | _, [] => 0
  | c, op :: ops =>
    (if (op.gotObject cfg c).isSome then 1 else 0) + gotCount cfg libc (poolStep cfg libc c op) ops

/-- Live messages carry positive, pairwise distinct ids, none above `msg_id`. -/
structure IdInv (c : Core) : Prop where
  pos : ∀ k, Live c k → 0 < (c.msgs k).id.toNat
  le : ∀ k, Live c k → (c.msgs k).id.toNat ≤ c.msgId.toNat
  inj : ∀ k₁ k₂, Live c k₁ → Live c k₂ → (c.msgs k₁).id = (c.msgs k₂).id → k₁ = k₂

section Ids

variable {cfg : Config} {c : Core}

theorem msgGet_snd (conn : Conn) (request redis allocOk : Bool) :
    (msgGet cfg c conn request redis allocOk).2 = (_msgGet cfg c conn.dynMode allocOk).2 := by
  unfold msgGet
  split <;> rename_i h <;> rw [h]

theorem _msgGet_msgId (force allocOk : Bool) :
    (_msgGet cfg c force allocOk).1.msgId =
      if (_msgGet cfg c force allocOk).2.isSome then c.msgId + 1 else c.msgId := by
  rcases h : _msgGet cfg c force allocOk with ⟨c', _ | j⟩
  · exact (_msgGet_none h).2.1
  · exact (_msgGet_some h).2.2.1

theorem poolStep_msgId (libc : LibC) (op : PoolOp) :
    (poolStep cfg libc c op).msgId = if (op.gotObject cfg c).isSome then c.msgId + 1 else c.msgId := by
  cases op with
  | get conn request redis allocOk =>
    rw [poolStep, (msgGet_counts conn request redis allocOk).2.2, PoolOp.gotObject, _msgGet_msgId]
  | getError redis dynErr err allocOk mbufOk =>
    rw [poolStep, (msgGetError_counts redis dynErr err _ _ allocOk mbufOk).2.2, PoolOp.gotObject,
      _msgGet_msgId]
  | put i => rfl
  | use i m => rfl

theorem poolStep_msgId_toNat (libc : LibC) (op : PoolOp)
    (h : c.msgId.toNat + (if (op.gotObject cfg c).isSome then 1 else 0) < 2 ^ 64) :
    (poolStep cfg libc c op).msgId.toNat =
      c.msgId.toNat + if (op.gotObject cfg c).isSome then 1 else 0 := by
  rw [poolStep_msgId]
  cases hg : (op.gotObject cfg c).isSome
  · rfl
  · rw [hg] at h
    exact u64_toNat_succ _ h

theorem msgGetError_got {allocOk : Bool} (redis : Bool) (dynErr : DynError) (err : Nat)
    (strerror : Nat → String) (stale : String) (mbufOk : Bool) {j : Nat}
    (h : (_msgGet cfg c true allocOk).2 = some j) :
    (mbufOk = true →
      ((msgGetError cfg c redis dynErr err strerror stale allocOk mbufOk).1.msgs j).id = c.msgId + 1) ∧
    (mbufOk = false → ¬ Live (msgGetError cfg c redis dynErr err strerror stale allocOk mbufOk).1 j) := by
  obtain ⟨-, hmsgs, -, -⟩ := _msgGet_some (Prod.ext rfl h)
  unfold msgGetError
  rw [show _msgGet cfg c true allocOk = (_, some j) from Prod.ext rfl h]
  cases mbufOk
  · exact ⟨nofun, fun _ hk => ((live_msgPut j j).1 hk).2 rfl⟩
  · refine ⟨fun _ => ?_, nofun⟩
    simp only [if_true, Core.set_msgs_self]
    rw [hmsgs, Function.update_same]
    rfl

theorem poolStep_live_id (libc : LibC) {op : PoolOp} (hkeep : op.KeepsId c) {k : Nat}
    (hk : Live (poolStep cfg libc c op) k) :
    (op.gotObject cfg c = some k ∧ ((poolStep cfg libc c op).msgs k).id = c.msgId + 1) ∨
      (Live c k ∧ ((poolStep cfg libc c op).msgs k).id = (c.msgs k).id) := by
  by_cases hg : op.gotObject cfg c = some k
  · refine .inl ⟨hg, ?_⟩
    cases op with
    | get conn request redis allocOk =>
      rw [PoolOp.gotObject, ← msgGet_snd conn request redis] at hg
      rw [poolStep, (msgGet_some (Prod.ext rfl hg)).2.1, Function.update_same]
      rfl
    | getError redis dynErr err allocOk mbufOk =>
      obtain ⟨hid, hput⟩ := msgGetError_got redis dynErr err libc.strerror libc.stale mbufOk hg
      cases mbufOk
      · exact absurd hk (hput rfl)
      · exact hid rfl
    | put i => cases hg
    | use i m => cases hg
  · rcases (poolStep_cases libc op k).resolve_left hg with ⟨-, hdead⟩ | ⟨m, rfl, hl, hm⟩ | ⟨hl, hm⟩
    · exact absurd hk hdead
    · exact .inr ⟨hl.1 hk, by rw [hm]; exact hkeep⟩
    · exact .inr ⟨hl.1 hk, by rw [hm]⟩

theorem IdInv.step (libc : LibC) {op : PoolOp} (h : IdInv c) (hkeep : op.KeepsId c)
    (hbound : c.msgId.toNat + (if (op.gotObject cfg c).isSome then 1 else 0) < 2 ^ 64) :
    IdInv (poolStep cfg libc c op) := by
  have hid := poolStep_msgId_toNat libc op hbound
  have hnext : ∀ k, op.gotObject cfg c = some k →
      (c.msgId + 1).toNat = c.msgId.toNat + 1 ∧ (poolStep cfg libc c op).msgId.toNat = c.msgId.toNat + 1 := by
    intro k hk
    simp only [hk, Option.isSome_some, if_true] at hbound hid
    exact ⟨u64_toNat_succ _ hbound, hid⟩
  have hmono : c.msgId.toNat ≤ (poolStep cfg libc c op).msgId.toNat := by
    rw [hid]
    exact Nat.le_add_right _ _
  refine ⟨fun k hk => ?_, fun k hk => ?_, fun k₁ k₂ h₁ h₂ e => ?_⟩
  · rcases poolStep_live_id libc hkeep hk with ⟨g, e⟩ | ⟨hk, e⟩ <;> rw [e]
    · rw [(hnext k g).1]
      exact Nat.succ_pos _
    · exact h.pos k hk
  · rcases poolStep_live_id libc hkeep hk with ⟨g, e⟩ | ⟨hk, e⟩ <;> rw [e]
    · rw [(hnext k g).1, (hnext k g).2]
    · exact (h.le k hk).trans hmono
  · rcases poolStep_live_id libc hkeep h₁ with ⟨g₁, e₁⟩ | ⟨h₁, e₁⟩ <;>
      rcases poolStep_live_id libc hkeep h₂ with ⟨g₂, e₂⟩ | ⟨h₂, e₂⟩ <;> rw [e₁, e₂] at e
    · exact Option.some.inj (g₁.symm.trans g₂)
    · have := congrArg UInt64.toNat e
      have := h.le k₂ h₂
      rw [(hnext k₁ g₁).1] at *
      omega
    · have := congrArg UInt64.toNat e
      have := h.le k₁ h₁
      rw [(hnext k₂ g₂).1] at *
      omega
    · exact h.inj k₁ k₂ h₁ h₂ e

theorem IdInv.run (libc : LibC) {ops : List PoolOp} (h : IdInv c) (hops : PoolRunKeepsIds cfg libc c ops)
    (hbound : c.msgId.toNat + gotCount cfg libc c ops < 2 ^ 64) :
    IdInv (poolRun cfg libc c ops) ∧
      (poolRun cfg libc c ops).msgId.toNat = c.msgId.toNat + gotCount cfg libc c ops := by
  induction ops generalizing c with
  | nil => exact ⟨h, rfl⟩
  | cons op ops ih =>
    simp only [gotCount] at hbound ⊢
    have hstep : c.msgId.toNat + (if (op.gotObject cfg c).isSome then 1 else 0) < 2 ^ 64 := by omega
    have hid := poolStep_msgId_toNat libc op hstep
    obtain ⟨hinv, hrun⟩ := ih (h.step libc hops.2.1 hstep) hops.2.2 (by omega)
    exact ⟨hinv, by rw [poolRun, hrun, hid]; omega⟩

theorem gotCount_le_length (libc : LibC) (c : Core) (ops : List PoolOp) :
    gotCount cfg libc c ops ≤ ops.length := by
  induction ops generalizing c with
  | nil => exact le_rfl
  | cons op ops ih =>
    have := ih (poolStep cfg libc c op)
    simp only [gotCount, List.length_cons]
    split <;> omega

end Ids

/-- Over every run from `msg_init` of fewer than `2^64` calls, with `msg_put`
and the owners' changes only on live messages and no owner writing `msg->id`:
`msg_id` counts the objects `_msg_get` handed out, and the live messages carry
pairwise distinct ids between 1 and `msg_id`. -/
theorem pool_run_unique_ids (cfg : Config) (libc : LibC) (ops : List PoolOp)
    (hops : PoolRunKeepsIds cfg libc (msgInit Core.boot) ops) (hlen : ops.length < 2 ^ 64) :
    IdInv (poolRun cfg libc (msgInit Core.boot) ops) ∧
      (poolRun cfg libc (msgInit Core.boot) ops).msgId.toNat = gotCount cfg libc (msgInit Core.boot) ops := by
  have hboot : IdInv (msgInit Core.boot) := ⟨fun _ hk => absurd hk.1 (Nat.not_lt_zero _),
    fun _ hk => absurd hk.1 (Nat.not_lt_zero _), fun _ _ hk => absurd hk.1 (Nat.not_lt_zero _)⟩
  have hle := @gotCount_le_length cfg libc (msgInit Core.boot) ops
  exact hboot.run libc hops (by change 0 + _ < _; omega) |>.imp id fun e => e.trans (Nat.zero_add _)

/-- Two requests, the first put back and its object reused for a response, the
second's length changed by its owner. -/
def idRun : List PoolOp :=
  [.get clientConn true false true, .get clientConn true false true, .put 0,
    .get clientConn false false true, .use 1 { Msg.fresh 2 with mlen := 5 }]

theorem pool_run_unique_ids_reuse :
    PoolRunKeepsIds smallConfig ⟨fun _ => "", ""⟩ (msgInit Core.boot) idRun ∧ idRun.length < 2 ^ 64 ∧
      IdInv (poolRun smallConfig ⟨fun _ => "", ""⟩ (msgInit Core.boot) idRun) ∧
      (poolRun smallConfig ⟨fun _ => "", ""⟩ (msgInit Core.boot) idRun).msgId.toNat =
        gotCount smallConfig ⟨fun _ => "", ""⟩ (msgInit Core.boot) idRun :=
  have hops : PoolRunKeepsIds smallConfig ⟨fun _ => "", ""⟩ (msgInit Core.boot) idRun := by
    simp only [idRun, PoolRunKeepsIds, PoolOp.Allowed, PoolOp.KeepsId]
    decide
  ⟨hops, by decide, pool_run_unique_ids _ _ _ hops (by decide)⟩

end Dynomite
