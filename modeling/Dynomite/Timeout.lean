import Mathlib.Data.List.Sort
import Dynomite.Pool

/-! # The timeout index

`msg_tmo_insert` puts a request into `tmo_rbt`, keyed by the deadline
`dn_msec_now() + server_timeout(conn)`, through the node `tmo_rbe` the message
embeds; a timeout that is not positive leaves the request out.
`msg_tmo_delete` takes the node out unless its `data` is NULL, and
`msg_tmo_min` peeks the node with the earliest deadline.  `_msg_get` resets the
node of every object it hands out (`rbtree_node_init`); `msg_put` does not
touch the tree.

The red-black tree of `dyn_rbtree.[ch]` is not part of the source given here:
it is modelled from the spec as an ordered map keyed by deadline, kept as the
list of its nodes in order, a new node going after those of the same deadline.

With callers that withdraw a request before they put it back, and insert only
live requests that are not `quit` and expect a reply, every run from `msg_init` keeps the index
sound (`TmoInv`): it is the deadline map of the spec (`tmo_run_deadlines`) and
holds only live requests, each with its connection (`tmo_run_indexed_requests`).
The withdrawal is needed: `msg_put` leaves the tree alone and `_msg_get` resets
the node of the object it hands out again, so a request put back while indexed
would stay in the tree with a NULL back-reference that `msg_tmo_delete` takes
for already deleted. -/

set_option autoImplicit false

namespace Dynomite

/-- The node `tmo_rbe` as this file sets it: the deadline in milliseconds and
the connection, NULL while the node is in no tree. -/
structure RbNode where
  key : Int
  data : Option Nat
deriving DecidableEq, Repr

/-- Modelled from the spec: `rbtree_node_init`, a node in no tree. -/
def RbNode.init : RbNode := ⟨0, none⟩

/-- `tmo_rbt` as its nodes in order, and the node of every message object. -/
structure TmoIndex where
  rbt : List Nat
  rbe : Nat → RbNode

namespace TmoIndex

def key (t : TmoIndex) (k : Nat) : Int := (t.rbe k).key

/-- Modelled from the spec: `rbtree_insert`, after every node whose deadline is
not later. -/
def rbtreeInsert (t : TmoIndex) (k : Nat) : TmoIndex :=
  { t with rbt := t.rbt.orderedInsert (fun a b => t.key a < t.key b) k }

/-- Modelled from the spec: `rbtree_delete` takes the node out and clears its
back-reference. -/
def rbtreeDelete (t : TmoIndex) (k : Nat) : TmoIndex :=
  ⟨t.rbt.erase k, Function.update t.rbe k { t.rbe k with data := none }⟩

/-- Modelled from the spec: `rbtree_min`, the first node, NULL for an empty
tree. -/
def rbtreeMin (t : TmoIndex) : Option Nat := t.rbt.head?

def nodeInit (t : TmoIndex) (k : Nat) : TmoIndex := { t with rbe := Function.update t.rbe k RbNode.init }

end TmoIndex

/-- `msg_tmo_insert(msg, conn)`: `timeout` is what `server_timeout(conn)`
returned and `now` what `dn_msec_now()` did. -/
def msgTmoInsert (t : TmoIndex) (k conn : Nat) (timeout now : Int) : TmoIndex :=
  if timeout ≤ 0 then t
  else TmoIndex.rbtreeInsert { t with rbe := Function.update t.rbe k ⟨now + timeout, some conn⟩ } k

/-- `msg_tmo_delete(msg)`: a node whose `data` is NULL is already deleted. -/
def msgTmoDelete (t : TmoIndex) (k : Nat) : TmoIndex :=
  if (t.rbe k).data = none then t else t.rbtreeDelete k

def msgTmoMin (t : TmoIndex) : Option Nat := t.rbtreeMin

/-! ## The pool and the index -/

structure TmoSys where
  core : Core
  tmo : TmoIndex

/-- A pool call, or a call of the request path on the index. -/
inductive TmoOp
  | pool (op : PoolOp)
  | insert (k conn : Nat) (timeout now : Int)
  | delete (k : Nat)

def tmoStep (cfg : Config) (libc : LibC) (s : TmoSys) : TmoOp → TmoSys
  | .pool op => ⟨poolStep cfg libc s.core op,
      match op.gotObject cfg s.core with
      | some k => s.tmo.nodeInit k
      | none => s.tmo⟩
  | .insert k conn timeout now => { s with tmo := msgTmoInsert s.tmo k conn timeout now }
  | .delete k => { s with tmo := msgTmoDelete s.tmo k }

def tmoRun (cfg : Config) (libc : LibC) : TmoSys → List TmoOp → TmoSys
  | s, [] => s
  | s, op :: ops => tmoRun cfg libc (tmoStep cfg libc s op) ops

def tmoInit (rbe : Nat → RbNode) : TmoSys := ⟨msgInit Core.boot, ⟨[], rbe⟩⟩

/-- What the request path guarantees: `msg_put` only of a live message that is
withdrawn from the index, an indexed message kept a request that is not `quit`
and expects a reply, and `msg_tmo_insert` (whose assertions ask for such a
request) only of a live message not indexed yet. -/
def TmoOp.Allowed (s : TmoSys) : TmoOp → Prop
  | .pool (.put k) => Live s.core k ∧ k ∉ s.tmo.rbt
  | .pool (.use k m) => Live s.core k ∧
      (k ∈ s.tmo.rbt → m.request = true ∧ m.quit = false ∧ m.noreply = false)
  | .pool _ => True
  | .insert k _ _ _ => Live s.core k ∧ (s.core.msgs k).request = true ∧ (s.core.msgs k).quit = false ∧
      (s.core.msgs k).noreply = false ∧ k ∉ s.tmo.rbt
  | .delete _ => True

def TmoRunAllowed (cfg : Config) (libc : LibC) : TmoSys → List TmoOp → Prop
  | _, [] => True
  | s, op :: ops => op.Allowed s ∧ TmoRunAllowed cfg libc (tmoStep cfg libc s op) ops

/-! ## The index stays sound -/

def TmoIndex.deadline (t : TmoIndex) (k : Nat) : Option Int := if k ∈ t.rbt then some (t.key k) else none

/-- A sound index: each message at most once, only live requests that are not
`quit` and expect a reply, a live message's node holds its connection exactly when it is indexed,
and the nodes are in order of deadline. -/
structure TmoInv (s : TmoSys) : Prop where
  nodup : s.tmo.rbt.Nodup
  live : ∀ k ∈ s.tmo.rbt, Live s.core k
  request : ∀ k ∈ s.tmo.rbt,
    (s.core.msgs k).request = true ∧ (s.core.msgs k).quit = false ∧ (s.core.msgs k).noreply = false
  linked : ∀ k, Live s.core k → ((s.tmo.rbe k).data.isSome ↔ k ∈ s.tmo.rbt)
  sorted : s.tmo.rbt.Sorted fun a b => s.tmo.key a ≤ s.tmo.key b

theorem sorted_orderedInsert (f : Nat → Int) (a : Nat) {l : List Nat} (h : l.Sorted fun x y => f x ≤ f y) :
    (l.orderedInsert (fun x y => f x < f y) a).Sorted fun x y => f x ≤ f y := by
  induction l with
  | nil => exact List.sorted_singleton a
  | cons b l ih =>
    obtain ⟨hb, hl⟩ := List.sorted_cons.1 h
    by_cases hab : f a < f b
    · rw [List.orderedInsert, if_pos hab]
      refine List.sorted_cons.2 ⟨fun y hy => ?_, h⟩
      rcases List.mem_cons.1 hy with rfl | hy
      · exact le_of_lt hab
      · exact le_trans (le_of_lt hab) (hb y hy)
    · rw [List.orderedInsert, if_neg hab]
      refine List.sorted_cons.2 ⟨fun y hy => ?_, ih hl⟩
      rcases (List.mem_orderedInsert _).1 hy with rfl | hy
      · exact le_of_not_lt hab
      · exact hb y hy

/-- Modelled from the spec: the ordered map keyed by deadline under the same
calls; an insert with a positive timeout sets `now + timeout`, a delete clears
the entry, and the pool leaves the map alone. -/
def deadlineStep (d : Nat → Option Int) : TmoOp → Nat → Option Int
  | .pool _ => d
  | .insert k _ timeout now => if timeout ≤ 0 then d else Function.update d k (some (now + timeout))
  | .delete k => Function.update d k none

def deadlineRun : (Nat → Option Int) → List TmoOp → Nat → Option Int
  | d, [] => d
  | d, op :: ops => deadlineRun (deadlineStep d op) ops

section Keep

variable {cfg : Config} {libc : LibC} {s : TmoSys}

theorem tmoInv_tmoInit (rbe : Nat → RbNode) : TmoInv (tmoInit rbe) :=
  ⟨List.nodup_nil, fun _ h => absurd h (List.not_mem_nil _), fun _ h => absurd h (List.not_mem_nil _),
    fun _ hk => absurd hk.1 (Nat.not_lt_zero _), List.sorted_nil⟩

theorem TmoInv.pool (h : TmoInv s) {op : PoolOp} (ha : (TmoOp.pool op).Allowed s) :
    TmoInv (tmoStep cfg libc s (.pool op)) ∧ (tmoStep cfg libc s (.pool op)).tmo.deadline = s.tmo.deadline := by
  have hin : ∀ x ∈ s.tmo.rbt, op.gotObject cfg s.core ≠ some x := fun x hx hg =>
    gotObject_not_live hg (h.live x hx)
  -- the nodes of indexed messages, and of every object `_msg_get` did not hand out, are as they were
  have hrbe : ∀ x, op.gotObject cfg s.core ≠ some x → (tmoStep cfg libc s (.pool op)).tmo.rbe x = s.tmo.rbe x := by
    intro x hx
    simp only [tmoStep]
    split
    · rename_i j hj
      exact Function.update_noteq (fun e => hx (by rw [e]; exact hj)) _ _
    · rfl
  have hrbt : (tmoStep cfg libc s (.pool op)).tmo.rbt = s.tmo.rbt := by
    simp only [tmoStep]; split <;> rfl
  have hnotput : ∀ x ∈ s.tmo.rbt, op ≠ .put x := fun x hx e => by subst e; exact ha.2 hx
  refine ⟨⟨?nodup, ?live, ?request, ?linked, ?sorted⟩, ?_⟩
  case nodup => rw [hrbt]; exact h.nodup
  case live =>
    intro x hx
    rw [hrbt] at hx
    rcases (poolStep_cases libc op x).resolve_left (hin x hx) with ⟨e, -⟩ | ⟨m, -, hl, -⟩ | ⟨hl, -⟩
    · exact absurd e (hnotput x hx)
    · exact hl.2 (h.live x hx)
    · exact hl.2 (h.live x hx)
  case request =>
    intro x hx
    rw [hrbt] at hx
    show ((poolStep cfg libc s.core op).msgs x).request = true ∧
      ((poolStep cfg libc s.core op).msgs x).quit = false ∧ ((poolStep cfg libc s.core op).msgs x).noreply = false
    rcases (poolStep_cases libc op x).resolve_left (hin x hx) with ⟨e, -⟩ | ⟨m, rfl, -, hm⟩ | ⟨-, hm⟩
    · exact absurd e (hnotput x hx)
    · rw [hm]; exact ha.2 hx
    · rw [hm]; exact h.request x hx
  case linked =>
    intro x hx
    rw [hrbt]
    by_cases hg : op.gotObject cfg s.core = some x
    · simp only [tmoStep, hg, TmoIndex.nodeInit, Function.update_same, RbNode.init, Option.isSome_none,
        Bool.false_eq_true, false_iff]
      exact fun hx' => hin x hx' hg
    · rw [hrbe x hg]
      rcases (poolStep_cases libc op x).resolve_left hg with ⟨-, hdead⟩ | ⟨m, -, hl, -⟩ | ⟨hl, -⟩
      · exact absurd hx hdead
      · exact h.linked x (hl.1 hx)
      · exact h.linked x (hl.1 hx)
  case sorted =>
    rw [hrbt]
    refine h.sorted.imp_of_mem fun {a b} ha' hb' hab => ?_
    simpa only [TmoIndex.key, hrbe a (hin a ha'), hrbe b (hin b hb')] using hab
  · funext x
    simp only [TmoIndex.deadline, TmoIndex.key, hrbt]
    split
    · rename_i hx; rw [hrbe x (hin x hx)]
    · rfl

theorem TmoInv.insert (h : TmoInv s) {k conn : Nat} {timeout now : Int}
    (ha : (TmoOp.insert k conn timeout now).Allowed s) :
    TmoInv (tmoStep cfg libc s (.insert k conn timeout now)) ∧
      (tmoStep cfg libc s (.insert k conn timeout now)).tmo.deadline =
        deadlineStep s.tmo.deadline (.insert k conn timeout now) := by
  obtain ⟨hk, hreq, hquit, hnr, hnot⟩ := ha
  by_cases ht : timeout ≤ 0
  · simp only [tmoStep, msgTmoInsert, deadlineStep, if_pos ht, and_true]
    exact h
  set t' : TmoIndex := { s.tmo with rbe := Function.update s.tmo.rbe k ⟨now + timeout, some conn⟩ }
  have hstep : (tmoStep cfg libc s (.insert k conn timeout now)).tmo = t'.rbtreeInsert k := by
    simp only [tmoStep, msgTmoInsert, if_neg ht]
  have hkey : ∀ x, x ≠ k → t'.key x = s.tmo.key x := fun x hx => by
    simp only [t', TmoIndex.key, Function.update_noteq hx]
  have hperm := List.perm_orderedInsert (fun a b => t'.key a < t'.key b) k s.tmo.rbt
  have hmem : ∀ x, x ∈ (t'.rbtreeInsert k).rbt ↔ x = k ∨ x ∈ s.tmo.rbt := fun x =>
    List.mem_orderedInsert _
  refine ⟨⟨?nodup, ?live, ?request, ?linked, ?sorted⟩, ?_⟩
  case nodup =>
    rw [hstep]
    exact hperm.nodup_iff.2 (List.nodup_cons.2 ⟨hnot, h.nodup⟩)
  case live =>
    intro x hx
    rw [hstep, hmem] at hx
    rcases hx with rfl | hx
    · exact hk
    · exact h.live x hx
  case request =>
    intro x hx
    rw [hstep, hmem] at hx
    rcases hx with rfl | hx
    · exact ⟨hreq, hquit, hnr⟩
    · exact h.request x hx
  case linked =>
    intro x hx
    rw [hstep, hmem]
    by_cases hxk : x = k
    · subst hxk
      simp [TmoIndex.rbtreeInsert, t']
    · simp only [TmoIndex.rbtreeInsert, t', Function.update_noteq hxk, hxk, false_or]
      exact h.linked x hx
  case sorted =>
    rw [hstep]
    refine sorted_orderedInsert t'.key k (h.sorted.imp_of_mem fun {a b} ha' hb' hab => ?_)
    rwa [hkey a (fun e => hnot (e ▸ ha')), hkey b (fun e => hnot (e ▸ hb'))]
  · funext x
    simp only [deadlineStep, if_neg ht, TmoIndex.deadline, hstep, hmem]
    by_cases hxk : x = k
    · subst hxk; simp [TmoIndex.rbtreeInsert, TmoIndex.key, t']
    · have hx : (t'.rbtreeInsert k).key x = s.tmo.key x := hkey x hxk
      simp only [Function.update_noteq hxk, hx, hxk, false_or]
      rfl

theorem TmoInv.not_mem {k : Nat} (h : TmoInv s) (hd : (s.tmo.rbe k).data = none) : k ∉ s.tmo.rbt :=
  fun hk => by simpa [hd] using (h.linked k (h.live k hk)).2 hk

theorem TmoInv.deleted (h : TmoInv s) (k : Nat) : k ∉ (msgTmoDelete s.tmo k).rbt := by
  unfold msgTmoDelete
  split
  · exact h.not_mem ‹_›
  · exact h.nodup.not_mem_erase

theorem TmoInv.delete (h : TmoInv s) (k : Nat) :
    TmoInv (tmoStep cfg libc s (.delete k)) ∧
      (tmoStep cfg libc s (.delete k)).tmo.deadline = deadlineStep s.tmo.deadline (.delete k) := by
  have hnot : (s.tmo.rbe k).data = none → k ∉ s.tmo.rbt := h.not_mem
  by_cases hd : (s.tmo.rbe k).data = none
  · simp only [tmoStep, msgTmoDelete, if_pos hd, deadlineStep]
    refine ⟨h, funext fun x => ?_⟩
    by_cases hxk : x = k
    · subst hxk; simp [TmoIndex.deadline, hnot hd]
    · rw [Function.update_noteq hxk]
  have hstep : (tmoStep cfg libc s (.delete k)).tmo = s.tmo.rbtreeDelete k := by
    simp only [tmoStep, msgTmoDelete, if_neg hd]
  have hkey : (s.tmo.rbtreeDelete k).key = s.tmo.key := funext fun x => by
    by_cases hxk : x = k
    · subst hxk; simp [TmoIndex.rbtreeDelete, TmoIndex.key]
    · simp [TmoIndex.rbtreeDelete, TmoIndex.key, hxk]
  have hmem : ∀ x, x ≠ k → (x ∈ (s.tmo.rbtreeDelete k).rbt ↔ x ∈ s.tmo.rbt) := fun x hx =>
    List.mem_erase_of_ne hx
  have hout : k ∉ (s.tmo.rbtreeDelete k).rbt := h.nodup.not_mem_erase
  have hsub : ∀ x ∈ (s.tmo.rbtreeDelete k).rbt, x ∈ s.tmo.rbt := fun x hx => List.mem_of_mem_erase hx
  refine ⟨⟨?nodup, ?live, ?request, ?linked, ?sorted⟩, ?_⟩
  case nodup => rw [hstep]; exact h.nodup.erase k
  case live => rw [hstep]; exact fun x hx => h.live x (hsub x hx)
  case request => rw [hstep]; exact fun x hx => h.request x (hsub x hx)
  case linked =>
    intro x hx
    rw [hstep]
    by_cases hxk : x = k
    · subst hxk
      simp only [TmoIndex.rbtreeDelete, Function.update_same, Option.isSome_none, Bool.false_eq_true,
        false_iff]
      exact hout
    · rw [hmem x hxk]
      simpa [TmoIndex.rbtreeDelete, hxk] using h.linked x hx
  case sorted =>
    rw [hstep, hkey]
    exact h.sorted.erase k
  · funext x
    rw [hstep]
    simp only [deadlineStep, TmoIndex.deadline, hkey]
    by_cases hxk : x = k
    · subst hxk; simp [hout]
    · simp only [Function.update_noteq hxk, hmem x hxk]
      rfl

theorem TmoInv.step (h : TmoInv s) {op : TmoOp} (ha : op.Allowed s) :
    TmoInv (tmoStep cfg libc s op) ∧ (tmoStep cfg libc s op).tmo.deadline = deadlineStep s.tmo.deadline op := by
  cases op with
  | pool op => exact h.pool ha
  | insert k conn timeout now => exact h.insert ha
  | delete k => exact h.delete k

theorem TmoInv.run {ops : List TmoOp} (h : TmoInv s) (ha : TmoRunAllowed cfg libc s ops) :
    TmoInv (tmoRun cfg libc s ops) ∧ (tmoRun cfg libc s ops).tmo.deadline = deadlineRun s.tmo.deadline ops := by
  induction ops generalizing s with
  | nil => exact ⟨h, rfl⟩
  | cons op ops ih =>
    obtain ⟨hstep, hdl⟩ := h.step ha.1
    have := ih hstep ha.2
    rw [hdl] at this
    exact this

end Keep

theorem TmoInv.min {s : TmoSys} (h : TmoInv s) :
    (∀ k, msgTmoMin s.tmo = some k →
      ∃ d, s.tmo.deadline k = some d ∧ ∀ k' d', s.tmo.deadline k' = some d' → d ≤ d') ∧
    (msgTmoMin s.tmo = none → ∀ k, s.tmo.deadline k = none) := by
  have hdl : ∀ k d, s.tmo.deadline k = some d → k ∈ s.tmo.rbt ∧ d = s.tmo.key k := fun k d hd => by
    unfold TmoIndex.deadline at hd
    split at hd
    · exact ⟨‹_›, (Option.some.inj hd).symm⟩
    · cases hd
  cases hr : s.tmo.rbt with
  | nil =>
    refine ⟨fun k hk => by simp [msgTmoMin, TmoIndex.rbtreeMin, hr] at hk, fun _ k => ?_⟩
    simp [TmoIndex.deadline, hr]
  | cons k₀ l =>
    have hsorted := h.sorted
    rw [hr] at hsorted
    refine ⟨fun k hk => ?_, fun hk => by simp [msgTmoMin, TmoIndex.rbtreeMin, hr] at hk⟩
    obtain rfl : k₀ = k := by simpa [msgTmoMin, TmoIndex.rbtreeMin, hr] using hk
    refine ⟨s.tmo.key k₀, by simp [TmoIndex.deadline, hr], fun k' d' hd' => ?_⟩
    obtain ⟨hmem, rfl⟩ := hdl k' d' hd'
    rw [hr] at hmem
    rcases List.mem_cons.1 hmem with rfl | hmem
    · exact le_refl _
    · exact List.rel_of_sorted_cons hsorted k' hmem

theorem tmoInit_deadline (rbe : Nat → RbNode) : (tmoInit rbe).tmo.deadline = fun _ => none := by
  funext k
  simp [TmoIndex.deadline, tmoInit]

/-! ## Whole runs -/

/-- From `msg_init`, on every run in which the request path withdraws a request
before putting it back and inserts only live requests that are not `quit`,
expect a reply and are not indexed yet, the timeout index is the spec's ordered map keyed by
deadline: each message's deadline is what the run's inserts with a positive
timeout and its deletes left, whatever pool calls came between, and
`msg_tmo_min` returns a message of least deadline, NULL only when the map is
empty. -/
theorem tmo_run_deadlines (cfg : Config) (libc : LibC) (rbe : Nat → RbNode) (ops : List TmoOp)
    (hops : TmoRunAllowed cfg libc (tmoInit rbe) ops) :
    (tmoRun cfg libc (tmoInit rbe) ops).tmo.deadline = deadlineRun (fun _ => none) ops ∧
    (∀ k, msgTmoMin (tmoRun cfg libc (tmoInit rbe) ops).tmo = some k →
      ∃ d, deadlineRun (fun _ => none) ops k = some d ∧
        ∀ k' d', deadlineRun (fun _ => none) ops k' = some d' → d ≤ d') ∧
    (msgTmoMin (tmoRun cfg libc (tmoInit rbe) ops).tmo = none → ∀ k, deadlineRun (fun _ => none) ops k = none) := by
  obtain ⟨hinv, hdl⟩ := (tmoInv_tmoInit rbe).run hops
  rw [tmoInit_deadline] at hdl
  rw [← hdl]
  exact ⟨rfl, hinv.min⟩

def tmoRequests : List TmoOp :=
  [.pool (.get clientConn true false true), .insert 0 3 100 1000,
   .pool (.get clientConn true false true), .insert 1 3 50 1000, .delete 0]

theorem tmoRequests_allowed : TmoRunAllowed smallConfig ⟨fun _ => "", ""⟩ (tmoInit fun _ => .init) tmoRequests := by
  simp [tmoRequests, TmoRunAllowed, TmoOp.Allowed, tmoStep, tmoInit, Live, poolStep, msgGet, _msgGet,
    msgInit, Core.boot, smallConfig, clientConn, msgInitAt, PoolOp.gotObject, msgTmoInsert,
    TmoIndex.rbtreeInsert, TmoIndex.nodeInit, Msg.fresh]

theorem tmo_run_deadlines_two_requests :
    TmoRunAllowed smallConfig ⟨fun _ => "", ""⟩ (tmoInit fun _ => .init) tmoRequests ∧
    msgTmoMin (tmoRun smallConfig ⟨fun _ => "", ""⟩ (tmoInit fun _ => .init) tmoRequests).tmo = some 1 ∧
    deadlineRun (fun _ => none) tmoRequests 1 = some 1050 ∧ deadlineRun (fun _ => none) tmoRequests 0 = none := by
  have hops := tmoRequests_allowed
  have h := (tmo_run_deadlines smallConfig ⟨fun _ => "", ""⟩ (fun _ => .init) tmoRequests hops).1
  exact ⟨hops, rfl, by rw [← h]; rfl, by rw [← h]; rfl⟩

/-- From `msg_init`, on every such run, the index holds each message at most
once and only live requests that are not `quit` and expect a reply, so `msg_tmo_min` never
returns a freed or reissued object; a live message's node holds its connection
exactly when it is indexed, so `msg_tmo_delete` takes any message out for
good. -/
theorem tmo_run_indexed_requests (cfg : Config) (libc : LibC) (rbe : Nat → RbNode) (ops : List TmoOp)
    (hops : TmoRunAllowed cfg libc (tmoInit rbe) ops) :
    (tmoRun cfg libc (tmoInit rbe) ops).tmo.rbt.Nodup ∧
    (∀ k ∈ (tmoRun cfg libc (tmoInit rbe) ops).tmo.rbt, Live (tmoRun cfg libc (tmoInit rbe) ops).core k ∧
      ((tmoRun cfg libc (tmoInit rbe) ops).core.msgs k).request = true ∧
      ((tmoRun cfg libc (tmoInit rbe) ops).core.msgs k).quit = false ∧
      ((tmoRun cfg libc (tmoInit rbe) ops).core.msgs k).noreply = false) ∧
    (∀ k, Live (tmoRun cfg libc (tmoInit rbe) ops).core k →
      (((tmoRun cfg libc (tmoInit rbe) ops).tmo.rbe k).data.isSome ↔ k ∈ (tmoRun cfg libc (tmoInit rbe) ops).tmo.rbt)) ∧
    (∀ k, k ∉ (msgTmoDelete (tmoRun cfg libc (tmoInit rbe) ops).tmo k).rbt) := by
  obtain ⟨h, -⟩ := (tmoInv_tmoInit rbe).run hops
  exact ⟨h.nodup, fun k hk => ⟨h.live k hk, h.request k hk⟩, h.linked, h.deleted⟩

theorem tmo_run_indexed_requests_two_requests :
    TmoRunAllowed smallConfig ⟨fun _ => "", ""⟩ (tmoInit fun _ => .init) tmoRequests ∧
    (tmoRun smallConfig ⟨fun _ => "", ""⟩ (tmoInit fun _ => .init) tmoRequests).tmo.rbt = [1] ∧
    Live (tmoRun smallConfig ⟨fun _ => "", ""⟩ (tmoInit fun _ => .init) tmoRequests).core 1 := by
  have hops := tmoRequests_allowed
  have h := (tmo_run_indexed_requests smallConfig ⟨fun _ => "", ""⟩ (fun _ => .init) tmoRequests hops).2.1
  exact ⟨hops, rfl, (h 1 (by decide)).1⟩

end Dynomite
