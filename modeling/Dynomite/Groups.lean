import Dynomite.Msg
import Mathlib.Data.List.Sort

/-! # The fragment-group view and creation order

`msg_fragment` cuts a multi-key request into pieces that share a `frag_id`.
What the group laws read of the receive system is a projection, `GroupView`:
which objects are live, each message's id and fragment fields, the `msg_id`
and `frag_id` counters, the current message, and the id and `frag_id` of every
hand-off to `recv_done`.  The engine moves it by a few steps: `msg_get` hands
out a fresh message (`GetStep`), one `msg_parse` hands the current message
over, with or without a fresh successor and the fragment bookkeeping
(`ParseStep`), `recv_next` makes a fresh message current (`NextStep`), and
`msg_put` frees one.

The other connections of the worker share the pool and `msg_id`, so their
`msg_get` calls take ids between two of this connection's messages: creation
order is id order, but only while `msg_id` has not wrapped.  `Order` states
it (no live id above `msg_id`, hand-offs in increasing id order, the current
message newer than all of them), and `Bounded n` carries it along every step
while the hand-offs and `n` further `msg_get` calls fit in 64 bits.  `Keeps`
says that a step loses no message: every live message is current or was
handed over. -/

set_option autoImplicit false

namespace Dynomite

/-! ## The projection -/

@[ext] structure FragFields where
  id : UInt64
  fragId : UInt64
  fragOwner : Option Nat
  firstFragment : Bool
  lastFragment : Bool
  nfrag : UInt32
deriving DecidableEq, Repr

def Msg.frag (m : Msg) : FragFields :=
  ⟨m.id, m.fragId, m.fragOwner, m.firstFragment, m.lastFragment, m.nfrag⟩

@[simp] theorem Msg.frag_id (m : Msg) : m.frag.id = m.id := rfl
@[simp] theorem Msg.frag_fragId (m : Msg) : m.frag.fragId = m.fragId := rfl
@[simp] theorem Msg.frag_fragOwner (m : Msg) : m.frag.fragOwner = m.fragOwner := rfl
@[simp] theorem Msg.frag_firstFragment (m : Msg) : m.frag.firstFragment = m.firstFragment := rfl
@[simp] theorem Msg.frag_lastFragment (m : Msg) : m.frag.lastFragment = m.lastFragment := rfl
@[simp] theorem Msg.frag_nfrag (m : Msg) : m.frag.nfrag = m.nfrag := rfl

def FragFields.fresh (id : UInt64) : FragFields := ⟨id, 0, none, false, false, 0⟩

/-- What the group laws read of the receive system. -/
structure GroupView where
  nmsgs : Nat
  freeMsgq : List Nat
  msgId : UInt64
  fragId : UInt64
  rmsg : Option Nat
  msgs : Nat → FragFields
  /-- The id and `frag_id` of every message handed to `recv_done`, in order. -/
  handoffs : List (UInt64 × UInt64)

namespace GroupView

section Notions

variable (v : GroupView)

def Live (k : Nat) : Prop := k < v.nmsgs ∧ k ∉ v.freeMsgq

instance (k : Nat) : Decidable (v.Live k) := inferInstanceAs (Decidable (_ ∧ _))

def liveSet (p : Nat → Prop) [DecidablePred p] : Finset Nat :=
  (Finset.range v.nmsgs).filter fun k => v.Live k ∧ p k

def groupSize (g : UInt64) : Nat := (v.liveSet fun k => (v.msgs k).fragId = g).card

def ownerCount : Nat := (v.liveSet fun k => (v.msgs k).firstFragment = true).card

def Member (g : UInt64) (k : Nat) : Prop := v.Live k ∧ (v.msgs k).fragId = g

/-- No member of the group of `k` is newer than `k`. -/
def Top (k : Nat) : Prop := ∀ k', v.Member (v.msgs k).fragId k' → (v.msgs k').id ≤ (v.msgs k).id

def Owner (o : Nat) : Prop :=
  v.Live o ∧ (v.msgs o).fragOwner = some o ∧ (v.msgs o).firstFragment = true

def handOffIds : List UInt64 := v.handoffs.map Prod.fst

/-- `k` is the current message, or a message with its id was handed to
`recv_done`: the engine has not lost it. -/
def Accounted (k : Nat) : Prop := v.rmsg = some k ∨ (v.msgs k).id ∈ v.handOffIds

/-- The ids of the messages of group `g` handed to `recv_done`, in order. -/
def handedIds (g : UInt64) : List UInt64 :=
  v.handoffs.filterMap fun p => if p.2 = g then some p.1 else none

end Notions

/-! ## The steps -/

section Steps

variable (v : GroupView)

def setFrag (k : Nat) (f : FragFields) : GroupView := { v with msgs := Function.update v.msgs k f }

/-- The first split of a message in no group opens one with the next
`frag_id`, the message as its owner and only member. -/
def openGroup (i : Nat) : GroupView :=
  if (v.msgs i).fragId = 0 then
    let v := { v with fragId := v.fragId + 1 }
    v.setFrag i { v.msgs i with
      fragId := v.fragId, firstFragment := true, nfrag := 1, fragOwner := some i }
  else v

/-- `msg_fragment`'s bookkeeping: `j` joins the group of `i` as its last
fragment and the owner counts it. -/
def linkFragment (i j : Nat) : GroupView :=
  let v := v.openGroup i
  let v := v.setFrag j { v.msgs j with fragId := (v.msgs i).fragId }
  let v := v.setFrag i { v.msgs i with lastFragment := false }
  let v := v.setFrag j { v.msgs j with lastFragment := true, fragOwner := (v.msgs i).fragOwner }
  match (v.msgs i).fragOwner with
  | some o => v.setFrag o { v.msgs o with nfrag := (v.msgs o).nfrag + 1 }
  | none => v

def handOff (i : Nat) (next : Option Nat) : GroupView :=
  { v with rmsg := next, handoffs := v.handoffs ++ [((v.msgs i).id, (v.msgs i).fragId)] }

def put (k : Nat) : GroupView := { v with freeMsgq := k :: v.freeMsgq }

end Steps

/-- `msg_get` handed out `j`: an object that was not live, now live with the
fields of a fresh message and the next id. -/
structure GetStep (v v' : GroupView) (j : Nat) : Prop where
  dead : ¬ v.Live j
  live : v'.Live j
  others : ∀ k, k ≠ j → (v'.Live k ↔ v.Live k)
  small : v'.nmsgs < 2 ^ 32
  msgs : v'.msgs = Function.update v.msgs j (FragFields.fresh (v.msgId + 1))
  msgId : v'.msgId = v.msgId + 1
  fragId : v'.fragId = v.fragId
  rmsg : v'.rmsg = v.rmsg
  handoffs : v'.handoffs = v.handoffs

/-- One `msg_parse` on the view: `recv_done` with no successor, or a `msg_get`
followed by `recv_done` to the new message, bare in `msg_parsed` and with the
fragment bookkeeping in `msg_fragment`. -/
inductive ParseStep : GroupView → GroupView → Prop
  | handOffNone {v : GroupView} {i : Nat} (hi : v.rmsg = some i) : ParseStep v (v.handOff i none)
  | parsed {v v' : GroupView} {i j : Nat} (hi : v.rmsg = some i) (hlive : v.Live i)
      (hs : GetStep v v' j) : ParseStep v (v'.handOff i (some j))
  | fragment {v v' : GroupView} {i j : Nat} (hi : v.rmsg = some i) (hlive : v.Live i)
      (hs : GetStep v v' j) : ParseStep v ((v'.linkFragment i j).handOff i (some j))

/-- `recv_next` with `alloc` set: nothing, or a fresh message made current. -/
inductive NextStep : GroupView → GroupView → Prop
  | stay (v : GroupView) : NextStep v v
  | next {v v' : GroupView} {j : Nat} (hnone : v.rmsg = none) (hs : GetStep v v' j) :
      NextStep v { v' with rmsg := some j }

/-- Another connection's pool call: nothing, a `msg_get`, a `msg_get_error`
that frees its message at once, or a `msg_put` of a message in no group other
than the current one. -/
inductive OtherStep : GroupView → GroupView → Prop
  | stay (v : GroupView) : OtherStep v v
  | get {v v' : GroupView} {j : Nat} (hs : GetStep v v' j) : OtherStep v v'
  | getPut {v v' : GroupView} {j : Nat} (hs : GetStep v v' j) (hcur : v.rmsg ≠ some j) :
      OtherStep v (v'.put j)
  | put {v : GroupView} {k : Nat} (hk : v.Live k) (hcur : v.rmsg ≠ some k) (h0 : (v.msgs k).fragId = 0) :
      OtherStep v (v.put k)

/-! ## Counting live objects -/

section Count

variable {v v' : GroupView}

theorem mem_liveSet {p : Nat → Prop} [DecidablePred p] {k : Nat} :
    k ∈ v.liveSet p ↔ v.Live k ∧ p k := by
  simp only [liveSet, Finset.mem_filter, Finset.mem_range]
  exact ⟨fun h => h.2, fun h => ⟨h.1.1, h⟩⟩

theorem liveSet_card_le (p : Nat → Prop) [DecidablePred p] : (v.liveSet p).card ≤ v.nmsgs :=
  (Finset.card_filter_le _ _).trans (Finset.card_range _).le

theorem liveSet_congr {p p' : Nat → Prop} [DecidablePred p] [DecidablePred p']
    (h : ∀ k, v'.Live k ∧ p' k ↔ v.Live k ∧ p k) : v'.liveSet p' = v.liveSet p :=
  Finset.ext fun k => by rw [mem_liveSet, mem_liveSet, h]

theorem liveSet_insert {p p' : Nat → Prop} [DecidablePred p] [DecidablePred p'] {j : Nat}
    (h : ∀ k, v'.Live k ∧ p' k ↔ (v.Live k ∧ p k) ∨ k = j) (hj : ¬ (v.Live j ∧ p j)) :
    (v'.liveSet p').card = (v.liveSet p).card + 1 := by
  have hset : v'.liveSet p' = insert j (v.liveSet p) :=
    Finset.ext fun k => by rw [mem_liveSet, h, Finset.mem_insert, mem_liveSet, or_comm]
  rw [hset, Finset.card_insert_of_not_mem (by rwa [mem_liveSet])]

end Count

/-! ## A fresh message -/

section Fresh

variable {v v' : GroupView} {j : Nat} (hs : GetStep v v' j)
include hs

theorem GetStep.msgs_self : v'.msgs j = FragFields.fresh (v.msgId + 1) := by
  rw [hs.msgs, Function.update_same]

theorem GetStep.msgs_ne {k : Nat} (hk : k ≠ j) : v'.msgs k = v.msgs k := by
  rw [hs.msgs, Function.update_noteq hk]

theorem GetStep.ne_of_live {k : Nat} (hk : v.Live k) : k ≠ j := fun e => hs.dead (e ▸ hk)

theorem GetStep.handOffIds : v'.handOffIds = v.handOffIds := by
  rw [GroupView.handOffIds, hs.handoffs]; rfl

theorem GetStep.id_self : (v'.msgs j).id = v'.msgId := by
  rw [hs.msgs_self, hs.msgId]
  rfl

theorem GetStep.lt_msgId (hroom : v.msgId.toNat + 1 < 2 ^ 64) {x : UInt64} (hx : x ≤ v.msgId) :
    x < v'.msgId := by
  rw [hs.msgId, u64_lt_iff, u64_toNat_succ _ hroom]
  rw [u64_le_iff] at hx
  omega

theorem GetStep.le_msgId (hroom : v.msgId.toNat + 1 < 2 ^ 64) {x : UInt64} (hx : x ≤ v.msgId) :
    x ≤ v'.msgId :=
  u64_le_of_lt (hs.lt_msgId hroom hx)

theorem GetStep.owner_iff (o : Nat) : v'.Owner o ↔ v.Owner o := by
  by_cases ho : o = j
  · subst ho
    exact ⟨fun h' => by simp [Owner, hs.msgs_self, FragFields.fresh] at h', fun h' => absurd h'.1 hs.dead⟩
  · simp only [Owner, hs.msgs_ne ho, hs.others o ho]

theorem GetStep.member_iff {g : UInt64} (hg : g ≠ 0) (k : Nat) : v'.Member g k ↔ v.Member g k := by
  by_cases hk : k = j
  · subst hk
    simp only [Member, hs.msgs_self, FragFields.fresh]
    exact ⟨fun h => absurd h.2.symm hg, fun h => absurd h.1 hs.dead⟩
  · simp only [Member, hs.msgs_ne hk, hs.others k hk]

theorem GetStep.top_iff {k : Nat} (hk : k ≠ j) (h0 : (v.msgs k).fragId ≠ 0) : v'.Top k ↔ v.Top k := by
  unfold Top
  rw [hs.msgs_ne hk]
  refine forall_congr' fun k' => ?_
  rw [hs.member_iff h0]
  exact imp_congr_right fun hk' => by rw [hs.msgs_ne (hs.ne_of_live hk'.1)]

theorem GetStep.liveSet_eq (q : FragFields → Prop) [DecidablePred q]
    (hq : ¬ q (FragFields.fresh (v.msgId + 1))) :
    (v'.liveSet fun k => q (v'.msgs k)) = v.liveSet fun k => q (v.msgs k) :=
  liveSet_congr fun k => by
    by_cases hk : k = j
    · subst hk; simp [hs.msgs_self, hq, hs.dead]
    · rw [hs.others k hk, hs.msgs_ne hk]

end Fresh

/-! ## What each step writes -/

section Writes

variable (v : GroupView) {i j k : Nat}

@[simp] theorem setFrag_msgs (x : Nat) (f : FragFields) (y : Nat) :
    (v.setFrag x f).msgs y = if y = x then f else v.msgs y := Function.update_apply _ _ _ _
@[simp] theorem setFrag_live (x : Nat) (f : FragFields) (y : Nat) : (v.setFrag x f).Live y ↔ v.Live y :=
  Iff.rfl
@[simp] theorem setFrag_msgId (x : Nat) (f : FragFields) : (v.setFrag x f).msgId = v.msgId := rfl
@[simp] theorem setFrag_handoffs (x : Nat) (f : FragFields) : (v.setFrag x f).handoffs = v.handoffs := rfl
@[simp] theorem setFrag_rmsg (x : Nat) (f : FragFields) : (v.setFrag x f).rmsg = v.rmsg := rfl

theorem setFrag_field {x : Nat} {f : FragFields} {α : Type} (φ : FragFields → α) (hf : φ f = φ (v.msgs x))
    (y : Nat) : φ ((v.setFrag x f).msgs y) = φ (v.msgs y) := by
  rw [setFrag_msgs]
  split
  · subst y
    exact hf
  · rfl

theorem setFrag_ne {x : Nat} (f : FragFields) {y : Nat} (hy : y ≠ x) : (v.setFrag x f).msgs y = v.msgs y :=
  by rw [setFrag_msgs, if_neg hy]

@[simp] theorem handOff_live (next : Option Nat) (x : Nat) : (v.handOff i next).Live x ↔ v.Live x := Iff.rfl
@[simp] theorem handOff_msgs (next : Option Nat) : (v.handOff i next).msgs = v.msgs := rfl
@[simp] theorem handOff_rmsg (next : Option Nat) : (v.handOff i next).rmsg = next := rfl
@[simp] theorem handOff_msgId (next : Option Nat) : (v.handOff i next).msgId = v.msgId := rfl

@[simp] theorem handOffIds_handOff (next : Option Nat) :
    (v.handOff i next).handOffIds = v.handOffIds ++ [(v.msgs i).id] := by
  simp [handOff, handOffIds]

theorem handedIds_handOff (next : Option Nat) (g : UInt64) :
    (v.handOff i next).handedIds g = v.handedIds g ++ if (v.msgs i).fragId = g then [(v.msgs i).id] else [] := by
  unfold handedIds handOff
  rw [List.filterMap_append]
  split <;> simp_all

theorem live_put (x : Nat) : (v.put k).Live x ↔ v.Live x ∧ x ≠ k := by
  simp only [Live, put, List.mem_cons, not_or]
  tauto

@[simp] theorem put_msgs : (v.put k).msgs = v.msgs := rfl
@[simp] theorem put_rmsg : (v.put k).rmsg = v.rmsg := rfl
@[simp] theorem put_msgId : (v.put k).msgId = v.msgId := rfl
@[simp] theorem put_handOffIds : (v.put k).handOffIds = v.handOffIds := rfl

theorem openGroup_msgs_ne (hk : k ≠ i) : (v.openGroup i).msgs k = v.msgs k := by
  unfold openGroup
  split
  · exact setFrag_ne _ _ hk
  · rfl

theorem openGroup_id (k : Nat) : ((v.openGroup i).msgs k).id = (v.msgs k).id := by
  unfold openGroup
  split
  · exact setFrag_field _ FragFields.id (by rfl) k
  · rfl

theorem linkFragment_eta (i j : Nat) :
    v.linkFragment i j = { v with msgs := (v.linkFragment i j).msgs, fragId := (v.linkFragment i j).fragId } := by
  unfold linkFragment openGroup
  dsimp only
  split_ifs <;> split <;> rfl

@[simp] theorem linkFragment_live (x : Nat) : (v.linkFragment i j).Live x ↔ v.Live x := by
  rw [linkFragment_eta]
  rfl

@[simp] theorem linkFragment_rmsg : (v.linkFragment i j).rmsg = v.rmsg :=
  (congrArg GroupView.rmsg (linkFragment_eta v i j) :)

@[simp] theorem linkFragment_msgId : (v.linkFragment i j).msgId = v.msgId :=
  (congrArg GroupView.msgId (linkFragment_eta v i j) :)

@[simp] theorem linkFragment_handoffs : (v.linkFragment i j).handoffs = v.handoffs :=
  (congrArg GroupView.handoffs (linkFragment_eta v i j) :)

@[simp] theorem linkFragment_handOffIds : (v.linkFragment i j).handOffIds = v.handOffIds := by
  rw [handOffIds, linkFragment_handoffs]
  rfl

theorem linkFragment_id (k : Nat) : ((v.linkFragment i j).msgs k).id = (v.msgs k).id := by
  unfold linkFragment
  dsimp only
  split
  all_goals
    repeat refine (setFrag_field _ FragFields.id (by rfl) k).trans ?_
    exact openGroup_id v k

theorem linkFragment_fragId (hki : k ≠ i) (hkj : k ≠ j) :
    ((v.linkFragment i j).msgs k).fragId = (v.msgs k).fragId := by
  unfold linkFragment
  dsimp only
  split
  on_goal 1 => refine (setFrag_field _ FragFields.fragId (by rfl) k).trans ?_
  all_goals
    rw [setFrag_ne _ _ hkj]
    refine (setFrag_field _ FragFields.fragId (by rfl) k).trans ?_
    rw [setFrag_ne _ _ hkj, openGroup_msgs_ne _ hki]

end Writes

/-! ## No lost message -/

section Accounted

variable {v v' w : GroupView} {i j k : Nat}

theorem Accounted.get (hs : GetStep v v' j) (hk : v.Accounted k) (hkj : k ≠ j) : v'.Accounted k := by
  unfold Accounted at hk ⊢
  rw [hs.rmsg, hs.msgs_ne hkj, hs.handOffIds]
  exact hk

theorem Accounted.handOff (hk : v.Accounted k) (hi : v.rmsg = some i) (next : Option Nat) :
    (v.handOff i next).Accounted k := by
  right
  rw [handOffIds_handOff, List.mem_append, List.mem_singleton]
  rcases hk with e | hk
  · rw [hi] at e
    cases e
    exact Or.inr rfl
  · exact Or.inl hk

theorem Accounted.linkFragment (hk : v.Accounted k) : (v.linkFragment i j).Accounted k := by
  unfold Accounted
  rwa [linkFragment_rmsg, linkFragment_id, linkFragment_handOffIds]

/-- Going from `v` to `w` loses no message: a message live in `w` is accounted
for there if it was accounted for in `v` or was not live in `v`. -/
def Keeps (v w : GroupView) : Prop := ∀ k, w.Live k → (v.Live k → v.Accounted k) → w.Accounted k

theorem Keeps.refl (v : GroupView) : Keeps v v := fun _ hk h => h hk

theorem Keeps.trans (h₁ : Keeps v v') (h₂ : Keeps v' w) : Keeps v w :=
  fun k hk h => h₂ k hk fun hk' => h₁ k hk' h

theorem Keeps.fresh (hs : GetStep v v' j) (hw : w.rmsg = some j) (hlive : ∀ x, w.Live x → v'.Live x)
    (hacc : ∀ x, v'.Accounted x → w.Accounted x) : Keeps v w := fun x hx h => by
  by_cases hxj : x = j
  · exact Or.inl (hxj ▸ hw)
  · exact hacc x ((h ((hs.others x hxj).1 (hlive x hx))).get hs hxj)

theorem ParseStep.keeps (hs : ParseStep v w) : Keeps v w := by
  cases hs with
  | handOffNone hi => exact fun k _ h => (h ‹_›).handOff hi none
  | parsed hi _ hs => exact .fresh hs rfl (fun _ => id) fun x hx => hx.handOff (hs.rmsg.trans hi) _
  | fragment hi _ hs =>
    exact .fresh hs rfl (fun _ hx => (linkFragment_live _ _).1 hx)
      fun x hx => hx.linkFragment.handOff (by rw [linkFragment_rmsg, hs.rmsg, hi]) _

theorem ParseStep.keeps_steps (hs : Relation.ReflTransGen ParseStep v w) : Keeps v w := by
  induction hs with
  | refl => exact .refl _
  | tail _ hs ih => exact ih.trans hs.keeps

theorem NextStep.keeps (hs : NextStep v w) : Keeps v w := by
  cases hs with
  | stay => exact .refl v
  | next hnone hs =>
    exact .fresh hs rfl (fun _ => id) fun x hx => hx.elim (fun e => by rw [hs.rmsg, hnone] at e; cases e) .inr

end Accounted

/-! ## Creation order -/

/-- Creation order, read off the ids: no live message is newer than `msg_id`,
the hand-offs are in increasing id order and none is newer than `msg_id`, and
the current message is live and newer than every message handed over. -/
structure Order (v : GroupView) : Prop where
  created : ∀ k, v.Live k → (v.msgs k).id ≤ v.msgId
  current : ∀ i, v.rmsg = some i → v.Live i ∧ ∀ x ∈ v.handOffIds, x < (v.msgs i).id
  sorted : v.handOffIds.Sorted (· < ·)
  handedLe : ∀ x ∈ v.handOffIds, x ≤ v.msgId

section Order

variable {v v' w : GroupView} {i j k : Nat}

theorem Order.get (h : Order v) (hs : GetStep v v' j) (hroom : v.msgId.toNat + 1 < 2 ^ 64) : Order v' := by
  refine ⟨fun k hk => ?_, fun i hi => ?_, hs.handOffIds ▸ h.sorted,
    fun x hx => hs.le_msgId hroom (h.handedLe x (hs.handOffIds ▸ hx))⟩
  · by_cases hkj : k = j
    · rw [hkj, hs.id_self]
      exact u64_le_refl _
    · rw [hs.msgs_ne hkj]
      exact hs.le_msgId hroom (h.created k ((hs.others k hkj).1 hk))
  · rw [hs.rmsg] at hi
    obtain ⟨hlive, hlt⟩ := h.current i hi
    have hij := hs.ne_of_live hlive
    rw [hs.handOffIds, hs.msgs_ne hij]
    exact ⟨(hs.others i hij).2 hlive, hlt⟩

theorem Order.handOff (h : Order v) (hi : v.rmsg = some i) (next : Option Nat)
    (hnext : ∀ j, next = some j → v.Live j ∧ ∀ x ∈ v.handOffIds ++ [(v.msgs i).id], x < (v.msgs j).id) :
    Order (v.handOff i next) := by
  obtain ⟨hlive, hlt⟩ := h.current i hi
  refine ⟨h.created, fun j hj => by rw [handOffIds_handOff]; exact hnext j hj, ?_, fun x hx => ?_⟩
  · rw [handOffIds_handOff]
    exact List.pairwise_append.2 ⟨h.sorted, List.sorted_singleton _,
      fun x hx y hy => (List.mem_singleton.1 hy) ▸ hlt x hx⟩
  · rw [handOffIds_handOff, List.mem_append, List.mem_singleton] at hx
    rcases hx with hx | rfl
    · exact h.handedLe x hx
    · exact h.created i hlive

theorem Order.linkFragment (h : Order v) : Order (v.linkFragment i j) := by
  refine ⟨fun k hk => ?_, fun i' hi' => ?_, ?_, ?_⟩
  · rw [linkFragment_id, linkFragment_msgId]
    exact h.created k ((linkFragment_live _ _).1 hk)
  · rw [linkFragment_rmsg] at hi'
    rw [linkFragment_handOffIds, linkFragment_id, linkFragment_live]
    exact h.current i' hi'
  · rw [linkFragment_handOffIds]
    exact h.sorted
  · rw [linkFragment_handOffIds, linkFragment_msgId]
    exact h.handedLe

theorem Order.fresh_newer (h : Order v) (hi : v.rmsg = some i) (hs : GetStep v v' j)
    (hroom : v.msgId.toNat + 1 < 2 ^ 64) : ∀ x ∈ v'.handOffIds ++ [(v'.msgs i).id], x < (v'.msgs j).id := by
  have hij := hs.ne_of_live (h.current i hi).1
  intro x hx
  rw [hs.id_self]
  rw [hs.handOffIds, hs.msgs_ne hij, List.mem_append, List.mem_singleton] at hx
  rcases hx with hx | rfl
  · exact hs.lt_msgId hroom (h.handedLe x hx)
  · exact hs.lt_msgId hroom (h.created i (h.current i hi).1)

theorem Order.parseStep (h : Order v) (hs : ParseStep v w) (hroom : v.msgId.toNat + 1 < 2 ^ 64) :
    Order w := by
  cases hs with
  | handOffNone hi => exact h.handOff hi none nofun
  | parsed hi _ hs =>
    exact (h.get hs hroom).handOff (hs.rmsg.trans hi) _ fun _ e => by
      cases e
      exact ⟨hs.live, h.fresh_newer hi hs hroom⟩
  | fragment hi _ hs =>
    refine (h.get hs hroom).linkFragment.handOff (by rw [linkFragment_rmsg, hs.rmsg, hi]) _ fun _ e => ?_
    cases e
    rw [linkFragment_live, linkFragment_handOffIds, linkFragment_id, linkFragment_id]
    exact ⟨hs.live, h.fresh_newer hi hs hroom⟩

theorem Order.nextStep (h : Order v) (hs : NextStep v w) (hroom : v.msgId.toNat + 1 < 2 ^ 64) : Order w := by
  cases hs with
  | stay => exact h
  | next hnone hs =>
    have h' := h.get hs hroom
    refine ⟨h'.created, fun i e => ?_, h'.sorted, h'.handedLe⟩
    cases e
    refine ⟨hs.live, fun x hx => ?_⟩
    rw [hs.id_self]
    exact hs.lt_msgId hroom (h.handedLe x (hs.handOffIds ▸ hx))

theorem Order.put (h : Order v) (hcur : v.rmsg ≠ some k) : Order (v.put k) :=
  ⟨fun x hx => h.created x ((live_put v x).1 hx).1,
    fun i hi => ⟨(live_put v i).2 ⟨(h.current i hi).1, fun e => hcur (e ▸ hi)⟩, (h.current i hi).2⟩,
    h.sorted, h.handedLe⟩

end Order

/-! ## Room in `msg_id` -/

/-- `msg_id` is at most `n` past the number of hand-offs, and while that count
fits in 64 bits the ids keep creation order. -/
structure Bounded (n : Nat) (v : GroupView) : Prop where
  budget : v.msgId.toNat ≤ v.handoffs.length + n
  order : v.handoffs.length + n < 2 ^ 64 → v.Order

section Bounded

variable {v v' w : GroupView} {n m : Nat} {j k : Nat}

theorem Bounded.mono (h : Bounded n v) (hnm : n ≤ m) : Bounded m v :=
  ⟨by have := h.budget; omega, fun hroom => h.order (by omega)⟩

theorem ParseStep.counts (hs : ParseStep v w) :
    w.handoffs.length = v.handoffs.length + 1 ∧ w.msgId.toNat ≤ v.msgId.toNat + 1 := by
  cases hs with
  | handOffNone => simp [handOff]
  | parsed _ _ hs => simpa [handOff, hs.handoffs, hs.msgId] using u64_toNat_succ_le v.msgId
  | fragment _ _ hs => simpa [handOff, hs.handoffs, hs.msgId] using u64_toNat_succ_le v.msgId

theorem Bounded.parseStep (h : Bounded n v) (hs : ParseStep v w) : Bounded n w := by
  obtain ⟨hlen, hid⟩ := hs.counts
  have := h.budget
  exact ⟨by omega, fun hroom => (h.order (by omega)).parseStep hs (by omega)⟩

theorem Bounded.parseSteps (h : Bounded n v) (hs : Relation.ReflTransGen ParseStep v w) : Bounded n w := by
  induction hs with
  | refl => exact h
  | tail _ hs ih => exact ih.parseStep hs

theorem Bounded.get (h : Bounded n v) (hs : GetStep v v' j) : Bounded (n + 1) v' := by
  have := h.budget
  have := u64_toNat_succ_le v.msgId
  refine ⟨by rw [hs.msgId, hs.handoffs]; omega, fun hroom => ?_⟩
  rw [hs.handoffs] at hroom
  exact (h.order (by omega)).get hs (by omega)

theorem Bounded.nextStep (h : Bounded n v) (hs : NextStep v w) : Bounded (n + 1) w := by
  cases hs with
  | stay => exact h.mono (Nat.le_succ n)
  | next hnone hs =>
    have := h.budget
    refine ⟨(h.get hs).budget, fun hroom => ?_⟩
    exact (h.order (by rw [hs.handoffs] at hroom; omega)).nextStep (.next hnone hs) (by
      rw [hs.handoffs] at hroom; omega)

theorem NextStep.handoffs (hs : NextStep v w) : w.handoffs = v.handoffs := by
  cases hs with
  | stay => rfl
  | next _ hs => exact hs.handoffs

theorem Bounded.put (h : Bounded n v) (hcur : v.rmsg ≠ some k) : Bounded n (v.put k) :=
  ⟨h.budget, fun hroom => (h.order hroom).put hcur⟩

theorem Bounded.otherStep (h : Bounded n v) (hs : OtherStep v w) : Bounded (n + 1) w := by
  cases hs with
  | stay => exact h.mono (Nat.le_succ n)
  | get hs => exact h.get hs
  | getPut hs hcur => exact (h.get hs).put (by rw [hs.rmsg]; exact hcur)
  | put _ hcur => exact (h.put hcur).mono (Nat.le_succ n)

theorem Order.empty (hn : v.nmsgs = 0) (hh : v.handoffs = []) (hr : v.rmsg = none) : Order v :=
  ⟨fun k hk => absurd hk.1 (by omega), fun i hi => absurd (hr ▸ hi) nofun,
    by simp [handOffIds, hh], by simp [handOffIds, hh]⟩

theorem Bounded.empty (hn : v.nmsgs = 0) (hm : v.msgId = 0) (hh : v.handoffs = []) (hr : v.rmsg = none) :
    Bounded 0 v :=
  ⟨by rw [hm]; exact Nat.zero_le _, fun _ => Order.empty hn hh hr⟩

end Bounded

end GroupView

end Dynomite
