import Dynomite.Groups

/-! # The fragment-group laws

The first piece of a group owns it (`frag_owner` is itself, `first_fragment`
is set, `nfrag` counts the pieces), every later piece points to it, and the
newest piece carries `last_fragment`.  `Groups` states these laws of every
group of a view together with the bookkeeping that keeps them: a group's
members other than the current message are exactly the ones handed to
`recv_done`.  The engine's steps keep it (`Groups.parseStep`,
`Groups.nextStep`), and so do the other connections' `msg_get` calls and a
`msg_put` of a message in no group (`Groups.get`, `Groups.put`): only
`msg_fragment` (`Split.link`) needs creation order, to know that the message
`msg_get` just made is newer than every member of the group it joins.

`FragGroup` is the law of one group as the spec states it, with "created
first" and "created last" read as the smallest and the largest id; it follows
from `Groups` and `Order` (`Groups.fragGroups`).  `Lawful n` carries both along
every step while `msg_id` has room. -/

set_option autoImplicit false

namespace Dynomite

namespace GroupView

/-! ## The invariant -/

/-- The group laws, with the bookkeeping that keeps them: every live message
with `frag_id ≠ 0` points to the owner of its group, which is its oldest
member, and has `last_fragment` exactly when it is the newest; ids are unique
within a group, a group's size is its owner's `nfrag`, and the members handed
over are the ones other than the current message.  Every `frag_id` in use,
handed over or not, is at most the counter, which counts the owners. -/
structure Groups (v : GroupView) : Prop where
  small : v.nmsgs < 2 ^ 32
  plain : ∀ k, v.Live k → (v.msgs k).fragId = 0 →
    (v.msgs k).fragOwner = none ∧ (v.msgs k).firstFragment = false ∧ (v.msgs k).lastFragment = false
  below : ∀ k, v.Live k → (v.msgs k).fragId.toNat ≤ v.fragId.toNat
  logged : ∀ p ∈ v.handoffs, p.2.toNat ≤ v.fragId.toNat
  counter : v.fragId.toNat = v.ownerCount
  grouped : ∀ k, v.Live k → (v.msgs k).fragId ≠ 0 → ∃ o, (v.msgs k).fragOwner = some o ∧ v.Owner o ∧
    (v.msgs o).fragId = (v.msgs k).fragId ∧ ((v.msgs k).firstFragment = true ↔ k = o) ∧
    (v.msgs o).id ≤ (v.msgs k).id ∧ ((v.msgs k).lastFragment = true ↔ v.Top k)
  owners : ∀ o₁ o₂, v.Owner o₁ → v.Owner o₂ → (v.msgs o₁).fragId = (v.msgs o₂).fragId → o₁ = o₂
  unique : ∀ k₁ k₂, v.Live k₁ → v.Live k₂ → (v.msgs k₁).fragId = (v.msgs k₂).fragId →
    (v.msgs k₁).fragId ≠ 0 → (v.msgs k₁).id = (v.msgs k₂).id → k₁ = k₂
  size : ∀ o, v.Owner o → v.groupSize (v.msgs o).fragId = (v.msgs o).nfrag.toNat
  hasLast : ∀ o, v.Owner o → ∃ k, v.Member (v.msgs o).fragId k ∧ (v.msgs k).lastFragment = true
  handed : ∀ o, v.Owner o → ∀ x, x ∈ v.handedIds (v.msgs o).fragId ↔
    ∃ k, v.Member (v.msgs o).fragId k ∧ v.rmsg ≠ some k ∧ (v.msgs k).id = x
  lastCurrent : ∀ i, v.rmsg = some i → (v.msgs i).fragId ≠ 0 → (v.msgs i).lastFragment = true

/-- The view inside `msg_fragment` once `msg_get` handed out `j`: the laws
hold, `i` is still current, and `j` is the fresh message, newer than every
other live message. -/
structure Split (v : GroupView) (i j : Nat) extends Groups v : Prop where
  rmsg : v.rmsg = some i
  liveI : v.Live i
  liveJ : v.Live j
  ne : j ≠ i
  freshJ : v.msgs j = FragFields.fresh v.msgId
  older : ∀ k, v.Live k → k ≠ j → (v.msgs k).id < v.msgId

/-! ## What the laws give -/

section Facts

variable {v : GroupView} (h : Groups v)
include h

theorem Groups.owner_fragId {o : Nat} (ho : v.Owner o) : (v.msgs o).fragId ≠ 0 := fun h0 => by
  have := (h.plain o ho.1 h0).1
  rw [ho.2.1] at this
  cases this

theorem Groups.member {k o : Nat} (hk : v.Live k) (ho : v.Owner o)
    (hg : (v.msgs k).fragId = (v.msgs o).fragId) :
    (v.msgs k).fragOwner = some o ∧ ((v.msgs k).firstFragment = true ↔ k = o) ∧
      (v.msgs o).id ≤ (v.msgs k).id ∧ ((v.msgs k).lastFragment = true ↔ v.Top k) := by
  obtain ⟨o', hown, ho', hg', hfirst, hid, hlast⟩ := h.grouped k hk (hg ▸ h.owner_fragId ho)
  obtain rfl := h.owners o' o ho' ho (hg'.trans hg)
  exact ⟨hown, hfirst, hid, hlast⟩

theorem Groups.top_unique {k₁ k₂ : Nat} (hk₁ : v.Live k₁) (hk₂ : v.Live k₂)
    (hg : (v.msgs k₁).fragId = (v.msgs k₂).fragId) (h0 : (v.msgs k₁).fragId ≠ 0) (ht₁ : v.Top k₁)
    (ht₂ : v.Top k₂) : k₁ = k₂ :=
  h.unique k₁ k₂ hk₁ hk₂ hg h0 (u64_le_antisymm (ht₂ k₁ ⟨hk₁, hg⟩) (ht₁ k₂ ⟨hk₂, hg.symm⟩))

theorem Groups.counter_lt : v.fragId.toNat < 2 ^ 32 := by
  have := @liveSet_card_le v (fun k => (v.msgs k).firstFragment = true) _
  have := h.small
  rw [h.counter]
  unfold ownerCount
  omega

theorem Groups.next_toNat : (v.fragId + 1).toNat = v.fragId.toNat + 1 :=
  u64_toNat_succ _ (by have := h.counter_lt; omega)

theorem Groups.next_ne_zero : v.fragId + 1 ≠ 0 := fun e => by
  have := h.next_toNat
  rw [e] at this
  simp at this

theorem Groups.fragId_ne_next {k : Nat} (hk : v.Live k) : (v.msgs k).fragId ≠ v.fragId + 1 := fun e => by
  have := h.below k hk
  rw [e, h.next_toNat] at this
  omega

theorem Groups.handedIds_next : v.handedIds (v.fragId + 1) = [] := by
  refine List.filterMap_eq_nil_iff.2 fun p hp => if_neg fun e => ?_
  have := h.logged p hp
  rw [e, h.next_toNat] at this
  omega

theorem Groups.ne_of_plain {x k : Nat} (hx : v.Owner x) (hk : v.Live k) (h0 : (v.msgs k).fragId = 0) :
    x ≠ k := fun e => by
  have := hx.2.1
  rw [e, (h.plain k hk h0).1] at this
  cases this

end Facts

/-! ## The laws as the spec states them -/

section Laws

variable {v : GroupView} (h : Groups v) (hord : Order v)
include h hord

end Laws

/-! ## A fresh message, a hand-off, a free -/

section Keep

variable {v v' : GroupView} {i j k : Nat}

theorem Groups.get (h : Groups v) (hs : GetStep v v' j) (hcur : v.rmsg ≠ some j) : Groups v' := by
  have hfresh := hs.msgs_self
  have hlive : ∀ k, v'.Live k → k ≠ j → v.Live k := fun k hk hkj => (hs.others k hkj).1 hk
  have hgrouped : ∀ k, (v'.msgs k).fragId ≠ 0 → k ≠ j := fun k h0 e => by
    subst e; simp [hfresh, FragFields.fresh] at h0
  have howner : ∀ o, v'.Owner o → v.Owner o ∧ o ≠ j := fun o ho =>
    have ho' := (hs.owner_iff o).1 ho
    ⟨ho', hs.ne_of_live ho'.1⟩
  have hmember : ∀ o, v.Owner o → ∀ k, v'.Member (v.msgs o).fragId k ↔ v.Member (v.msgs o).fragId k :=
    fun o ho => hs.member_iff (h.owner_fragId ho)
  refine ⟨hs.small, fun k hk h0 => ?plain, fun k hk => ?below, ?logged, ?counter, fun k hk h0 => ?grouped,
    ?owners, ?unique, ?size, ?hasLast, ?handed, ?lastCurrent⟩
  case plain =>
    by_cases hkj : k = j
    · subst hkj; simp [hfresh, FragFields.fresh]
    · rw [hs.msgs_ne hkj] at h0 ⊢
      exact h.plain k (hlive k hk hkj) h0
  case below =>
    by_cases hkj : k = j
    · subst hkj; simp [hfresh, FragFields.fresh, hs.fragId]
    · rw [hs.msgs_ne hkj, hs.fragId]
      exact h.below k (hlive k hk hkj)
  case logged => rw [hs.handoffs, hs.fragId]; exact h.logged
  case counter =>
    rw [hs.fragId, h.counter]
    exact congrArg Finset.card
      (hs.liveSet_eq (fun f => f.firstFragment = true) (by simp [FragFields.fresh])).symm
  case grouped =>
    have hkj := hgrouped k h0
    rw [hs.msgs_ne hkj] at h0 ⊢
    obtain ⟨o, hfo, ho, hg, hfirst, hid, hlast⟩ := h.grouped k (hlive k hk hkj) h0
    have hoj := hs.ne_of_live ho.1
    refine ⟨o, hfo, (hs.owner_iff o).2 ho, by rw [hs.msgs_ne hoj]; exact hg, hfirst,
      by rw [hs.msgs_ne hoj]; exact hid, hlast.trans (hs.top_iff hkj h0).symm⟩
  case owners =>
    intro o₁ o₂ h₁ h₂ hg
    obtain ⟨ho₁, ho₁j⟩ := howner o₁ h₁
    obtain ⟨ho₂, ho₂j⟩ := howner o₂ h₂
    rw [hs.msgs_ne ho₁j, hs.msgs_ne ho₂j] at hg
    exact h.owners o₁ o₂ ho₁ ho₂ hg
  case unique =>
    intro k₁ k₂ hk₁ hk₂ hg h0 hid
    have hk₁j := hgrouped k₁ h0
    have hk₂j := hgrouped k₂ (hg ▸ h0)
    simp only [hs.msgs_ne hk₁j, hs.msgs_ne hk₂j] at hg h0 hid
    exact h.unique k₁ k₂ (hlive k₁ hk₁ hk₁j) (hlive k₂ hk₂ hk₂j) hg h0 hid
  case size =>
    intro o ho
    obtain ⟨ho', hoj⟩ := howner o ho
    have hsize : v'.groupSize (v.msgs o).fragId = v.groupSize (v.msgs o).fragId :=
      congrArg Finset.card (hs.liveSet_eq (fun f => f.fragId = (v.msgs o).fragId)
        (Ne.symm (h.owner_fragId ho')))
    rw [hs.msgs_ne hoj, hsize]
    exact h.size o ho'
  case hasLast =>
    intro o ho
    obtain ⟨ho', hoj⟩ := howner o ho
    obtain ⟨k, hk, hl⟩ := h.hasLast o ho'
    rw [hs.msgs_ne hoj]
    exact ⟨k, (hmember o ho' k).2 hk, by rw [hs.msgs_ne (hs.ne_of_live hk.1)]; exact hl⟩
  case handed =>
    intro o ho x
    obtain ⟨ho', hoj⟩ := howner o ho
    rw [hs.msgs_ne hoj, handedIds, hs.handoffs, ← handedIds, h.handed o ho' x, hs.rmsg]
    refine exists_congr fun k => ⟨fun ⟨hk, hr, hid⟩ => ⟨(hmember o ho' k).2 hk, hr, ?_⟩,
      fun ⟨hk, hr, hid⟩ => ⟨(hmember o ho' k).1 hk, hr, ?_⟩⟩
    · rwa [hs.msgs_ne (hs.ne_of_live hk.1)]
    · rwa [← hs.msgs_ne (hs.ne_of_live ((hmember o ho' k).1 hk).1)]
  case lastCurrent =>
    intro i hi h0
    rw [hs.rmsg] at hi
    have hij : i ≠ j := fun e => hcur (e ▸ hi)
    rw [hs.msgs_ne hij] at h0 ⊢
    exact h.lastCurrent i hi h0

theorem Groups.handOff (h : Groups v) (hi : v.rmsg = some i) (hlive : v.Live i) (next : Option Nat)
    (hnext : ∀ j, next = some j → (v.msgs j).fragId = 0) : Groups (v.handOff i next) := by
  refine ⟨h.small, h.plain, h.below, fun p hp => ?_, h.counter, h.grouped, h.owners, h.unique, h.size,
    h.hasLast, fun o ho x => ?_, fun j hj h0 => absurd (hnext j hj) h0⟩
  · rcases List.mem_append.1 hp with hp | hp
    · exact h.logged p hp
    · rw [List.mem_singleton.1 hp]
      exact h.below i hlive
  · have hg0 := h.owner_fragId ho
    have hnm : ∀ k, v.Member (v.msgs o).fragId k → next ≠ some k := fun k hk e =>
      hg0 (hk.2 ▸ hnext k e)
    show x ∈ (v.handOff i next).handedIds (v.msgs o).fragId ↔
      ∃ k, v.Member (v.msgs o).fragId k ∧ next ≠ some k ∧ (v.msgs k).id = x
    rw [handedIds_handOff, List.mem_append, h.handed o ho x]
    constructor
    · rintro (⟨k, hk, -, hid⟩ | hx)
      · exact ⟨k, hk, hnm k hk, hid⟩
      · split at hx
        · rename_i hg
          exact ⟨i, ⟨hlive, hg⟩, hnm i ⟨hlive, hg⟩, (List.mem_singleton.1 hx).symm⟩
        · cases hx
    · rintro ⟨k, hk, -, hid⟩
      by_cases hki : k = i
      · subst hki
        exact Or.inr (by rw [if_pos hk.2, List.mem_singleton, hid])
      · exact Or.inl ⟨k, hk, by rw [hi]; exact fun e => hki (Option.some.inj e).symm, hid⟩

theorem Groups.setCurrent (h : Groups v) (hold : ∀ i, v.rmsg = some i → (v.msgs i).fragId = 0)
    (hj : (v.msgs j).fragId = 0) : Groups { v with rmsg := some j } := by
  refine ⟨h.small, h.plain, h.below, h.logged, h.counter, h.grouped, h.owners, h.unique, h.size,
    h.hasLast, fun o ho x => ?_, fun i e h0 => absurd (Option.some.inj e ▸ hj) h0⟩
  have hg0 := h.owner_fragId ho
  refine (h.handed o ho x).trans (exists_congr fun k => and_congr_right fun hk => ?_)
  have hr : v.rmsg ≠ some k := fun e => hg0 (hk.2 ▸ hold k e)
  have hr' : some j ≠ some k := fun e => hg0 (hk.2 ▸ (Option.some.inj e ▸ hj))
  exact ⟨fun h' => ⟨hr', h'.2⟩, fun h' => ⟨hr, h'.2⟩⟩

theorem Groups.put (h : Groups v) (hk : v.Live k) (hcur : v.rmsg ≠ some k) (h0 : (v.msgs k).fragId = 0) :
    Groups (v.put k) := by
  have hlive : ∀ x, (v.put k).Live x ↔ v.Live x ∧ x ≠ k := live_put v
  have hmem : ∀ x, (v.put k).Live x → v.Live x := fun x hx => ((hlive x).1 hx).1
  have hplain := h.plain k hk h0
  have hown : ∀ o, (v.put k).Owner o ↔ v.Owner o := fun o => by
    simp only [Owner, hlive, put_msgs]
    refine ⟨fun h => ⟨h.1.1, h.2⟩, fun ho => ⟨⟨ho.1, fun e => ?_⟩, ho.2⟩⟩
    subst e
    rw [hplain.1] at ho
    cases ho.2.1
  have hmember : ∀ g, g ≠ 0 → ∀ x, (v.put k).Member g x ↔ v.Member g x := fun g hg x => by
    simp only [Member, hlive, put_msgs]
    refine ⟨fun h => ⟨h.1.1, h.2⟩, fun h => ⟨⟨h.1, fun e => hg ?_⟩, h.2⟩⟩
    rw [← h.2, e, h0]
  have hcount : ∀ (p : Nat → Prop) [DecidablePred p], ¬ p k →
      ((v.put k).liveSet p).card = (v.liveSet p).card := fun p _ hp => by
    refine congrArg Finset.card (liveSet_congr fun x => ?_)
    rw [hlive]
    exact ⟨fun h => ⟨h.1.1, h.2⟩, fun h => ⟨⟨h.1, fun e => hp (e ▸ h.2)⟩, h.2⟩⟩
  refine ⟨h.small, fun x hx => h.plain x (hmem x hx), fun x hx => h.below x (hmem x hx), h.logged, ?_,
    fun x hx h0 => ?_, fun o₁ o₂ h₁ h₂ => h.owners o₁ o₂ ((hown o₁).1 h₁) ((hown o₂).1 h₂),
    fun k₁ k₂ h₁ h₂ => h.unique k₁ k₂ (hmem k₁ h₁) (hmem k₂ h₂), fun o ho => ?_, fun o ho => ?_,
    fun o ho x => ?_, h.lastCurrent⟩
  · show v.fragId.toNat = (v.put k).ownerCount
    rw [h.counter]
    exact (hcount _ (by simp [hplain.2.1])).symm
  · obtain ⟨o, hfo, ho, hg, hfirst, hid, hlast⟩ := h.grouped x (hmem x hx) h0
    refine ⟨o, hfo, (hown o).2 ho, hg, hfirst, hid, hlast.trans (forall_congr' fun k' => ?_)⟩
    rw [hmember _ h0 k', put_msgs]
  · have ho' := (hown o).1 ho
    show (v.put k).groupSize (v.msgs o).fragId = (v.msgs o).nfrag.toNat
    rw [← h.size o ho']
    exact hcount _ (by
      show ¬ (v.msgs k).fragId = (v.msgs o).fragId
      rw [h0]; exact Ne.symm (h.owner_fragId ho'))
  · have ho' := (hown o).1 ho
    obtain ⟨x, hx, hl⟩ := h.hasLast o ho'
    exact ⟨x, (hmember _ (h.owner_fragId ho') x).2 hx, hl⟩
  · have ho' := (hown o).1 ho
    rw [put_msgs, show (v.put k).handedIds = v.handedIds from rfl, h.handed o ho' x, put_rmsg]
    exact exists_congr fun x => and_congr_left' (hmember _ (h.owner_fragId ho') x).symm

end Keep

/-! ## The views `msg_fragment` passes through -/

section Views

variable (v : GroupView) (i j o : Nat) {k : Nat}

def joinMsgs (k : Nat) : FragFields :=
  { v.msgs k with
    fragId := if k = j then (v.msgs i).fragId else (v.msgs k).fragId
    fragOwner := if k = j then some o else (v.msgs k).fragOwner
    lastFragment := if k = j then true else if k = i then false else (v.msgs k).lastFragment
    nfrag := if k = o then (v.msgs o).nfrag + 1 else (v.msgs k).nfrag }

/-- The view once `msg_fragment` linked `j` behind `i` and handed `i` over. -/
def joined : GroupView :=
  { v with msgs := joinMsgs v i j o, rmsg := some j,
           handoffs := v.handoffs ++ [((v.msgs i).id, (v.msgs i).fragId)] }

/-- A group of one opened on `i`, with `i` already marked last: the view
`msg_fragment` passes through when `i` is in no group yet. -/
def openFirst : GroupView :=
  { v with fragId := v.fragId + 1,
           msgs := Function.update v.msgs i { v.msgs i with
             fragId := v.fragId + 1, firstFragment := true, nfrag := 1, fragOwner := some i,
             lastFragment := true } }

@[simp] theorem openFirst_live (x : Nat) : (v.openFirst i).Live x ↔ v.Live x := Iff.rfl
@[simp] theorem openFirst_fragId : (v.openFirst i).fragId = v.fragId + 1 := rfl
@[simp] theorem openFirst_rmsg : (v.openFirst i).rmsg = v.rmsg := rfl
@[simp] theorem openFirst_msgId : (v.openFirst i).msgId = v.msgId := rfl
@[simp] theorem openFirst_handedIds (g : UInt64) : (v.openFirst i).handedIds g = v.handedIds g := rfl

theorem openFirst_msgs_self : (v.openFirst i).msgs i = { v.msgs i with
    fragId := v.fragId + 1, firstFragment := true, nfrag := 1, fragOwner := some i, lastFragment := true } :=
  Function.update_same _ _ _

theorem openFirst_msgs (hk : k ≠ i) : (v.openFirst i).msgs k = v.msgs k :=
  Function.update_noteq hk _ _

theorem openFirst_id (x : Nat) : ((v.openFirst i).msgs x).id = (v.msgs x).id := by
  by_cases hx : x = i
  · rw [hx, openFirst_msgs_self]
  · rw [openFirst_msgs v i hx]

theorem openFirst_owner {x : Nat} (hx : x ≠ i) : (v.openFirst i).Owner x ↔ v.Owner x := by
  simp only [Owner, openFirst_live, openFirst_msgs v i hx]

@[simp] theorem joined_msgs : (v.joined i j o).msgs = joinMsgs v i j o := rfl
@[simp] theorem joined_live (x : Nat) : (v.joined i j o).Live x ↔ v.Live x := Iff.rfl
@[simp] theorem joined_rmsg : (v.joined i j o).rmsg = some j := rfl

@[simp] theorem joinMsgs_id : (joinMsgs v i j o k).id = (v.msgs k).id := rfl
@[simp] theorem joinMsgs_firstFragment : (joinMsgs v i j o k).firstFragment = (v.msgs k).firstFragment := rfl
theorem joinMsgs_nfrag :
    (joinMsgs v i j o k).nfrag = if k = o then (v.msgs o).nfrag + 1 else (v.msgs k).nfrag := rfl
@[simp] theorem joinMsgs_fragId_self : (joinMsgs v i j o j).fragId = (v.msgs i).fragId := by simp [joinMsgs]
@[simp] theorem joinMsgs_fragOwner_self : (joinMsgs v i j o j).fragOwner = some o := by simp [joinMsgs]
@[simp] theorem joinMsgs_lastFragment_self : (joinMsgs v i j o j).lastFragment = true := by simp [joinMsgs]

theorem joinMsgs_fragId (hk : k ≠ j) : (joinMsgs v i j o k).fragId = (v.msgs k).fragId := by
  simp [joinMsgs, hk]

theorem joinMsgs_fragOwner (hk : k ≠ j) : (joinMsgs v i j o k).fragOwner = (v.msgs k).fragOwner := by
  simp [joinMsgs, hk]

theorem joinMsgs_lastFragment (hk : k ≠ j) :
    (joinMsgs v i j o k).lastFragment = if k = i then false else (v.msgs k).lastFragment := by
  simp [joinMsgs, hk]

theorem joined_handedIds (g : UInt64) :
    (v.joined i j o).handedIds g =
      v.handedIds g ++ if (v.msgs i).fragId = g then [(v.msgs i).id] else [] := by
  unfold handedIds joined
  rw [List.filterMap_append]
  split <;> simp_all

theorem linkFragment_eq {v : GroupView} {i j o : Nat} (hji : j ≠ i)
    (hio : ((v.openGroup i).msgs i).fragOwner = some o) (hjo : j ≠ o) :
    v.linkFragment i j = { v.openGroup i with msgs := joinMsgs (v.openGroup i) i j o } := by
  unfold linkFragment
  simp only [setFrag_msgs, if_neg (Ne.symm hji), if_true, hio]
  simp only [setFrag]
  congr 1
  funext k
  by_cases hkj : k = j
  · subst hkj
    simp [joinMsgs, hjo, hji, Function.update_apply]
  · by_cases hko : k = o <;> by_cases hki : k = i <;> simp_all [joinMsgs, Function.update_apply]

theorem openGroup_join {v : GroupView} {i j : Nat} (h0 : (v.msgs i).fragId = 0) (hji : j ≠ i) :
    ({ v.openGroup i with msgs := joinMsgs (v.openGroup i) i j i } : GroupView) =
      { v.openFirst i with msgs := joinMsgs (v.openFirst i) i j i } := by
  simp only [openGroup, if_pos h0, openFirst, setFrag]
  congr 1
  funext k
  by_cases hki : k = i
  · subst hki
    simp [joinMsgs, Ne.symm hji, Function.update_apply]
  · by_cases hkj : k = j <;> simp_all [joinMsgs, Function.update_apply]

theorem handOff_join {v : GroupView} {i j o : Nat} (hji : j ≠ i) :
    ({ v with msgs := joinMsgs v i j o } : GroupView).handOff i (some j) = v.joined i j o := by
  simp [handOff, joined, joinMsgs, Ne.symm hji]

end Views

/-! ## `msg_fragment` -/

section Fragment

variable {v : GroupView} {i j : Nat}

theorem Groups.split {v' : GroupView} (h : Groups v) (hord : Order v) (hi : v.rmsg = some i)
    (hs : GetStep v v' j) (hroom : v.msgId.toNat + 1 < 2 ^ 64) : Split v' i j := by
  have hlive := (hord.current i hi).1
  have hij := hs.ne_of_live hlive
  refine ⟨h.get hs fun e => hij (Option.some.inj (hi.symm.trans e)), by rw [hs.rmsg, hi],
    (hs.others i hij).2 hlive, hs.live, Ne.symm hij, by rw [hs.msgs_self, hs.msgId], fun k hk hkj => ?_⟩
  rw [hs.msgs_ne hkj]
  exact hs.lt_msgId hroom (hord.created k ((hs.others k hkj).1 hk))

theorem Split.fragId_j (h : Split v i j) : (v.msgs j).fragId = 0 := by
  rw [h.freshJ]
  rfl

theorem Split.id_j (h : Split v i j) : (v.msgs j).id = v.msgId := by
  rw [h.freshJ]
  rfl

theorem Split.ne_of_owner (h : Split v i j) {x : Nat} (hx : v.Owner x) : x ≠ j :=
  h.ne_of_plain hx h.liveJ h.fragId_j

theorem Split.nfrag_succ_lt (h : Split v i j) {o : Nat} (ho : v.Owner o) :
    (v.msgs o).nfrag.toNat + 1 < 2 ^ 32 := by
  have hg := h.owner_fragId ho
  have hins : (v.liveSet fun k => (v.msgs k).fragId = (v.msgs o).fragId ∨ k = j).card =
      v.groupSize (v.msgs o).fragId + 1 :=
    liveSet_insert (fun k => ⟨fun ⟨hl, hp⟩ => hp.imp (fun hp => ⟨hl, hp⟩) id,
      fun hk => hk.elim (fun ⟨hl, hp⟩ => ⟨hl, Or.inl hp⟩) (fun e => ⟨e ▸ h.liveJ, Or.inr e⟩)⟩)
      (fun hj => hg (hj.2.symm.trans h.fragId_j))
  have := @liveSet_card_le v (fun k => (v.msgs k).fragId = (v.msgs o).fragId ∨ k = j) _
  have := h.small
  rw [← h.size o ho]
  omega

theorem Split.joined_member (h : Split v i j) (o : Nat) {g : UInt64} (hg : g ≠ 0) (k : Nat) :
    (v.joined i j o).Member g k ↔ v.Member g k ∨ (k = j ∧ (v.msgs i).fragId = g) := by
  by_cases hkj : k = j
  · subst hkj
    simp only [Member, joined_live, joined_msgs, joinMsgs_fragId_self, h.fragId_j, true_and]
    exact ⟨fun h' => Or.inr h'.2, fun h' => ⟨h.liveJ, h'.elim (fun e => absurd e.2.symm hg) id⟩⟩
  · simp only [Member, joined_live, joined_msgs, joinMsgs_fragId _ _ _ _ hkj, hkj, false_and, or_false]

theorem Split.joined_top_other (h : Split v i j) (o : Nat) {k : Nat} (hkj : k ≠ j) (hkg : (v.msgs k).fragId ≠ (v.msgs i).fragId)
    (hk0 : (v.msgs k).fragId ≠ 0) : (v.joined i j o).Top k ↔ v.Top k := by
  unfold Top
  rw [joined_msgs, joinMsgs_fragId _ _ _ _ hkj]
  refine forall_congr' fun k' => ?_
  rw [h.joined_member o hk0, joinMsgs_id, joinMsgs_id]
  exact ⟨fun h' hk' => h' (Or.inl hk'), fun h' hk' => hk'.elim h' fun ⟨_, e⟩ => absurd e.symm hkg⟩

section Join

variable {o : Nat} (h : Split v i j) (h0 : (v.msgs i).fragId ≠ 0) (hio : (v.msgs i).fragOwner = some o)
include h h0 hio

theorem Split.owner : v.Owner o ∧ (v.msgs o).fragId = (v.msgs i).fragId := by
  obtain ⟨o', hio', ho, hgo, -⟩ := h.grouped i h.liveI h0
  rw [hio] at hio'
  cases hio'
  exact ⟨ho, hgo⟩

theorem Split.joined_owner (x : Nat) : (v.joined i j o).Owner x ↔ v.Owner x := by
  by_cases hx : x = j
  · rw [hx]
    have hjo : j ≠ o := (h.ne_of_owner (h.owner h0 hio).1).symm
    simp only [Owner, joined_live, joined_msgs, joinMsgs_fragOwner_self, Option.some.injEq]
    exact ⟨fun hj => absurd hj.2.1.symm hjo, fun hj => absurd rfl (h.ne_of_owner hj)⟩
  · simp only [Owner, joined_live, joined_msgs, joinMsgs_fragOwner _ _ _ _ hx, joinMsgs_firstFragment]

omit hio in
theorem Split.joined_top {k : Nat} (hk : (v.joined i j o).Member (v.msgs i).fragId k) :
    (v.joined i j o).Top k ↔ k = j := by
  have hmem := h.joined_member o h0
  unfold Top
  rw [hk.2]
  simp only [joined_msgs, joinMsgs_id]
  constructor
  · intro ht
    by_contra hkj
    have hle := ht j ((hmem j).2 (Or.inr ⟨rfl, rfl⟩))
    rw [h.id_j] at hle
    exact u64_not_le_of_lt (h.older k hk.1 hkj) hle
  · rintro rfl k' hk'
    rw [h.id_j]
    rcases (hmem k').1 hk' with hk' | ⟨rfl, -⟩
    · exact u64_le_of_lt (h.older k' hk'.1 fun e => h0 (by rw [← hk'.2, e, h.fragId_j]))
    · exact h.id_j ▸ u64_le_refl _

theorem Split.joined_grouped {k : Nat} (hk : v.Live k) (hk0 : (joinMsgs v i j o k).fragId ≠ 0) :
    ∃ o', (joinMsgs v i j o k).fragOwner = some o' ∧ (v.joined i j o).Owner o' ∧
      (joinMsgs v i j o o').fragId = (joinMsgs v i j o k).fragId ∧
      ((joinMsgs v i j o k).firstFragment = true ↔ k = o') ∧
      (joinMsgs v i j o o').id ≤ (joinMsgs v i j o k).id ∧
      ((joinMsgs v i j o k).lastFragment = true ↔ (v.joined i j o).Top k) := by
  obtain ⟨ho, hgo⟩ := h.owner h0 hio
  have hjo : j ≠ o := (h.ne_of_owner ho).symm
  have hown := h.joined_owner h0 hio
  by_cases hkj : k = j
  · subst hkj
    refine ⟨o, joinMsgs_fragOwner_self _ _ _ _, (hown o).2 ho,
      by rw [joinMsgs_fragId _ _ _ _ (Ne.symm hjo), joinMsgs_fragId_self, hgo], ?_, ?_, ?_⟩
    · simp [h.freshJ, FragFields.fresh, hjo]
    · rw [joinMsgs_id, joinMsgs_id, h.id_j]
      exact u64_le_of_lt (h.older o ho.1 (Ne.symm hjo))
    · rw [joinMsgs_lastFragment_self, h.joined_top h0 ⟨h.liveJ, joinMsgs_fragId_self _ _ _ _⟩]
      exact iff_of_true rfl rfl
  · rw [joinMsgs_fragId _ _ _ _ hkj] at hk0
    obtain ⟨o', hfo, ho', hg', hfirst, hid, hlast⟩ := h.grouped k hk hk0
    refine ⟨o', by rw [joinMsgs_fragOwner _ _ _ _ hkj]; exact hfo, (hown o').2 ho',
      by rw [joinMsgs_fragId _ _ _ _ (h.ne_of_owner ho'), joinMsgs_fragId _ _ _ _ hkj]; exact hg', hfirst,
      by rw [joinMsgs_id, joinMsgs_id]; exact hid, ?_⟩
    rw [joinMsgs_lastFragment _ _ _ _ hkj]
    by_cases hkg : (v.msgs k).fragId = (v.msgs i).fragId
    · have hnt : ¬ (v.joined i j o).Top k := fun ht =>
        hkj ((h.joined_top h0 ⟨hk, by rw [joined_msgs, joinMsgs_fragId _ _ _ _ hkj, hkg]⟩).1 ht)
      refine iff_of_false ?_ hnt
      split
      · exact Bool.false_ne_true
      · rename_i hki
        have hti : v.Top i := ((h.member h.liveI ho hgo.symm).2.2.2).1 (h.lastCurrent i h.rmsg h0)
        exact fun hl => hki (h.top_unique hk h.liveI hkg (hkg ▸ h0) (hlast.1 hl) hti)
    · have hki : k ≠ i := fun e => hkg (by rw [e])
      rw [if_neg hki, h.joined_top_other o hkj hkg hk0]
      exact hlast

theorem Split.joined_size {x : Nat} (hx' : v.Owner x) :
    (v.joined i j o).groupSize (joinMsgs v i j o x).fragId = (joinMsgs v i j o x).nfrag.toNat := by
  obtain ⟨ho, hgo⟩ := h.owner h0 hio
  have hnfrag : ((v.msgs o).nfrag + 1).toNat = (v.msgs o).nfrag.toNat + 1 :=
    u32_toNat_succ _ (h.nfrag_succ_lt ho)
  rw [joinMsgs_fragId _ _ _ _ (h.ne_of_owner hx'), joinMsgs_nfrag]
  unfold groupSize
  by_cases hxo : x = o
  · rw [hxo, if_pos rfl, hnfrag, ← h.size o ho]
    refine liveSet_insert (fun k => ?_) (fun hj => h.owner_fragId ho (hj.2.symm.trans h.fragId_j))
    by_cases hkj : k = j
    · rw [hkj]
      simp [h.liveJ, hgo]
    · simp only [joined_live, joined_msgs, joinMsgs_fragId _ _ _ _ hkj, hkj, or_false]
  · rw [if_neg hxo, ← h.size x hx']
    have hxg : (v.msgs x).fragId ≠ (v.msgs i).fragId := fun e => hxo (h.owners x o hx' ho (e.trans hgo.symm))
    refine congrArg Finset.card (liveSet_congr fun k => ?_)
    by_cases hkj : k = j
    · rw [hkj, joined_live, joined_msgs, joinMsgs_fragId_self, h.fragId_j]
      exact ⟨fun hl => absurd hl.2.symm hxg, fun hl => absurd hl.2.symm (h.owner_fragId hx')⟩
    · rw [joined_live, joined_msgs, joinMsgs_fragId _ _ _ _ hkj]

theorem Split.joined_handed {x : Nat} (hx' : v.Owner x) (y : UInt64) :
    y ∈ (v.joined i j o).handedIds (joinMsgs v i j o x).fragId ↔
      ∃ k, (v.joined i j o).Member (joinMsgs v i j o x).fragId k ∧ (v.joined i j o).rmsg ≠ some k ∧
        ((v.joined i j o).msgs k).id = y := by
  have hg0 := h.owner_fragId hx'
  rw [joinMsgs_fragId _ _ _ _ (h.ne_of_owner hx'), joined_handedIds, List.mem_append, h.handed x hx' y]
  simp only [joined_rmsg, joined_msgs, joinMsgs_id, h.joined_member o hg0]
  constructor
  · rintro (⟨k, hk, -, hid⟩ | hy)
    · exact ⟨k, Or.inl hk, fun e => hg0 (by rw [← hk.2, ← Option.some.inj e, h.fragId_j]), hid⟩
    · split at hy
      · rename_i hg
        exact ⟨i, Or.inl ⟨h.liveI, hg⟩, fun e => h.ne (Option.some.inj e), (List.mem_singleton.1 hy).symm⟩
      · cases hy
  · rintro ⟨k, hk | ⟨rfl, -⟩, hne, hid⟩
    · by_cases hki : k = i
      · subst hki
        exact Or.inr (by rw [if_pos hk.2, List.mem_singleton, hid])
      · exact Or.inl ⟨k, hk, by rw [h.rmsg]; exact fun e => hki (Option.some.inj e).symm, hid⟩
    · exact absurd rfl hne

end Join

/-- `j` joins the group, owned by `o`, whose last fragment is `i`: once `i` is
handed over and `j` is current, the laws hold again. -/
theorem Split.join (h : Split v i j) (h0 : (v.msgs i).fragId ≠ 0) {o : Nat}
    (hio : (v.msgs i).fragOwner = some o) : Groups (v.joined i j o) := by
  obtain ⟨ho, hgo⟩ := h.owner h0 hio
  have hown := h.joined_owner h0 hio
  refine ⟨h.small, ?plain, ?below, ?logged, ?counter, fun k hk hk0 => h.joined_grouped h0 hio hk hk0, ?owners,
    ?unique, fun x hx => h.joined_size h0 hio ((hown x).1 hx), ?hasLast,
    fun x hx => h.joined_handed h0 hio ((hown x).1 hx), ?lastCurrent⟩
  case plain =>
    intro k hk hk0
    simp only [joined_msgs] at hk0 ⊢
    have hkj : k ≠ j := fun e => h0 (by rwa [e, joinMsgs_fragId_self] at hk0)
    rw [joinMsgs_fragId _ _ _ _ hkj] at hk0
    have hki : k ≠ i := fun e => h0 (e ▸ hk0)
    rw [joinMsgs_fragOwner _ _ _ _ hkj, joinMsgs_firstFragment, joinMsgs_lastFragment _ _ _ _ hkj, if_neg hki]
    exact h.plain k hk hk0
  case below =>
    intro k hk
    simp only [joined_msgs]
    by_cases hkj : k = j
    · rw [hkj, joinMsgs_fragId_self]
      exact h.below i h.liveI
    · rw [joinMsgs_fragId _ _ _ _ hkj]
      exact h.below k hk
  case logged =>
    intro p hp
    rcases List.mem_append.1 hp with hp | hp
    · exact h.logged p hp
    · rw [List.mem_singleton.1 hp]
      exact h.below i h.liveI
  case counter =>
    show v.fragId.toNat = _
    rw [h.counter]
    exact (congrArg Finset.card (liveSet_congr fun k => Iff.rfl)).symm
  case owners =>
    intro o₁ o₂ h₁ h₂ hg
    have h₁' := (hown o₁).1 h₁
    have h₂' := (hown o₂).1 h₂
    simp only [joined_msgs, joinMsgs_fragId _ _ _ _ (h.ne_of_owner h₁'),
      joinMsgs_fragId _ _ _ _ (h.ne_of_owner h₂')] at hg
    exact h.owners o₁ o₂ h₁' h₂' hg
  case unique =>
    have hnew : ∀ k, v.Live k → k ≠ j → (v.msgs k).id ≠ (v.msgs j).id := fun k hk hkj e =>
      u64_lt_irrefl _ (by simpa only [e, h.id_j] using h.older k hk hkj)
    intro k₁ k₂ hk₁ hk₂ hg hg0 hid
    simp only [joined_msgs, joinMsgs_id] at hg hg0 hid
    by_cases h₁ : k₁ = j <;> by_cases h₂ : k₂ = j
    · rw [h₁, h₂]
    · exact absurd (h₁ ▸ hid).symm (hnew k₂ hk₂ h₂)
    · exact absurd (h₂ ▸ hid) (hnew k₁ hk₁ h₁)
    · rw [joinMsgs_fragId _ _ _ _ h₁, joinMsgs_fragId _ _ _ _ h₂] at hg
      rw [joinMsgs_fragId _ _ _ _ h₁] at hg0
      exact h.unique k₁ k₂ hk₁ hk₂ hg hg0 hid
  case hasLast =>
    intro x hx
    have hx' := (hown x).1 hx
    simp only [joined_msgs, joinMsgs_fragId _ _ _ _ (h.ne_of_owner hx')]
    by_cases hxo : x = o
    · refine ⟨j, ⟨h.liveJ, ?_⟩, joinMsgs_lastFragment_self _ _ _ _⟩
      rw [joined_msgs, joinMsgs_fragId_self, ← hgo, hxo]
    · obtain ⟨k, hk, hkl⟩ := h.hasLast x hx'
      have hkj : k ≠ j := fun e => h.owner_fragId hx' (by rw [← hk.2, e, h.fragId_j])
      have hki : k ≠ i := fun e => hxo (h.owners x o hx' ho (by rw [← hk.2, e, hgo]))
      exact ⟨k, ⟨hk.1, by rw [joined_msgs, joinMsgs_fragId _ _ _ _ hkj]; exact hk.2⟩,
        by rw [joinMsgs_lastFragment _ _ _ _ hkj, if_neg hki]; exact hkl⟩
  case lastCurrent =>
    rintro k ⟨⟩ -
    exact joinMsgs_lastFragment_self _ _ _ _

theorem Split.opened_member (h : Split v i j) (h0 : (v.msgs i).fragId = 0) {g : UInt64} (hg0 : g ≠ 0)
    (hg : g ≠ v.fragId + 1) (k : Nat) : (v.openFirst i).Member g k ↔ v.Member g k := by
  by_cases hki : k = i
  · subst hki
    simp only [Member, openFirst_live, openFirst_msgs_self, h0]
    exact ⟨fun h' => absurd h'.2.symm hg, fun h' => absurd h'.2.symm hg0⟩
  · simp only [Member, openFirst_live, openFirst_msgs v i hki]

theorem Split.opened_size (h : Split v i j) (h0 : (v.msgs i).fragId = 0) {x : Nat}
    (hx : (v.openFirst i).Owner x) :
    (v.openFirst i).groupSize ((v.openFirst i).msgs x).fragId = ((v.openFirst i).msgs x).nfrag.toNat := by
  have hmi := openFirst_msgs_self v i
  have hmk : ∀ k, k ≠ i → (v.openFirst i).msgs k = v.msgs k := fun k hk => openFirst_msgs v i hk
  unfold groupSize
  by_cases hxi : x = i
  · rw [hxi, hmi]
    have hempty : (v.liveSet fun k => (v.msgs k).fragId = v.fragId + 1).card = 0 :=
      Finset.card_eq_zero.2 (Finset.eq_empty_of_forall_not_mem fun k hk =>
        h.fragId_ne_next (mem_liveSet.1 hk).1 (mem_liveSet.1 hk).2)
    have hiff : ∀ k, (v.openFirst i).Live k ∧ ((v.openFirst i).msgs k).fragId = v.fragId + 1 ↔
        (v.Live k ∧ (v.msgs k).fragId = v.fragId + 1) ∨ k = i := fun k => by
      by_cases hki : k = i
      · rw [hki, openFirst_live, hmi]
        simp [h.liveI]
      · rw [openFirst_live, hmk k hki]
        simp [hki]
    show ((v.openFirst i).liveSet fun k => ((v.openFirst i).msgs k).fragId = v.fragId + 1).card = 1
    rw [liveSet_insert hiff (fun hi => h.fragId_ne_next hi.1 hi.2), hempty]
  · have hx' := (openFirst_owner v i hxi).1 hx
    rw [hmk x hxi, ← h.size x hx']
    refine congrArg Finset.card (liveSet_congr fun k => ?_)
    by_cases hki : k = i
    · rw [hki, openFirst_live, hmi, h0]
      exact ⟨fun hl => absurd hl.2.symm (h.fragId_ne_next hx'.1),
        fun hl => absurd hl.2.symm (h.owner_fragId hx')⟩
    · rw [openFirst_live, hmk k hki]

theorem Split.opened (h : Split v i j) (h0 : (v.msgs i).fragId = 0) : Split (v.openFirst i) i j := by
  have hg := h.next_toNat
  have hmi := openFirst_msgs_self v i
  have hmk : ∀ k, k ≠ i → (v.openFirst i).msgs k = v.msgs k := fun k hk => openFirst_msgs v i hk
  have howni : (v.openFirst i).Owner i := ⟨h.liveI, by rw [hmi], by rw [hmi]⟩
  have hoi : ∀ x, v.Owner x → x ≠ i := fun x hx => h.ne_of_plain hx h.liveI h0
  have hmem : ∀ x, v.Owner x → ∀ k, (v.openFirst i).Member (v.msgs x).fragId k ↔ v.Member (v.msgs x).fragId k :=
    fun x hx => h.opened_member h0 (h.owner_fragId hx) (h.fragId_ne_next hx.1)
  refine ⟨⟨h.small, ?plain, ?below, ?logged, ?counter, ?grouped, ?owners, ?unique,
    fun x hx => h.opened_size h0 hx, ?hasLast, ?handed, ?lastCurrent⟩, h.rmsg, h.liveI, h.liveJ, h.ne,
    by rw [hmk j h.ne]; exact h.freshJ, fun k hk hkj => by rw [openFirst_id]; exact h.older k hk hkj⟩
  case plain =>
    intro k hk hk0
    have hki : k ≠ i := fun e => by rw [e, hmi] at hk0; exact h.next_ne_zero hk0
    rw [hmk k hki] at hk0 ⊢
    exact h.plain k hk hk0
  case below =>
    intro k hk
    rw [openFirst_fragId, hg]
    by_cases hki : k = i
    · rw [hki, hmi, hg]
    · rw [hmk k hki]
      exact Nat.le_succ_of_le (h.below k hk)
  case logged =>
    intro p hp
    rw [openFirst_fragId, hg]
    exact Nat.le_succ_of_le (h.logged p hp)
  case counter =>
    rw [openFirst_fragId, hg, h.counter]
    refine (liveSet_insert (fun k => ?_) (fun hi => by rw [(h.plain i h.liveI h0).2.1] at hi; cases hi.2)).symm
    by_cases hki : k = i
    · rw [hki, openFirst_live, hmi]
      simp [h.liveI]
    · rw [openFirst_live, hmk k hki]
      simp [hki]
  case grouped =>
    intro k hk hk0
    by_cases hki : k = i
    · subst hki
      refine ⟨k, by rw [hmi], howni, rfl, by simp [hmi], u64_le_refl _, iff_of_true (by rw [hmi]) ?_⟩
      intro k' hk'
      by_cases hk'i : k' = k
      · rw [hk'i]
        exact u64_le_refl _
      · rw [hmi, Member, hmk k' hk'i] at hk'
        exact absurd hk'.2 (h.fragId_ne_next hk'.1)
    · rw [hmk k hki] at hk0 ⊢
      obtain ⟨o, hfo, ho, hgo, hfirst, hid, hlast⟩ := h.grouped k hk hk0
      have hoi' := hoi o ho
      refine ⟨o, hfo, (openFirst_owner v i hoi').2 ho, by rw [hmk o hoi']; exact hgo, hfirst,
        by rw [hmk o hoi']; exact hid, hlast.trans ?_⟩
      unfold Top
      rw [hmk k hki]
      refine forall_congr' fun k' => ?_
      rw [← hgo, hmem o ho k', hgo, openFirst_id]
  case owners =>
    intro o₁ o₂ h₁ h₂ hg'
    by_cases e₁ : o₁ = i <;> by_cases e₂ : o₂ = i
    · rw [e₁, e₂]
    · rw [e₁, hmi, hmk o₂ e₂] at hg'
      exact absurd hg'.symm (h.fragId_ne_next h₂.1)
    · rw [e₂, hmi, hmk o₁ e₁] at hg'
      exact absurd hg' (h.fragId_ne_next h₁.1)
    · rw [hmk o₁ e₁, hmk o₂ e₂] at hg'
      exact h.owners o₁ o₂ ((openFirst_owner v i e₁).1 h₁) ((openFirst_owner v i e₂).1 h₂) hg'
  case unique =>
    intro k₁ k₂ hk₁ hk₂ hg' h0' hid
    by_cases e₁ : k₁ = i <;> by_cases e₂ : k₂ = i
    · rw [e₁, e₂]
    · rw [e₁, hmi, hmk k₂ e₂] at hg'
      exact absurd hg'.symm (h.fragId_ne_next hk₂)
    · rw [e₂, hmi, hmk k₁ e₁] at hg'
      exact absurd hg' (h.fragId_ne_next hk₁)
    · rw [hmk k₁ e₁, hmk k₂ e₂] at hg' hid
      rw [hmk k₁ e₁] at h0'
      exact h.unique k₁ k₂ hk₁ hk₂ hg' h0' hid
  case hasLast =>
    intro x hx
    by_cases hxi : x = i
    · rw [hxi]
      exact ⟨i, ⟨h.liveI, rfl⟩, by rw [hmi]⟩
    · have hx' := (openFirst_owner v i hxi).1 hx
      obtain ⟨k, hk, hkl⟩ := h.hasLast x hx'
      have hki : k ≠ i := fun e => h.owner_fragId hx' (by rw [← hk.2, e, h0])
      rw [hmk x hxi]
      exact ⟨k, (hmem x hx' k).2 hk, by rw [hmk k hki]; exact hkl⟩
  case handed =>
    intro x hx y
    rw [openFirst_handedIds, openFirst_rmsg]
    by_cases hxi : x = i
    · rw [hxi, hmi, h.handedIds_next]
      refine iff_of_false (List.not_mem_nil y) fun ⟨k, hk, hr, _⟩ => ?_
      by_cases hki : k = i
      · exact hr (hki ▸ h.rmsg)
      · rw [Member, hmk k hki] at hk
        exact h.fragId_ne_next hk.1 hk.2
    · have hx' := (openFirst_owner v i hxi).1 hx
      rw [hmk x hxi, h.handed x hx' y]
      refine exists_congr fun k => ?_
      rw [hmem x hx' k, openFirst_id]
  case lastCurrent =>
    intro i' hi' _
    rw [openFirst_rmsg, h.rmsg] at hi'
    cases hi'
    rw [hmi]

/-- `msg_fragment` on the current message: whether it opens a group or joins
one, the laws hold again once `i` is handed over and `j` is current. -/
theorem Split.link (h : Split v i j) : Groups ((v.linkFragment i j).handOff i (some j)) := by
  by_cases h0 : (v.msgs i).fragId = 0
  · have hio : ((v.openGroup i).msgs i).fragOwner = some i := by simp [openGroup, h0]
    rw [linkFragment_eq h.ne hio h.ne, openGroup_join h0 h.ne, handOff_join h.ne]
    exact (h.opened h0).join (by rw [openFirst_msgs_self]; exact h.next_ne_zero) (by rw [openFirst_msgs_self])
  · obtain ⟨o, hio, ho, -⟩ := h.grouped i h.liveI h0
    have hog : v.openGroup i = v := by simp [openGroup, h0]
    rw [linkFragment_eq h.ne (by rw [hog]; exact hio) (h.ne_of_owner ho).symm, hog, handOff_join h.ne]
    exact h.join h0 hio

end Fragment

/-! ## Along the engine's steps -/

section Steps

variable {v w : GroupView} {n : Nat}

theorem Groups.parseStep (h : Groups v) (hord : Order v) (hs : ParseStep v w)
    (hroom : v.msgId.toNat + 1 < 2 ^ 64) : Groups w := by
  cases hs with
  | handOffNone hi => exact h.handOff hi (hord.current _ hi).1 none nofun
  | parsed hi hlive hs =>
    have hij := hs.ne_of_live hlive
    refine (h.get hs fun e => hij (Option.some.inj (hi.symm.trans e))).handOff (hs.rmsg.trans hi)
      ((hs.others _ hij).2 hlive) _ fun _ e => ?_
    cases e
    rw [hs.msgs_self]
    rfl
  | fragment hi _ hs => exact (h.split hord hi hs hroom).link

theorem Groups.nextStep (h : Groups v) (hs : NextStep v w) : Groups w := by
  cases hs with
  | stay => exact h
  | next hnone hs =>
    refine (h.get hs (by rw [hnone]; exact Option.noConfusion)).setCurrent
      (fun i e => by rw [hs.rmsg, hnone] at e; cases e) ?_
    rw [hs.msgs_self]
    rfl

theorem Groups.empty (hn : v.nmsgs = 0) (hf : v.fragId = 0) (hh : v.handoffs = []) (hr : v.rmsg = none) :
    Groups v := by
  have hl : ∀ k, ¬ v.Live k := fun k hk => by have := hk.1; omega
  refine ⟨by omega, fun k hk => absurd hk (hl k), fun k hk => absurd hk (hl k), by simp [hh], ?_,
    fun k hk => absurd hk (hl k), fun o _ ho => absurd ho.1 (hl o), fun k _ hk => absurd hk (hl k),
    fun o ho => absurd ho.1 (hl o), fun o ho => absurd ho.1 (hl o), fun o ho => absurd ho.1 (hl o),
    fun i hi => absurd (hr ▸ hi) nofun⟩
  simp [hf, ownerCount, liveSet, hn]

/-- The group laws and creation order, while the hand-offs and `n` further
`msg_get` calls fit in 64 bits. -/
structure Lawful (n : Nat) (v : GroupView) extends Bounded n v : Prop where
  groups : v.handoffs.length + n < 2 ^ 64 → v.Groups

theorem Lawful.mono {m : Nat} (h : Lawful n v) (hnm : n ≤ m) : Lawful m v :=
  ⟨h.toBounded.mono hnm, fun hroom => h.groups (by omega)⟩

theorem Lawful.parseStep (h : Lawful n v) (hs : ParseStep v w) : Lawful n w := by
  obtain ⟨hlen, -⟩ := hs.counts
  have := h.budget
  exact ⟨h.toBounded.parseStep hs, fun hroom =>
    (h.groups (by omega)).parseStep (h.order (by omega)) hs (by omega)⟩

theorem Lawful.parseSteps (h : Lawful n v) (hs : Relation.ReflTransGen ParseStep v w) : Lawful n w := by
  induction hs with
  | refl => exact h
  | tail _ hs ih => exact ih.parseStep hs

theorem Lawful.nextStep (h : Lawful n v) (hs : NextStep v w) : Lawful (n + 1) w :=
  ⟨h.toBounded.nextStep hs, fun hroom => (h.groups (by rw [hs.handoffs] at hroom; omega)).nextStep hs⟩

theorem Lawful.get {v' : GroupView} {j : Nat} (h : Lawful n v) (hs : GetStep v v' j) : Lawful (n + 1) v' := by
  refine ⟨h.toBounded.get hs, fun hroom => ?_⟩
  rw [hs.handoffs] at hroom
  have hord := h.order (by omega)
  exact (h.groups (by omega)).get hs fun e => hs.dead (hord.current j e).1

theorem Lawful.put {k : Nat} (h : Lawful n v) (hk : v.Live k) (hcur : v.rmsg ≠ some k)
    (h0 : (v.msgs k).fragId = 0) : Lawful n (v.put k) :=
  ⟨h.toBounded.put hcur, fun hroom => (h.groups hroom).put hk hcur h0⟩

theorem Lawful.otherStep (h : Lawful n v) (hs : OtherStep v w) : Lawful (n + 1) w := by
  cases hs with
  | stay => exact h.mono (Nat.le_succ n)
  | get hs => exact h.get hs
  | getPut hs hcur =>
    refine (h.get hs).put hs.live (by rw [hs.rmsg]; exact hcur) ?_
    rw [hs.msgs_self]
    rfl
  | put hk hcur h0 => exact (h.put hk hcur h0).mono (Nat.le_succ n)

theorem Lawful.empty (hn : v.nmsgs = 0) (hm : v.msgId = 0) (hf : v.fragId = 0) (hh : v.handoffs = [])
    (hr : v.rmsg = none) : Lawful 0 v :=
  ⟨Bounded.empty hn hm hh hr, fun _ => Groups.empty hn hf hh hr⟩

end Steps

end GroupView

end Dynomite
