import Dynomite.GroupRun

/-! # The receive engine refines the view machine

`GroupView.Step` lists the moves the receive engine makes on the view of
`Dynomite.GroupRun`: `recv_done` with no successor, a `msg_get` followed by
`recv_done` to the new message (bare in `msg_parsed`, with the fragment
bookkeeping in `msg_fragment`), `recv_next` making a new message current, and
`msg_put` of a live message other than the current one.  Every run in which
upstream releases only such messages moves the view by these steps and by no
others (`recv_run_view_steps`): a `msg_parse` is at most one step and
`recv_next` at most one more. -/

set_option autoImplicit false

namespace Dynomite

namespace GroupView

/-- The moves of the receive engine on the view. -/
inductive Step : GroupView → GroupView → Prop
  | handOffNone {v : GroupView} {i : Nat} (hi : v.rmsg = some i) : Step v (v.handOff i none)
  | parsed {v v' : GroupView} {i j : Nat} (hi : v.rmsg = some i) (hlive : v.Live i)
      (hs : GetStep v v' j) : Step v (v'.handOff i (some j))
  | fragment {v v' : GroupView} {i j : Nat} (hi : v.rmsg = some i) (hlive : v.Live i)
      (hs : GetStep v v' j) : Step v ((v'.linkFragment i j).handOff i (some j))
  | next {v v' : GroupView} {j : Nat} (hnone : v.rmsg = none) (hs : GetStep v v' j) :
      Step v { v' with rmsg := some j }
  | put {v : GroupView} {k : Nat} (hk : v.Live k) (hcur : v.rmsg ≠ some k) : Step v (v.put k)

variable {v w : GroupView}

theorem ParseStep.step (hs : ParseStep v w) : Step v w := by
  cases hs with
  | handOffNone hi => exact .handOffNone hi
  | parsed hi hlive hs => exact .parsed hi hlive hs
  | fragment hi hlive hs => exact .fragment hi hlive hs

theorem NextStep.steps (hs : NextStep v w) : Relation.ReflTransGen Step v w := by
  cases hs with
  | stay => exact .refl
  | next hnone hs => exact .single (.next hnone hs)

end GroupView

/-! ## The engine moves the view by steps of the machine -/

section Engine

open Relation

variable {cfg : Config} {s s' : RecvSys}

/-- Every operation moves the view by steps of the machine, whatever its status. -/
theorem op_view {decrypt : List UInt8 → List UInt8} (h : EngineInv cfg s) {op : RecvOp}
    (hop : op.PutsOk s) {r : RecvSys × RStatus} (hr : recvOp cfg decrypt s op = some r) :
    ReflTransGen GroupView.Step s.groupView r.1.groupView := by
  cases op with
  | call io =>
    obtain ⟨u, hn, hp⟩ := call_view h io hr
    exact hn.steps.trans (hp.mono fun _ _ => GroupView.ParseStep.step)
  | put i =>
    cases hr
    rw [groupView_msgPut]
    exact .single (.put hop.1 hop.2)

theorem EngineInv.run_view {decrypt : List UInt8 → List UInt8} {ops : List RecvOp} {sts : List RStatus}
    (h : EngineInv cfg s) (hops : RecvRunAllowed cfg decrypt RecvOp.PutsOk ops s)
    (hrun : recvRun cfg decrypt ops s = some (s', sts)) :
    ReflTransGen GroupView.Step s.groupView s'.groupView :=
  (recvRun_inv (fun t => EngineInv cfg t ∧ ReflTransGen GroupView.Step s.groupView t.groupView)
    RecvOp.PutsOk (fun _ => True)
    (fun _ _ _ h hop hr _ => ⟨h.1.op hop hr, h.2.trans (op_view h.1 hop hr)⟩)
    ⟨h, .refl⟩ hops hrun fun _ _ => trivial).2

end Engine

/-- On every run in which upstream releases only live messages other than the
current one, from any state whose pool is sound and whose current message is
live, the view moves by steps of the machine and by no others: the receive
engine refines the view machine. -/
theorem recv_run_view_steps (cfg : Config) (decrypt : List UInt8 → List UInt8) (ops : List RecvOp)
    (s s' : RecvSys) (sts : List RStatus) (h : EngineInv cfg s)
    (hops : RecvRunAllowed cfg decrypt RecvOp.PutsOk ops s)
    (hrun : recvRun cfg decrypt ops s = some (s', sts)) :
    Relation.ReflTransGen GroupView.Step s.groupView s'.groupView :=
  h.run_view hops hrun

/-- A memcache `get a b c\r\n` read at once and cut twice: three fragments. -/
def mgetThreeCall : ChainIO :=
  ⟨true, true, .bytes (ascii ("get a b c\r\n")), true, true,
    [⟨.fragment, 6, ascii ("get "), some ⟨0, [], []⟩, 0, true, true⟩,
     ⟨.fragment, 6, ascii ("get "), some ⟨0, [], []⟩, 0, true, true⟩, ⟨.again, 0, [], none, 0, true, true⟩]⟩

theorem recv_run_view_steps_mget :
    ∃ s', recvRun smallConfig id [.call mgetThreeCall] ⟨msgInit Core.boot, clientConn, true, []⟩ =
        some (s', [.ok]) ∧ (s'.msg 2).fragOwner = some 0 ∧
      Relation.ReflTransGen GroupView.Step (⟨msgInit Core.boot, clientConn, true, []⟩ : RecvSys).groupView
        s'.groupView := by
  refine ⟨_, rfl, rfl, ?_⟩
  exact recv_run_view_steps smallConfig id [.call mgetThreeCall] _ _ [.ok]
    (engineInv_msgInit_boot rfl true) (by simp [RecvRunAllowed, RecvOp.PutsOk]) rfl

end Dynomite
