import RefGraph.FileSystem
import RefGraph.Quoted
import RefGraph.Watch.Change

/-!
# Watched roots

All subscribers of a root share one watcher. Its changes are collected until nothing happens for a
while, or for too long, and then a round begins: the subscribers of this moment are called one after
the other. When the last subscriber of a root has left, the root is no longer watched.

* `Watch.State`: the watched roots, their subscribers, and their rounds.
* `Watch.Action`, `Watch.State.step?`: the steps that can happen, in any order.
* `Watch.State.settle`: the steps that are taken when nothing else happens.
-/

namespace RefGraph.Watch

/-- How long nothing has to happen before a round begins, and how long a round can be put off. -/
structure Timing where
  quiet : Nat := 250
  longest : Nat := 2000
deriving DecidableEq, Repr, Inhabited

/-- What the watcher of a root does: it waits for a change, it waits until `wake` for more changes
but not beyond `deadline`, or it calls the subscribers that are left. -/
inductive Phase where
  | idle
  | settling (deadline wake : Nat)
  | calling (left : List Nat)
deriving DecidableEq, Repr, Inhabited

/-- A watched root: its subscribers, whether its watcher has failed, the changes that it has not
taken yet, and what it does. -/
structure RootWatch where
  subscribers : List Nat := []
  degraded : Bool := false
  pending : Nat := 0
  phase : Phase := .idle
deriving DecidableEq, Repr, Inhabited

/-- A subscription to a root. -/
structure Subscription where
  root : Path
  id : Nat
deriving DecidableEq, Repr, Inhabited

/-- A subscription in words. -/
def Subscription.describe (s : Subscription) : String :=
  "Subscription \x7b root: " ++ quoted s.root.text ++ ", id: " ++ toString s.id ++
    ", active: true \x7d"

/-- The watched roots. `orphans` are the rounds that were going on when their roots were left by
their last subscribers; `live` are the subscriptions that have not ended, `leaving` those that are
about to end, and `called` are the subscribers that were called, the latest first. -/
structure State where
  timing : Timing := {}
  now : Nat := 0
  nextId : Nat := 0
  roots : List (Path × RootWatch) := []
  orphans : List (List Nat) := []
  live : List Subscription := []
  leaving : List Subscription := []
  called : List Nat := []
deriving Repr, Inhabited

namespace State

/-- The watch of a root. -/
def watch? (s : State) (root : Path) : Option RootWatch :=
  (s.roots.find? fun r => r.1.equals root).map Prod.snd

/-- Changes the watch of a root, if there is one. -/
def modify (s : State) (root : Path) (change : RootWatch → RootWatch) : State :=
  { s with roots := s.roots.map fun r => if r.1.equals root then (r.1, change r.2) else r }

/-! ## Questions -/

/-- Whether a root is watched. -/
def isWatching (s : State) (root : Path) : Bool := (s.watch? root).isSome

/-- The number of subscribers of a root. -/
def subscriberCount (s : State) (root : Path) : Nat :=
  ((s.watch? root).map fun w => w.subscribers.length).getD 0

/-- Whether the watcher of a root has failed since it was started. -/
def isDegraded (s : State) (root : Path) : Bool := (s.watch? root).any RootWatch.degraded

/-! ## Subscriptions -/

/-- Subscribes to a root. If it is not watched yet a watcher has to start, which may fail. -/
def subscribe (s : State) (root : Path) (starts : Bool) : State × Option Subscription :=
  let sub : Subscription := ⟨root, s.nextId⟩
  let s := { s with nextId := s.nextId + 1 }
  if s.isWatching root then
    let s := s.modify root fun w => { w with subscribers := w.subscribers ++ [sub.id] }
    ({ s with live := sub :: s.live }, some sub)
  else if starts then
    ({ s with
        roots := s.roots ++ [(root, { subscribers := [sub.id] })]
        live := sub :: s.live }, some sub)
  else (s, none)

/-- The first step of ending a subscription: it is no longer among the subscribers of its root. -/
def beginRelease (s : State) (sub : Subscription) : State :=
  let s := s.modify sub.root fun w => { w with subscribers := w.subscribers.erase sub.id }
  { s with live := s.live.erase sub, leaving := sub :: s.leaving }

/-- The calls that are left in the round of a watch. -/
def callsLeft (w : RootWatch) : List (List Nat) :=
  match w.phase with
  | .calling left => [left]
  | _ => []

/-- The second step: a root without subscribers is no longer watched. A round that is going on does
not end by that. -/
def finishRelease (s : State) (sub : Subscription) : State :=
  let isLeft (r : Path × RootWatch) : Bool := r.1.equals sub.root && r.2.subscribers.isEmpty
  { s with
    roots := s.roots.filter fun r => !isLeft r
    orphans := s.orphans ++ (s.roots.filter isLeft).flatMap fun r => callsLeft r.2
    leaving := s.leaving.erase sub }

/-- Ends a subscription. -/
def release (s : State) (sub : Subscription) : State := (s.beginRelease sub).finishRelease sub

/-! ## Events and rounds -/

/-- Tells the watcher of a root of an event. -/
def hear (s : State) (root : Path) (e : Event) : State :=
  if e.isChange root then s.modify root fun w => { w with pending := w.pending + 1 } else s

/-- Tells the watcher of a root that it has failed. -/
def fail (s : State) (root : Path) : State := s.modify root fun w => { w with degraded := true }

/-- Waits for more changes, or begins a round if the deadline has passed. -/
def settleOrCall (s : State) (deadline : Nat) (w : RootWatch) : Phase :=
  if deadline ≤ s.now then .calling w.subscribers
  else .settling deadline (s.now + min s.timing.quiet (deadline - s.now))

/-- The watch after it has taken a change, if it waits for one. -/
def taken? (s : State) (w : RootWatch) : Option RootWatch :=
  match w.pending with
  | 0 => none
  | n + 1 =>
    match w.phase with
    | .idle => some { w with pending := n, phase := s.settleOrCall (s.now + s.timing.longest) w }
    | .settling deadline _ => some { w with pending := n, phase := s.settleOrCall deadline w }
    | .calling _ => none

/-- The watch after it has waited long enough. -/
def elapsed? (s : State) (w : RootWatch) : Option RootWatch :=
  match w.phase with
  | .settling _ wake =>
    if wake ≤ s.now then some { w with phase := .calling w.subscribers } else none
  | _ => none

/-- The watch after a call, and the subscriber that was called; none at the end of a round. -/
def calledOne? (w : RootWatch) : Option (RootWatch × Option Nat) :=
  match w.phase with
  | .calling [] => some ({ w with phase := .idle }, none)
  | .calling (id :: left) => some ({ w with phase := .calling left }, some id)
  | _ => none

end State

/-- What can happen. -/
inductive Action where
  | subscribe (root : Path) (starts : Bool)
  | beginRelease (sub : Subscription)
  | finishRelease (sub : Subscription)
  | hear (root : Path) (e : Event)
  | fail (root : Path)
  | take (root : Path)
  | elapse (root : Path)
  | call (root : Path)
  | callOrphan (index : Nat)
  | pass (time : Nat)
deriving DecidableEq, Repr, Inhabited

namespace State

/-- The state after an action, if it can happen. -/
def step? (s : State) : Action → Option State
  | .subscribe root starts => some (s.subscribe root starts).1
  | .beginRelease sub => if sub ∈ s.live then some (s.beginRelease sub) else none
  | .finishRelease sub => if sub ∈ s.leaving then some (s.finishRelease sub) else none
  | .hear root e => some (s.hear root e)
  | .fail root => some (s.fail root)
  | .take root => (s.watch? root).bind fun w => (s.taken? w).map fun w => s.modify root fun _ => w
  | .elapse root =>
    (s.watch? root).bind fun w => (s.elapsed? w).map fun w => s.modify root fun _ => w
  | .call root =>
    (s.watch? root).bind fun w =>
      (calledOne? w).map fun (w, id?) =>
        { s.modify root fun _ => w with called := id?.toList ++ s.called }
  | .callOrphan index =>
    match s.orphans[index]? with
    | none => none
    | some [] => some { s with orphans := s.orphans.eraseIdx index }
    | some (id :: left) =>
      some { s with orphans := s.orphans.set index left, called := id :: s.called }
  | .pass time => some { s with now := s.now + time }

/-- The state after several actions, if they can happen. -/
def run? (s : State) (actions : List Action) : Option State := actions.foldlM step? s

/-! ## Settling -/

/-- What the watcher of a root does next if nothing else happens. -/
def nextAction? (s : State) (root : Path) (w : RootWatch) : Option Action :=
  match w.phase with
  | .calling _ => some (.call root)
  | .idle => if w.pending = 0 then none else some (.take root)
  | .settling _ wake =>
    if w.pending ≠ 0 then some (.take root)
    else if s.now < wake then some (.pass (wake - s.now))
    else some (.elapse root)

/-- At most `fuel` steps of the watcher of a root. -/
def settleRootUpTo : Nat → State → Path → State
  | 0, s, _ => s
  | fuel + 1, s, root =>
    match (s.watch? root).bind (s.nextAction? root) with
    | none => s
    | some a =>
      match s.step? a with
      | none => s
      | some s => settleRootUpTo fuel s root

/-- The steps of all watchers until nothing is left to do. -/
def settle (s : State) : State :=
  s.roots.foldl (fun s (root, w) =>
    settleRootUpTo ((w.pending + 1) * (w.subscribers.length + 4)) s root) s

end State

end RefGraph.Watch
