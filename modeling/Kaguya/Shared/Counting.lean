import Kaguya.Lib.Handles

/-!
# Shared ownership

`shared.jh`: a value with a count of strong handles and a count of weak ones, where all strong
handles together hold one of the weak count. Every atomic operation is a step, and the steps of any
number of threads interleave. A thread is described by the handles it owns and by where it stands in
an operation.
-/

namespace Kaguya.Shared

/-- The count at which `clone`, `downgrade` and `upgrade` panic. -/
def LIMIT : Nat := 0x7fffffffffffffff

/-- Where a thread stands between two operations on the counts: in `drop`, with the value's
destructor running, before the weak count is given back, or before the storage is freed; in
`upgrade`, before the strong count is loaded, or before it is swapped. -/
inductive Point
  | idle
  | destroying
  | releasing
  | freeing
  | loading
  | swapping (count : Nat)
deriving DecidableEq, Repr

structure Thread where
  strong : Nat
  weak : Nat
  point : Point
deriving DecidableEq, Repr

/-- `Inner` with the threads that own handles to it. How often the value's destructor was started
and finished, the strong handles' weak count given back and the storage freed is recorded beside it.
-/
structure World (n : Nat) where
  references : Nat
  weak : Nat
  threads : Fin n → Thread
  destroyed : Nat
  finished : Nat
  released : Nat
  freed : Nat
  panicked : Bool

inductive Action (n : Nat)
  | clone (t : Fin n)
  | downgrade (t : Fin n)
  | drop (t : Fin n)
  | deref (t : Fin n)
  | upgrade (t : Fin n)
  | strongCount (t : Fin n)
  | cloneWeak (t : Fin n)
  | dropWeak (t : Fin n)
  | give (t receiver : Fin n)
  | giveWeak (t receiver : Fin n)
  | advance (t : Fin n)

namespace World

variable {n : Nat}

def new (owner : Fin n) : World n where
  references := 1
  weak := 1
  threads := Function.update (fun _ => ⟨0, 0, .idle⟩) owner ⟨1, 0, .idle⟩
  destroyed := 0
  finished := 0
  released := 0
  freed := 0
  panicked := false

variable (world : World n) (t : Fin n)

def setThread (thread : Thread) : World n :=
  { world with threads := Function.update world.threads t thread }

def goTo (point : Point) : World n :=
  world.setThread t { world.threads t with point }

def addWeak : World n :=
  let old := world.weak
  let world := { world with weak := addOne old }
  if old ≥ LIMIT then { world with panicked := true }
  else world.setThread t { world.threads t with weak := (world.threads t).weak + 1 }

/-- `atomic_sub` from the weak count; whoever takes the last one frees the storage. -/
def subWeak : World n :=
  let old := world.weak
  let world := { world with weak := subOne old }
  if old = 1 then world.goTo t .freeing else world.goTo t .idle

def clone : World n :=
  let old := world.references
  let world := { world with references := addOne old }
  if old ≥ LIMIT then { world with panicked := true }
  else world.setThread t { world.threads t with strong := (world.threads t).strong + 1 }

def drop : World n :=
  let old := world.references
  let world := { world with references := subOne old }.setThread t
    { world.threads t with strong := (world.threads t).strong - 1 }
  if old = 1 then { world.goTo t .destroying with destroyed := world.destroyed + 1 } else world

def dropWeak : World n :=
  (world.setThread t { world.threads t with weak := (world.threads t).weak - 1 }).subWeak t

def give (t receiver : Fin n) : World n :=
  let world := world.setThread t
    { world.threads t with strong := (world.threads t).strong - 1 }
  world.setThread receiver
    { world.threads receiver with strong := (world.threads receiver).strong + 1 }

def giveWeak (t receiver : Fin n) : World n :=
  let world := world.setThread t { world.threads t with weak := (world.threads t).weak - 1 }
  world.setThread receiver
    { world.threads receiver with weak := (world.threads receiver).weak + 1 }

def advance : World n :=
  match (world.threads t).point with
  | .idle => world
  | .destroying => { world.goTo t .releasing with finished := world.finished + 1 }
  | .releasing => { world.subWeak t with released := world.released + 1 }
  | .freeing => { world.goTo t .idle with freed := world.freed + 1 }
  | .loading =>
    let count := world.references
    if count = 0 then world.goTo t .idle
    else if count ≥ LIMIT then { world with panicked := true }
    else world.goTo t (.swapping count)
  | .swapping count =>
    if world.references = count then
      { world with references := addOne count }.setThread t
        ⟨(world.threads t).strong + 1, (world.threads t).weak, .idle⟩
    else world.goTo t .loading

def Allows : Action n → Prop
  | .clone t | .downgrade t | .drop t | .deref t | .give t _ =>
    world.panicked = false ∧ (world.threads t).point = .idle ∧ 0 < (world.threads t).strong
  | .upgrade t | .strongCount t | .cloneWeak t | .dropWeak t | .giveWeak t _ =>
    world.panicked = false ∧ (world.threads t).point = .idle ∧ 0 < (world.threads t).weak
  | .advance t => world.panicked = false ∧ (world.threads t).point ≠ .idle

instance : DecidablePred world.Allows
  | .clone _ | .downgrade _ | .drop _ | .deref _ | .give _ _ =>
    inferInstanceAs (Decidable (_ ∧ _))
  | .upgrade _ | .strongCount _ | .cloneWeak _ | .dropWeak _ | .giveWeak _ _ =>
    inferInstanceAs (Decidable (_ ∧ _))
  | .advance _ => inferInstanceAs (Decidable (_ ∧ _))

def perform : Action n → World n
  | .clone t => world.clone t
  | .downgrade t | .cloneWeak t => world.addWeak t
  | .drop t => world.drop t
  | .deref _ | .strongCount _ => world
  | .upgrade t => world.goTo t .loading
  | .dropWeak t => world.dropWeak t
  | .give t receiver => world.give t receiver
  | .giveWeak t receiver => world.giveWeak t receiver
  | .advance t => world.advance t

def step (action : Action n) : World n :=
  if world.Allows action then world.perform action else world

def run (actions : List (Action n)) : World n := actions.foldl step world

def Touches (action : Action n) : Prop :=
  world.Allows action ∧ match action with
    | .upgrade _ | .give .. | .giveWeak .. => False
    | _ => True

def strongHandles : Nat := tally Thread.strong world.threads

def weakHandles : Nat := tally Thread.weak world.threads

def Few : Prop := world.strongHandles + world.weakHandles < 2 ^ 62

instance : Decidable world.Few := inferInstanceAs (Decidable (_ < _))

def FewRun (world : World n) : List (Action n) → Prop
  | [] => world.Few
  | action :: actions => world.Few ∧ (world.step action).FewRun actions

def Reached (owner : Fin n) (world : World n) : Prop :=
  ∃ actions, (new owner).FewRun actions ∧ (new owner).run actions = world

end World

end Kaguya.Shared
