import IChat.Firebase.Repo

/-!
# Observing

What `FIRDatabaseQuery.m` and `FIRDatabaseReference.m` make of the program's calls. An observer
takes a new handle; its registration, its removal and a write are blocks on the queue of the client
(`sharedQueue`), which runs them in order, between the messages of the server. The events that are
raised are blocks on the main queue, which runs them in order too (`FEventRaiser.m`). An observer
for a single event has itself removed at its first event and ignores all others.

Only value events are observed, without cancel blocks.
-/

namespace Firebase

/-- A block that observes a location. -/
structure Observer where
  handle : Nat
  path : Path
  /-- `observeSingleEventOfType:`. -/
  single : Bool

/-- The client as the program sees it. -/
structure Client where
  repo : Repo
  /-- `LUIDGenerator`. -/
  localUid : Nat
  observers : List Observer
  /-- The blocks that `sharedQueue` has not run. -/
  sharedQueue : List RepoEvent
  /-- The number of events whose blocks the main queue has run. -/
  fired : Nat
  /-- The events that were passed to the program. -/
  calls : List DataEvent

/-- What happens on the queues. -/
inductive ClientEvent where
  | observe (path : Path) (single : Bool)
  | setValue (path : Path) (newData : FNode)
  /-- `sharedQueue` runs its next block. -/
  | runBlock
  /-- A message of the server. -/
  | message (e : RepoEvent)
  /-- The main queue runs the block of the next event. -/
  | fireEvent

/-- Whether it is the server that sends it. -/
def RepoEvent.isMessage : RepoEvent → Bool
  | .putResponse _ _ | .onDataUpdate _ _ | .onDataMerge _ _ | .listenResponse _ _ => true
  | _ => false

namespace Client

def init : Client := ⟨Repo.init, 0, [], [], 0, []⟩

/-- `observeEventType:withBlock:` and `observeSingleEventOfType:withBlock:`. -/
def observe (c : Client) (path : Path) (single : Bool) : Client :=
  { c with
    localUid := c.localUid + 1
    observers := c.observers ++ [⟨c.localUid, path, single⟩]
    sharedQueue := c.sharedQueue ++ [.addEventRegistration c.localUid path] }

/-- `setValue:`. -/
def setValue (c : Client) (path : Path) (newData : FNode) : Client :=
  { c with sharedQueue := c.sharedQueue ++ [.set path newData] }

/-- The observer with a handle. -/
def observer (c : Client) (handle : Nat) : Option Observer :=
  c.observers.find? fun o => o.handle == handle

/-- `firstCall`. -/
def firstCall (c : Client) (handle : Nat) : Bool :=
  !(c.calls.any fun e => e.eventRegistration == handle)

/-- `removeObserverWithHandle:`. -/
def removeObserver (c : Client) (o : Observer) : Client :=
  { c with sharedQueue := c.sharedQueue ++ [.removeEventRegistration (some o.handle) o.path] }

/-- `fireEvent:queue:`, and the block of `observeSingleEventOfType:` around the program's: the event
that the program gets. -/
def fireEvent (c : Client) : Client × Option DataEvent :=
  match c.repo.raised[c.fired]? with
  | none => (c, none)
  | some e =>
    let c := { c with fired := c.fired + 1 }
    match c.observer e.eventRegistration with
    | none => (c, none)
    | some o =>
      if !o.single then ({ c with calls := c.calls ++ [e] }, some e)
      else if c.firstCall o.handle then
        ({ c.removeObserver o with calls := c.calls ++ [e] }, some e)
      else (c, none)

/-- A block or a message on `sharedQueue`. -/
def onRepo (c : Client) (e : RepoEvent) : Option Client :=
  (c.repo.step e).map fun repo => { c with repo }

def step (c : Client) : ClientEvent → Option Client
  | .observe path single => some (c.observe path single)
  | .setValue path newData => some (c.setValue path newData)
  | .runBlock =>
    match c.sharedQueue with
    | [] => some c
    | e :: sharedQueue => { c with sharedQueue }.onRepo e
  | .message e => if e.isMessage then c.onRepo e else some c
  | .fireEvent => some c.fireEvent.1

end Client

end Firebase
