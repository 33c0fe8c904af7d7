import DistRes.Lib.Dict
import DistRes.Protocol

/-!
# The broker (`pubsub.py`)

The registry of subscribers and its three operations.  `subscribe` and `unsubscribe` are one step
each under the broker's lock.  `publish` takes a snapshot of the registry under the lock and then
hands the event to every entry of the snapshot, one step each, outside it; an entry whose delivery
raises is unsubscribed in a step of its own.
-/

namespace DistRes

open Lib

/-- The registry of a `PubSubBroker`: callbacks `C` by subscriber id. -/
abbrev PubSubBroker (C : Type) := Dict Text C

section Broker

variable {C : Type}

def PubSubBroker.subscribe (b : PubSubBroker C) (subscriberId : Text) (deliver : C) :
    PubSubBroker C :=
  b.set subscriberId deliver

def PubSubBroker.unsubscribe (b : PubSubBroker C) (subscriberId : Text) : PubSubBroker C :=
  b.pop subscriberId

end Broker

/-- Where a thread is in `publish`.  `todo` is the part of the snapshot it has not come to yet. -/
inductive PublishPc (C : Type)
  | snapshot (topic : Text) (payload : Update)
  | deliver (event : Event) (todo : List (Text × C)) (delivered : ℕ)
  | drop (subscriberId : Text) (event : Event) (todo : List (Text × C)) (delivered : ℕ)
  | done (delivered : ℕ)

/-- A step of `publish`; `ok` says whether the delivery of the step returns.  The third component is
the delivery that the step makes. -/
def publish {C : Type} (b : PubSubBroker C) (ok : Bool) :
    PublishPc C → Option (PubSubBroker C × PublishPc C × Option (C × Event))
  | .snapshot topic payload => some (b, .deliver ⟨topic, payload⟩ b.items 0, none)
  | .deliver event ((u, deliver) :: todo) n =>
    if ok then some (b, .deliver event todo (n + 1), some (deliver, event))
    else some (b, .drop u event todo n, none)
  | .deliver _ [] n => some (b, .done n, none)
  | .drop u event todo n => some (b.unsubscribe u, .deliver event todo n, none)
  | .done _ => none

end DistRes
