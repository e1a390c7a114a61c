import SpatialDb.Lib.Bytes
import SpatialDb.Lib.InvertedIndex
import SpatialDb.Lib.Runs

/-!
# The publish/subscribe broker

Model of `cpp/net/pubsub/pubsub.cpp`.  The broker keeps its subscribers by
id, and for channels and for patterns an index from each name to the ids that
hold it.  Every call runs under the mutex.

The clean-up rules of the four calls differ.  `unsubscribe` and
`punsubscribe` with an empty name both erase the subscriber, but each only
takes its own kind of names out of the index; and `punsubscribe` of one
pattern never erases the subscriber.
-/

namespace SpatialDb.Net.PubSub

open Lib OrdMap

/-- `Subscriber`; a handler is known by a number. -/
structure Subscriber where
  id : UInt64
  handler : Nat
  channels : OrdSet Bytes
  patterns : OrdSet Bytes

/-- What `subscribers_[id]` makes for a new id. -/
def Subscriber.new : Subscriber := ⟨0, 0, OrdMap.empty, OrdMap.empty⟩

/-- `PubSubBroker`. -/
structure Broker where
  nextId : UInt64
  channelSubs : InvertedIndex Bytes UInt64
  patternSubs : InvertedIndex Bytes UInt64
  subscribers : OrdMap UInt64 Subscriber

namespace Broker

def empty : Broker := ⟨1, OrdMap.empty, OrdMap.empty, OrdMap.empty⟩

variable (b : Broker)

/-- `subscribers_[id]`, with the id and the handler stored. -/
def enter (handler : Nat) : Subscriber :=
  { (b.subscribers.get? b.nextId).getD Subscriber.new with id := b.nextId, handler := handler }

def subscribe (channel : Bytes) (handler : Nat) : UInt64 × Broker :=
  let sub := b.enter handler
  (b.nextId,
    { b with nextId := b.nextId + 1
             subscribers := b.subscribers.set b.nextId
               { sub with channels := sub.channels.set channel () }
             channelSubs := b.channelSubs.add channel b.nextId })

def psubscribe (pattern : Bytes) (handler : Nat) : UInt64 × Broker :=
  let sub := b.enter handler
  (b.nextId,
    { b with nextId := b.nextId + 1
             subscribers := b.subscribers.set b.nextId
               { sub with patterns := sub.patterns.set pattern () }
             patternSubs := b.patternSubs.add pattern b.nextId })

def unsubscribe (id : UInt64) (channel : Bytes) : Broker :=
  match b.subscribers.get? id with
  | none => b
  | some sub =>
    if channel = [] then
      { b with channelSubs := sub.channels.keys.foldl (fun ix ch => ix.drop ch id) b.channelSubs
               subscribers := b.subscribers.delete id }
    else
      let sub := { sub with channels := sub.channels.delete channel }
      { b with channelSubs := b.channelSubs.drop channel id
               subscribers :=
                 if sub.channels.keys = [] ∧ sub.patterns.keys = [] then b.subscribers.delete id
                 else b.subscribers.set id sub }

def punsubscribe (id : UInt64) (pattern : Bytes) : Broker :=
  match b.subscribers.get? id with
  | none => b
  | some sub =>
    if pattern = [] then
      { b with patternSubs := sub.patterns.keys.foldl (fun ix p => ix.drop p id) b.patternSubs
               subscribers := b.subscribers.delete id }
    else
      { b with patternSubs := b.patternSubs.drop pattern id
               subscribers :=
                 b.subscribers.set id { sub with patterns := sub.patterns.delete pattern } }

/-! ## Agreement -/

/-- A live subscriber `id` holds `name`, among its channels or its patterns. -/
def Held (names : Subscriber → OrdSet Bytes) (subscribers : OrdMap UInt64 Subscriber)
    (id : UInt64) (name : Bytes) : Prop :=
  ∃ sub, subscribers.get? id = some sub ∧ name ∈ (names sub).keys

/-- The indexes list exactly what the live subscribers hold, without empty
entries, and no live subscriber holds nothing. -/
structure Agrees (b : Broker) : Prop where
  channels : b.channelSubs.Inverts (Held Subscriber.channels b.subscribers)
  patterns : b.patternSubs.Inverts (Held Subscriber.patterns b.subscribers)
  holds : ∀ id sub, b.subscribers.get? id = some sub →
    sub.channels.keys ≠ [] ∨ sub.patterns.keys ≠ []

variable {names : Subscriber → OrdSet Bytes} {subscribers : OrdMap UInt64 Subscriber}

variable {id : UInt64} {sub : Subscriber} {b : Broker} {ix : InvertedIndex Bytes UInt64}

theorem held_iff_of_get? (h : subscribers.get? id = some sub) (name : Bytes) :
    Held names subscribers id name ↔ name ∈ (names sub).keys := by
  constructor
  · rintro ⟨sub', hsub', hname⟩
    rwa [Option.some.inj (hsub'.symm.trans h)] at hname
  · exact fun hname => ⟨sub, h, hname⟩

theorem held_set (id : UInt64) (sub : Subscriber) (id' : UInt64) (name : Bytes) :
    Held names (subscribers.set id sub) id' name ↔
      if id' = id then name ∈ (names sub).keys else Held names subscribers id' name := by
  split_ifs with heq
  · exact held_iff_of_get? (heq ▸ get?_set_self _ _ _) name
  · rw [Held, get?_set_ne _ _ heq]
    rfl

theorem held_delete (id id' : UInt64) (name : Bytes) :
    Held names (subscribers.delete id) id' name ↔ Held names subscribers id' name ∧ id' ≠ id := by
  by_cases hid : id' = id
  · subst hid
    simp [Held]
  · rw [Held, get?_delete_ne _ hid]
    simp [Held, hid]

/-- What the subscriber in hand holds is what its id holds. -/
theorem held_enter (b : Broker) (handler : Nat) (hnew : names Subscriber.new = OrdMap.empty)
    (hnames : ∀ sub id handler, names { sub with id := id, handler := handler } = names sub)
    (name : Bytes) :
    Held names b.subscribers b.nextId name ↔ name ∈ (names (b.enter handler)).keys := by
  rw [enter, hnames]
  cases hget : b.subscribers.get? b.nextId with
  | none => simp [Held, hget, hnew]
  | some sub => exact held_iff_of_get? hget name

section Update

variable {ix : InvertedIndex Bytes UInt64} {held : UInt64 → Bytes → Prop} {id : UInt64}

variable {sub : Subscriber}

/-- An index that is right for `sub` under `id` and for the other ids is the
index of the updated subscribers. -/
theorem inverts_set (h : ix.Inverts held) (hself : ∀ name, held id name ↔ name ∈ (names sub).keys)
    (hother : ∀ id' name, id' ≠ id → (held id' name ↔ Held names subscribers id' name)) :
    ix.Inverts (Held names (subscribers.set id sub)) := by
  refine h.congr fun id' name => ?_
  rw [held_set]
  split_ifs with heq
  · rw [heq, hself]
  · exact hother id' name heq

/-- The index to which `name` is added is right for the subscriber that now
holds it as well. -/
theorem inverts_add {before : OrdSet Bytes} {name : Bytes} (h : ix.Inverts (Held names subscribers))
    (hself : ∀ name', Held names subscribers id name' ↔ name' ∈ before.keys)
    (hnames : names sub = before.set name ()) :
    (ix.add name id).Inverts (Held names (subscribers.set id sub)) := by
  refine inverts_set (h.add name id) (fun name' => ?_) fun id' name' hne => ?_
  · rw [hself, hnames, mem_keys_set]
    simp [or_comm]
  · simp [hne]

/-- An index of names that the subscriber keeps needs no change. -/
theorem inverts_keep {sub' : Subscriber} (hget : subscribers.get? id = some sub)
    (h : ix.Inverts (Held names subscribers)) (hnames : names sub' = names sub) :
    ix.Inverts (Held names (subscribers.set id sub')) := by
  refine inverts_set h (fun name => ?_) fun _ _ _ => Iff.rfl
  rw [held_iff_of_get? hget, hnames]

theorem inverts_delete (h : ix.Inverts held) (hself : ∀ name, ¬ held id name)
    (hother : ∀ id' name, id' ≠ id → (held id' name ↔ Held names subscribers id' name)) :
    ix.Inverts (Held names (subscribers.delete id)) := by
  refine h.congr fun id' name => ?_
  rw [held_delete]
  by_cases hid : id' = id
  · rw [hid]
    exact iff_of_false (hself name) fun hboth => hboth.2 rfl
  · rw [hother id' name hid]
    exact (and_iff_left hid).symm

/-- An index that is not told of an erased subscriber stays right exactly if
the subscriber held nothing. -/
theorem inverts_delete_iff (hget : subscribers.get? id = some sub)
    (h : ix.Inverts (Held names subscribers)) :
    ix.Inverts (Held names (subscribers.delete id)) ↔ (names sub).keys = [] := by
  constructor
  · intro hafter
    refine List.eq_nil_iff_forall_not_mem.mpr fun name hname => ?_
    have hheld := (h.unique hafter id name).mp ((held_iff_of_get? hget name).mpr hname)
    exact ((held_delete id id name).mp hheld).2 rfl
  · intro hnil
    refine inverts_delete h (fun name => ?_) fun _ _ _ => Iff.rfl
    rw [held_iff_of_get? hget, hnil]
    exact List.not_mem_nil

end Update

/-- Every other subscriber still holds something. -/
theorem holds_set (id : UInt64) (sub : Subscriber)
    (h : ∀ id sub, subscribers.get? id = some sub →
      sub.channels.keys ≠ [] ∨ sub.patterns.keys ≠ []) :
    (∀ id' sub', (subscribers.set id sub).get? id' = some sub' →
      sub'.channels.keys ≠ [] ∨ sub'.patterns.keys ≠ []) ↔
    sub.channels.keys ≠ [] ∨ sub.patterns.keys ≠ [] := by
  constructor
  · intro hafter
    exact hafter id sub (get?_set_self _ _ _)
  · exact forall_get?_set h

theorem keys_set_ne_nil (held : OrdSet Bytes) (name : Bytes) : (held.set name ()).keys ≠ [] :=
  List.ne_nil_of_mem ((mem_keys_set held name () name).mpr (.inl rfl))

/-! ## The four calls -/

theorem subscribe_agrees (h : b.Agrees) (channel : Bytes) (handler : Nat) :
    (b.subscribe channel handler).2.Agrees where
  channels := inverts_add h.channels (held_enter b handler rfl fun _ _ _ => rfl) rfl
  patterns := inverts_set h.patterns (held_enter b handler rfl fun _ _ _ => rfl)
    fun _ _ _ => Iff.rfl
  holds := (holds_set _ _ h.holds).mpr (.inl (keys_set_ne_nil _ channel))

theorem psubscribe_agrees (h : b.Agrees) (pattern : Bytes) (handler : Nat) :
    (b.psubscribe pattern handler).2.Agrees where
  channels := inverts_set h.channels (held_enter b handler rfl fun _ _ _ => rfl)
    fun _ _ _ => Iff.rfl
  patterns := inverts_add h.patterns (held_enter b handler rfl fun _ _ _ => rfl) rfl
  holds := (holds_set _ _ h.holds).mpr (.inr (keys_set_ne_nil _ pattern))

/-- The index whose names are all dropped for `id` is right without it. -/
theorem inverts_dropAll (hget : subscribers.get? id = some sub)
    (h : ix.Inverts (Held names subscribers)) :
    ((names sub).keys.foldl (fun ix name => ix.drop name id) ix).Inverts
      (Held names (subscribers.delete id)) := by
  refine inverts_delete (h.dropAll (names sub).keys id) (fun name => ?_) fun id' name hne => ?_
  · rw [held_iff_of_get? hget]
    simp
  · simp [hne]

/-- The index from which `name` is dropped is right for the subscriber that
no longer holds it. -/
theorem inverts_drop {sub' : Subscriber} (hget : subscribers.get? id = some sub)
    (h : ix.Inverts (Held names subscribers)) {name : Bytes}
    (hnames : names sub' = (names sub).delete name) :
    (ix.drop name id).Inverts (Held names (subscribers.set id sub')) := by
  refine inverts_set (h.drop name id) (fun name' => ?_) fun id' name' hne => ?_
  · rw [held_iff_of_get? hget, hnames, mem_keys_delete]
    simp
  · simp [hne]

/-- A subscriber that holds nothing may be erased. -/
theorem inverts_delete_of_set (h : ix.Inverts (Held names (subscribers.set id sub)))
    (hnil : (names sub).keys = []) :
    ix.Inverts (Held names (subscribers.delete id)) := by
  refine inverts_delete h (fun name => ?_) fun id' name hne => ?_
  · rw [held_set, if_pos rfl, hnil]
    exact List.not_mem_nil
  · rw [held_set, if_neg hne]

theorem unsubscribe_agrees_iff (h : b.Agrees) (id : UInt64) (channel : Bytes) :
    (b.unsubscribe id channel).Agrees ↔
      (channel = [] → ∀ sub, b.subscribers.get? id = some sub → sub.patterns.keys = []) := by
  unfold unsubscribe
  cases hget : b.subscribers.get? id with
  | none => exact iff_of_true h fun _ _ hsub => by cases hsub
  | some sub =>
    by_cases hname : channel = []
    · simp only [if_pos hname]
      have hpatterns := inverts_delete_iff hget h.patterns
      constructor
      · intro hafter _ sub' hsub'
        cases hsub'
        exact hpatterns.mp hafter.patterns
      · intro hnil
        exact ⟨inverts_dropAll hget h.channels, hpatterns.mpr (hnil hname sub rfl),
          forall_get?_delete h.holds _⟩
    simp only [if_neg hname]
    refine iff_of_true ?_ fun hnil => absurd hnil hname
    have hchannels : (b.channelSubs.drop channel id).Inverts (Held Subscriber.channels
        (b.subscribers.set id { sub with channels := sub.channels.delete channel })) :=
      inverts_drop hget h.channels rfl
    have hpatterns : b.patternSubs.Inverts (Held Subscriber.patterns
        (b.subscribers.set id { sub with channels := sub.channels.delete channel })) :=
      inverts_keep hget h.patterns rfl
    split_ifs with hnone
    · exact ⟨inverts_delete_of_set hchannels hnone.1, inverts_delete_of_set hpatterns hnone.2,
        forall_get?_delete h.holds _⟩
    · exact ⟨hchannels, hpatterns, (holds_set _ _ h.holds).mpr (not_and_or.mp hnone)⟩

theorem punsubscribe_agrees_iff (h : b.Agrees) (id : UInt64) (pattern : Bytes) :
    (b.punsubscribe id pattern).Agrees ↔ ∀ sub, b.subscribers.get? id = some sub →
      if pattern = [] then sub.channels.keys = []
      else sub.channels.keys ≠ [] ∨ (sub.patterns.delete pattern).keys ≠ [] := by
  unfold punsubscribe
  cases hget : b.subscribers.get? id with
  | none => exact iff_of_true h fun _ hsub => by cases hsub
  | some sub =>
    by_cases hname : pattern = []
    · simp only [if_pos hname]
      have hchannels := inverts_delete_iff hget h.channels
      constructor
      · intro hafter sub' hsub'
        cases hsub'
        exact hchannels.mp hafter.channels
      · intro hnil
        exact ⟨hchannels.mpr (hnil sub rfl), inverts_dropAll hget h.patterns,
          forall_get?_delete h.holds _⟩
    simp only [if_neg hname]
    have hholds := holds_set id { sub with patterns := sub.patterns.delete pattern } h.holds
    constructor
    · intro hafter sub' hsub'
      cases hsub'
      exact hholds.mp hafter.holds
    · intro hleft
      exact ⟨inverts_keep hget h.channels rfl, inverts_drop hget h.patterns rfl,
        hholds.mpr (hleft sub rfl)⟩

theorem agrees_empty : empty.Agrees where
  channels := InvertedIndex.Inverts.empty.congr fun _ _ => by simp [Held, empty]
  patterns := InvertedIndex.Inverts.empty.congr fun _ _ => by simp [Held, empty]
  holds := fun _ _ hget => by cases hget

end Broker

/-! ## Sequences of calls -/

inductive Op where
  | subscribe (channel : Bytes) (handler : Nat)
  | psubscribe (pattern : Bytes) (handler : Nat)
  | unsubscribe (id : UInt64) (channel : Bytes)
  | punsubscribe (id : UInt64) (pattern : Bytes)

def Op.apply (b : Broker) : Op → Broker
  | .subscribe channel handler => (b.subscribe channel handler).2
  | .psubscribe pattern handler => (b.psubscribe pattern handler).2
  | .unsubscribe id channel => b.unsubscribe id channel
  | .punsubscribe id pattern => b.punsubscribe id pattern

/-- Giving up all names of one kind is for subscribers without names of the
other kind, and giving up a pattern for those that still hold something. -/
def Op.Clean (b : Broker) : Op → Prop
  | .subscribe _ _ => True
  | .psubscribe _ _ => True
  | .unsubscribe id channel =>
    channel = [] → ∀ sub, b.subscribers.get? id = some sub → sub.patterns.keys = []
  | .punsubscribe id pattern => ∀ sub, b.subscribers.get? id = some sub →
      if pattern = [] then sub.channels.keys = []
      else sub.channels.keys ≠ [] ∨ (sub.patterns.delete pattern).keys ≠ []

theorem apply_agrees_iff (b : Broker) (op : Op) (h : b.Agrees) :
    (op.apply b).Agrees ↔ op.Clean b := by
  cases op with
  | subscribe channel handler => exact iff_of_true (b.subscribe_agrees h channel handler) trivial
  | psubscribe pattern handler => exact iff_of_true (b.psubscribe_agrees h pattern handler) trivial
  | unsubscribe id channel => exact b.unsubscribe_agrees_iff h id channel
  | punsubscribe id pattern => exact b.punsubscribe_agrees_iff h id pattern

/-- The sequences of calls after each of which the indexes agree with the
subscribers. -/
theorem run_agrees_iff (ops : List Op) :
    Always Op.apply Broker.Agrees Broker.empty ops ↔
      AtEach Op.apply (fun b op => op.Clean b) Broker.empty ops :=
  always_iff apply_agrees_iff Broker.agrees_empty ops

/-- A pattern subscriber that unsubscribes from all channels. -/
def allChannels : List Op := [.psubscribe (lit "news.*") 0, .unsubscribe 1 []]

/-- It is gone, but the pattern still lists its id. -/
theorem unsubscribe_leaves_pattern :
    (allChannels.foldl Op.apply Broker.empty).subscribers.get? 1 = none ∧
    1 ∈ ((allChannels.foldl Op.apply Broker.empty).patternSubs.holders (lit "news.*")).keys ∧
    ¬ (allChannels.foldl Op.apply Broker.empty).Agrees := by
  have hgone : (allChannels.foldl Op.apply Broker.empty).subscribers.get? 1 = none := by rfl
  have hlisted : 1 ∈ ((allChannels.foldl Op.apply Broker.empty).patternSubs.holders
      (lit "news.*")).keys := by decide
  refine ⟨hgone, hlisted, fun h => ?_⟩
  obtain ⟨sub, hsub, -⟩ := (h.patterns.listed 1 (lit "news.*")).mp hlisted
  rw [hgone] at hsub
  cases hsub

end SpatialDb.Net.PubSub
